import Generics.Lists
import Generics.Proofs.Capability.Supertraits
import Generics.Proofs.Evaluation
import Mathlib.Data.List.Chain
import Mathlib.Data.List.Nodup
import Mathlib.Logic.Relation
import Mathlib.Order.RelClasses

/-!
# The walk over supertraits

The supertraits of a capability are collected with a stack of names that are still to be visited,
each with its depth. One turn of the walk takes a name from the top. A name that was visited before
is dropped; any other is visited, and its supertraits are put on top in its place.

Here the walk is compared with the recursive traversal that it stands for. The module introduces:

* `Walk` and `Turn`: a walk under way, and what one turn makes of it;
* `Ends`: a walk that can take no turn, and what comes of it;
* `Preorder`: the recursive traversal, which visits a capability, then everything below its
  supertraits in order of declaration, and only then goes on;
* `IsChain`: capabilities that each name the next one as a supertrait, all of them different.

## Main results

* `wellFounded_turn`: every walk ends, also in a hierarchy with cycles;
* `exists_turns_supertraits` and `supertraits_eq_of_turns`: what is collected is what the walk ends
  with;
* `Preorder.unique` and `preorder_of_followSupertraits`: the walk lists the capabilities in the
  order of the recursive traversal;
* `Tracked.turn`: the stack always holds the ends of chains from the first capability;
* `supertraits_traversal`: when collecting supertraits succeeds and with what, and why it fails.
-/

namespace Generics

namespace Catalog

/-! ## Turns -/

/-- A walk over supertraits under way. -/
structure Walk where
  /-- The names visited so far, the latest first. -/
  visited : List String
  /-- The names still to be visited, each with the number of steps that lead to it. -/
  pending : List (String × Nat)

/-- The walk that starts at a capability. -/
def Walk.start (cap : Capability) : Walk := ⟨[cap.name], cap.supertraits.map (·, 1)⟩

/-- One turn of a walk. -/
inductive Turn (c : Catalog) : Walk → Walk → Prop
  /-- A name that was visited before is dropped. -/
  | skip {visited : List String} {name : String} {depth : Nat} {pending : List (String × Nat)}
      (hmem : name ∈ visited) : Turn c ⟨visited, (name, depth) :: pending⟩ ⟨visited, pending⟩
  /-- Any other name is visited, and its supertraits are next. -/
  | visit {visited : List String} {name : String} {depth : Nat} {pending : List (String × Nat)}
      {cap : Capability} (hnew : name ∉ visited) (hdepth : depth ≤ maxSupertraitDepth)
      (hfind : c.find? name = some cap) :
      Turn c ⟨visited, (name, depth) :: pending⟩
        ⟨name :: visited, cap.supertraits.map (·, depth + 1) ++ pending⟩

/-- A walk from `root` that can take no turn, and its outcome. The names in `before` were visited
when it started. -/
inductive Ends (c : Catalog) (root : String) (before : List String) :
    Walk → Except Error (List String) → Prop
  /-- Nothing is left to be visited. -/
  | done (names : List String) : Ends c root before ⟨names.reverse ++ before, []⟩ (.ok names)
  /-- The next name is too far away. -/
  | tooDeep {visited : List String} {name : String} {depth : Nat} {pending : List (String × Nat)}
      (hnew : name ∉ visited) (hdepth : maxSupertraitDepth < depth) :
      Ends c root before ⟨visited, (name, depth) :: pending⟩
        (.error (.recursionDepthExceeded root maxSupertraitDepth []))
  /-- The next name is not declared. -/
  | unknown {visited : List String} {name : String} {depth : Nat} {pending : List (String × Nat)}
      (hnew : name ∉ visited) (hdepth : depth ≤ maxSupertraitDepth)
      (hfind : c.find? name = none) :
      Ends c root before ⟨visited, (name, depth) :: pending⟩ (.error (.capabilityNotFound name))

/-- How many declared capabilities a walk has not visited, and how many names are on its stack. -/
def Walk.measure (c : Catalog) (w : Walk) : Nat × Nat :=
  (c.capabilities.countP fun cap => cap.name ∉ w.visited, w.pending.length)

/-- A turn visits one more capability, or leaves one name less on the stack. -/
theorem Turn.measure_lt {c : Catalog} {w w' : Walk} (h : c.Turn w w') :
    Prod.Lex (· < ·) (· < ·) (w'.measure c) (w.measure c) := by
  cases h with
  | skip hmem => exact Prod.Lex.right _ (Nat.lt_succ_self _)
  | @visit visited name depth pending cap hnew _ hfind =>
    refine Prod.Lex.left _ _ (countP_lt_countP (fun cap _ hcap => ?_) ⟨cap, ?_, ?_⟩)
    · simp only [List.mem_cons, not_or, decide_eq_true_eq] at hcap ⊢
      exact hcap.2
    · exact List.mem_of_find?_eq_some hfind
    · simpa [find?_name hfind] using hnew

/-- Every walk ends, whatever the hierarchy. -/
theorem wellFounded_turn (c : Catalog) : WellFounded fun w' w => c.Turn w w' :=
  Subrelation.wf Turn.measure_lt
    (InvImage.wf (Walk.measure c) (WellFounded.prod_lex Nat.lt_wfRel.wf Nat.lt_wfRel.wf))

/-- There is at most one turn to take. -/
theorem Turn.unique {c : Catalog} {w w₁ w₂ : Walk} (h₁ : c.Turn w w₁) (h₂ : c.Turn w w₂) :
    w₁ = w₂ := by
  cases h₁ with
  | skip hmem =>
    cases h₂ with
    | skip => rfl
    | visit hnew => exact absurd hmem hnew
  | visit hnew _ hfind =>
    cases h₂ with
    | skip hmem => exact absurd hmem hnew
    | visit _ _ hfind' =>
      obtain rfl := Option.some.inj (hfind.symm.trans hfind')
      rfl

/-- A walk that has ended takes no turn. -/
theorem Ends.not_turn {c : Catalog} {root : String} {before : List String} {w w' : Walk}
    {outcome : Except Error (List String)} (h : c.Ends root before w outcome) : ¬ c.Turn w w' := by
  intro hturn
  cases h with
  | done => cases hturn
  | tooDeep hnew hdepth =>
    cases hturn with
    | skip hmem => exact hnew hmem
    | visit _ hdepth' => exact absurd hdepth' (Nat.not_le.mpr hdepth)
  | unknown hnew _ hfind =>
    cases hturn with
    | skip hmem => exact hnew hmem
    | visit _ _ hfind' => cases hfind.symm.trans hfind'

/-- A walk that has ended has one outcome. -/
theorem Ends.unique {c : Catalog} {root : String} {before : List String} {w : Walk}
    {outcome outcome' : Except Error (List String)} (h : c.Ends root before w outcome)
    (h' : c.Ends root before w outcome') : outcome = outcome' := by
  -- what was visited determines the list, and the depth tells the two errors apart
  generalize hw : w = w' at h'
  cases h with
  | done names =>
    cases h' with
    | done names' =>
      have hvisited := (Walk.mk.inj hw).1
      rw [List.append_cancel_right_eq, List.reverse_inj] at hvisited
      rw [hvisited]
    | tooDeep => cases (Walk.mk.inj hw).2
    | unknown => cases (Walk.mk.inj hw).2
  | tooDeep _ hdepth =>
    cases h' with
    | done => cases (Walk.mk.inj hw).2
    | tooDeep => rfl
    | unknown _ hdepth' =>
      cases hw
      exact absurd hdepth' (Nat.not_le.mpr hdepth)
  | unknown _ hdepth =>
    cases h' with
    | done => cases (Walk.mk.inj hw).2
    | tooDeep _ hdepth' =>
      cases hw
      exact absurd hdepth (Nat.not_le.mpr hdepth')
    | unknown =>
      cases hw
      rfl

/-- What is collected is what the walk ends with. -/
theorem exists_turns_followSupertraits {c : Catalog} {root : String} {visited : List String}
    {remaining : List Capability} {pending : List (String × Nat)}
    (hremains : c.Remains visited remaining) :
    ∃ w, Relation.ReflTransGen c.Turn ⟨visited, pending⟩ w ∧
      c.Ends root visited w (followSupertraits root visited remaining pending) := by
  fun_induction followSupertraits root visited remaining pending with
  | case1 visited remaining => exact ⟨_, .refl, .done []⟩
  | case2 visited remaining name depth pending hmem ih =>
    obtain ⟨w, hturns, hends⟩ := ih hremains
    exact ⟨w, .head (.skip hmem) hturns, hends⟩
  | case3 visited remaining name depth pending hnew hdepth =>
    exact ⟨_, .refl, .tooDeep hnew hdepth⟩
  | case4 visited remaining name depth pending hnew hdepth hfind =>
    exact ⟨_, .refl, .unknown hnew (Nat.le_of_not_lt hdepth) (hremains name hnew ▸ hfind)⟩
  | case5 visited remaining name depth pending hnew hdepth cap hfind _ ih =>
    have hcap : c.find? name = some cap := (hremains name hnew).symm.trans hfind
    obtain ⟨w, hturns, hends⟩ := ih (hremains.visit name)
    refine ⟨w, .head (.visit hnew (Nat.le_of_not_lt hdepth) hcap) hturns, ?_⟩
    -- the name visited here was visited before as far as the rest of the walk goes
    generalize followSupertraits root (name :: visited) _ _ = outcome at hends
    cases hends with
    | done names =>
      have hvisited : names.reverse ++ name :: visited = (name :: names).reverse ++ visited := by
        simp
      rw [hvisited]
      exact .done (name :: names)
    | tooDeep hnew hdepth => exact .tooDeep hnew hdepth
    | unknown hnew hdepth hfind => exact .unknown hnew hdepth hfind

/-! ## The recursive traversal -/

/-- The recursive traversal of some capabilities lists the last names, when the first ones were
visited before. A capability is listed in front of everything below it, and everything below it in
front of what comes next; a capability that was visited is passed over. -/
inductive Preorder (c : Catalog) : List String → List String → List String → Prop
  | nil (visited : List String) : Preorder c visited [] []
  | skip {visited : List String} {name : String} {names listed : List String}
      (hmem : name ∈ visited) (hrest : Preorder c visited names listed) :
      Preorder c visited (name :: names) listed
  | visit {visited : List String} {name : String} {names below rest : List String}
      {cap : Capability} (hnew : name ∉ visited) (hfind : c.find? name = some cap)
      (hbelow : Preorder c (name :: visited) cap.supertraits below)
      (hrest : Preorder c (below.reverse ++ name :: visited) names rest) :
      Preorder c visited (name :: names) (name :: (below ++ rest))

/-- There is one order only. -/
theorem Preorder.unique {c : Catalog} {visited names listed listed' : List String}
    (h : c.Preorder visited names listed) (h' : c.Preorder visited names listed') :
    listed = listed' := by
  induction h generalizing listed' with
  | nil visited =>
    cases h'
    rfl
  | skip hmem _ ih =>
    cases h' with
    | skip _ hrest' => exact ih hrest'
    | visit hnew _ _ _ => exact absurd hmem hnew
  | visit hnew hfind _ _ ihbelow ihrest =>
    cases h' with
    | skip hmem _ => exact absurd hmem hnew
    | visit _ hfind' hbelow' hrest' =>
      obtain rfl := Option.some.inj (hfind.symm.trans hfind')
      obtain rfl := ihbelow hbelow'
      rw [ihrest hrest']

/-- The traversal of two lists is that of the first one, and then that of the second. -/
theorem Preorder.exists_of_append {c : Catalog} {visited names more listed : List String}
    (h : c.Preorder visited (names ++ more) listed) :
    ∃ first rest, listed = first ++ rest ∧ c.Preorder visited names first ∧
      c.Preorder (first.reverse ++ visited) more rest := by
  induction names generalizing visited listed with
  | nil => exact ⟨[], listed, rfl, .nil visited, h⟩
  | cons name names ih =>
    cases h with
    | skip hmem hrest =>
      obtain ⟨first, rest, rfl, hfirst, hmore⟩ := ih hrest
      exact ⟨first, rest, rfl, .skip hmem hfirst, hmore⟩
    | @visit _ _ _ below _ cap hnew hfind hbelow hrest =>
      obtain ⟨first, rest, rfl, hfirst, hmore⟩ := ih hrest
      refine ⟨name :: (below ++ first), rest, by simp, .visit hnew hfind hbelow hfirst, ?_⟩
      simpa using hmore

/-- Nothing is listed twice, and nothing that was visited before is listed. -/
theorem Preorder.nodup {c : Catalog} {visited names listed : List String}
    (h : c.Preorder visited names listed) : listed.Nodup ∧ ∀ name ∈ listed, name ∉ visited := by
  induction h with
  | nil visited => simp
  | skip _ _ ih => exact ih
  | visit hnew _ _ _ ihbelow ihrest =>
    -- the name, what is below it and the rest are each apart from what was visited before them
    obtain ⟨hnodup, hapart⟩ := ihbelow
    obtain ⟨hnodup', hapart'⟩ := ihrest
    simp only [List.mem_cons, List.mem_append, List.mem_reverse, not_or] at hapart hapart'
    refine ⟨List.nodup_cons.mpr ⟨?_, List.nodup_append'.mpr ⟨hnodup, hnodup', ?_⟩⟩, ?_⟩
    · rw [List.mem_append, not_or]
      exact ⟨fun hmem => (hapart _ hmem).1 rfl, fun hmem => (hapart' _ hmem).2.1 rfl⟩
    · exact fun name hbelow hrest => (hapart' name hrest).1 hbelow
    · intro name hname
      rcases List.mem_cons.mp hname with rfl | hname
      · exact hnew
      rcases List.mem_append.mp hname with hbelow | hrest
      · exact (hapart name hbelow).2
      · exact (hapart' name hrest).2.2

/-- A walk that succeeds lists the capabilities in the order of the recursive traversal. -/
theorem preorder_of_followSupertraits {c : Catalog} {root : String} {visited : List String}
    {remaining : List Capability} {pending : List (String × Nat)} {names : List String}
    (hremains : c.Remains visited remaining)
    (h : followSupertraits root visited remaining pending = .ok names) :
    c.Preorder visited (pending.map Prod.fst) names := by
  fun_induction followSupertraits root visited remaining pending generalizing names with
  | case1 visited remaining =>
    obtain rfl := Except.ok.inj h
    exact .nil visited
  | case2 visited remaining name depth pending hmem ih => exact .skip hmem (ih hremains h)
  | case3 => cases h
  | case4 => cases h
  | case5 visited remaining name depth pending hnew hdepth cap hfind _ ih =>
    obtain ⟨rest, hrest, rfl⟩ := exists_ok_of_map_eq_ok h
    have hcap : c.find? name = some cap := (hremains name hnew).symm.trans hfind
    have hall := ih (hremains.visit name) hrest
    -- the supertraits lie on top of the stack, so the recursive traversal has them first
    have hnames : (cap.supertraits.map (·, depth + 1) ++ pending).map Prod.fst =
        cap.supertraits ++ pending.map Prod.fst := by
      simp [Function.comp_def]
    rw [hnames] at hall
    obtain ⟨below, more, rfl, hbelow, hmore⟩ := hall.exists_of_append
    exact .visit hnew hcap hbelow hmore

/-! ## Chains of supertraits -/

/-- Each of the capabilities is named as a supertrait by the one before it, the first one by `name`,
and no two of them are the same. -/
def IsChain (c : Catalog) (name : String) (chain : List String) : Prop :=
  (name :: chain).IsChain c.Requires ∧ (name :: chain).Nodup

/-- The name stands at the end of a chain from `root`, at the given depth. The capabilities on the
way were visited. -/
structure EndsChain (c : Catalog) (root : String) (visited : List String) (p : String × Nat) :
    Prop where
  reached : Relation.TransGen c.Requires root p.1
  chain : ∃ chain, (root :: (chain ++ [p.1])).IsChain c.Requires ∧ (root :: chain).Nodup ∧
    (∀ name ∈ root :: chain, name ∈ visited) ∧ chain.length + 1 = p.2

/-- With more names visited it still does. -/
theorem EndsChain.visit {c : Catalog} {root : String} {visited : List String} {p : String × Nat}
    (h : c.EndsChain root visited p) (name : String) : c.EndsChain root (name :: visited) p := by
  obtain ⟨hreached, chain, hchain, hnodup, hvisited, hlength⟩ := h
  have hmore : ∀ n ∈ root :: chain, n ∈ name :: visited := fun n hn =>
    List.mem_cons_of_mem name (hvisited n hn)
  exact ⟨hreached, chain, hchain, hnodup, hmore, hlength⟩

/-- A name that was not visited makes the chain longer. -/
theorem EndsChain.isChain {c : Catalog} {root : String} {visited : List String} {name : String}
    {depth : Nat} (h : c.EndsChain root visited (name, depth)) (hnew : name ∉ visited) :
    ∃ chain, c.IsChain root (chain ++ [name]) ∧ (∀ n ∈ root :: chain, n ∈ visited) ∧
      chain.length + 1 = depth := by
  obtain ⟨-, chain, hchain, hnodup, hvisited, hlength⟩ := h
  refine ⟨chain, ⟨hchain, ?_⟩, hvisited, hlength⟩
  rw [← List.cons_append]
  refine List.nodup_append'.mpr ⟨hnodup, List.nodup_singleton name, ?_⟩
  intro n hn hname
  exact hnew (List.mem_singleton.mp hname ▸ hvisited n hn)

/-- Its supertraits stand at the end of the longer chain. -/
theorem EndsChain.next {c : Catalog} {root : String} {visited : List String} {name super : String}
    {depth : Nat} (h : c.EndsChain root visited (name, depth)) (hnew : name ∉ visited)
    (hsuper : c.Requires name super) : c.EndsChain root (name :: visited) (super, depth + 1) := by
  obtain ⟨chain, ⟨hchain, hnodup⟩, hvisited, hlength⟩ := h.isChain hnew
  refine ⟨h.reached.tail hsuper, chain ++ [name], ?_, hnodup, ?_, ?_⟩
  · rw [← List.cons_append, List.isChain_append]
    refine ⟨hchain, List.isChain_singleton super, fun last hlast first hfirst => ?_⟩
    -- the chain went up to the name, which requires the supertrait
    rw [← List.cons_append, List.getLast?_concat, Option.mem_some_iff] at hlast
    rw [List.head?_singleton, Option.mem_some_iff] at hfirst
    exact hlast ▸ hfirst ▸ hsuper
  · intro n hn
    rw [← List.cons_append, List.mem_append, List.mem_singleton] at hn
    rcases hn with hn | rfl
    · exact List.mem_cons_of_mem _ (hvisited n hn)
    · exact List.mem_cons_self
  · simp [hlength]

/-- Everything that a walk has on its stack stands at the end of a chain. -/
def Tracked (c : Catalog) (root : String) (w : Walk) : Prop :=
  ∀ p ∈ w.pending, c.EndsChain root w.visited p

theorem tracked_start {c : Catalog} {cap : Capability} (hfind : c.find? cap.name = some cap) :
    c.Tracked cap.name (.start cap) := by
  intro p hp
  obtain ⟨super, hsuper, rfl⟩ := List.mem_map.mp hp
  have hrequires : c.Requires cap.name super := ⟨cap, hfind, hsuper⟩
  exact ⟨.single hrequires, [], by simpa using hrequires, by simp, by simp [Walk.start], rfl⟩

/-- A turn leaves ends of chains on the stack. -/
theorem Tracked.turn {c : Catalog} {root : String} {w w' : Walk} (h : c.Tracked root w)
    (hturn : c.Turn w w') : c.Tracked root w' := by
  cases hturn with
  | skip hmem => exact fun p hp => h p (List.mem_cons_of_mem _ hp)
  | @visit visited name depth pending cap hnew _ hfind =>
    have hname := h (name, depth) List.mem_cons_self
    -- what is on the stack now is a supertrait of the name, or was there before
    intro p hp
    rcases List.mem_append.mp hp with hp | hp
    · obtain ⟨super, hsuper, rfl⟩ := List.mem_map.mp hp
      exact hname.next hnew ⟨cap, hfind, hsuper⟩
    · exact (h p (List.mem_cons_of_mem _ hp)).visit name

/-- So does every number of turns. -/
theorem Tracked.turns {c : Catalog} {root : String} {w w' : Walk} (h : c.Tracked root w)
    (hturns : Relation.ReflTransGen c.Turn w w') : c.Tracked root w' := by
  induction hturns with
  | refl => exact h
  | tail _ hturn ih => exact ih.turn hturn

/-- A walk that fails was led by a chain to a capability that is not declared, or that is too far
away. -/
theorem Tracked.of_error {c : Catalog} {root : String} {before : List String} {w : Walk} {e : Error}
    (h : c.Tracked root w) (hends : c.Ends root before w (.error e)) :
    (∃ super, e = .capabilityNotFound super ∧ Relation.TransGen c.Requires root super ∧
        c.find? super = none) ∨
      e = .recursionDepthExceeded root maxSupertraitDepth [] ∧
        ∃ chain, c.IsChain root chain ∧ maxSupertraitDepth < chain.length := by
  cases hends with
  | @tooDeep visited name depth pending hnew hdepth =>
    obtain ⟨chain, hchain, -, hlength⟩ := (h (name, depth) List.mem_cons_self).isChain hnew
    exact .inr ⟨rfl, chain ++ [name], hchain, by simpa [hlength] using hdepth⟩
  | @unknown visited name depth pending hnew hdepth hfind =>
    exact .inl ⟨name, rfl, (h (name, depth) List.mem_cons_self).reached, hfind⟩

/-! ## Collecting supertraits -/

/-- Collecting the supertraits of a declared capability is following them from the capability. -/
theorem supertraits_eq {c : Catalog} {cap : Capability} (hfind : c.find? cap.name = some cap) :
    c.supertraits cap.name =
      followSupertraits cap.name [cap.name]
        (c.capabilities.eraseP fun other => other.name = cap.name)
        (cap.supertraits.map (·, 1)) := by
  rw [supertraits, find_eq_ok_iff.mpr hfind]
  rfl

/-- The walk from a declared capability ends with what is collected. -/
theorem exists_turns_supertraits {c : Catalog} {cap : Capability}
    (hfind : c.find? cap.name = some cap) :
    ∃ w, Relation.ReflTransGen c.Turn (.start cap) w ∧
      c.Ends cap.name [cap.name] w (c.supertraits cap.name) := by
  rw [supertraits_eq hfind]
  exact exists_turns_followSupertraits (Remains.visit (fun _ _ => rfl) cap.name)

/-- To know what is collected it is enough to take the walk to its end. -/
theorem supertraits_eq_of_turns {c : Catalog} {cap : Capability} {w : Walk}
    {outcome : Except Error (List String)} (hfind : c.find? cap.name = some cap)
    (hturns : Relation.ReflTransGen c.Turn (.start cap) w)
    (hends : c.Ends cap.name [cap.name] w outcome) : c.supertraits cap.name = outcome := by
  obtain ⟨w', hturns', hends'⟩ := exists_turns_supertraits hfind
  -- of two walks from one start one goes on where the other is, and neither can go on
  have hw : w = w' := by
    rcases Relation.ReflTransGen.total_of_right_unique (fun _ _ _ h h' => h.unique h')
      hturns hturns' with hpath | hpath
    · rcases hpath.cases_head with hw | ⟨_, hturn, -⟩
      · exact hw
      · exact absurd hturn hends.not_turn
    · rcases hpath.cases_head with hw | ⟨_, hturn, -⟩
      · exact hw.symm
      · exact absurd hturn hends'.not_turn
  exact (hw ▸ hends').unique hends

/-- Capabilities that a walk lists are declared. -/
theorem Preorder.exists_find? {c : Catalog} {visited names listed : List String}
    (h : c.Preorder visited names listed) : ∀ name ∈ listed, ∃ cap, c.find? name = some cap := by
  induction h with
  | nil visited => simp
  | skip _ _ ih => exact ih
  | visit _ hfind _ _ ihbelow ihrest =>
    refine List.forall_mem_cons.mpr ⟨⟨_, hfind⟩, fun name hname => ?_⟩
    rcases List.mem_append.mp hname with hname | hname
    · exact ihbelow name hname
    · exact ihrest name hname

/-- What is collected stands in the order of the recursive traversal. -/
theorem preorder_supertraits {c : Catalog} {cap : Capability} {names : List String}
    (hfind : c.find? cap.name = some cap) (hnames : c.supertraits cap.name = .ok names) :
    c.Preorder [cap.name] cap.supertraits names := by
  rw [supertraits_eq hfind] at hnames
  have horder := preorder_of_followSupertraits (Remains.visit (fun _ _ => rfl) cap.name) hnames
  have hfst : (Prod.fst ∘ fun name : String => (name, 1)) = id := rfl
  rwa [List.map_map, hfst, List.map_id] at horder

/-- Collecting the supertraits of a declared capability ends after finitely many turns, also when
the hierarchy has cycles. A list is collected in the order of the recursive traversal, and there is
one such order only; it holds each of the capabilities once that can be reached over supertraits,
except the first one, and all of them are declared. Otherwise a capability that can be reached is
not declared, or there is a chain of more supertraits than are followed. -/
theorem supertraits_traversal {c : Catalog} {name : String} {cap : Capability}
    (hfind : c.find? name = some cap) :
    (Acc (fun w' w => c.Turn w w') (.start cap) ∧
        ∃ w, Relation.ReflTransGen c.Turn (.start cap) w ∧
          c.Ends name [name] w (c.supertraits name)) ∧
      (∀ names, c.supertraits name = .ok names →
        names.Nodup ∧ name ∉ names ∧
          (∀ super, super ∈ names ↔ super ≠ name ∧ Relation.TransGen c.Requires name super) ∧
          (∀ listed, c.Preorder [name] cap.supertraits listed ↔ listed = names) ∧
          ∀ super, Relation.TransGen c.Requires name super → ∃ cap', c.find? super = some cap') ∧
      ∀ e, c.supertraits name = .error e →
        (∃ super, e = .capabilityNotFound super ∧ Relation.TransGen c.Requires name super ∧
            c.find? super = none) ∨
          e = .recursionDepthExceeded name maxSupertraitDepth [] ∧
            ∃ chain, c.IsChain name chain ∧ maxSupertraitDepth < chain.length := by
  obtain rfl := find?_name hfind
  obtain ⟨w, hturns, hends⟩ := exists_turns_supertraits hfind
  refine ⟨⟨c.wellFounded_turn.apply _, w, hturns, hends⟩, fun names hnames => ?_, fun e he => ?_⟩
  · have hmem {super : String} : super ∈ names ↔ _ := mem_supertraits_iff hnames
    have horder := preorder_supertraits hfind hnames
    obtain ⟨hnodup, hnew⟩ := horder.nodup
    refine ⟨hnodup, fun hname => hnew _ hname List.mem_cons_self, fun super => hmem, ?_, ?_⟩
    · exact fun listed => ⟨fun h => h.unique horder, fun h => h ▸ horder⟩
    · intro super hsuper
      -- the first capability is not listed even if it can be reached, but it is declared
      by_cases hroot : super = cap.name
      · exact ⟨cap, hroot ▸ hfind⟩
      · exact horder.exists_find? super (hmem.mpr ⟨hroot, hsuper⟩)
  · rw [he] at hends
    exact ((tracked_start hfind).turns hturns).of_error hends

/-- A hierarchy in which `D` can be reached in two ways, and `A` from itself. -/
def diamond : Catalog where
  capabilities := [⟨"A", [], [], [], ["B", "C"]⟩, ⟨"B", [], [], [], ["D"]⟩,
    ⟨"C", [], [], [], ["D", "A"]⟩, ⟨"D", [], [], [], []⟩]

/-- In the diamond `D` is listed once, below `B`, and `A` is not listed. -/
theorem supertraits_traversal_of_diamond :
    diamond.find? "A" = some ⟨"A", [], [], [], ["B", "C"]⟩ ∧
      diamond.supertraits "A" = .ok ["B", "D", "C"] ∧
      Acc (fun w' w => diamond.Turn w w') (.start ⟨"A", [], [], [], ["B", "C"]⟩) ∧
      ∀ listed, diamond.Preorder ["A"] ["B", "C"] listed ↔ listed = ["B", "D", "C"] := by
  have hfind : diamond.find? "A" = some ⟨"A", [], [], [], ["B", "C"]⟩ := rfl
  have hnames : diamond.supertraits "A" = .ok ["B", "D", "C"] := by cbv
  obtain ⟨⟨hacc, -⟩, hok, -⟩ := supertraits_traversal hfind
  obtain ⟨-, -, -, horder, -⟩ := hok _ hnames
  exact ⟨hfind, hnames, hacc, horder⟩

end Catalog

end Generics
