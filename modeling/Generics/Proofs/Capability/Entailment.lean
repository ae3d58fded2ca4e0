import Generics.Proofs.Capability.Persistence
import Generics.Proofs.Capability.Traversal

/-!
# Bounds on supertraits

A type that satisfies the bound on a capability has implementations of all of its supertraits. It
satisfies the bounds on these, too, except for two things that are looked at only when such a bound
is checked by itself:

* the walk over supertraits starts anew at the supertrait, and may lead deeper from there than it
  did from the capability, where it passed over what had been visited;
* the arguments, which are the defaults of the parameters, have to satisfy the bounds of these.

As always, verdicts can be relied on only if no two questions are written alike.

## Main results

* `Catalog.Satisfies.supertrait`: the bound on a supertrait is satisfied;
* `Registry.Reachable.checkBounds_supertrait`: a check of the bound on a supertrait succeeds;
* `Registry.exists_checkBounds_ok_supertrait_fails`: what can go wrong otherwise.
-/

namespace Generics

namespace Catalog

/-! ## Satisfied bounds -/

/-- The defaults of the parameters of a capability satisfy the bounds of these. -/
def FitDefaults (c : Catalog) (name : String) : Prop :=
  ∀ cap args, c.find? name = some cap → cap.fillArgs [] = .ok args →
    ∀ p ∈ cap.params.zip args, ∀ b ∈ p.1.bounds, c.Satisfies p.2 b

/-- What a supertrait leads to can be reached from the capability itself. -/
theorem IsSupertrait.trans {c : Catalog} {name super other : String}
    (h : c.IsSupertrait name super) (h' : c.IsSupertrait super other) :
    other = name ∨ c.IsSupertrait name other := by
  by_cases hname : other = name
  · exact .inl hname
  · exact .inr ⟨hname, h.2.trans h'.2⟩

/-- A type that satisfies the bound on a capability satisfies the bound on a supertrait, if the
supertraits of that one can be collected and its defaults fit. -/
theorem Satisfies.supertrait {c : Catalog} {t : Ty} {name super : String}
    (h : c.Satisfies t (.simple name)) (hsuper : c.IsSupertrait name super)
    (hwalk : ∃ names, c.supertraits super = .ok names) (hfit : c.FitDefaults super) :
    c.Satisfies t (.simple super) := by
  obtain ⟨cap, args, hfind, hargs⟩ := h.exists_cap rfl
  obtain ⟨himplements, -, -, hsupers⟩ := (satisfies_iff rfl hfind hargs).mp h
  obtain ⟨cap', args', hfind', hargs'⟩ := (hsupers super hsuper).exists_cap
  refine (satisfies_iff rfl hfind' hargs').mpr
    ⟨hsupers super hsuper, hfit cap' args' hfind' hargs', hwalk, fun other hother => ?_⟩
  -- the hierarchy may be cyclic, and then the capability is a supertrait of its supertrait
  rcases hsuper.trans hother with rfl | hother
  · exact himplements
  · exact hsupers other hother

/-- A type for which no implementation matches does not satisfy the bound. -/
theorem not_satisfies_of_select? {c : Catalog} {t : Ty} {b : Bound} {cap : Capability}
    {args : List Ty} (hkind : b.kind.isRegional = false)
    (hfind : c.find? b.capability = some cap) (hargs : cap.fillArgs b.args = .ok args)
    (hselect : c.select? b.capability t args = none) : ¬ c.Satisfies t b := by
  intro h
  obtain ⟨⟨sel, hsel, -⟩, -⟩ := (satisfies_iff hkind hfind hargs).mp h
  rw [select?_eq_some_iff.mpr ((selects_iff hfind hargs).mp hsel)] at hselect
  cases hselect

/-! ## Catalogs without conditions -/

/-- No implementation has conditions. -/
def Unconditional (c : Catalog) : Prop := ∀ i ∈ c.implementations, i.clauses = []

/-- Without conditions nothing has to be checked of an implementation. -/
theorem Unconditional.conditions_eq_nil {c : Catalog} (h : c.Unconditional) {capability : String}
    {t : Ty} {args : List Ty} {sel : Selection} (hsel : c.Selects capability t args sel) :
    sel.conditions = [] := by
  obtain ⟨cap, filled, -, -, before, after, hsplit, -, -⟩ := hsel
  have hmem : sel.implementation ∈ c.implementationsOf capability := by
    rw [hsplit]
    exact List.mem_append_right _ List.mem_cons_self
  rw [Selection.conditions, h _ (List.mem_of_mem_filter hmem)]
  rfl

/-- Without conditions a capability is implemented as soon as an implementation matches. -/
theorem Unconditional.implements {c : Catalog} (h : c.Unconditional) {capability : String}
    {t : Ty} {args : List Ty} {sel : Selection} (hsel : c.Selects capability t args sel) :
    c.Implements capability t args :=
  ⟨sel, hsel, by simp [h.conditions_eq_nil hsel]⟩

/-- Without conditions only the bounds of parameters come up. -/
theorem Unconditional.arising_subset {c : Catalog} (h : c.Unconditional) {asked : List Question}
    (hclosed : ∀ q ∈ asked, ∀ b ∈ q.bounds, ⟨q.type, [b]⟩ ∈ asked ∧
      ∀ cap args, c.find? b.capability = some cap → cap.fillArgs b.args = .ok args →
        ∀ p ∈ cap.params.zip args, ∀ b' ∈ p.1.bounds, ⟨p.2, [b']⟩ ∈ asked)
    {q : Question} (hq : q ∈ asked) : c.arising {q} ⊆ {q | q ∈ asked} := by
  refine Catalog.arising_subset (by rintro _ rfl; exact hq)
    (fun q hq b hb => (hclosed q hq b hb).1) fun t b hq q' hasks => ?_
  cases hasks with
  | condition hq' =>
    obtain ⟨sel, hsel, hq'⟩ := hq'
    simp [h.conditions_eq_nil hsel] at hq'
  | argument hfind hargs hp hb' _ =>
    exact (hclosed _ hq b List.mem_cons_self).2 _ _ hfind hargs _ hp _ hb'
  | supertrait _ hq' =>
    obtain ⟨sel, hsel, hq'⟩ := hq'
    simp [h.conditions_eq_nil hsel] at hq'

/-- Numbers can be added, by default to bytes, and what is added to them has to be small. -/
def sums (more : List Implementation) : Catalog where
  capabilities := [⟨"Small", [], [], [], []⟩,
    ⟨"Add", [⟨"Rhs", .inv, [.simple "Small"], some (.prim "u8")⟩], [], [], []⟩,
    ⟨"Number", [], [], [], ["Add"]⟩]
  implementations := [⟨"Add", .prim "i32", [.prim "u8"], [], []⟩,
    ⟨"Number", .prim "i32", [], [], []⟩] ++ more

/-- The questions about sums. -/
def sumQuestions : List Question :=
  [⟨.prim "i32", [.simple "Number"]⟩, ⟨.prim "i32", [.simple "Add"]⟩,
    ⟨.prim "u8", [.simple "Small"]⟩]

/-- Questions about sums lead to questions about sums only. -/
theorem arising_sums {more : List Implementation} (hmore : ∀ i ∈ more, i.clauses = [])
    {q : Question} (hq : q ∈ sumQuestions) : (sums more).arising {q} ⊆ {q | q ∈ sumQuestions} := by
  have hunconditional : (sums more).Unconditional := by
    simpa [Unconditional, sums] using hmore
  refine hunconditional.arising_subset (fun q hq b hb => ?_) hq
  simp only [sumQuestions, List.mem_cons, List.not_mem_nil, or_false] at hq
  rcases hq with rfl | rfl | rfl <;> obtain rfl := List.mem_singleton.mp hb
  · refine ⟨by simp [sumQuestions], fun cap args hfind _ p hp => ?_⟩
    obtain rfl := Option.some.inj hfind
    simp at hp
  · refine ⟨by simp [sumQuestions], fun cap args hfind hargs p hp => ?_⟩
    obtain rfl := Option.some.inj hfind
    obtain rfl := Except.ok.inj hargs
    obtain rfl := List.mem_singleton.mp hp
    simp [sumQuestions]
  · refine ⟨by simp [sumQuestions], fun cap args hfind _ p hp => ?_⟩
    obtain rfl := Option.some.inj hfind
    simp at hp

/-- `X` has the capability `Y: Z`. Nothing has `Z`, or `W`, which `Z` requires. -/
def blurred : Catalog where
  capabilities := [⟨"Y: Z", [], [], [], []⟩, ⟨"W", [], [], [], []⟩, ⟨"Z", [], [], [], ["W"]⟩]
  implementations := [⟨"Y: Z", .named "X" [] [], [], [], []⟩]

/-- The questions about it. -/
def blurredQuestions : List Question :=
  [⟨.named "X" [] [], [.simple "Y: Z"]⟩, ⟨.named "X: Y" [] [], [.simple "Z"]⟩,
    ⟨.named "X: Y" [] [], [.simple "W"]⟩]

/-- A question about `blurred` leads to those on its single bounds only. -/
theorem arising_blurred {asked : List Question}
    (hsingle : ∀ q ∈ asked, ∀ b ∈ q.bounds, ⟨q.type, [b]⟩ ∈ asked) {q : Question} (hq : q ∈ asked) :
    blurred.arising {q} ⊆ {q | q ∈ asked} := by
  have hunconditional : blurred.Unconditional := by
    simp [Unconditional, blurred]
  have hparams : ∀ cap ∈ blurred.capabilities, cap.params = [] := by
    simp [blurred]
  refine hunconditional.arising_subset (fun q hq b hb => ⟨hsingle q hq b hb, ?_⟩) hq
  intro cap args hfind _ p hp
  simp [hparams cap (List.mem_of_find?_eq_some hfind)] at hp

/-! ## A type with all capabilities -/

/-- The catalog of some capabilities, each implemented for bytes. -/
def throughout (caps : List Capability) : Catalog where
  capabilities := caps
  implementations := caps.map fun cap => ⟨cap.name, .prim "u8", [], [], []⟩

/-- Capabilities of different names, without parameters and associated types. -/
structure Bare (caps : List Capability) : Prop where
  nodup : (caps.map Capability.name).Nodup
  params : ∀ cap ∈ caps, cap.params = []
  associated : ∀ cap ∈ caps, cap.associated = []

/-- Without parameters there are no arguments to fill up. -/
theorem fillArgs_nil_of_params {cap : Capability} (h : cap.params = []) :
    cap.fillArgs [] = .ok [] := by
  simp [Capability.fillArgs, h]
  rfl

section Bare

variable {caps : List Capability} (h : Bare caps)
include h

/-- A capability is found by its name. -/
theorem Bare.find?_eq {is : List Implementation} {cap : Capability} (hcap : cap ∈ caps) :
    (⟨caps, is⟩ : Catalog).find? cap.name = some cap := by
  obtain ⟨before, after, rfl⟩ := List.append_of_mem hcap
  have hnodup := h.nodup
  rw [List.map_append, List.map_cons, List.nodup_append] at hnodup
  have hnone : before.find? (fun other => other.name = cap.name) = none := by
    rw [List.find?_eq_none]
    intro other hother
    simpa using hnodup.2.2 _ (List.mem_map_of_mem hother) _ List.mem_cons_self
  simp [find?, List.find?_append, hnone]

/-- Each of the capabilities is implemented for bytes. -/
theorem Bare.implements {cap : Capability} (hcap : cap ∈ caps) :
    (throughout caps).Implements cap.name (.prim "u8") [] := by
  have hmem : ⟨cap.name, .prim "u8", [], [], []⟩ ∈ (throughout caps).implementationsOf cap.name :=
    List.mem_filter.mpr ⟨List.mem_map.mpr ⟨cap, hcap, rfl⟩, by simp⟩
  have hselect : ((throughout caps).select? cap.name (.prim "u8") []).isSome = true :=
    List.findSome?_isSome_iff.mpr ⟨_, hmem, rfl⟩
  obtain ⟨sel, hsel⟩ := Option.isSome_iff_exists.mp hselect
  have hunconditional : (throughout caps).Unconditional := by
    simp [Unconditional, throughout]
  exact hunconditional.implements ((selects_iff (h.find?_eq hcap)
    (fillArgs_nil_of_params (h.params cap hcap))).mpr (select?_eq_some_iff.mp hsel))

/-- So the bound on a capability is satisfied exactly if its supertraits can be collected. -/
theorem Bare.satisfies_iff {cap : Capability} (hcap : cap ∈ caps) :
    (throughout caps).Satisfies (.prim "u8") (.simple cap.name) ↔
      ∃ names, (throughout caps).supertraits cap.name = .ok names := by
  have hfind : (throughout caps).find? cap.name = some cap := h.find?_eq hcap
  have hargs := fillArgs_nil_of_params (h.params cap hcap)
  rw [Catalog.satisfies_iff rfl hfind hargs]
  refine ⟨fun hsatisfies => hsatisfies.2.2.1, fun ⟨names, hnames⟩ => ?_⟩
  refine ⟨h.implements hcap, by simp [h.params cap hcap], ⟨names, hnames⟩, fun super hsuper => ?_⟩
  -- what is listed is declared, and everything declared is implemented
  have hlisted := (mem_supertraits_iff hnames).mpr hsuper
  obtain ⟨cap', hfind'⟩ := (preorder_supertraits hfind hnames).exists_find? super hlisted
  rw [← find?_name hfind']
  exact h.implements (List.mem_of_find?_eq_some hfind')

/-- Nothing else comes up when such a bound is checked. -/
theorem Bare.arising_subset (t : Ty) (b : Bound) :
    (throughout caps).arising {⟨t, [b]⟩} ⊆ {⟨t, [b]⟩} := by
  have hunconditional : (throughout caps).Unconditional := by
    simp [Unconditional, throughout]
  have hsubset : (throughout caps).arising {⟨t, [b]⟩} ⊆ {q | q ∈ [⟨t, [b]⟩]} := by
    refine hunconditional.arising_subset (fun q hq b' hb' => ?_) List.mem_cons_self
    obtain rfl := List.mem_singleton.mp hq
    obtain rfl := List.mem_singleton.mp hb'
    refine ⟨hq, fun cap args hfind _ p hp => ?_⟩
    simp [h.params cap (List.mem_of_find?_eq_some hfind)] at hp
  simpa using hsubset

end Bare

/-! ## Declaring such capabilities -/

/-- Without parameters supertraits need no defaults. -/
theorem checkSupertraits_eq_ok {c : Catalog} (h : ∀ cap ∈ c.capabilities, cap.params = [])
    (capability : String) (names : List String) :
    c.checkSupertraits capability names = .ok () := by
  induction names with
  | nil => rfl
  | cons name names ih =>
    rw [checkSupertraits]
    cases hfind : c.find? name with
    | none => exact ih
    | some super =>
      have hparams := h super (List.mem_of_find?_eq_some hfind)
      simp only [fillArgs_nil_of_params hparams]
      exact ih

/-- A capability of a new name can be declared. -/
theorem declare_eq_ok {c : Catalog} (h : ∀ cap ∈ c.capabilities, cap.params = [])
    {cap : Capability} (hnew : c.find? cap.name = none) :
    c.declare cap = .ok { c with capabilities := c.capabilities ++ [cap] } := by
  rw [declare, hnew, checkSupertraits_eq_ok h]
  rfl

/-- A capability can be implemented for the first time. -/
theorem implement_eq_ok {c : Catalog} {cap : Capability} {t : Ty}
    (hfind : c.find? cap.name = some cap) (hparams : cap.params = [])
    (hassociated : cap.associated = []) (hnone : c.implementationsOf cap.name = []) :
    c.implement ⟨cap.name, t, [], [], []⟩ =
      .ok { c with implementations := c.implementations ++ [⟨cap.name, t, [], [], []⟩] } := by
  have hfound : c.find cap.name = .ok cap := find_eq_ok_iff.mpr hfind
  have hcoherent : c.checkCoherence ⟨cap.name, t, [], [], []⟩ = .ok () := by
    rw [checkCoherence]
    simp only [hfound, bind, Except.bind, fillArgs_nil_of_params hparams, hnone]
    rfl
  have hassoc : checkAssociated cap ⟨cap.name, t, [], [], []⟩ = .ok () := by
    simp [checkAssociated, hassociated]
  rw [implement]
  simp only [hfound, hcoherent, hassoc, bind, Except.bind, fillArgs_nil_of_params hparams]
  rfl

/-! ## A long way up -/

/-- The name of a level, with one more stroke for each level. -/
def rung (n : Nat) : String := String.ofList (List.replicate (n + 1) 'I')

/-- Different rungs have different names. -/
theorem rung_injective : Function.Injective rung := by
  intro m n h
  have hlength := congrArg String.length h
  simpa [rung] using hlength

theorem rung_ne_top (n : Nat) : rung n ≠ "Top" := by
  intro h
  have hlist := congrArg String.toList h
  simp [rung, List.replicate_succ] at hlist

/-- The capability of a level, which requires the next one unless it is the last. -/
def level (n : Nat) : Capability := ⟨rung n, [], [], [], if n < 65 then [rung (n + 1)] else []⟩

/-- It requires two levels. From level 2, which comes first, the last one is 63 steps away, and from
level 0 it is 65. -/
def top : Capability := ⟨"Top", [], [], [], [rung 2, rung 0]⟩

/-- The levels with the top. -/
def ladder : List Capability := top :: (List.range 66).map level

/-- The capabilities of the ladder are bare. -/
theorem bare_ladder : Bare ladder where
  nodup := by
    rw [ladder, List.map_cons, List.map_map, List.nodup_cons]
    constructor
    · simpa [level, top] using fun n _ => rung_ne_top n
    · exact List.nodup_range.map rung_injective
  params := by simp [ladder, level, top]
  associated := by simp [ladder, level, top]

theorem level_mem_ladder {n : Nat} (hn : n < 66) : level n ∈ ladder :=
  List.mem_cons_of_mem _ (List.mem_map_of_mem (List.mem_range.mpr hn))

/-- A rung is found by its name. -/
theorem find?_rung {n : Nat} (hn : n < 66) : (throughout ladder).find? (rung n) = some (level n) :=
  bare_ladder.find?_eq (level_mem_ladder hn)

/-- From level to level, as long as none of them was visited and the depth allows. -/
theorem turns_climb {visited : List String} {pending : List (String × Nat)} {k d j : Nat}
    (hk : k + j ≤ 65) (hd : d + j ≤ 65) (hnew : ∀ n, k ≤ n → n < k + j → rung n ∉ visited) :
    Relation.ReflTransGen (throughout ladder).Turn ⟨visited, (rung k, d) :: pending⟩
      ⟨((List.range' k j).map rung).reverse ++ visited, (rung (k + j), d + j) :: pending⟩ := by
  induction j with
  | zero => exact .refl
  | succ j ih =>
    refine (ih (by omega) (by omega) fun n hkn hn => hnew n hkn (by omega)).tail ?_
    -- the levels below have other names
    have hfresh : rung (k + j) ∉ ((List.range' k j).map rung).reverse ++ visited := by
      simp only [List.mem_append, List.mem_reverse, List.mem_map, not_or, not_exists, not_and]
      refine ⟨fun n hn hrung => ?_, hnew _ (by omega) (by omega)⟩
      have hbound := (List.mem_range'_1.mp hn).2
      rw [rung_injective hrung] at hbound
      exact absurd hbound (lt_irrefl _)
    have hdepth : d + j ≤ maxSupertraitDepth := by
      rw [maxSupertraitDepth]
      omega
    have hlevel : (level (k + j)).supertraits = [rung (k + j + 1)] :=
      if_pos (by omega)
    rw [List.range'_1_concat, List.map_append, List.reverse_append]
    have hturn : (throughout ladder).Turn _ ⟨_, (level (k + j)).supertraits.map (·, d + j + 1) ++
      pending⟩ := .visit hfresh hdepth (find?_rung (by omega))
    rw [hlevel] at hturn
    exact hturn

/-- From level 0 the last one is too far away. -/
theorem supertraits_rung_zero :
    (throughout ladder).supertraits (rung 0) =
      .error (.recursionDepthExceeded (rung 0) maxSupertraitDepth []) := by
  have hfind : (throughout ladder).find? (level 0).name = some (level 0) := find?_rung (by decide)
  have hclimb : Relation.ReflTransGen (throughout ladder).Turn (.start (level 0))
      ⟨((List.range' 1 64).map rung).reverse ++ [rung 0], [(rung 65, 65)]⟩ :=
    turns_climb (by decide) (by decide) fun n hn _ => by
      simpa [level, rung_injective.eq_iff] using Nat.ne_of_gt hn
  have hnew : rung 65 ∉ ((List.range' 1 64).map rung).reverse ++ [rung 0] := by
    simp [rung_injective.eq_iff]
  exact supertraits_eq_of_turns hfind hclimb (.tooDeep hnew (by decide))

/-- From the top it is reached through level 2, where the way from level 0 ends. -/
theorem exists_supertraits_top :
    ∃ names, (throughout ladder).supertraits "Top" = .ok names ∧ rung 0 ∈ names := by
  have hfind : (throughout ladder).find? top.name = some top :=
    bare_ladder.find?_eq List.mem_cons_self
  have hclimb : Relation.ReflTransGen (throughout ladder).Turn (.start top)
      ⟨((List.range' 2 63).map rung).reverse ++ ["Top"], [(rung 65, 64), (rung 0, 1)]⟩ :=
    turns_climb (by decide) (by decide) fun n _ _ => by simpa [top] using rung_ne_top n
  have hvisited (n : Nat) : rung n ∈ ((List.range' 2 63).map rung).reverse ++ ["Top"] ↔
      2 ≤ n ∧ n < 65 := by
    simp [rung_injective.eq_iff, rung_ne_top]
  have hends : ((List.range' 2 63).map rung ++ [rung 65, rung 0, rung 1]).reverse ++ ["Top"] =
      rung 1 :: rung 0 :: rung 65 :: (((List.range' 2 63).map rung).reverse ++ ["Top"]) := by
    simp
  -- then the last level is visited, and levels 0 and 1, and level 2 is dropped
  generalize ((List.range' 2 63).map rung).reverse ++ ["Top"] = visited at hclimb hvisited hends
  have hlast : (throughout ladder).Turn ⟨visited, [(rung 65, 64), (rung 0, 1)]⟩
      ⟨rung 65 :: visited, [(rung 0, 1)]⟩ :=
    .visit (by simp [hvisited]) (by decide) (find?_rung (by decide))
  have hzero : (throughout ladder).Turn ⟨rung 65 :: visited, [(rung 0, 1)]⟩
      ⟨rung 0 :: rung 65 :: visited, [(rung 1, 2)]⟩ :=
    .visit (by simp [hvisited, rung_injective.eq_iff]) (by decide) (find?_rung (by decide))
  have hone : (throughout ladder).Turn ⟨rung 0 :: rung 65 :: visited, [(rung 1, 2)]⟩
      ⟨rung 1 :: rung 0 :: rung 65 :: visited, [(rung 2, 3)]⟩ :=
    .visit (by simp [hvisited, rung_injective.eq_iff]) (by decide) (find?_rung (by decide))
  have htwo : (throughout ladder).Turn ⟨rung 1 :: rung 0 :: rung 65 :: visited, [(rung 2, 3)]⟩
      ⟨rung 1 :: rung 0 :: rung 65 :: visited, []⟩ :=
    .skip (by simp [hvisited])
  have hturns := (((hclimb.tail hlast).tail hzero).tail hone).tail htwo
  rw [← hends] at hturns
  exact ⟨_, supertraits_eq_of_turns hfind hturns (.done _), by simp⟩

end Catalog

namespace Registry

open Catalog

/-- If a check of the bound on a capability succeeds, so does one of the bound on a supertrait whose
own supertraits can be collected and whose defaults fit: some depth is enough for it, and any answer
is a success. No two questions that come up on the way may be written alike. The second check may be
made before or after the first, or later, as long as nothing else is declared. -/
theorem Reachable.checkBounds_supertrait {r r' r₂ : Registry} {A B : Set Question}
    (h : r.Reachable A) (h₂ : r₂.Reachable B) (hsame : r₂.catalog = r.catalog) {depth : Nat}
    {t : Ty} {name : String} (hok : r.checkBounds depth t [.simple name] = some (r', .ok ()))
    (hlegible : Legible (A ∪ r.catalog.arising {⟨t, [.simple name]⟩})) :
    ∃ names, r.catalog.supertraits name = .ok names ∧
      ∀ super ∈ names, (∃ above, r.catalog.supertraits super = .ok above) →
        r.catalog.FitDefaults super →
        Legible (B ∪ r₂.catalog.arising {⟨t, [.simple super]⟩}) →
        (∃ enough, ∀ depth ≥ enough, ∃ r₃,
          r₂.checkBounds depth t [.simple super] = some (r₃, .ok ())) ∧
        ∀ depth r₃ outcome, r₂.checkBounds depth t [.simple super] = some (r₃, outcome) →
          outcome = .ok () := by
  have hsatisfies : r.catalog.Satisfies t (.simple name) :=
    (h.isOk_checkBounds_iff hlegible hok).mp rfl _ List.mem_cons_self
  obtain ⟨cap, args, hfind, hargs⟩ := hsatisfies.exists_cap rfl
  obtain ⟨-, -, ⟨names, hnames⟩, -⟩ := (Catalog.satisfies_iff rfl hfind hargs).mp hsatisfies
  refine ⟨names, hnames, fun super hsuper hwalk hfit hlegible₂ => ?_⟩
  have hsupertrait := (Catalog.mem_supertraits_iff hnames).mp hsuper
  -- which bounds are satisfied depends on the declarations alone
  refine h₂.checkBounds_of_holds hlegible₂ ?_
  rw [hsame]
  simpa [Catalog.Holds] using hsatisfies.supertrait hsupertrait hwalk hfit

/-- A bound is satisfied if a check of it succeeds. -/
theorem Reachable.satisfies_of_checkBounds {r : Registry} {A : Set Question} (h : r.Reachable A)
    {depth : Nat} {t : Ty} {b : Bound} (hlegible : Legible (A ∪ r.catalog.arising {⟨t, [b]⟩}))
    (hcheck : (r.checkBounds depth t [b]).map (fun p => p.2.isOk) = some true) :
    r.catalog.Satisfies t b := by
  obtain ⟨⟨r', outcome⟩, hrun, hok⟩ := Option.map_eq_some_iff.mp hcheck
  exact (h.isOk_checkBounds_iff hlegible hrun).mp hok b List.mem_cons_self

/-- The declarations about sums are accepted. -/
theorem reachable_sums : Reachable ⟨sums [], []⟩ ∅ := by
  have hreach := ((((Reachable.new.declare ⟨"Small", [], [], [], []⟩).declare
    ⟨"Add", [⟨"Rhs", .inv, [.simple "Small"], some (.prim "u8")⟩], [], [], []⟩).declare
    ⟨"Number", [], [], [], ["Add"]⟩).implement ⟨"Add", .prim "i32", [], [], []⟩).implement
    ⟨"Number", .prim "i32", [], [], []⟩
  have hsums : (((((({} : Registry).declare ⟨"Small", [], [], [], []⟩).1.declare
      ⟨"Add", [⟨"Rhs", .inv, [.simple "Small"], some (.prim "u8")⟩], [], [], []⟩).1.declare
      ⟨"Number", [], [], [], ["Add"]⟩).1.implement ⟨"Add", .prim "i32", [], [], []⟩).1.implement
      ⟨"Number", .prim "i32", [], [], []⟩).1 = ⟨sums [], []⟩ := by
    cbv
  rwa [hsums] at hreach

/-- So is one that makes bytes small. -/
theorem reachable_smallSums : Reachable ⟨sums [⟨"Small", .prim "u8", [], [], []⟩], []⟩ ∅ := by
  have hreach := reachable_sums.implement ⟨"Small", .prim "u8", [], [], []⟩
  have hsums : (Registry.implement ⟨sums [], []⟩ ⟨"Small", .prim "u8", [], [], []⟩).1 =
      ⟨sums [⟨"Small", .prim "u8", [], [], []⟩], []⟩ := by
    cbv
  rwa [hsums] at hreach

theorem legible_sumQuestions : Legible {q | q ∈ sumQuestions} :=
  legible_of_key_injective (by decide +kernel)

/-- Once bytes are small, integers are numbers, and they can be added. -/
theorem Reachable.checkBounds_supertrait_of_sums :
    let c := sums [⟨"Small", .prim "u8", [], [], []⟩]
    let asked := c.arising {⟨.prim "i32", [.simple "Number"]⟩}
    ∃ (r' r₃ : Registry) (names above : List String) (depth : Nat),
      Reachable ⟨c, []⟩ ∅ ∧ r'.Reachable (∅ ∪ asked) ∧ r'.catalog = c ∧
      Registry.checkBounds ⟨c, []⟩ 3 (.prim "i32") [.simple "Number"] = some (r', .ok ()) ∧
      Legible (∅ ∪ asked) ∧ c.supertraits "Number" = .ok names ∧ "Add" ∈ names ∧
      c.supertraits "Add" = .ok above ∧ c.FitDefaults "Add" ∧
      Legible (∅ ∪ asked ∪ r'.catalog.arising {⟨.prim "i32", [.simple "Add"]⟩}) ∧
      r'.checkBounds depth (.prim "i32") [.simple "Add"] = some (r₃, .ok ()) := by
  intro c asked
  have hasked : ∀ q ∈ sumQuestions, c.arising {q} ⊆ {q | q ∈ sumQuestions} := fun q hq =>
    arising_sums (by simp) hq
  have hsubset : ∅ ∪ asked ⊆ {q | q ∈ sumQuestions} := by
    rw [Set.empty_union]
    exact hasked _ (by decide)
  have hrun : (Registry.checkBounds ⟨c, []⟩ 3 (.prim "i32") [.simple "Number"]).map
      (fun p => p.2.isOk) = some true := by
    cbv
  obtain ⟨⟨r', outcome⟩, hrun, hok⟩ := Option.map_eq_some_iff.mp hrun
  have hcatalog : r'.catalog = c := catalog_of_run hrun
  have hlegible : Legible (∅ ∪ asked ∪ r'.catalog.arising {⟨.prim "i32", [.simple "Add"]⟩}) := by
    rw [hcatalog]
    exact legible_sumQuestions.mono (Set.union_subset hsubset (hasked _ (by decide)))
  -- the default argument of `Add` is a byte, and a check says that bytes are small
  have hsmall : c.Satisfies (.prim "u8") (.simple "Small") := by
    have hcheck : (Registry.checkBounds ⟨c, []⟩ 3 (.prim "u8") [.simple "Small"]).map
        (fun p => p.2.isOk) = some true := by
      cbv
    have hlegible' : Legible (∅ ∪ c.arising {⟨.prim "u8", [.simple "Small"]⟩}) := by
      rw [Set.empty_union]
      exact legible_sumQuestions.mono (hasked _ (by decide))
    exact reachable_smallSums.satisfies_of_checkBounds hlegible' hcheck
  have hfit : c.FitDefaults "Add" := by
    intro cap args hfind hargs p hp b hb
    obtain rfl := Option.some.inj hfind
    obtain rfl := Except.ok.inj hargs
    obtain rfl := List.mem_singleton.mp hp
    obtain rfl := List.mem_singleton.mp hb
    exact hsmall
  have hnames : c.supertraits "Number" = .ok ["Add"] := by cbv
  have habove : c.supertraits "Add" = .ok [] := by cbv
  cases outcome with
  | error e => cases hok
  | ok =>
    have hreach := reachable_smallSums.checkBounds hrun
    obtain ⟨names, hnames', hsupers⟩ := reachable_smallSums.checkBounds_supertrait hreach hcatalog
      hrun (legible_sumQuestions.mono hsubset)
    obtain rfl := Except.ok.inj (hnames.symm.trans hnames')
    obtain ⟨⟨enough, henough⟩, -⟩ :=
      hsupers "Add" List.mem_cons_self ⟨[], habove⟩ hfit hlegible
    obtain ⟨r₃, hrun₃⟩ := henough enough (Nat.le_refl enough)
    exact ⟨r', r₃, ["Add"], [], enough, reachable_smallSums, hreach, hcatalog, hrun,
      legible_sumQuestions.mono hsubset, hnames, List.mem_cons_self, habove, hfit, hlegible, hrun₃⟩

/-! ## What can go wrong -/

/-- A check of the bound on the capability succeeds, and after it none of the bound on one of the
supertraits ever does. -/
def Breaks (r : Registry) (t : Ty) (name super : String) : Prop :=
  ∃ depth r' names, r.checkBounds depth t [.simple name] = some (r', .ok ()) ∧
    r.catalog.supertraits name = .ok names ∧ super ∈ names ∧
    ∀ depth r'', r'.checkBounds depth t [.simple super] ≠ some (r'', .ok ())

/-- Where questions are told apart, this is a matter of which bounds are satisfied. -/
theorem Reachable.breaks {r : Registry} {A : Set Question} (h : r.Reachable A) {t : Ty}
    {name super : String} {names : List String}
    (hlegible : Legible (A ∪ r.catalog.arising {⟨t, [.simple name]⟩} ∪
      r.catalog.arising {⟨t, [.simple super]⟩}))
    (hnames : r.catalog.supertraits name = .ok names) (hsuper : super ∈ names)
    (hsatisfies : r.catalog.Satisfies t (.simple name))
    (hnot : ¬ r.catalog.Satisfies t (.simple super)) : r.Breaks t name super := by
  have hholds : r.catalog.Holds ⟨t, [.simple name]⟩ := by
    simpa [Catalog.Holds] using hsatisfies
  -- deep enough, the check of the capability succeeds
  obtain ⟨⟨enough, henough⟩, -⟩ :=
    h.checkBounds_of_holds (hlegible.mono Set.subset_union_left) hholds
  obtain ⟨r', hok⟩ := henough enough (Nat.le_refl enough)
  refine ⟨enough, r', names, hok, hnames, hsuper, fun depth r'' hok' => hnot ?_⟩
  have hcatalog : r'.catalog = r.catalog := catalog_of_run hok
  have hlegible' : Legible (A ∪ r.catalog.arising {⟨t, [.simple name]⟩} ∪
      r'.catalog.arising {⟨t, [.simple super]⟩}) := by
    rwa [hcatalog]
  -- a check of the supertrait that succeeds would be right
  have hholds' := ((h.checkBounds hok).isOk_checkBounds_iff hlegible' hok').mp rfl
  rw [hcatalog] at hholds'
  exact hholds' _ List.mem_cons_self

/-- Bare capabilities can all be declared. -/
theorem reachable_declared {caps : List Capability} (h : Bare caps) :
    Reachable ⟨⟨caps, []⟩, []⟩ ∅ := by
  induction caps using List.reverseRecOn with
  | nil => exact .new
  | append_singleton caps cap ih =>
    -- those declared before the last one are bare, and none of them has its name
    have hnodup := h.nodup
    rw [List.map_append, List.map_singleton, List.nodup_append] at hnodup
    have hbare : Bare caps := ⟨hnodup.1,
      fun other hother => h.params other (List.mem_append_left _ hother),
      fun other hother => h.associated other (List.mem_append_left _ hother)⟩
    have hnew : (⟨caps, []⟩ : Catalog).find? cap.name = none := by
      rw [Catalog.find?, List.find?_eq_none]
      intro other hother
      simpa using hnodup.2.2 _ (List.mem_map_of_mem hother) _ List.mem_cons_self
    have hdeclare : (⟨caps, []⟩ : Catalog).declare cap = .ok ⟨caps ++ [cap], []⟩ :=
      declare_eq_ok hbare.params hnew
    have hreach := (ih hbare).declare cap
    rwa [Registry.declare, hdeclare] at hreach

/-- After that they can all be implemented for bytes. -/
theorem reachable_throughout {caps : List Capability} (h : Bare caps) :
    Reachable ⟨throughout caps, []⟩ ∅ := by
  -- one after the other, with some of them implemented already
  suffices hprefix : ∀ done rest, caps = done ++ rest →
      Reachable ⟨⟨caps, done.map fun cap => ⟨cap.name, .prim "u8", [], [], []⟩⟩, []⟩ ∅ from
    hprefix caps [] (List.append_nil caps).symm
  intro done
  induction done using List.reverseRecOn with
  | nil => exact fun _ _ => reachable_declared h
  | append_singleton done cap ih =>
    intro rest hsplit
    rw [List.append_assoc, List.singleton_append] at hsplit
    have hcap : cap ∈ caps := hsplit ▸ List.mem_append_right _ List.mem_cons_self
    have hnodup := h.nodup
    rw [hsplit, List.map_append, List.map_cons, List.nodup_append] at hnodup
    have hnone : Catalog.implementationsOf
        ⟨caps, done.map fun cap => ⟨cap.name, .prim "u8", [], [], []⟩⟩ cap.name = [] := by
      rw [Catalog.implementationsOf, List.filter_eq_nil_iff]
      intro i hi
      obtain ⟨other, hother, rfl⟩ := List.mem_map.mp hi
      simpa using hnodup.2.2 _ (List.mem_map_of_mem hother) _ List.mem_cons_self
    have hreach := (ih (cap :: rest) hsplit).implement ⟨cap.name, .prim "u8", [], [], []⟩
    rw [Registry.implement, implement_eq_ok (h.find?_eq hcap) (h.params cap hcap)
      (h.associated cap hcap) hnone] at hreach
    simpa using hreach

/-- On the ladder, bytes satisfy the bound on the top, and the supertraits of level 0 cannot be
collected. -/
theorem breaks_ladder :
    Legible (∅ ∪ (throughout ladder).arising {⟨.prim "u8", [.simple "Top"]⟩} ∪
        (throughout ladder).arising {⟨.prim "u8", [.simple (rung 0)]⟩}) ∧
      Breaks ⟨throughout ladder, []⟩ (.prim "u8") "Top" (rung 0) := by
  obtain ⟨names, hnames, hzero⟩ := exists_supertraits_top
  have htop : (throughout ladder).Satisfies (.prim "u8") (.simple top.name) :=
    (bare_ladder.satisfies_iff List.mem_cons_self).mpr ⟨names, hnames⟩
  -- the chain from the lowest rung is too long to be followed
  have hnot : ¬ (throughout ladder).Satisfies (.prim "u8") (.simple (rung 0)) := by
    intro h
    obtain ⟨above, habove⟩ := (bare_ladder.satisfies_iff (level_mem_ladder (by decide))).mp h
    cases supertraits_rung_zero.symm.trans habove
  have hlegible : Legible (∅ ∪ (throughout ladder).arising {⟨.prim "u8", [.simple "Top"]⟩} ∪
      (throughout ladder).arising {⟨.prim "u8", [.simple (rung 0)]⟩}) := by
    have hasked : Legible {q | q ∈ ([⟨.prim "u8", [.simple "Top"]⟩,
        ⟨.prim "u8", [.simple (rung 0)]⟩] : List Question)} :=
      legible_of_key_injective (by decide +kernel)
    rw [Set.empty_union]
    refine hasked.mono (Set.union_subset ?_ ?_)
    · exact (bare_ladder.arising_subset _ _).trans (by simp)
    · exact (bare_ladder.arising_subset _ _).trans (by simp)
  exact ⟨hlegible, (reachable_throughout bare_ladder).breaks hlegible hnames hzero htop hnot⟩

/-- As long as bytes are not small, integers are numbers and cannot be added. -/
theorem breaks_sums :
    Legible (∅ ∪ (sums []).arising {⟨.prim "i32", [.simple "Number"]⟩} ∪
        (sums []).arising {⟨.prim "i32", [.simple "Add"]⟩}) ∧
      Breaks ⟨sums [], []⟩ (.prim "i32") "Number" "Add" := by
  have hasked : ∀ q ∈ sumQuestions, (sums []).arising {q} ⊆ {q | q ∈ sumQuestions} :=
    fun q hq => arising_sums (by simp) hq
  have hlegible : Legible (∅ ∪ (sums []).arising {⟨.prim "i32", [.simple "Number"]⟩} ∪
      (sums []).arising {⟨.prim "i32", [.simple "Add"]⟩}) := by
    rw [Set.empty_union]
    exact legible_sumQuestions.mono
      (Set.union_subset (hasked _ (by decide)) (hasked _ (by decide)))
  have hnumber : (sums []).Satisfies (.prim "i32") (.simple "Number") := by
    have hcheck : (Registry.checkBounds ⟨sums [], []⟩ 3 (.prim "i32") [.simple "Number"]).map
        (fun p => p.2.isOk) = some true := by
      cbv
    exact reachable_sums.satisfies_of_checkBounds (hlegible.mono Set.subset_union_left) hcheck
  have hnot : ¬ (sums []).Satisfies (.prim "i32") (.simple "Add") := by
    -- the default argument is a byte, for which there is no implementation of `Small`
    intro h
    obtain ⟨-, hparams, -⟩ := (Catalog.satisfies_iff rfl rfl rfl).mp h
    have hsmall := hparams _ List.mem_cons_self _ List.mem_cons_self
    exact not_satisfies_of_select? rfl rfl rfl rfl hsmall
  have hnames : (sums []).supertraits "Number" = .ok ["Add"] := by cbv
  exact ⟨hlegible, reachable_sums.breaks hlegible hnames List.mem_cons_self hnumber hnot⟩

/-- The verdict on `X` and `Y: Z` is taken for the one on `X: Y` and `Z`. -/
theorem breaks_blurred :
    ∃ (r : Registry) (A : Set Question), r.Reachable A ∧ r.catalog = blurred ∧
      LegibleParts (A ∪ blurred.arising {⟨.named "X: Y" [] [], [.simple "Z"]⟩} ∪
        blurred.arising {⟨.named "X: Y" [] [], [.simple "W"]⟩}) ∧
      r.Breaks (.named "X: Y" [] []) "Z" "W" := by
  let r : Registry := ⟨blurred, [("X: Y: Z", ⟨4, .ok ()⟩)]⟩
  have hnew : Reachable ⟨blurred, []⟩ ∅ :=
    (((Reachable.new.declare ⟨"Y: Z", [], [], [], []⟩).declare ⟨"W", [], [], [], []⟩).declare
      ⟨"Z", [], [], [], ["W"]⟩).implement ⟨"Y: Z", .named "X" [] [], [], [], []⟩
  have hfirst : Registry.checkBounds ⟨blurred, []⟩ 3 (.named "X" [] []) [.simple "Y: Z"] =
      some (r, .ok ()) := by
    cbv
  have hsecond : r.checkBounds 3 (.named "X: Y" [] []) [.simple "Z"] = some (r, .ok ()) := by
    cbv
  have hnames : blurred.supertraits "Z" = .ok ["W"] := by cbv
  have hreach : r.Reachable _ := hnew.checkBounds hfirst
  have hsubset : ∅ ∪ blurred.arising {⟨.named "X" [] [], [.simple "Y: Z"]⟩} ∪
      blurred.arising {⟨.named "X: Y" [] [], [.simple "Z"]⟩} ∪
      blurred.arising {⟨.named "X: Y" [] [], [.simple "W"]⟩} ⊆ {q | q ∈ blurredQuestions} := by
    have hsingle : ∀ q ∈ blurredQuestions, ∀ b ∈ q.bounds, ⟨q.type, [b]⟩ ∈ blurredQuestions := by
      decide
    rw [Set.empty_union]
    exact Set.union_subset (Set.union_subset (arising_blurred hsingle (by decide))
      (arising_blurred hsingle (by decide))) (arising_blurred hsingle (by decide))
  refine ⟨r, _, hreach, rfl, legibleParts_of_subset hsubset (by decide +kernel) (by decide +kernel),
    3, r, ["W"], hsecond, hnames, List.mem_cons_self, fun depth r'' hok => ?_⟩
  -- the second check left no verdict of its own, and the question about `W` is not mistaken
  have hlegible : Legible (∅ ∪ blurred.arising {⟨.named "X" [] [], [.simple "Y: Z"]⟩} ∪
      blurred.arising {⟨.named "X: Y" [] [], [.simple "W"]⟩}) := by
    have hasked : Legible {q | q ∈ ([⟨.named "X" [] [], [.simple "Y: Z"]⟩,
        ⟨.named "X: Y" [] [], [.simple "W"]⟩] : List Question)} :=
      legible_of_key_injective (by decide +kernel)
    rw [Set.empty_union]
    exact hasked.mono (Set.union_subset (arising_blurred (by decide) (by decide))
      (arising_blurred (by decide) (by decide)))
  have hholds := (hreach.isOk_checkBounds_iff hlegible hok).mp rfl
  exact not_satisfies_of_select? rfl rfl rfl rfl (hholds _ List.mem_cons_self)

/-- All three conditions are needed. A check of the bound on a capability can succeed and none of the
bound on a supertrait does, because the supertraits of that one cannot be collected, because its
defaults do not fit, or because questions are written alike although types and bounds are told
apart. -/
theorem exists_checkBounds_ok_supertrait_fails :
    (Reachable ⟨throughout ladder, []⟩ ∅ ∧
      Legible (∅ ∪ (throughout ladder).arising {⟨.prim "u8", [.simple "Top"]⟩} ∪
        (throughout ladder).arising {⟨.prim "u8", [.simple (rung 0)]⟩}) ∧
      (throughout ladder).FitDefaults (rung 0) ∧
      Breaks ⟨throughout ladder, []⟩ (.prim "u8") "Top" (rung 0)) ∧
    (Reachable ⟨sums [], []⟩ ∅ ∧
      Legible (∅ ∪ (sums []).arising {⟨.prim "i32", [.simple "Number"]⟩} ∪
        (sums []).arising {⟨.prim "i32", [.simple "Add"]⟩}) ∧
      (sums []).supertraits "Add" = .ok [] ∧
      Breaks ⟨sums [], []⟩ (.prim "i32") "Number" "Add") ∧
    ∃ (r : Registry) (A : Set Question), r.Reachable A ∧
      LegibleParts (A ∪ r.catalog.arising {⟨.named "X: Y" [] [], [.simple "Z"]⟩} ∪
        r.catalog.arising {⟨.named "X: Y" [] [], [.simple "W"]⟩}) ∧
      r.catalog.supertraits "W" = .ok [] ∧ r.catalog.FitDefaults "W" ∧
      r.Breaks (.named "X: Y" [] []) "Z" "W" := by
  refine ⟨⟨reachable_throughout bare_ladder, breaks_ladder.1, ?_, breaks_ladder.2⟩,
    ⟨reachable_sums, breaks_sums.1, by cbv, breaks_sums.2⟩, ?_⟩
  · intro cap args hfind _ p hp
    simp [bare_ladder.params cap (List.mem_of_find?_eq_some hfind)] at hp
  · obtain ⟨r, A, hreach, hcatalog, hlegible, hbreaks⟩ := breaks_blurred
    rw [← hcatalog] at hlegible
    refine ⟨r, A, hreach, hlegible, ?_, ?_, hbreaks⟩
    · rw [hcatalog]
      cbv
    · intro cap args hfind _ p hp
      rw [hcatalog] at hfind
      obtain rfl := Option.some.inj hfind
      simp at hp

end Registry

end Generics
