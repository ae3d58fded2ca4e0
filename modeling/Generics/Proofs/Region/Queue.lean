import Generics.Proofs.Region.Preorder
import Generics.Proofs.Region.Solution

/-!
# What a pass looks at

A pass looks at the constraints and then at those that constraints on types come down to. Together
these are its *queue*, and a pass is one run over it. Later passes find nothing else to look at:
what waits is in the queue of the first pass, and a constraint that a type came down to comes down
to no others.

## Main results

* `RegionSolver.queue`, `RegionSolver.pass_eq`: a pass is one run over its queue;
* `RegionSolver.examine_eq_waits_iff`: a constraint waits as long as nothing can be said of it;
* `RegionSolver.Refused`: why a constraint fails;
* `RegionSolver.waiting_of_pass`: what waits for the next pass;
* `RegionSolver.solve_induction`: what each decision of a region variable keeps, solving keeps;
* `RegionSolver.passed_pass`, `RegionSolver.failed_pass`, `RegionSolver.undecided_waiting_pass`:
  what becomes of the constraints of the queue.
-/

namespace Generics.RegionSolver

variable {sv sv' sv'' : RegionSolver} {s : Subst} {c : RegionConstraint}
  {cs cs' : List RegionConstraint}

/-! ## The queue -/

/-- The constraints that a constraint on a type without inference variables comes down to. -/
def expansion (s : Subst) : RegionConstraint → List RegionConstraint
  | .outlives _ _ => []
  | .equal _ _ => []
  | .typeOutlives type region =>
    if (s.apply type).isGround then (s.apply type).regions.map fun r => .outlives r region else []

/-- The constraints that a pass looks at, in order. -/
def queue (s : Subst) (cs : List RegionConstraint) : List RegionConstraint :=
  cs ++ cs.flatMap (expansion s)

theorem subset_queue (s : Subst) (cs : List RegionConstraint) : cs ⊆ queue s cs :=
  List.subset_append_left _ _

/-- The queue holds the constraints and what they come down to. -/
theorem mem_queue_iff : c ∈ queue s cs ↔ c ∈ cs ∨ ∃ c' ∈ cs, c ∈ expansion s c' := by
  rw [queue, List.mem_append, List.mem_flatMap]

/-- What a constraint comes down to comes down to nothing else. -/
theorem expansion_of_mem_expansion {c' : RegionConstraint} (h : c ∈ expansion s c') :
    expansion s c = [] := by
  cases c' with
  | outlives longer shorter => cases h
  | equal a b => cases h
  | typeOutlives type region =>
    rw [expansion] at h
    split at h
    · obtain ⟨r, -, rfl⟩ := List.mem_map.mp h
      rfl
    · cases h

/-- Constraints that are queued anyway bring nothing new. -/
theorem queue_subset_queue (h : cs ⊆ queue s cs') : queue s cs ⊆ queue s cs' := by
  intro c hc
  rcases mem_queue_iff.mp hc with hc | ⟨c', hc', hc⟩
  · exact h hc
  · rcases mem_queue_iff.mp (h hc') with hmem | ⟨c'', -, hmem⟩
    · exact mem_queue_iff.mpr (.inr ⟨c', hmem, hc⟩)
    · -- `c'` is itself what a constraint on a type came down to
      rw [expansion_of_mem_expansion hmem] at hc
      cases hc

/-- Constraints in another order have the same queue, up to order. -/
theorem queue_perm (h : cs.Perm cs') : (queue s cs).Perm (queue s cs') :=
  h.append (h.flatMap_right _)

/-- All parts of a constraint are in the queue. -/
theorem mem_queue_of_mem_parts {part : RegionConstraint} (hc : c ∈ cs) (h : part ∈ parts s c) :
    part ∈ queue s cs := by
  cases c with
  | outlives longer shorter =>
    rw [List.mem_singleton.mp h]
    exact subset_queue s cs hc
  | equal a b =>
    rw [List.mem_singleton.mp h]
    exact subset_queue s cs hc
  | typeOutlives type region =>
    by_cases hground : (s.apply type).isGround = true
    · rw [parts, if_pos hground] at h
      refine mem_queue_iff.mpr (.inr ⟨_, hc, ?_⟩)
      rwa [expansion, if_pos hground]
    · rw [parts, if_neg hground] at h
      rw [List.mem_singleton.mp h]
      exact subset_queue s cs hc

/-! ## One look -/

instance (sv : RegionSolver) (r : Region) : Decidable (sv.IsUnresolved r) :=
  inferInstanceAs (Decidable (_ ∧ _))

instance (sv : RegionSolver) (s : Subst) : DecidablePred (sv.Undecided s)
  | .outlives _ _ => inferInstanceAs (Decidable (_ ∧ _))
  | .equal _ _ => inferInstanceAs (Decidable (_ ∧ _))
  | .typeOutlives _ _ => inferInstanceAs (Decidable (_ ≠ _))

/-- What is unresolved later was unresolved before. -/
theorem IsUnresolved.of_grows {r : Region} (h : sv'.IsUnresolved r) (hgrows : sv.Grows sv') :
    sv.IsUnresolved r := by
  rw [← known_eq_none_iff] at h ⊢
  refine Option.eq_none_iff_forall_ne_some.mpr fun a ha => ?_
  rw [hgrows.known ha] at h
  cases h

/-- What is undecided in the end was undecided all the time. -/
theorem Undecided.of_grows (h : sv'.Undecided s c) (hgrows : sv.Grows sv') : sv.Undecided s c := by
  cases c with
  | outlives longer shorter => exact ⟨h.1.of_grows hgrows, h.2.of_grows hgrows⟩
  | equal a b => exact ⟨h.1.of_grows hgrows, h.2.of_grows hgrows⟩
  | typeOutlives type region => exact h

/-- A constraint waits exactly as long as nothing can be said of it. -/
theorem examine_eq_waits_iff : sv.examine s c = .ok .waits ↔ sv.Undecided s c := by
  refine ⟨fun h => ?_, fun h => ?_⟩
  · cases examined h with
    | waits hundecided => exact hundecided
  · cases c with
    | outlives longer shorter =>
      rw [examine, known_eq_none_iff.mpr h.1, known_eq_none_iff.mpr h.2]
    | equal a b =>
      rw [examine, known_eq_none_iff.mpr h.1, known_eq_none_iff.mpr h.2]
    | typeOutlives type region =>
      have hground : ¬ (s.apply type).isGround = true :=
        fun hground => h (Ty.isGround_iff.mp hground)
      simp only [examine, if_neg hground]

/-- The constraint is between the two regions, in either order. -/
def Joins (c : RegionConstraint) (x y : Region) : Prop :=
  c = .outlives x y ∨ c = .outlives y x ∨ c = .equal x y ∨ c = .equal y x

/-- Both sides of a constraint are joined to each other. -/
theorem Joins.symm {x y : Region} (h : Joins c x y) : Joins c y x := by
  rcases h with h | h | h | h
  · exact .inr (.inl h)
  · exact .inl h
  · exact .inr (.inr (.inr h))
  · exact .inr (.inr (.inl h))

/-- A constraint that is undecided is between undecided region variables. -/
theorem Undecided.isUnresolved {x y : Region} (h : sv.Undecided s c) (hjoins : Joins c x y) :
    sv.IsUnresolved x := by
  rcases hjoins with rfl | rfl | rfl | rfl
  · exact h.1
  · exact h.2
  · exact h.1
  · exact h.2

/-- A constraint that holds is between known regions. -/
theorem Holds.exists_known {x y : Region} (h : sv.Holds c) (hjoins : Joins c x y) :
    ∃ a, sv.known x = some a := by
  rcases hjoins with rfl | rfl | rfl | rfl
  · obtain ⟨a, b, ha, -⟩ := h
    exact ⟨a, ha⟩
  · obtain ⟨b, a, -, ha, -⟩ := h
    exact ⟨a, ha⟩
  · obtain ⟨⟨a, b, ha, -⟩, -⟩ := h
    exact ⟨a, ha⟩
  · obtain ⟨-, a, b, ha, -⟩ := h
    exact ⟨a, ha⟩

/-- A constraint that decides a region variable is between it and a known region. -/
theorem joins_of_decides {v r : Region} (h : sv.examine s c = .ok (.decides v r)) :
    ∃ x, Joins c v x ∧ sv.known v = none ∧ sv.known x = some r := by
  cases c with
  -- the cases of `examine`: both known, one known, none known
  | outlives longer shorter =>
    rw [examine] at h
    split at h
    · split at h
      · cases h
      · split at h <;> cases h
    · rename_i a ha hb
      cases h
      exact ⟨longer, .inr (.inl rfl), hb, ha⟩
    · rename_i b ha hb
      cases h
      exact ⟨shorter, .inl rfl, ha, hb⟩
    · cases h
  | equal x y =>
    rw [examine] at h
    split at h
    · split at h <;> cases h
    · rename_i a ha hb
      cases h
      exact ⟨x, .inr (.inr (.inr rfl)), hb, ha⟩
    · rename_i b ha hb
      cases h
      exact ⟨y, .inr (.inr (.inl rfl)), ha, hb⟩
    · cases h
  | typeOutlives type region =>
    simp only [examine] at h
    split at h <;> cases h

/-- A constraint between a region that is not known and one that is decides the first. -/
theorem examine_of_joins {v x r : Region} (hjoins : Joins c v x) (hv : sv.known v = none)
    (hx : sv.known x = some r) : sv.examine s c = .ok (.decides v r) := by
  rcases hjoins with rfl | rfl | rfl | rfl <;> rw [examine, hv, hx]

/-- A constraint between regions that is in the queue is part of one of the constraints. -/
theorem exists_mem_parts_of_joins {x y : Region} (h : c ∈ queue s cs) (hjoins : Joins c x y) :
    ∃ c' ∈ cs, c ∈ parts s c' := by
  rcases mem_queue_iff.mp h with hc | ⟨c', hc', hexpansion⟩
  · refine ⟨c, hc, ?_⟩
    rcases hjoins with rfl | rfl | rfl | rfl <;> exact List.mem_singleton_self _
  · refine ⟨c', hc', ?_⟩
    cases c' with
    | outlives _ _ => cases hexpansion
    | equal _ _ => cases hexpansion
    | typeOutlives type region =>
      rw [expansion] at hexpansion
      split at hexpansion
      · rename_i hground
        rwa [parts, if_pos hground]
      · cases hexpansion

/-- Why a constraint fails: a region is not named, or one does not outlive the other. -/
inductive Refused (sv : RegionSolver) : RegionConstraint → Error → Prop
  | unnamed {longer shorter a b : Region} (hlonger : sv.known longer = some a)
      (hshorter : sv.known shorter = some b)
      (h : ¬ (sv.isNamed a = true ∧ sv.isNamed b = true)) :
      Refused sv (.outlives longer shorter) (.unknownLifetimeBound a.name b.name)
  | violated {longer shorter a b : Region} (hlonger : sv.known longer = some a)
      (hshorter : sv.known shorter = some b)
      (h : ¬ RegionParam.Outlives (RegionParam.edges sv.params) a b) :
      Refused sv (.outlives longer shorter) (.regionConstraintViolated a.name b.name)
  | unequal {x y a b : Region} (hx : sv.known x = some a) (hy : sv.known y = some b)
      (h : ¬ (RegionParam.Outlives (RegionParam.edges sv.params) a b ∧
        RegionParam.Outlives (RegionParam.edges sv.params) b a)) :
      Refused sv (.equal x y) (.regionConstraintViolated a.name b.name)

/-- The solver looks at the declared bounds only. -/
theorem outlives_eq_true_iff {a b : Region} :
    sv.outlives a b = true ↔ RegionParam.Outlives (RegionParam.edges sv.params) a b :=
  RegionParam.outlives_iff

/-- If what two regions stand for is known, the bounds lead from one to the other. -/
theorem Outlive.path {x y a b : Region} (h : sv.Outlive x y) (hx : sv.known x = some a)
    (hy : sv.known y = some b) : RegionParam.Outlives (RegionParam.edges sv.params) a b := by
  obtain ⟨a', b', ha', hb', hpath⟩ := h
  rwa [Option.some.inj (hx.symm.trans ha'), Option.some.inj (hy.symm.trans hb')]

/-- A constraint that holds fails only if a region is not named. -/
theorem Refused.exists_unnamed {e : Error} (h : sv.Refused c e) (hholds : sv.Holds c) :
    ∃ longer shorter a b, c = .outlives longer shorter ∧ sv.known longer = some a ∧
      sv.known shorter = some b ∧ ¬ (sv.isNamed a = true ∧ sv.isNamed b = true) ∧
      e = .unknownLifetimeBound a.name b.name := by
  cases h with
  | unnamed hlonger hshorter hnamed => exact ⟨_, _, _, _, rfl, hlonger, hshorter, hnamed, rfl⟩
  | violated hlonger hshorter hpath => exact absurd (Outlive.path hholds hlonger hshorter) hpath
  | unequal hx hy hpath => exact absurd ⟨hholds.1.path hx hy, hholds.2.path hy hx⟩ hpath

/-- A look fails for no other reason. -/
theorem refused {e : Error} (h : sv.examine s c = .error e) : sv.Refused c e := by
  -- with an unknown region a look succeeds, so only the first branch of each kind is left
  cases c with
  | outlives longer shorter =>
    rw [examine] at h
    split at h
    · rename_i a b ha hb
      split at h
      · rename_i hnamed
        cases h
        exact .unnamed ha hb fun hboth => by simp [hboth] at hnamed
      · split at h
        · cases h
        · rename_i hab
          cases h
          exact .violated ha hb fun hpath => hab (outlives_eq_true_iff.mpr hpath)
    · cases h
    · cases h
    · cases h
  | equal x y =>
    rw [examine] at h
    split at h
    · rename_i a b ha hb
      split at h
      · cases h
      · rename_i hab
        cases h
        refine .unequal ha hb fun hboth => hab ?_
        rw [outlives_eq_true_iff.mpr hboth.1, outlives_eq_true_iff.mpr hboth.2, Bool.and_self]
    · cases h
    · cases h
    · cases h
  | typeOutlives type region =>
    simp only [examine] at h
    split at h
    · cases h
    · cases h

/-- Solving does not change which regions are named. -/
theorem Grows.isNamed_eq (h : sv.Grows sv') (r : Region) : sv'.isNamed r = sv.isNamed r := by
  obtain ⟨resolution, rfl⟩ := h.exists_eq
  rfl

/-- Known regions pass an outlives constraint only if they are named. -/
theorem isNamed_of_examine {longer shorter a b : Region} {o : Outcome}
    (hlonger : sv.known longer = some a) (hshorter : sv.known shorter = some b)
    (h : sv.examine s (.outlives longer shorter) = .ok o) :
    sv.isNamed a = true ∧ sv.isNamed b = true := by
  rw [examine, hlonger, hshorter] at h
  by_cases hnamed : (sv.isNamed a && sv.isNamed b) = true
  · exact Bool.and_eq_true_iff.mp hnamed
  · simp only [Bool.not_eq_true] at hnamed
    simp only [hnamed, Bool.not_false, if_true] at h
    cases h

/-- An undecided constraint comes down to no others. -/
theorem expansion_of_undecided (h : sv.Undecided s c) : expansion s c = [] := by
  cases c with
  | outlives longer shorter => rfl
  | equal a b => rfl
  | typeOutlives type region => exact if_neg fun hground => h (Ty.isGround_iff.mp hground)

/-- Constraints that are undecided, now or earlier, come down to no others. -/
theorem queue_eq_self (h : ∀ c ∈ cs, sv.Undecided s c) : queue s cs = cs := by
  have hexpansion : cs.flatMap (expansion s) = [] :=
    List.flatMap_eq_nil_iff.mpr fun c hc => expansion_of_undecided (h c hc)
  rw [queue, hexpansion, List.append_nil]

/-- A constraint that holds comes down to no others. -/
theorem expansion_of_holds (h : sv.Holds c) : expansion s c = [] := by
  cases c with
  | outlives longer shorter => rfl
  | equal a b => rfl
  | typeOutlives type region => exact h.elim

/-- A look adds what the constraint comes down to. -/
theorem Examined.expanded_eq {p : Pass} {o : Outcome} (h : p.solver.Examined s c o) :
    (p.after c o).expanded = p.expanded ++ expansion s c := by
  cases h with
  | waits hundecided => rw [expansion_of_undecided hundecided, List.append_nil]; rfl
  | holds hholds => rw [expansion_of_holds hholds, List.append_nil]; rfl
  | decides _ _ hholds => rw [expansion_of_holds hholds, List.append_nil]; rfl
  | expands hground => rw [expansion, if_pos hground]; rfl

/-! ## A pass is one run over its queue -/

/-- A pass that succeeds examines its first constraint and goes on with what comes of it. -/
theorem exists_examine_of_over_cons {p p' : Pass} (h : Pass.over s p (c :: cs) = (p', .ok ())) :
    ∃ o, p.solver.examine s c = .ok o ∧ Pass.over s (p.after c o) cs = (p', .ok ()) := by
  cases hexamine : p.solver.examine s c with
  | error e =>
    rw [over_cons_of_error hexamine] at h
    cases h
  | ok o =>
    rw [over_cons_of_ok hexamine] at h
    exact ⟨o, rfl, h⟩

/-- A pass over the first constraints that succeeds goes on with the others. -/
theorem over_append_of_ok {p p' : Pass} (h : Pass.over s p cs = (p', .ok ())) :
    Pass.over s p (cs ++ cs') = Pass.over s p' cs' := by
  induction cs generalizing p with
  | nil =>
    cases h
    rfl
  | cons c cs ih =>
    obtain ⟨o, hexamine, h⟩ := exists_examine_of_over_cons h
    rw [List.cons_append, over_cons_of_ok hexamine, ih h]

/-- A pass that fails does not come to the constraints behind. -/
theorem over_append_of_error {p p' : Pass} {e : Error} (h : Pass.over s p cs = (p', .error e)) :
    Pass.over s p (cs ++ cs') = (p', .error e) := by
  induction cs generalizing p with
  | nil => cases h
  | cons c cs ih =>
    cases hexamine : p.solver.examine s c with
    | error e' =>
      rw [over_cons_of_error hexamine] at h
      rw [List.cons_append, over_cons_of_error hexamine, h]
    | ok o =>
      rw [over_cons_of_ok hexamine] at h
      rw [List.cons_append, over_cons_of_ok hexamine, ih h]

/-- Going over constraints collects what they come down to, in order. -/
theorem expanded_over {p p' : Pass} (h : Pass.over s p cs = (p', .ok ())) :
    p'.expanded = p.expanded ++ cs.flatMap (expansion s) := by
  induction cs generalizing p with
  | nil =>
    cases h
    rw [List.flatMap_nil, List.append_nil]
  | cons c cs ih =>
    obtain ⟨o, hexamined, h⟩ := exists_of_over_cons_eq_ok h
    rw [ih h, hexamined.expanded_eq, List.flatMap_cons, List.append_assoc]

/-- What others have become so far makes no difference to what follows. -/
theorem over_expanded (s : Subst) (p : Pass) (old : List RegionConstraint)
    (cs : List RegionConstraint) :
    ∃ new, Pass.over s { p with expanded := old } cs =
      ({ (Pass.over s p cs).1 with expanded := new }, (Pass.over s p cs).2) := by
  -- a look reads the solver alone, which both runs share
  induction cs generalizing p old with
  | nil => exact ⟨old, rfl⟩
  | cons c cs ih =>
    cases hexamine : p.solver.examine s c with
    | error e =>
      rw [over_cons_of_error hexamine,
        over_cons_of_error (p := { p with expanded := old }) hexamine]
      exact ⟨old, rfl⟩
    | ok o =>
      rw [over_cons_of_ok hexamine, over_cons_of_ok (p := { p with expanded := old }) hexamine]
      cases o with
      | waits => exact ih (p.after c .waits) old
      | holds => exact ih (p.after c .holds) old
      | decides v r => exact ih (p.after c (.decides v r)) old
      | expands new => exact ih (p.after c (.expands new)) (old ++ new)

/-- A pass that fails at the constraints themselves does not look at what they come down to. -/
theorem pass_of_over_error {p : Pass} {e : Error}
    (h : Pass.over s { solver := sv } cs = (p, .error e)) : sv.pass s cs = (p, .error e) := by
  rw [pass, h]

/-- A pass goes over the constraints first and then over what they come down to. -/
theorem pass_of_over_ok {p : Pass} (h : Pass.over s { solver := sv } cs = (p, .ok ())) :
    sv.pass s cs = Pass.over s { p with expanded := [] } p.expanded := by
  rw [pass, h]

/-- A pass is one run over its queue. -/
theorem pass_eq (sv : RegionSolver) (s : Subst) (cs : List RegionConstraint) :
    ∃ new, sv.pass s cs = ({ (Pass.over s { solver := sv } (queue s cs)).1 with expanded := new },
      (Pass.over s { solver := sv } (queue s cs)).2) := by
  rcases hfirst : Pass.over s { solver := sv } cs with ⟨p, outcome⟩
  cases outcome with
  | error e =>
    -- the pass ends here, and what would follow in the queue is not looked at
    refine ⟨p.expanded, ?_⟩
    rw [queue, over_append_of_error hfirst, pass_of_over_error hfirst]
  | ok _ =>
    obtain ⟨new, hsecond⟩ := over_expanded s p [] (cs.flatMap (expansion s))
    refine ⟨new, ?_⟩
    rw [queue, over_append_of_ok hfirst, ← hsecond, pass_of_over_ok hfirst, expanded_over hfirst,
      List.nil_append]

/-! ## What waits -/

/-- What waits is added at the end, in the order in which it was looked at. It was undecided from
the start. -/
theorem waiting_over (s : Subst) (p : Pass) (cs : List RegionConstraint) :
    ∃ more, (Pass.over s p cs).1.waiting = p.waiting ++ more ∧ more.Sublist cs ∧
      ∀ c ∈ more, p.solver.Undecided s c := by
  induction cs generalizing p with
  | nil => exact ⟨[], (List.append_nil _).symm, .slnil, by simp⟩
  | cons c cs ih =>
    cases hexamine : p.solver.examine s c with
    | error e =>
      rw [over_cons_of_error hexamine]
      exact ⟨[], (List.append_nil _).symm, List.nil_sublist _, by simp⟩
    | ok o =>
      rw [over_cons_of_ok hexamine]
      obtain ⟨more, hwaiting, hsublist, hlater⟩ := ih (p.after c o)
      -- what is undecided after this look was so before it
      have hundecided : ∀ c ∈ more, p.solver.Undecided s c :=
        fun c hc => (hlater c hc).of_grows (examined hexamine).grows_after
      cases o with
      | waits =>
        refine ⟨c :: more, ?_, hsublist.cons_cons c, List.forall_mem_cons.mpr ⟨?_, hundecided⟩⟩
        · rw [hwaiting, List.append_cons]
          rfl
        · exact examine_eq_waits_iff.mp hexamine
      | holds => exact ⟨more, hwaiting, hsublist.cons c, hundecided⟩
      | decides v r => exact ⟨more, hwaiting, hsublist.cons c, hundecided⟩
      | expands new => exact ⟨more, hwaiting, hsublist.cons c, hundecided⟩

/-- A pass only adds to the resolution. -/
theorem grows_of_pass {p : Pass} {outcome : Except Error Unit} (h : sv.pass s cs = (p, outcome)) :
    sv.Grows p.solver := by
  have hgrows := grows_pass sv s cs
  rwa [h] at hgrows

/-- What waits for the next pass was in the queue and undecided when the pass began. -/
theorem waiting_of_pass {p : Pass} {outcome : Except Error Unit} (h : sv.pass s cs = (p, outcome)) :
    p.waiting.Sublist (queue s cs) ∧ ∀ c ∈ p.waiting, sv.Undecided s c := by
  obtain ⟨new, hpass⟩ := pass_eq sv s cs
  obtain ⟨more, hwaiting, hsublist, hundecided⟩ := waiting_over s { solver := sv } (queue s cs)
  rw [h] at hpass
  obtain ⟨rfl, -⟩ := Prod.mk.inj hpass
  simp only [hwaiting, List.nil_append]
  exact ⟨hsublist, hundecided⟩

/-- The next pass finds nothing new to look at. -/
theorem queue_waiting_subset {p : Pass} {outcome : Except Error Unit}
    (h : sv.pass s cs = (p, outcome)) : queue s p.waiting ⊆ queue s cs :=
  queue_subset_queue (waiting_of_pass h).1.subset

/-! ## What a run keeps -/

/-- What binding a region preserves, wherever a constraint decides it, holds after going over
constraints. -/
theorem over_induction {motive : RegionSolver → Prop}
    (hstep : ∀ sv c v r, c ∈ cs → sv.examine s c = .ok (.decides v r) → motive sv →
      motive (sv.bind v r))
    {p : Pass} (hp : motive p.solver) : motive (Pass.over s p cs).1.solver := by
  induction cs generalizing p with
  | nil => exact hp
  | cons c cs ih =>
    have htail := @ih fun sv c' v r hc' => hstep sv c' v r (List.mem_cons_of_mem c hc')
    cases hexamine : p.solver.examine s c with
    | error e =>
      rw [over_cons_of_error hexamine]
      exact hp
    | ok o =>
      rw [over_cons_of_ok hexamine]
      refine htail ?_
      cases o with
      | waits => exact hp
      | holds => exact hp
      | decides v r => exact hstep p.solver c v r List.mem_cons_self hexamine hp
      | expands new => exact hp

/-- What binding a region preserves, wherever a queued constraint decides it, holds after a pass. -/
theorem pass_induction {motive : RegionSolver → Prop}
    (hstep : ∀ sv c v r, c ∈ queue s cs → sv.examine s c = .ok (.decides v r) → motive sv →
      motive (sv.bind v r))
    (hsv : motive sv) : motive (sv.pass s cs).1.solver := by
  obtain ⟨new, hpass⟩ := pass_eq sv s cs
  rw [hpass]
  exact over_induction hstep hsv

/-- What binding a region preserves, wherever a queued constraint decides it, holds after any number
of passes. -/
theorem passes_induction {motive : RegionSolver → Prop}
    (hstep : ∀ sv c v r, c ∈ queue s cs → sv.examine s c = .ok (.decides v r) → motive sv →
      motive (sv.bind v r))
    (hsv : motive sv) (count remaining : Nat) : motive (passes s sv count cs remaining).1 := by
  induction remaining generalizing sv count cs with
  | zero =>
    unfold passes
    split
    · exact hsv
    · exact hsv
  | succ remaining ih =>
    have hpass := pass_induction hstep hsv
    unfold passes
    split
    · exact hsv
    · split
      · rename_i hrun
        rwa [hrun] at hpass
      · rename_i p hrun
        rw [hrun] at hpass
        split
        · -- the passes that follow look only at constraints of the same queue
          exact ih (fun sv c v r hc => hstep sv c v r (queue_waiting_subset hrun hc)) hpass _
        · exact hpass

/-- What solving keeps is what it keeps each time that a constraint of the queue decides a region
variable. -/
theorem solve_induction {motive : RegionSolver → Prop}
    (hstep : ∀ sv' c v r, c ∈ queue s sv.constraints → sv'.examine s c = .ok (.decides v r) →
      motive sv' → motive (sv'.bind v r))
    (hsv : motive sv) : motive (sv.solve s).1 := by
  have hpasses := passes_induction hstep hsv 0 sv.limit.toNat
  unfold solve
  split
  · rename_i hrun
    rwa [hrun] at hpasses
  · rename_i hrun
    rwa [hrun] at hpasses

/-! ## What becomes of each constraint -/

/-- On the way from one solver to the other the constraint was looked at and did not have to wait.
-/
def Passed (sv sv' : RegionSolver) (s : Subst) (c : RegionConstraint) : Prop :=
  ∃ sv₁ o, sv.Grows sv₁ ∧ sv₁.examine s c = .ok o ∧ o ≠ .waits ∧ (sv₁.heed o).Grows sv'

/-- A constraint that was passed on a part of the way was passed on the whole of it. -/
theorem Passed.mono {sv₀ : RegionSolver} (h : Passed sv sv' s c) (hbefore : sv₀.Grows sv)
    (hafter : sv'.Grows sv'') : Passed sv₀ sv'' s c := by
  obtain ⟨sv₁, o, hgrows, hexamine, hwaits, hgrows'⟩ := h
  exact ⟨sv₁, o, hbefore.trans hgrows, hexamine, hwaits, hgrows'.trans hafter⟩

/-- On the way the solver only grew. -/
theorem Passed.grows (h : Passed sv sv' s c) : sv.Grows sv' := by
  obtain ⟨sv₁, o, hgrows, hexamine, -, hgrows'⟩ := h
  exact (hgrows.trans (examined hexamine).grows_heed).trans hgrows'

/-- A constraint that was looked at for good holds, unless it is on a type. -/
theorem Passed.holds (h : Passed sv sv' s c) :
    sv'.Holds c ∨
      ∃ type region, c = .typeOutlives type region ∧ (s.apply type).isGround = true := by
  obtain ⟨sv₁, o, -, hexamine, hwaits, hgrows⟩ := h
  cases examined hexamine with
  | waits => exact absurd rfl hwaits
  | holds hholds => exact .inl (hholds.grows hgrows)
  | decides _ _ hholds => exact .inl (hholds.grows hgrows)
  | expands hground => exact .inr ⟨_, _, rfl, hground⟩

/-- Each constraint that a pass goes over waits in the end or was passed. -/
theorem passed_over {p p' : Pass} (h : Pass.over s p cs = (p', .ok ())) :
    ∀ c ∈ cs, c ∈ p'.waiting ∨ Passed p.solver p'.solver s c := by
  induction cs generalizing p with
  | nil => simp
  | cons c cs ih =>
    obtain ⟨o, hexamine, hrest⟩ := exists_examine_of_over_cons h
    have hfirst : p.solver.Grows (p.after c o).solver := (examined hexamine).grows_after
    have hgrows : (p.after c o).solver.Grows p'.solver := by
      have hrun := grows_over s (p.after c o) cs
      rwa [hrest] at hrun
    refine List.forall_mem_cons.mpr ⟨?_, fun c' hc' => ?_⟩
    · by_cases hwaits : o = .waits
      · -- what waits once waits to the end of the pass
        subst hwaits
        obtain ⟨more, hwaiting, -⟩ := waiting_over s (p.after c .waits) cs
        rw [hrest] at hwaiting
        left
        rw [hwaiting]
        exact List.mem_append_left _ (List.mem_append_right _ List.mem_cons_self)
      · rw [solver_after] at hgrows
        exact .inr ⟨p.solver, o, .refl, hexamine, hwaits, hgrows⟩
    · exact (ih hrest c' hc').imp_right fun hpassed => hpassed.mono hfirst .refl

/-- A pass that succeeds is a run over its queue that succeeds. -/
theorem exists_over_of_pass {p : Pass} (h : sv.pass s cs = (p, .ok ())) :
    ∃ p', Pass.over s { solver := sv } (queue s cs) = (p', .ok ()) ∧ p'.solver = p.solver ∧
      p'.waiting = p.waiting ∧ p'.decided = p.decided := by
  obtain ⟨new, hpass⟩ := pass_eq sv s cs
  rcases hover : Pass.over s { solver := sv } (queue s cs) with ⟨p', outcome⟩
  rw [hover, h] at hpass
  obtain ⟨rfl, rfl⟩ := Prod.mk.inj hpass
  exact ⟨p', rfl, rfl, rfl, rfl⟩

/-- Each constraint of the queue waits, or it has been looked at for good. -/
theorem passed_pass {p : Pass} (h : sv.pass s cs = (p, .ok ())) :
    ∀ c ∈ queue s cs, c ∈ p.waiting ∨ Passed sv p.solver s c := by
  obtain ⟨p', hover, hsolver, hwaiting, -⟩ := exists_over_of_pass h
  rw [← hsolver, ← hwaiting]
  exact passed_over hover

/-- A pass fails at one of its constraints. -/
theorem failed_over {p p' : Pass} {e : Error} (h : Pass.over s p cs = (p', .error e)) :
    ∃ c ∈ cs, p'.solver.examine s c = .error e := by
  induction cs generalizing p with
  | nil => cases h
  | cons c cs ih =>
    cases hexamine : p.solver.examine s c with
    | error e' =>
      rw [over_cons_of_error hexamine] at h
      cases h
      exact ⟨c, List.mem_cons_self, hexamine⟩
    | ok o =>
      rw [over_cons_of_ok hexamine] at h
      obtain ⟨c', hc', hfails⟩ := ih h
      exact ⟨c', List.mem_cons_of_mem c hc', hfails⟩

/-- A pass fails at a constraint of its queue. -/
theorem failed_pass {p : Pass} {e : Error} (h : sv.pass s cs = (p, .error e)) :
    ∃ c ∈ queue s cs, p.solver.examine s c = .error e := by
  obtain ⟨new, hpass⟩ := pass_eq sv s cs
  rcases hover : Pass.over s { solver := sv } (queue s cs) with ⟨p', outcome⟩
  rw [hover, h] at hpass
  obtain ⟨rfl, rfl⟩ := Prod.mk.inj hpass
  have hfails := failed_over hover
  exact hfails

/-- Of the constraints that wait, those that stay undecided are those of the list that stay
undecided. -/
theorem undecided_waiting_over {p p' : Pass} (h : Pass.over s p cs = (p', .ok ()))
    (hgrows : p'.solver.Grows sv'') :
    p'.waiting.filter (sv''.Undecided s) = (p.waiting ++ cs).filter (sv''.Undecided s) := by
  induction cs generalizing p with
  | nil =>
    cases h
    rw [List.append_nil]
  | cons c cs ih =>
    obtain ⟨o, hexamine, hrest⟩ := exists_examine_of_over_cons h
    rw [ih hrest]
    by_cases hwaits : o = .waits
    · subst hwaits
      rw [List.append_cons]
      rfl
    · -- what did not wait was decided then and is decided in the end
      have hdecided : ¬ sv''.Undecided s c := by
        intro hundecided
        have hrun := grows_over s p (c :: cs)
        rw [h] at hrun
        have hwaiting := examine_eq_waits_iff.mpr (hundecided.of_grows (hrun.trans hgrows))
        exact hwaits (Except.ok.inj (hexamine.symm.trans hwaiting))
      have hsame : (p.after c o).waiting = p.waiting := by
        cases o with
        | waits => exact absurd rfl hwaits
        | holds => rfl
        | decides v r => rfl
        | expands new => rfl
      rw [hsame, List.filter_append, List.filter_append,
        List.filter_cons_of_neg (by simpa using hdecided)]

/-- What can not be decided even later is left waiting, in the order of the queue. -/
theorem undecided_waiting_pass {p : Pass} (h : sv.pass s cs = (p, .ok ()))
    (hgrows : p.solver.Grows sv'') :
    p.waiting.filter (sv''.Undecided s) = (queue s cs).filter (sv''.Undecided s) := by
  obtain ⟨p', hover, hsolver, hwaiting, -⟩ := exists_over_of_pass h
  rw [← hsolver] at hgrows
  rw [← hwaiting]
  exact undecided_waiting_over hover hgrows

end Generics.RegionSolver
