import Generics.Proofs.Evaluation
import Generics.Proofs.Region.Reachable

/-!
# Solutions of region constraints

Solving passes over the constraints and looks again only at those that had to wait, and at those
that constraints on types came down to. What was found to hold is not looked at again, although
region variables are decided afterwards. A solution is right all the same: each constraint holds in
the end, or it is left and cannot be decided.

## Main results

* `RegionSolver.parts`: the constraints between regions that a constraint comes down to;
* `RegionSolver.settled_pass`: after a pass each part of a constraint holds or waits;
* `RegionSolver.undecided_pass`: a pass that decides nothing finds nothing that can be decided;
* `RegionSolver.Reachable.solve_sound`: what is not left holds, and what is left is undecided.
-/

namespace Generics.RegionSolver

variable {sv sv' : RegionSolver} {s : Subst} {c : RegionConstraint}

/-! ## Parts of a constraint -/

/-- What a constraint comes down to: a constraint on a type without inference variables is one for
each region of the type, and any other constraint is taken as it is. -/
def parts (s : Subst) : RegionConstraint → List RegionConstraint
  | .outlives longer shorter => [.outlives longer shorter]
  | .equal a b => [.equal a b]
  | .typeOutlives type region =>
    if (s.apply type).isGround then (s.apply type).regions.map fun r => .outlives r region
    else [.typeOutlives type region]

/-- Each part of the constraint holds or is left. -/
def Settled (sv : RegionSolver) (s : Subst) (left : List RegionConstraint)
    (c : RegionConstraint) : Prop :=
  ∀ part ∈ parts s c, part ∈ left ∨ sv.Holds part

/-- An undecided constraint comes down to itself. -/
theorem parts_of_undecided (h : sv.Undecided s c) : parts s c = [c] := by
  cases c with
  | outlives longer shorter => rfl
  | equal a b => rfl
  | typeOutlives type region => exact if_neg fun hground => h (Ty.isGround_iff.mp hground)

/-- A constraint that holds comes down to itself. -/
theorem parts_of_holds (h : sv.Holds c) : parts s c = [c] := by
  cases c with
  | outlives longer shorter => rfl
  | equal a b => rfl
  | typeOutlives type region => exact h.elim

/-- A part has no other parts. -/
theorem mem_parts_self {part : RegionConstraint} (h : part ∈ parts s c) : part ∈ parts s part := by
  cases c with
  | outlives longer shorter =>
    rw [List.mem_singleton.mp h]
    exact List.mem_cons_self
  | equal a b =>
    rw [List.mem_singleton.mp h]
    exact List.mem_cons_self
  | typeOutlives type region =>
    by_cases hground : (s.apply type).isGround = true
    · rw [parts, if_pos hground] at h
      obtain ⟨r, -, rfl⟩ := List.mem_map.mp h
      exact List.mem_cons_self
    · have hparts : parts s (.typeOutlives type region) = [.typeOutlives type region] :=
        if_neg hground
      rw [hparts, List.mem_singleton] at h
      rw [h, hparts]
      exact List.mem_cons_self

/-- Settling need not be repeated as long as what is left stays left. -/
theorem Settled.mono {left left' : List RegionConstraint} (h : sv.Settled s left c)
    (hgrows : sv.Grows sv') (hleft : left ⊆ left') : sv'.Settled s left' c := by
  intro part hpart
  rcases h part hpart with hmem | hholds
  · exact .inl (hleft hmem)
  · exact .inr (hholds.grows hgrows)

/-- Settling what is left settles the constraints that left it. -/
theorem Settled.trans {left left' : List RegionConstraint} (h : sv.Settled s left c)
    (hgrows : sv.Grows sv') (hleft : ∀ c' ∈ left, c' ∈ left' ∨ sv'.Settled s left' c') :
    sv'.Settled s left' c := by
  intro part hpart
  rcases h part hpart with hmem | hholds
  · rcases hleft part hmem with hmem | hsettled
    · exact .inl hmem
    · exact hsettled part (mem_parts_self hpart)
  · exact .inr (hholds.grows hgrows)

/-! ## One pass -/

/-- The constraints that a pass leaves to be looked at. -/
def Pass.left (p : Pass) : List RegionConstraint := p.waiting ++ p.expanded

/-- A pass that succeeds examines the first constraint and goes on from there. -/
theorem exists_of_over_cons_eq_ok {p p' : Pass} {cs : List RegionConstraint}
    (h : Pass.over s p (c :: cs) = (p', .ok ())) :
    ∃ o, p.solver.Examined s c o ∧ Pass.over s (p.after c o) cs = (p', .ok ()) := by
  cases hexamine : p.solver.examine s c with
  | error e =>
    rw [over_cons_of_error hexamine] at h
    cases h
  | ok o =>
    rw [over_cons_of_ok hexamine] at h
    exact ⟨o, examined hexamine, h⟩

/-- What is left after some constraints is still left after the next one. -/
theorem left_subset_after (p : Pass) (c : RegionConstraint) (o : Outcome) :
    p.left ⊆ (p.after c o).left := by
  intro c' hc'
  cases o with
  | waits =>
    rcases List.mem_append.mp hc' with hwaits | hexpanded
    · exact List.mem_append_left _ (List.mem_append_left _ hwaits)
    · exact List.mem_append_right _ hexpanded
  | holds => exact hc'
  | decides v r => exact hc'
  | expands new =>
    rcases List.mem_append.mp hc' with hwaits | hexpanded
    · exact List.mem_append_left _ hwaits
    · exact List.mem_append_right _ (List.mem_append_left _ hexpanded)

/-- What is left before a pass is still left after it. -/
theorem left_subset_over {p p' : Pass} {cs : List RegionConstraint}
    (h : Pass.over s p cs = (p', .ok ())) : p.left ⊆ p'.left := by
  induction cs generalizing p with
  | nil =>
    cases h
    exact List.Subset.refl _
  | cons c cs ih =>
    obtain ⟨o, -, h⟩ := exists_of_over_cons_eq_ok h
    exact List.Subset.trans (left_subset_after p c o) (ih h)

/-- A constraint that was looked at is settled. -/
theorem Examined.settled_after {p : Pass} {o : Outcome} (h : p.solver.Examined s c o) :
    (p.after c o).solver.Settled s (p.after c o).left c := by
  intro part hpart
  cases h with
  | waits hundecided =>
    rw [parts_of_undecided hundecided, List.mem_singleton] at hpart
    subst hpart
    exact .inl (List.mem_append_left _ (List.mem_append_right _ List.mem_cons_self))
  | holds hholds =>
    rw [parts_of_holds hholds, List.mem_singleton] at hpart
    subst hpart
    exact .inr hholds
  | decides _ _ hholds =>
    rw [parts_of_holds hholds, List.mem_singleton] at hpart
    subst hpart
    exact .inr hholds
  | expands hground =>
    rw [parts, if_pos hground] at hpart
    exact .inl (List.mem_append_right _ (List.mem_append_right _ hpart))

/-- All constraints that were looked at are settled when the last one has been. -/
theorem settled_over {p p' : Pass} {cs : List RegionConstraint}
    (h : Pass.over s p cs = (p', .ok ())) : ∀ c ∈ cs, p'.solver.Settled s p'.left c := by
  induction cs generalizing p with
  | nil => simp
  | cons c cs ih =>
    obtain ⟨o, hexamined, h⟩ := exists_of_over_cons_eq_ok h
    -- region variables decided by later constraints do not undo this one
    have hgrows := grows_over s (p.after c o) cs
    rw [h] at hgrows
    refine List.forall_mem_cons.mpr ⟨?_, ih h⟩
    exact hexamined.settled_after.mono hgrows (left_subset_over h)

/-- Only a constraint on a type comes down to others, and these are between regions. -/
theorem Examined.expanded_after {p : Pass} {o : Outcome} (h : p.solver.Examined s c o) :
    (p.after c o).expanded = p.expanded ∨ ∃ type region, c = .typeOutlives type region ∧
      (p.after c o).expanded =
        p.expanded ++ (s.apply type).regions.map fun r => .outlives r region := by
  cases h with
  | waits => exact .inl rfl
  | holds => exact .inl rfl
  | decides => exact .inl rfl
  | expands => exact .inr ⟨_, _, rfl, rfl⟩

/-- Types expand to constraints on which region outlives which. -/
theorem outlives_of_mem_expanded_over {p p' : Pass} {cs : List RegionConstraint}
    (h : Pass.over s p cs = (p', .ok ()))
    (hp : ∀ c ∈ p.expanded, ∃ longer shorter, c = .outlives longer shorter) :
    ∀ c ∈ p'.expanded, ∃ longer shorter, c = .outlives longer shorter := by
  induction cs generalizing p with
  | nil =>
    cases h
    exact hp
  | cons c cs ih =>
    obtain ⟨o, hexamined, h⟩ := exists_of_over_cons_eq_ok h
    refine ih h fun c' hc' => ?_
    rcases hexamined.expanded_after with hexpanded | ⟨type, region, -, hexpanded⟩
    · rw [hexpanded] at hc'
      exact hp c' hc'
    · rw [hexpanded] at hc'
      rcases List.mem_append.mp hc' with hc' | hc'
      · exact hp c' hc'
      · obtain ⟨r, -, rfl⟩ := List.mem_map.mp hc'
        exact ⟨r, region, rfl⟩

/-- Constraints between regions come down to no others. -/
theorem expanded_over_of_outlives {p p' : Pass} {cs : List RegionConstraint}
    (h : Pass.over s p cs = (p', .ok ()))
    (hcs : ∀ c ∈ cs, ∃ longer shorter, c = .outlives longer shorter) :
    p'.expanded = p.expanded := by
  induction cs generalizing p with
  | nil =>
    cases h
    rfl
  | cons c cs ih =>
    obtain ⟨o, hexamined, h⟩ := exists_of_over_cons_eq_ok h
    obtain ⟨⟨longer, shorter, hc⟩, hrest⟩ := List.forall_mem_cons.mp hcs
    rcases hexamined.expanded_after with hexpanded | ⟨type, region, hc', -⟩
    · rw [ih h hrest, hexpanded]
    · cases hc.symm.trans hc'

/-- A pass goes over the constraints and then over those that they came down to. -/
theorem exists_of_pass_eq_ok {p : Pass} {cs : List RegionConstraint}
    (h : sv.pass s cs = (p, .ok ())) :
    ∃ p₁, Pass.over s { solver := sv } cs = (p₁, .ok ()) ∧
      Pass.over s { p₁ with expanded := [] } p₁.expanded = (p, .ok ()) := by
  unfold pass at h
  split at h
  · cases h
  · rename_i p₁ hfirst
    exact ⟨p₁, hfirst, h⟩

/-- After a pass each part of a constraint holds or waits. -/
theorem settled_pass {p : Pass} {cs : List RegionConstraint} (h : sv.pass s cs = (p, .ok ())) :
    ∀ c ∈ cs, p.solver.Settled s p.waiting c := by
  obtain ⟨p₁, hfirst, hsecond⟩ := exists_of_pass_eq_ok h
  have houtlives := outlives_of_mem_expanded_over hfirst (by simp)
  -- nothing is left over by the second half except what waits
  have hleft : p.left = p.waiting := by
    rw [Pass.left, expanded_over_of_outlives hsecond houtlives, List.append_nil]
  have hgrows := grows_over s { p₁ with expanded := [] } p₁.expanded
  rw [hsecond] at hgrows
  have hwaiting := left_subset_over hsecond
  have hexpanded := settled_over hsecond
  rw [hleft] at hwaiting hexpanded
  intro c hc
  refine (settled_over hfirst c hc).trans hgrows fun c' hc' => ?_
  rcases List.mem_append.mp hc' with hc' | hc'
  · exact .inl (hwaiting (List.mem_append_left _ hc'))
  · exact .inr (hexpanded c' hc')

/-! ## Passes that decide nothing -/

/-- What does not have to wait counts as decided. -/
theorem Examined.undecided_of_after {p : Pass} {o : Outcome} (h : p.solver.Examined s c o)
    (hdecided : (p.after c o).decided = false) :
    p.after c o = { p with waiting := p.waiting ++ [c] } ∧ p.solver.Undecided s c := by
  cases h with
  | waits hundecided => exact ⟨rfl, hundecided⟩
  | holds => cases hdecided
  | decides => cases hdecided
  | expands => cases hdecided

/-- A pass that has decided something goes on to have done so. -/
theorem decided_over {p p' : Pass} {cs : List RegionConstraint}
    (h : Pass.over s p cs = (p', .ok ())) (hdecided : p.decided = true) : p'.decided = true := by
  induction cs generalizing p with
  | nil =>
    cases h
    exact hdecided
  | cons c cs ih =>
    obtain ⟨o, -, h⟩ := exists_of_over_cons_eq_ok h
    refine ih h ?_
    cases o with
    | waits => exact hdecided
    | holds => rfl
    | decides v r => rfl
    | expands new => rfl

/-- If nothing is decided, all constraints wait and the solver is as it was. -/
theorem over_of_decided_eq_false {p p' : Pass} {cs : List RegionConstraint}
    (h : Pass.over s p cs = (p', .ok ())) (hdecided : p'.decided = false) :
    p' = { p with waiting := p.waiting ++ cs } ∧ ∀ c ∈ cs, p.solver.Undecided s c := by
  induction cs generalizing p with
  | nil =>
    cases h
    simp
  | cons c cs ih =>
    obtain ⟨o, hexamined, h⟩ := exists_of_over_cons_eq_ok h
    have hafter : (p.after c o).decided = false := by
      refine Bool.eq_false_iff.mpr fun htrue => ?_
      rw [decided_over h htrue] at hdecided
      cases hdecided
    obtain ⟨hp, hundecided⟩ := hexamined.undecided_of_after hafter
    rw [hp] at h
    obtain ⟨rfl, hcs⟩ := ih h
    refine ⟨?_, List.forall_mem_cons.mpr ⟨hundecided, hcs⟩⟩
    rw [List.append_assoc]
    rfl

/-- A pass that decides nothing finds nothing that can be decided. -/
theorem undecided_pass {p : Pass} {cs : List RegionConstraint} (h : sv.pass s cs = (p, .ok ()))
    (hdecided : p.decided = false) :
    p.solver = sv ∧ p.waiting = cs ∧ ∀ c ∈ cs, sv.Undecided s c := by
  obtain ⟨p₁, hfirst, hsecond⟩ := exists_of_pass_eq_ok h
  -- neither half decided anything, and the first one left nothing to the second
  obtain ⟨rfl, -⟩ := over_of_decided_eq_false hsecond hdecided
  obtain ⟨rfl, hcs⟩ := over_of_decided_eq_false hfirst hdecided
  exact ⟨rfl, by simp, hcs⟩

/-! ## All passes -/

/-- When the passes end, each constraint is settled and those that are left are undecided. -/
theorem passes_spec {count iterations remaining : Nat} {cs pending : List RegionConstraint}
    (h : passes s sv count cs remaining = (sv', .ok (pending, iterations))) :
    (∀ c ∈ cs, sv'.Settled s pending c) ∧ ∀ c ∈ pending, sv'.Undecided s c := by
  induction remaining generalizing sv count cs with
  | zero =>
    unfold passes at h
    split at h
    · rename_i hempty
      cases h
      simp [List.isEmpty_iff.mp hempty]
    · cases h
  | succ remaining ih =>
    unfold passes at h
    split at h
    · rename_i hempty
      cases h
      simp [List.isEmpty_iff.mp hempty]
    · split at h
      · cases h
      · rename_i p hpass
        have hsettled := settled_pass hpass
        split at h
        · -- what waits is settled by the passes that follow
          obtain ⟨hwaiting, hpending⟩ := ih h
          have hgrows := grows_passes s p.solver (count + 1) p.waiting remaining
          rw [h] at hgrows
          refine ⟨fun c hc => ?_, hpending⟩
          exact (hsettled c hc).trans hgrows fun c' hc' => .inr (hwaiting c' hc')
        · -- the pass changed nothing, so what was found undecided still is
          rename_i hdecided
          obtain ⟨hsolver, hwaiting, hundecided⟩ :=
            undecided_pass hpass (Bool.eq_false_iff.mpr hdecided)
          cases h
          rw [hsolver] at hsettled ⊢
          rw [hwaiting] at hsettled ⊢
          exact ⟨hsettled, hundecided⟩

/-- Solving makes passes and reports what they leave. -/
theorem exists_of_solve_eq_ok {sol : RegionSolution} (h : sv.solve s = (sv', .ok sol)) :
    ∃ iterations, passes s sv 0 sv.constraints sv.limit.toNat =
      (sv', .ok (sol.pending, iterations)) := by
  unfold solve at h
  split at h
  · cases h
  · rename_i sv'' pending iterations hpasses
    cases h
    exact ⟨iterations, hpasses⟩

/-- A solution is right, whatever the solver was used for before. No region variable stands for
another one. Each part of a constraint holds or is left, where a constraint on a type without
inference variables has a part for each region of the type. What is left cannot be decided. -/
theorem Reachable.solve_sound (h : sv.Reachable) {sol : RegionSolution}
    (hsolve : sv.solve s = (sv', .ok sol)) :
    (∀ v r, sv'.resolution.lookup v = some r → r.isVariable = false) ∧
      (∀ c ∈ sv.constraints, ∀ part ∈ parts s c, part ∈ sol.pending ∨ sv'.Holds part) ∧
      ∀ c ∈ sol.pending, sv'.Undecided s c := by
  have hgrows := grows_solve sv s
  rw [hsolve] at hgrows
  obtain ⟨iterations, hpasses⟩ := exists_of_solve_eq_ok hsolve
  exact ⟨hgrows.direct h.direct, passes_spec hpasses⟩

/-- A solver with the declared bound `'a: 'b` that has decided `'_0` in an earlier solution. Of the
constraints added later, one waits for a region variable that the constraint on a reference to a
reference decides, one is about two region variables that nothing decides, and one is about a type
that is not inferred yet. -/
def chain : RegionSolver :=
  let sv := (({} : RegionSolver).declare [⟨⟨"'b"⟩, []⟩, ⟨⟨"'a"⟩, [⟨"'b"⟩]⟩]).1
  let sv := sv.fresh.2.fresh.2.fresh.2.fresh.2.add [.outlives ⟨"'a"⟩ ⟨"'_0"⟩]
  (sv.solve .empty).1.add
    [.outlives ⟨"'_0"⟩ ⟨"'_1"⟩,
      .typeOutlives (.ref ⟨"'a"⟩ false (.ref ⟨"'_1"⟩ false (.prim "u8"))) ⟨"'b"⟩,
      .equal ⟨"'_2"⟩ ⟨"'_3"⟩, .typeOutlives (.ref ⟨"'a"⟩ false (.var 7)) ⟨"'b"⟩]

/-- The solver of the example comes from the operations. -/
theorem reachable_chain : chain.Reachable :=
  ((((((((Reachable.new 100).declare _).fresh).fresh).fresh).fresh).add _).solve _).add _

/-- The constraint that waited holds, and so does the one on the inner reference. The two that
nothing decides are left. -/
theorem Reachable.solve_sound_of_chain :
    ∃ (sv' : RegionSolver) (sol : RegionSolution), chain.Reachable ∧
      chain.solve .empty = (sv', .ok sol) ∧
      sol.pending =
        [.equal ⟨"'_2"⟩ ⟨"'_3"⟩, .typeOutlives (.ref ⟨"'a"⟩ false (.var 7)) ⟨"'b"⟩] ∧
      sv'.Outlive ⟨"'_0"⟩ ⟨"'_1"⟩ ∧ sv'.Outlive ⟨"'_1"⟩ ⟨"'b"⟩ ∧ sv'.Direct ∧
      ∀ c ∈ sol.pending, sv'.Undecided .empty c := by
  let waits : RegionConstraint := .outlives ⟨"'_0"⟩ ⟨"'_1"⟩
  let inner : RegionConstraint := .outlives ⟨"'_1"⟩ ⟨"'b"⟩
  let onType : RegionConstraint :=
    .typeOutlives (.ref ⟨"'a"⟩ false (.ref ⟨"'_1"⟩ false (.prim "u8"))) ⟨"'b"⟩
  -- the run is needed only for what it leaves; that the rest holds follows from soundness
  have hpending : (chain.solve .empty).2.toOption.map RegionSolution.pending = some
      [.equal ⟨"'_2"⟩ ⟨"'_3"⟩, .typeOutlives (.ref ⟨"'a"⟩ false (.var 7)) ⟨"'b"⟩] := by
    cbv
  have hconstraints : chain.constraints = [.outlives ⟨"'a"⟩ ⟨"'_0"⟩, waits, onType,
      .equal ⟨"'_2"⟩ ⟨"'_3"⟩, .typeOutlives (.ref ⟨"'a"⟩ false (.var 7)) ⟨"'b"⟩] := by
    cbv
  have hparts : parts .empty onType = [.outlives ⟨"'a"⟩ ⟨"'b"⟩, inner] := by cbv
  have hwaits : waits ∈ chain.constraints := by simp [hconstraints]
  have honType : onType ∈ chain.constraints := by simp [hconstraints]
  have hinner : inner ∈ parts .empty onType := by simp [hparts]
  rcases hsolve : chain.solve .empty with ⟨sv', outcome⟩
  rw [hsolve] at hpending
  cases outcome with
  | error e => cases hpending
  | ok sol =>
    have hpending : sol.pending = _ := Option.some.inj hpending
    obtain ⟨hdirect, hsettled, hundecided⟩ := reachable_chain.solve_sound hsolve
    refine ⟨sv', sol, reachable_chain, rfl, hpending, ?_, ?_, hdirect, hundecided⟩
    · exact (hsettled waits hwaits waits List.mem_cons_self).resolve_left (by simp [hpending, waits])
    · exact (hsettled onType honType inner hinner).resolve_left (by simp [hpending, inner])

end Generics.RegionSolver
