import Generics.Proofs.Region.Rounds

/-!
# Solving again

A solver keeps what it has decided and looks at all its constraints again the next time. Constraints
that decided a region variable are then between known regions and are checked. The regions outlive
each other, but the check also asks whether they are named, which nothing asked when the region
variable was decided. So solving again gives the same solution if and only if all regions that the
outlives constraints came to relate are named.

## Main results

* `RegionSolver.Rounds.solver_eq_of_stable`: solving again leaves the solver as it is;
* `RegionSolver.Rounds.le_of_solved`: solving again makes no more passes;
* `RegionSolver.solve_again`: when solving again gives the same solution.
-/

namespace Generics.RegionSolver

variable {sv sv' sv'' : RegionSolver} {s : Subst} {c : RegionConstraint}
  {cs pending : List RegionConstraint} {k k' : Nat} {out : Except Error (List RegionConstraint)}

/-! ## Solved constraints -/

theorem Stable.solver_eq {p : Pass} {outcome : Except Error Unit} (h : sv.Stable s cs)
    (hpass : sv.pass s cs = (p, outcome)) : p.solver = sv := by
  have hkept : (sv.pass s cs).1.solver = sv := by
    refine pass_induction (motive := (· = sv)) ?_ rfl
    rintro sv' c v r hc hdecides rfl
    exact absurd hdecides (h c hc v r)
  rwa [hpass] at hkept

theorem Stable.waiting {p : Pass} {outcome : Except Error Unit} (h : sv.Stable s cs)
    (hpass : sv.pass s cs = (p, outcome)) : sv.Stable s p.waiting :=
  fun c hc => h c (queue_waiting_subset hpass hc)

/-- Passes over what cannot decide a region variable leave the solver as it is. -/
theorem Rounds.solver_eq_of_stable (h : Rounds s sv cs k sv' out) (hstable : sv.Stable s cs) :
    sv' = sv := by
  induction h with
  | none sv => rfl
  | fails _ hpass => exact hstable.solver_eq hpass
  | ends _ hpass _ => exact hstable.solver_eq hpass
  | goesOn _ hpass _ _ ih =>
    have hsolver := hstable.solver_eq hpass
    rw [ih (hsolver ▸ hstable.waiting hpass), hsolver]

/-! ## The number of passes -/

theorem over_of_undecided {p : Pass} (h : ∀ c ∈ cs, p.solver.Undecided s c) :
    Pass.over s p cs = ({ p with waiting := p.waiting ++ cs }, .ok ()) := by
  induction cs generalizing p with
  | nil => simp [Pass.over]
  | cons c cs ih =>
    obtain ⟨hc, hcs⟩ := List.forall_mem_cons.mp h
    have hrest := ih (p := p.after c .waits) hcs
    rw [over_cons_of_ok (examine_eq_waits_iff.mpr hc), hrest, List.append_cons]
    rfl

/-- A pass over constraints that are all undecided decides nothing. -/
theorem decided_eq_false_of_undecided {p : Pass} (hpass : sv.pass s cs = (p, .ok ()))
    (h : ∀ c ∈ cs, sv.Undecided s c) : p.decided = false := by
  obtain ⟨p', hover, -, -, hdecided⟩ := exists_over_of_pass hpass
  rw [queue_eq_self h, over_of_undecided h] at hover
  cases hover
  exact hdecided.symm

theorem Rounds.pos (h : Rounds s sv cs k sv' out) (hcs : cs ≠ []) : 0 < k := by
  cases h with
  | none => exact absurd rfl hcs
  | fails => exact Nat.one_pos
  | ends => exact Nat.one_pos
  | goesOn => exact Nat.succ_pos _

theorem Rounds.eq_nil_of_zero (h : Rounds s sv cs 0 sv' (.ok pending)) : pending = [] := by
  cases h with
  | none => rfl

theorem Rounds.le_one_of_undecided (h : Rounds s sv cs k sv' out)
    (hcs : ∀ c ∈ cs, sv.Undecided s c) : k ≤ 1 := by
  cases h with
  | none => exact Nat.zero_le 1
  | fails => exact Nat.le_refl 1
  | ends => exact Nat.le_refl 1
  | goesOn _ hpass hdecided _ =>
    rw [decided_eq_false_of_undecided hpass hcs] at hdecided
    cases hdecided

/-- Solving again makes no more passes than before: one over all constraints, and one more if some
are left. -/
theorem Rounds.le_of_solved (h : Rounds s sv cs k sv' (.ok pending))
    (hagain : Rounds s sv' cs k' sv'' out) : k' ≤ k := by
  have hstable := h.stable
  have hpending := h.pending_eq rfl
  cases hagain with
  | none => exact Nat.zero_le k
  | fails hcs _ => exact h.pos hcs
  | ends hcs _ _ => exact h.pos hcs
  | @goesOn _ _ _ p k₂ _ hcs hpass hdecided hrest =>
    cases h with
    | none => exact absurd rfl hcs
    | ends _ hpass₁ hdecided₁ =>
      -- nothing was decided before, so the same pass cannot decide anything now
      obtain ⟨hsolver, -, hundecided⟩ := undecided_pass hpass₁ hdecided₁
      rw [hsolver] at hpass
      rw [decided_eq_false_of_undecided hpass hundecided] at hdecided
      cases hdecided
    | @goesOn _ _ _ _ k₁ _ _ hpass₁ hdecided₁ hrest₁ =>
      obtain ⟨hsublist, hundecided⟩ := waiting_of_pass hpass
      rw [hstable.solver_eq hpass] at hrest
      refine Nat.succ_le_succ ?_
      rcases Nat.eq_zero_or_pos k₂ with rfl | hpos
      · exact Nat.zero_le k₁
      · -- something waits, so it was left before, and the pass that left it was not the first
        refine Nat.le_trans (hrest.le_one_of_undecided hundecided) (Nat.pos_of_ne_zero ?_)
        rintro rfl
        have hwaiting : p.waiting = [] := by
          refine List.eq_nil_iff_forall_not_mem.mpr fun c hc => ?_
          have hleft : c ∈ pending := by
            rw [hpending, List.mem_filter]
            exact ⟨hsublist.subset hc, by simpa using hundecided c hc⟩
          rw [hrest₁.eq_nil_of_zero] at hleft
          cases hleft
        rw [hwaiting] at hrest
        cases hrest with
        | none => exact absurd hpos (Nat.lt_irrefl 0)
        | fails hne _ => exact absurd rfl hne
        | ends hne _ _ => exact absurd rfl hne
        | goesOn hne _ _ _ => exact absurd rfl hne

/-! ## Which regions are named -/

/-- The region stands for one that is named. -/
def StandsNamed (sv : RegionSolver) (r : Region) : Prop :=
  ∃ a, sv.known r = some a ∧ sv.isNamed a = true

/-- The outlives constraints that are not left are between regions that stand for named ones. -/
def AllNamed (sv : RegionSolver) (s : Subst) (cs pending : List RegionConstraint) : Prop :=
  ∀ c ∈ cs, ∀ longer shorter, .outlives longer shorter ∈ parts s c →
    .outlives longer shorter ∉ pending → sv.StandsNamed longer ∧ sv.StandsNamed shorter

/-- What holds of an outlives constraint that is not left. -/
theorem Rounds.outlive (h : Rounds s sv cs k sv' (.ok pending)) {longer shorter : Region}
    (hmem : .outlives longer shorter ∈ queue s cs) (hleft : .outlives longer shorter ∉ pending) :
    sv'.Outlive longer shorter := by
  rcases ((h.passed rfl _ hmem).resolve_left hleft).holds with hholds | ⟨_, _, hne, -⟩
  · exact hholds
  · cases hne

/-- A second run that succeeds has found all regions named. -/
theorem Rounds.allNamed_of_again (h : Rounds s sv cs k sv' (.ok pending))
    (hagain : Rounds s sv' cs k' sv'' (.ok pending)) : sv'.AllNamed s cs pending := by
  intro c hc longer shorter hpart hleft
  have hmem := mem_queue_of_mem_parts hc hpart
  -- both regions are known since the first run, so the second one has checked them
  obtain ⟨a, b, ha, hb, -⟩ := h.outlive hmem hleft
  obtain ⟨sv₁, o, hgrows, hexamine, -⟩ := (hagain.passed rfl _ hmem).resolve_left hleft
  have hnamed := isNamed_of_examine (hgrows.known ha) (hgrows.known hb) hexamine
  rw [hgrows.isNamed_eq, hgrows.isNamed_eq] at hnamed
  exact ⟨⟨a, ha, hnamed.1⟩, ⟨b, hb, hnamed.2⟩⟩

/-- A second run fails only at a region that is not named. -/
theorem Rounds.unnamed_of_again (h : Rounds s sv cs k sv' (.ok pending)) {e : Error}
    (hagain : Rounds s sv' cs k' sv' (.error e)) :
    ¬ sv'.AllNamed s cs pending ∧ ∃ a b, e = .unknownLifetimeBound a b := by
  obtain ⟨c, hc, hfails⟩ := hagain.failed rfl
  have hleft : c ∉ pending := by
    intro hleft
    rw [examine_eq_waits_iff.mpr (h.undecided hleft)] at hfails
    cases hfails
  rcases ((h.passed rfl c hc).resolve_left hleft).holds with hholds | ⟨type, region, rfl, -⟩
  · obtain ⟨longer, shorter, a, b, rfl, ha, hb, hnamed, rfl⟩ :=
      (refused hfails).exists_unnamed hholds
    refine ⟨fun hall => hnamed ?_, a.name, b.name, rfl⟩
    obtain ⟨c, hc, hpart⟩ := exists_mem_parts_of_joins hc (.inl rfl)
    obtain ⟨⟨a', ha', hnameda⟩, b', hb', hnamedb⟩ := hall c hc longer shorter hpart hleft
    rw [Option.some.inj (ha.symm.trans ha'), Option.some.inj (hb.symm.trans hb')]
    exact ⟨hnameda, hnamedb⟩
  · cases refused hfails

/-! ## Solving again -/

/-- Solving again changes nothing in the solver. It gives the same solution, save for the number of
passes, if and only if the outlives constraints that are not left are between regions that stand for
named ones. Otherwise it fails at one that is not. -/
theorem solve_again {sol : RegionSolution} (hsolve : sv.solve s = (sv', .ok sol)) :
    ((∃ n, sv'.solve s = (sv', .ok { sol with iterations := n })) ↔
      sv'.AllNamed s sv.constraints sol.pending) ∧
    (¬ sv'.AllNamed s sv.constraints sol.pending →
      ∃ a b, sv'.solve s = (sv', .error (.unknownLifetimeBound a b))) := by
  obtain ⟨k, hk, hrounds, hsol⟩ := exists_rounds_of_solve_ok hsolve
  obtain ⟨resolution, hsv'⟩ := hrounds.grows.exists_eq
  have hlimit : sv'.limit = sv.limit := by rw [hsv']
  have hconstraints : sv'.constraints = sv.constraints := by rw [hsv']
  -- the second run ends with the same solver and makes no more passes
  obtain ⟨k', -, sv'', out, hagain⟩ := exists_rounds s sv' sv.constraints
  obtain rfl : sv'' = sv' := hagain.solver_eq_of_stable hrounds.stable
  have hsolve' : sv''.solve s = (sv'', out.map fun left => sv''.solution left k') := by
    refine solve_of_rounds ?_ ?_
    · rwa [hconstraints]
    · rw [hlimit]
      exact Nat.le_trans (hrounds.le_of_solved hagain) hk
  rw [hsolve']
  cases out with
  | error e =>
    obtain ⟨hunnamed, a, b, rfl⟩ := hrounds.unnamed_of_again hagain
    refine ⟨⟨?_, fun hnamed => absurd hnamed hunnamed⟩, fun _ => ⟨a, b, rfl⟩⟩
    rintro ⟨n, hn⟩
    cases hn
  | ok pending =>
    -- what is left is in both runs the undecided part of the queue
    obtain rfl : pending = sol.pending :=
      (hagain.pending_eq rfl).trans (hrounds.pending_eq rfl).symm
    have hnamed := hrounds.allNamed_of_again hagain
    refine ⟨⟨fun _ => hnamed, fun _ => ⟨k', ?_⟩⟩, fun hunnamed => absurd hnamed hunnamed⟩
    rw [hsol]
    rfl

/-- A solver in which `'a` is declared. One constraint waits for a region variable that the next one
decides, and one is about region variables that nothing decides. -/
def declaredOnce : RegionSolver :=
  let sv := (({} : RegionSolver).declare [⟨⟨"'a"⟩, []⟩]).1
  sv.fresh.2.fresh.2.fresh.2.fresh.2.add
    [.outlives ⟨"'_0"⟩ ⟨"'_1"⟩, .outlives ⟨"'a"⟩ ⟨"'_0"⟩, .equal ⟨"'_2"⟩ ⟨"'_3"⟩]

/-- The second time two passes do, where it took three the first time. -/
theorem solve_again_of_declaredOnce :
    ∃ (sv' : RegionSolver) (sol : RegionSolution), declaredOnce.solve .empty = (sv', .ok sol) ∧
      sol.resolved = [(⟨"'_0"⟩, ⟨"'a"⟩), (⟨"'_1"⟩, ⟨"'a"⟩)] ∧ sol.iterations = 3 ∧
      sv'.AllNamed .empty declaredOnce.constraints sol.pending ∧
      ∃ n, sv'.solve .empty = (sv', .ok { sol with iterations := n }) := by
  let sv' : RegionSolver :=
    { declaredOnce with resolution := [(⟨"'_1"⟩, ⟨"'a"⟩), (⟨"'_0"⟩, ⟨"'a"⟩)] }
  let sol : RegionSolution :=
    ⟨[(⟨"'_0"⟩, ⟨"'a"⟩), (⟨"'_1"⟩, ⟨"'a"⟩)], [⟨"'_2"⟩, ⟨"'_3"⟩], [.equal ⟨"'_2"⟩ ⟨"'_3"⟩], 3⟩
  have hsolve : declaredOnce.solve .empty = (sv', .ok sol) := by cbv
  have hnamed : sv'.AllNamed .empty declaredOnce.constraints sol.pending := by
    -- what the constraints relate always stands for `'a`
    have hstands : ∀ r ∈ [(⟨"'_0"⟩ : Region), ⟨"'_1"⟩, ⟨"'a"⟩], sv'.StandsNamed r := by
      intro r hr
      simp only [List.mem_cons, List.not_mem_nil, or_false] at hr
      rcases hr with rfl | rfl | rfl <;> exact ⟨⟨"'a"⟩, by cbv, by cbv⟩
    intro c hc longer shorter hpart _
    have hconstraints : declaredOnce.constraints = [.outlives ⟨"'_0"⟩ ⟨"'_1"⟩,
        .outlives ⟨"'a"⟩ ⟨"'_0"⟩, .equal ⟨"'_2"⟩ ⟨"'_3"⟩] := by cbv
    rw [hconstraints] at hc
    simp only [List.mem_cons, List.not_mem_nil, or_false] at hc
    rcases hc with rfl | rfl | rfl
    · cases List.mem_singleton.mp hpart
      exact ⟨hstands _ (by simp), hstands _ (by simp)⟩
    · cases List.mem_singleton.mp hpart
      exact ⟨hstands _ (by simp), hstands _ (by simp)⟩
    · cases List.mem_singleton.mp hpart
  exact ⟨sv', sol, hsolve, rfl, rfl, hnamed, (solve_again hsolve).1.mpr hnamed⟩

/-- A region that is not declared is accepted for a region variable and refused the next time. -/
theorem exists_solve_again_fails :
    ∃ (sv sv' : RegionSolver) (sol : RegionSolution), sv.Reachable ∧
      sv.solve .empty = (sv', .ok sol) ∧
      sv'.solve .empty = (sv', .error (.unknownLifetimeBound "'x" "'x")) := by
  let sv : RegionSolver := ({} : RegionSolver).fresh.2.add [.outlives ⟨"'x"⟩ ⟨"'_0"⟩]
  have hreachable : sv.Reachable := ((Reachable.new 100).fresh).add _
  refine ⟨sv, { sv with resolution := [(⟨"'_0"⟩, ⟨"'x"⟩)] },
    ⟨[(⟨"'_0"⟩, ⟨"'x"⟩)], [], [], 1⟩, hreachable, by cbv, by cbv⟩

end Generics.RegionSolver
