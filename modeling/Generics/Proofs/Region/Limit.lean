import Generics.Proofs.Region.Rounds

/-!
# The limit on the passes

Solving gives up when it has made as many passes as its limit allows and constraints are left. The
passes are the same whatever the limit is, and there are at most two more than there are constraints
between regions to decide. So a limit either cuts them off or has no part in the answer.

## Main results

* `RegionSolver.Rounds.withLimit`: the limit has no part in the passes;
* `RegionSolver.solve_within_limit`: solving with enough passes and with too few.
-/

namespace Generics.RegionSolver

variable {sv sv' : RegionSolver} {s : Subst} {c : RegionConstraint} {cs : List RegionConstraint}
  {k : Nat} {out : Except Error (List RegionConstraint)}

/-! ## A solver with another limit -/

/-- The solver with another limit. -/
def withLimit (sv : RegionSolver) (limit : Int) : RegionSolver := { sv with limit := limit }

/-- A pass of the solver with another limit. -/
def Pass.withLimit (p : Pass) (limit : Int) : Pass := { p with solver := p.solver.withLimit limit }

theorem examine_withLimit (sv : RegionSolver) (s : Subst) (limit : Int) (c : RegionConstraint) :
    (sv.withLimit limit).examine s c = sv.examine s c := by
  cases c <;> rfl

theorem over_withLimit (s : Subst) (p : Pass) (limit : Int) (cs : List RegionConstraint) :
    Pass.over s (p.withLimit limit) cs =
      ((Pass.over s p cs).1.withLimit limit, (Pass.over s p cs).2) := by
  induction cs generalizing p with
  | nil => rfl
  | cons c cs ih =>
    -- no look reads the limit, so both runs take the same step
    have hsame : (p.withLimit limit).solver.examine s c = p.solver.examine s c :=
      examine_withLimit p.solver s limit c
    cases hexamine : p.solver.examine s c with
    | error e =>
      rw [over_cons_of_error hexamine, over_cons_of_error (hsame.trans hexamine)]
    | ok o =>
      have hafter : (p.withLimit limit).after c o = (p.after c o).withLimit limit := by
        cases o <;> rfl
      rw [over_cons_of_ok hexamine, over_cons_of_ok (hsame.trans hexamine), hafter, ih]

theorem pass_withLimit {p : Pass} {outcome : Except Error Unit} (limit : Int)
    (h : sv.pass s cs = (p, outcome)) :
    (sv.withLimit limit).pass s cs = (p.withLimit limit, outcome) := by
  rcases hover : Pass.over s { solver := sv } cs with ⟨p₁, first⟩
  have hfirst : Pass.over s { solver := sv.withLimit limit } cs = (p₁.withLimit limit, first) := by
    have hrun := over_withLimit s { solver := sv } limit cs
    rwa [hover] at hrun
  cases first with
  | error e =>
    rw [pass_of_over_error hover] at h
    cases h
    exact pass_of_over_error hfirst
  | ok _ =>
    -- the second half goes over what the first one found, whatever the limit is
    rw [pass_of_over_ok hover] at h
    have hsecond := over_withLimit s { p₁ with expanded := [] } limit p₁.expanded
    rw [h] at hsecond
    rw [pass_of_over_ok hfirst]
    exact hsecond

/-- The limit has no part in the passes. -/
theorem Rounds.withLimit (limit : Int) (h : Rounds s sv cs k sv' out) :
    Rounds s (sv.withLimit limit) cs k (sv'.withLimit limit) out := by
  induction h with
  | none sv => exact .none _
  | fails hcs hpass => exact .fails hcs (pass_withLimit limit hpass)
  | ends hcs hpass hdecided => exact .ends hcs (pass_withLimit limit hpass) hdecided
  | goesOn hcs hpass hdecided _ ih => exact .goesOn hcs (pass_withLimit limit hpass) hdecided ih

/-! ## Solving with a limit -/

/-- Solving makes a number `k` of passes, at most two more than there are constraints between
regions, whatever the limit is. A limit of `k` or more has no part in the answer, and one below `k`
cuts solving off. A negative limit allows no passes. -/
theorem solve_within_limit (sv : RegionSolver) (s : Subst) :
    ∃ k ≤ load s sv.constraints + 2, ∃ (sv' : RegionSolver) (result : Except Error RegionSolution),
      (∀ limit : Int, k ≤ limit.toNat →
        (sv.withLimit limit).solve s = (sv'.withLimit limit, result)) ∧
      (∀ limit : Int, limit.toNat < k →
        ∃ left, ((sv.withLimit limit).solve s).2 = .error (.solverIterationLimit limit left)) ∧
      (∀ limit left, result ≠ .error (.solverIterationLimit limit left)) ∧
      ∀ sol, result = .ok sol → sol.iterations = k := by
  obtain ⟨k, hk, sv', out, hrounds⟩ := exists_rounds s sv sv.constraints
  refine ⟨k, hk, sv', out.map fun left => sv'.solution left k, ?_, ?_, ?_, ?_⟩
  · intro limit hlimit
    exact solve_of_rounds (hrounds.withLimit limit) hlimit
  · intro limit hlimit
    exact solve_of_lt_rounds (hrounds.withLimit limit) hlimit
  · -- the passes themselves never fail at a limit
    intro limit left hresult
    cases out with
    | error e => exact hrounds.ne_limit limit left (congrArg _ (Except.error.inj hresult))
    | ok pending => cases hresult
  · intro sol hresult
    cases out with
    | error e => cases hresult
    | ok pending =>
      cases hresult
      rfl

end Generics.RegionSolver
