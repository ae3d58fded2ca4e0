import Generics.Proofs.Region.Elision
import Generics.Proofs.Region.Known

/-!
# Region solvers in use

A solver is declared to, added to and solved in any order, with any substitution, and what it has
decided it keeps. Only solving decides region variables, so no region variable ever stands for
another one.

## Main results

* `RegionSolver.Reachable`: the solvers that a new one can become;
* `RegionSolver.Reachable.direct`: no region variable stands for another one.
-/

namespace Generics

namespace RegionSolver

variable {sv : RegionSolver}

/-! ## What the other operations keep -/

theorem resolution_declare (sv : RegionSolver) (params : List RegionParam) :
    (sv.declare params).1.resolution = sv.resolution := by
  obtain ⟨accepted, variances, -, hdeclare⟩ := exists_declare sv params
  rw [hdeclare]

theorem resolution_enter (sv : RegionSolver) (t : Ty) (quantified : List Region) :
    (sv.enter t quantified).2.2.resolution = sv.resolution := by
  obtain ⟨placeholders, henter⟩ := exists_enter sv t quantified
  rw [henter]

theorem resolution_elide (sv : RegionSolver) (sig : Signature) :
    (sv.elide sig).1.resolution = sv.resolution := by
  obtain ⟨filled, -, helide⟩ := exists_elide sv sig
  rw [helide]
  rfl

/-- The solvers that a new one can become. -/
inductive Reachable : RegionSolver → Prop
  | new (limit : Int) : Reachable { limit }
  | declare {sv : RegionSolver} (h : Reachable sv) (params : List RegionParam) :
      Reachable (sv.declare params).1
  | fresh {sv : RegionSolver} (h : Reachable sv) : Reachable sv.fresh.2
  | add {sv : RegionSolver} (h : Reachable sv) (cs : List RegionConstraint) : Reachable (sv.add cs)
  | enter {sv : RegionSolver} (h : Reachable sv) (t : Ty) (quantified : List Region) :
      Reachable (sv.enter t quantified).2.2
  | elide {sv : RegionSolver} (h : Reachable sv) (sig : Signature) : Reachable (sv.elide sig).1
  | solve {sv : RegionSolver} (h : Reachable sv) (s : Subst) : Reachable (sv.solve s).1
  | variance {sv : RegionSolver} (h : Reachable sv) (s : Subst) (r : Region) :
      Reachable (sv.variance s r).1

/-- No region variable stands for another one, whatever a solver was used for. -/
theorem Reachable.direct (h : sv.Reachable) : sv.Direct := by
  induction h with
  | new limit =>
    intro v r hv
    cases hv
  | declare _ params ih =>
    rw [Direct, resolution_declare]
    exact ih
  | fresh _ ih => exact ih
  | add _ _ ih => exact ih
  | enter _ t quantified ih =>
    rw [Direct, resolution_enter]
    exact ih
  | elide _ sig ih =>
    rw [Direct, resolution_elide]
    exact ih
  | @solve sv _ s ih => exact (grows_solve sv s).direct ih
  | variance _ s r ih =>
    unfold RegionSolver.variance
    split
    · exact ih
    · exact ih

end RegionSolver

end Generics
