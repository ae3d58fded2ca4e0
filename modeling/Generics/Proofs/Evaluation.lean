import Generics.Subst.Unify
import Mathlib

/-!
# Evaluating runs

A theorem about runs is applied to a run that is worked out with `cbv`. It opens each function by its
equations. For functions of the standard library, such as `List.lookup` and `Option.isNone`, these are
kept in many parts of Mathlib, which is therefore imported as a whole, but only here. The modules that
evaluate runs build on this one.

What can not be worked out in this way is whether a substitution is acyclic. `Subst.Acyclic.unify_eq`
takes a proof of it instead.
-/

namespace Generics

/-- Under a substitution that is known to be acyclic, unification goes on at once. -/
theorem Subst.Acyclic.unify_eq {s : Subst} (hs : s.Acyclic) (a b : Ty) :
    s.unify a b = s.unifyAll (a, b) hs [(a, b)] :=
  dif_pos hs

end Generics
