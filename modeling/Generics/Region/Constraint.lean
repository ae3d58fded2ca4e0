import Generics.Ty.Printer

/-!
# Constraints between regions

What the signature of a function may ask of its regions. A region *outlives* another when it is valid
for at least as long.
-/

namespace Generics

/-- A requirement on regions. -/
inductive RegionConstraint where
  /-- The first region outlives the second. -/
  | outlives (longer shorter : Region)
  /-- The two regions outlive each other. -/
  | equal (a b : Region)
  /-- Every region written in the type outlives the region. -/
  | typeOutlives (type : Ty) (region : Region)
deriving DecidableEq

namespace RegionConstraint

/-- The constraint as it is written. -/
def render : RegionConstraint → String
  | outlives longer shorter => s!"{longer.name}: {shorter.name}"
  | equal a b => s!"{a.name} == {b.name}"
  | typeOutlives type region => s!"{type.render}: {region.name}"

instance : ToString RegionConstraint := ⟨render⟩

end RegionConstraint

end Generics
