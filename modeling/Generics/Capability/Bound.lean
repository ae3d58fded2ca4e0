import Generics.Ty.Printer
import Generics.Variance

/-!
# Bounds

A bound is a requirement on a type: that it has a capability, with arguments or without, or that it
outlives a region.
-/

namespace Generics

open Text

/-- What a bound asks for. -/
inductive BoundKind where
  /-- A capability, as in `T: Display`. -/
  | simple
  /-- A capability with arguments, as in `T: Into<i32>`. -/
  | parameterized
  /-- A capability for every choice of regions, as in `F: for<'a> Fn<&'a u8>`. -/
  | higherRanked
  /-- To outlive a region, as in `T: 'a`. -/
  | region
  | unknown
deriving DecidableEq, Repr

/-- The name of a kind of bound. -/
def BoundKind.render : BoundKind → String
  | simple => "simple"
  | parameterized => "parameterized"
  | higherRanked => "higher-ranked"
  | region => "region"
  | unknown => "unknown"

/-- The bound is a matter of regions and not of implementations. -/
def BoundKind.isRegional : BoundKind → Bool
  | higherRanked | region => true
  | simple | parameterized | unknown => false

/-- The variance that a bound of this kind imposes on the type it constrains. -/
def BoundKind.variance : BoundKind → Variance
  | simple | region => .co
  | higherRanked => .contra
  | parameterized | unknown => .inv

/-- A requirement on a type. -/
structure Bound where
  kind : BoundKind
  capability : String := ""
  args : List Ty := []
  /-- The region that is to be outlived. -/
  region : Region := .elided
  /-- The regions over which the bound quantifies. -/
  quantified : List Region := []
deriving DecidableEq

namespace Bound

/-- A capability as it is written with its arguments. -/
def applied (capability : String) (args : List Ty) : String :=
  if args.isEmpty then capability else s!"{capability}<{Ty.renderList args}>"

/-- The bound as it is written. -/
def render (b : Bound) : String :=
  if b.kind = .region then b.region.name
  else
    let regions := ", ".intercalate (b.quantified.map Region.name)
    let quantifier := if b.quantified.isEmpty then "" else s!"for<{regions}> "
    quantifier ++ applied b.capability b.args

instance : ToString Bound := ⟨render⟩

/-- The bound that asks for a capability without arguments. -/
def simple (capability : String) : Bound := { kind := .simple, capability }

/-- The bound that asks for a capability with arguments. -/
def parameterized (capability : String) (args : List Ty) : Bound :=
  { kind := .parameterized, capability, args }

end Bound

end Generics
