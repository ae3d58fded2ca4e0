import Generics.Region.Solver

/-!
# Elided regions of a signature

Each elided region of an input gets a region variable of its own. The elided regions of the output then
take the first region of the receiver, or else the region of the only input position there is.
-/

namespace Generics

/-- The types of a function declaration. -/
structure Signature where
  name : String
  receiver : Option Ty
  params : List Ty
  ret : Option Ty

/-- The function type of a signature, with the receiver as its first parameter. -/
def Signature.function (sig : Signature) : Ty := .fn (sig.receiver.toList ++ sig.params) sig.ret

/-- A signature without elided regions. -/
structure Elision where
  signature : Signature
  /-- The regions of the input positions, the receiver's first. -/
  inputs : List Region
  /-- The region given to the elided output positions, if there are any. -/
  output : Option Region

namespace RegionSolver

/-- Fills an input position: an elided region becomes a fresh region variable. -/
def fillInput (r : Region) : StateM (RegionSolver × List Region) Region := fun (sv, inputs) =>
  if r.isElided then
    let (v, sv) := sv.fresh
    (v, sv, inputs ++ [v])
  else (r, sv, inputs ++ [r])

/-- Fills the elided regions of a type. -/
def fillType (sv : RegionSolver) (t : Ty) : Ty × List Region × RegionSolver :=
  let (t, sv, inputs) := (t.mapRegionsM fillInput).run (sv, [])
  (t, inputs, sv)

/-- Fills the elided regions of types one after the other. -/
def fillTypes (sv : RegionSolver) : List Ty → List Ty × List Region × RegionSolver
  | [] => ([], [], sv)
  | t :: ts =>
    let (t, first, sv) := sv.fillType t
    let (ts, rest, sv) := sv.fillTypes ts
    (t :: ts, first ++ rest, sv)

/-- The region that elided output positions take. -/
def outputRegion? : (receiver params : List Region) → Option Region
  | r :: _, _ => some r
  | [], [r] => some r
  | [], _ => none

/-- Fills in the elided regions of a signature. -/
def elide (sv : RegionSolver) (sig : Signature) : RegionSolver × Except Error Elision :=
  let (receiver, receiverRegions, sv) := match sig.receiver with
    | none => (none, [], sv)
    | some t =>
      let (t, regions, sv) := sv.fillType t
      (some t, regions, sv)
  let (params, paramRegions, sv) := sv.fillTypes sig.params
  let inputs := receiverRegions ++ paramRegions
  match sig.ret with
  | none => (sv, .ok ⟨{ sig with receiver, params }, inputs, none⟩)
  | some ret =>
    if !ret.hasElidedRegion then (sv, .ok ⟨{ sig with receiver, params }, inputs, none⟩)
    else match outputRegion? receiverRegions paramRegions with
      | none => (sv, .error (.missingRegion sig.name inputs.length))
      | some out =>
        let ret := ret.mapRegions fun r => if r.isElided then out else r
        (sv, .ok ⟨{ sig with receiver, params, ret := some ret }, inputs, some out⟩)

end RegionSolver

end Generics
