import Generics.Ty.Basic

/-!
# Regions of a type

The region positions of a type in source order: the region of each reference before its referent, and
the region arguments of each name before its type arguments.
-/

namespace Generics.Ty

mutual

/-- Rebuilds the type with each region position, elided ones included, replaced by what `f` returns.
Positions are visited in source order. In the result every function has a return type. -/
def mapRegionsM {m : Type → Type} [Monad m] (f : Region → m Region) : Ty → m Ty
  | .prim name => pure (.prim name)
  | .var id => pure (.var id)
  | .tuple elems => return .tuple (← mapRegionsListM f elems)
  | .array elem size => return .array (← elem.mapRegionsM f) size
  | .ref region isMut inner => do
    let region ← f region
    return .ref region isMut (← inner.mapRegionsM f)
  | .ptr isMut inner => return .ptr isMut (← inner.mapRegionsM f)
  | .fn params none => return .fn (← mapRegionsListM f params) (some unit)
  | .fn params (some ret) => do
    let params ← mapRegionsListM f params
    return .fn params (some (← ret.mapRegionsM f))
  | .named name regions args => do
    let regions ← regions.mapM f
    return .named name regions (← mapRegionsListM f args)

/-- Rebuilds each type of a list with its region positions replaced. -/
def mapRegionsListM {m : Type → Type} [Monad m] (f : Region → m Region) : List Ty → m (List Ty)
  | [] => pure []
  | t :: ts => do
    let t ← t.mapRegionsM f
    return t :: (← mapRegionsListM f ts)

end

mutual

/-- Rebuilds the type with each region position replaced by its image. -/
def mapRegions (f : Region → Region) : Ty → Ty
  | .prim name => .prim name
  | .var id => .var id
  | .tuple elems => .tuple (mapRegionsList f elems)
  | .array elem size => .array (elem.mapRegions f) size
  | .ref region isMut inner => .ref (f region) isMut (inner.mapRegions f)
  | .ptr isMut inner => .ptr isMut (inner.mapRegions f)
  | .fn params none => .fn (mapRegionsList f params) (some unit)
  | .fn params (some ret) => .fn (mapRegionsList f params) (some (ret.mapRegions f))
  | .named name regions args => .named name (regions.map f) (mapRegionsList f args)

/-- Rebuilds each type of a list with its region positions replaced. -/
def mapRegionsList (f : Region → Region) : List Ty → List Ty
  | [] => []
  | t :: ts => t.mapRegions f :: mapRegionsList f ts

end

mutual

/-- The regions written in the type, in source order. An elided region of a reference is not written;
an elided region argument is, as `'_`. -/
def writtenRegions : Ty → List Region
  | .prim _ => []
  | .var _ => []
  | .tuple elems => writtenRegionsList elems
  | .array elem _ => elem.writtenRegions
  | .ref region _ inner => (if region.isElided then [] else [region]) ++ inner.writtenRegions
  | .ptr _ inner => inner.writtenRegions
  | .fn params none => writtenRegionsList params
  | .fn params (some ret) => writtenRegionsList params ++ ret.writtenRegions
  | .named _ regions args => regions ++ writtenRegionsList args

/-- The regions written in the types of a list, in source order. -/
def writtenRegionsList : List Ty → List Region
  | [] => []
  | t :: ts => t.writtenRegions ++ writtenRegionsList ts

end

mutual

/-- The region positions of the type in source order, elided ones included. -/
def regionSlots : Ty → List Region
  | .prim _ => []
  | .var _ => []
  | .tuple elems => regionSlotsList elems
  | .array elem _ => elem.regionSlots
  | .ref region _ inner => region :: inner.regionSlots
  | .ptr _ inner => inner.regionSlots
  | .fn params none => regionSlotsList params
  | .fn params (some ret) => regionSlotsList params ++ ret.regionSlots
  | .named _ regions args => regions ++ regionSlotsList args

/-- The region positions of the types of a list, in source order. -/
def regionSlotsList : List Ty → List Region
  | [] => []
  | t :: ts => t.regionSlots ++ regionSlotsList ts

end

/-- Some region position of the type is elided. -/
def hasElidedRegion (t : Ty) : Bool := t.regionSlots.any Region.isElided

/-- The distinct regions written in the type, in order of first appearance. -/
def regions (t : Ty) : List Region := t.writtenRegions.eraseDups

@[simp] theorem mapRegionsList_eq_map (f : Region → Region) (ts : List Ty) :
    mapRegionsList f ts = ts.map (mapRegions f) := by
  induction ts with
  | nil => rfl
  | cons t ts ih => simp [mapRegionsList, ih]

@[simp] theorem writtenRegionsList_eq_flatMap (ts : List Ty) :
    writtenRegionsList ts = ts.flatMap writtenRegions := by
  induction ts with
  | nil => rfl
  | cons t ts ih => simp [writtenRegionsList, ih]

@[simp] theorem regionSlotsList_eq_flatMap (ts : List Ty) :
    regionSlotsList ts = ts.flatMap regionSlots := by
  induction ts with
  | nil => rfl
  | cons t ts ih => simp [regionSlotsList, ih]

end Generics.Ty
