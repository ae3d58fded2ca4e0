import Generics.Ty.Basic

/-!
# Replacing names in a type

The named types of a type are offered to a function from the outside in. One that it replaces is not
looked into; the arguments of one that it keeps are.
-/

namespace Generics.Ty

mutual

/-- Replaces the named types for which `f` returns a type, in source order, up to the first failure.
In the result every function has a return type. -/
def expandNames {ε : Type} (f : String → List Region → List Ty → Except ε (Option Ty)) :
    Ty → Except ε Ty
  | .prim name => .ok (.prim name)
  | .var id => .ok (.var id)
  | .tuple elems => return .tuple (← expandNamesList f elems)
  | .array elem size => return .array (← elem.expandNames f) size
  | .ref region isMut inner => return .ref region isMut (← inner.expandNames f)
  | .ptr isMut inner => return .ptr isMut (← inner.expandNames f)
  | .fn params none => return .fn (← expandNamesList f params) (some unit)
  | .fn params (some ret) => do
    let params ← expandNamesList f params
    return .fn params (some (← ret.expandNames f))
  | .named name regions args => do
    match ← f name regions args with
    | some t => return t
    | none => return .named name regions (← expandNamesList f args)

/-- Replaces the named types in each type of a list. -/
def expandNamesList {ε : Type} (f : String → List Region → List Ty → Except ε (Option Ty)) :
    List Ty → Except ε (List Ty)
  | [] => .ok []
  | t :: ts => do
    let t ← t.expandNames f
    return t :: (← expandNamesList f ts)

end

mutual

/-- The names that stand without arguments in the type, in source order. -/
def bareNames : Ty → List String
  | .prim _ => []
  | .var _ => []
  | .tuple elems => bareNamesList elems
  | .array elem _ => elem.bareNames
  | .ref _ _ inner => inner.bareNames
  | .ptr _ inner => inner.bareNames
  | .fn params none => bareNamesList params
  | .fn params (some ret) => bareNamesList params ++ ret.bareNames
  | .named name [] [] => [name]
  | .named _ _ args => bareNamesList args

/-- The names that stand without arguments in the types of a list. -/
def bareNamesList : List Ty → List String
  | [] => []
  | t :: ts => t.bareNames ++ bareNamesList ts

end

mutual

/-- Replaces the names without arguments for which `f` gives a type. In the result every function has
a return type. -/
def replaceBareNames (f : String → Option Ty) : Ty → Ty
  | .prim name => .prim name
  | .var id => .var id
  | .tuple elems => .tuple (replaceBareNamesList f elems)
  | .array elem size => .array (elem.replaceBareNames f) size
  | .ref region isMut inner => .ref region isMut (inner.replaceBareNames f)
  | .ptr isMut inner => .ptr isMut (inner.replaceBareNames f)
  | .fn params none => .fn (replaceBareNamesList f params) (some unit)
  | .fn params (some ret) => .fn (replaceBareNamesList f params) (some (ret.replaceBareNames f))
  | .named name [] [] => (f name).getD (.named name [] [])
  | .named name regions args => .named name regions (replaceBareNamesList f args)

/-- Replaces names without arguments in each type of a list. -/
def replaceBareNamesList (f : String → Option Ty) : List Ty → List Ty
  | [] => []
  | t :: ts => t.replaceBareNames f :: replaceBareNamesList f ts

end

@[simp] theorem bareNamesList_eq_flatMap (ts : List Ty) :
    bareNamesList ts = ts.flatMap bareNames := by
  induction ts with
  | nil => rfl
  | cons t ts ih => simp [bareNamesList, ih]

@[simp] theorem replaceBareNamesList_eq_map (f : String → Option Ty) (ts : List Ty) :
    replaceBareNamesList f ts = ts.map (replaceBareNames f) := by
  induction ts with
  | nil => rfl
  | cons t ts ih => simp [replaceBareNamesList, ih]

/-- A name with arguments is not bare. -/
theorem bareNames_applied {name : String} {regions : List Region} {args : List Ty}
    (h : ¬ (regions = [] ∧ args = [])) :
    (named name regions args).bareNames = args.flatMap bareNames := by
  rw [← bareNamesList_eq_flatMap]
  cases regions with
  | nil =>
    cases args with
    | nil => exact absurd ⟨rfl, rfl⟩ h
    | cons t ts => rfl
  | cons r rs => rfl

theorem replaceBareNames_applied {f : String → Option Ty} {name : String} {regions : List Region}
    {args : List Ty} (h : ¬ (regions = [] ∧ args = [])) :
    (named name regions args).replaceBareNames f =
      .named name regions (args.map (replaceBareNames f)) := by
  rw [← replaceBareNamesList_eq_map]
  cases regions with
  | nil =>
    cases args with
    | nil => exact absurd ⟨rfl, rfl⟩ h
    | cons t ts => rfl
  | cons r rs => rfl

end Generics.Ty
