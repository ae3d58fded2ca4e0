import Generics.Ty.Variables

/-!
# Fresh variables

A supply of variables that counts upwards, and the renaming of types apart from others. The counter
has 64 bits and wraps around.
-/

namespace Generics

/-- A supply of inference variables. -/
structure Fresher where
  /-- The variable that is issued next. -/
  next : VarId
deriving DecidableEq, Repr

/-- New names given to variables, the latest first. -/
abbrev Renaming := List (VarId × VarId)

namespace Fresher

/-- The supply that starts at variable 0. -/
def new : Fresher := ⟨0⟩

instance : Inhabited Fresher := ⟨new⟩

/-- The supply that starts after a given variable, if it has not come so far yet. -/
def skip (f : Fresher) (v : VarId) : Fresher := if f.next ≤ v then ⟨v + 1⟩ else f

/-- The supply that starts after all variables of the given types. -/
def after (ts : List Ty) : Fresher := (ts.flatMap Ty.freeVars).foldl skip new

/-- Issues a variable. -/
def fresh (f : Fresher) : VarId × Fresher := (f.next, ⟨f.next + 1⟩)

/-- The new name of a variable. One that has none yet is given the next. -/
def rename (v : VarId) : StateM (Renaming × Fresher) Ty := modifyGet fun (r, f) =>
  match r.lookup v with
  | some w => (.var w, r, f)
  | none =>
    let (w, f) := f.fresh
    (.var w, (v, w) :: r, f)

/-- Replaces every variable of a type by its new name. New names are made in source order and kept
for later types. -/
def renameApart (f : Fresher) (r : Renaming) (t : Ty) : Ty × Renaming × Fresher :=
  (t.substM rename).run (r, f)

/-- Renames the variables of a type by itself. -/
def renameAlone (f : Fresher) (t : Ty) : Ty × Fresher :=
  let (t, _, f) := f.renameApart [] t
  (t, f)

end Fresher

end Generics
