/-!
# Positions in a file
-/

namespace Generics

/-- A place in a file. Lines and columns are counted from 1, columns in characters. -/
structure Position where
  line : Nat
  column : Nat
deriving DecidableEq, Repr

namespace Position

/-- The beginning of a file. -/
def start : Position := ⟨1, 1⟩

instance : Inhabited Position := ⟨start⟩

/-- The place as `line:column`. -/
def render (p : Position) : String := s!"{p.line}:{p.column}"

end Position

end Generics
