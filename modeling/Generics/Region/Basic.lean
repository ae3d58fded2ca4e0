import Generics.Text.Decimal

/-!
# Regions

A region names a scope in which a reference is valid. A region that the programmer left out is
*elided*; it has the empty name. The checker issues *region variables* `'_0`, `'_1`, … for regions that
are still to be found.
-/

namespace Generics

/-- A region, by its written name such as `'a`. -/
structure Region where
  name : String
deriving DecidableEq, Repr, Hashable

namespace Region

/-- The region of a position where none was written. -/
def elided : Region := ⟨""⟩

/-- The region that outlives every other one. -/
def static : Region := ⟨"'static"⟩

/-- No region was written here. -/
def isElided (r : Region) : Bool := r.name = ""

/-- The region variable with a given number. -/
def numbered (n : Nat) : Region := ⟨String.ofList ('\'' :: '_' :: Text.decimal n)⟩

/-- The region has the form of a region variable: `'_` and then a number, which may have a sign and
fits in 64 bits. -/
def isVariable (r : Region) : Bool :=
  match r.name.toList with
  | '\'' :: '_' :: digits => (Text.readInt64? digits).isSome
  | _ => false

instance : ToString Region := ⟨name⟩

instance : Inhabited Region := ⟨elided⟩

@[simp] theorem isElided_elided : elided.isElided = true := rfl

theorem isElided_iff {r : Region} : r.isElided = true ↔ r = elided := by
  cases r
  simp [isElided, elided]

theorem numbered_injective : Function.Injective numbered := by
  intro m n h
  have hname : (numbered m).name.toList = (numbered n).name.toList :=
    congrArg (fun r => r.name.toList) h
  exact Text.decimal_injective (by simpa [numbered] using hname)

end Region

end Generics
