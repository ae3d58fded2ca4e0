/-!
# Decimal numbers

Natural numbers written in the digits `0` to `9`, and their reading into 64 bits. Leading zeros are
read; separators and the digits of other scripts are not. Only signed numbers take a sign.
-/

namespace Generics.Text

/-- A number in decimal. -/
def decimal (n : Nat) : List Char := Nat.toDigits 10 n

/-- Reads a nonempty run of the digits `0` to `9`. -/
def readNat? (cs : List Char) : Option Nat :=
  if cs ≠ [] ∧ cs.all Char.isDigit then some (Nat.ofDigitChars 10 cs 0) else none

/-- Reads a decimal number below `2 ^ 64`. -/
def readUInt64? (cs : List Char) : Option UInt64 := do
  let n ← readNat? cs
  if n < UInt64.size then some (UInt64.ofNat n) else none

/-- Reads a decimal number that may have a sign. -/
def readInt? : List Char → Option Int
  | '-' :: cs => (readNat? cs).map fun n => -(n : Int)
  | '+' :: cs => (readNat? cs).map Int.ofNat
  | cs => (readNat? cs).map Int.ofNat

/-- Reads a decimal number from `-2 ^ 63` to `2 ^ 63 - 1`, which may have a sign. -/
def readInt64? (cs : List Char) : Option Int := do
  let n ← readInt? cs
  if -Int.pow 2 63 ≤ n ∧ n < Int.pow 2 63 then some n else none

theorem decimal_ne_nil (n : Nat) : decimal n ≠ [] := Nat.toDigits_ne_nil

theorem isDigit_of_mem_decimal {c : Char} {n : Nat} (h : c ∈ decimal n) : c.isDigit = true :=
  Nat.isDigit_of_mem_toDigits (by decide) (by decide) h

theorem readNat?_decimal (n : Nat) : readNat? (decimal n) = some n := by
  have hall : (decimal n).all Char.isDigit = true :=
    List.all_eq_true.mpr fun _ h => isDigit_of_mem_decimal h
  simp only [readNat?, ne_eq, decimal_ne_nil, not_false_eq_true, hall, and_self, if_true]
  exact congrArg some Nat.ofDigitChars_ten_toDigits

theorem decimal_injective : Function.Injective decimal := by
  intro m n h
  have hread : readNat? (decimal m) = readNat? (decimal n) := congrArg readNat? h
  simpa [readNat?_decimal] using hread

theorem readUInt64?_decimal (n : UInt64) : readUInt64? (decimal n.toNat) = some n := by
  have hlt : n.toNat < UInt64.size := n.toNat_lt
  simp [readUInt64?, readNat?_decimal, hlt]

end Generics.Text
