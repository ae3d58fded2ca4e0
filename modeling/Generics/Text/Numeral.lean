/-!
# Numerals with a base mark

A numeral is decimal, or it starts with `0b`, `0o` or `0x`; a plain leading zero stands for octal too. An
underscore may separate two digits, and the mark from the first digit. Numbers have 64 bits.
-/

namespace Generics.Text

/-- Why a text is no number of 64 bits. -/
inductive NumeralError where
  | malformed
  | outOfRange
deriving DecidableEq, Repr

namespace Numeral

/-- The value of a digit in bases up to 36. -/
def digit? (c : Char) : Option Nat :=
  if '0' ≤ c ∧ c ≤ '9' then some (c.toNat - '0'.toNat)
  else if 'a' ≤ c ∧ c ≤ 'z' then some (c.toNat - 'a'.toNat + 10)
  else if 'A' ≤ c ∧ c ≤ 'Z' then some (c.toNat - 'A'.toNat + 10)
  else none

/-- Reads digits that follow the number `n`. Underscores are passed over. -/
def digits (base n : Nat) : List Char → Except NumeralError Nat
  | [] => .ok n
  | '_' :: cs => digits base n cs
  | c :: cs =>
    match digit? c with
    | none => .error .malformed
    | some d =>
      if base ≤ d then .error .malformed
      else if Nat.pow 2 64 ≤ n * base + d then .error .outOfRange
      else digits base (n * base + d) cs

/-- Every underscore stands between two digits. `after` says whether a digit comes before. -/
def separates (after : Bool) : List Char → Bool
  | [] => true
  | '_' :: cs => after && !cs.isEmpty && separates false cs
  | _ :: cs => separates true cs

/-- Reads digits whose underscores separate them. -/
def separated (base : Nat) (after : Bool) (cs : List Char) : Except NumeralError Nat := do
  let n ← digits base 0 cs
  if separates after cs then .ok n else .error .malformed

/-- Reads a numeral without a sign. -/
def unsigned : List Char → Except NumeralError Nat
  | [] => .error .malformed
  | '0' :: cs =>
    match cs with
    | mark :: c :: cs =>
      if mark = 'b' ∨ mark = 'B' then separated 2 true (c :: cs)
      else if mark = 'o' ∨ mark = 'O' then separated 8 true (c :: cs)
      else if mark = 'x' ∨ mark = 'X' then separated 16 true (c :: cs)
      else separated 8 true (mark :: c :: cs)
    | cs => separated 8 true cs
  | cs => separated 10 false cs

/-- Reads a numeral that may have a sign. -/
def signed (cs : List Char) : Except NumeralError Int := do
  match cs with
  | '-' :: cs =>
    let n ← unsigned cs
    if n ≤ Nat.pow 2 63 then .ok (-(n : Int)) else .error .outOfRange
  | '+' :: cs | cs =>
    let n ← unsigned cs
    if n < Nat.pow 2 63 then .ok n else .error .outOfRange

end Numeral

end Generics.Text
