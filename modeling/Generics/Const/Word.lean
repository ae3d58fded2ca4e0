/-!
# Arithmetic in 64 bits

Sums, products and negations of signed 64-bit integers wrap around. An operation is carried out
first, and its result shows whether it wrapped. The limits of shorter integers are made by shifting a
one; an integer type of 64 bits or more has no limit of its own.
-/

namespace Generics.Const.Word

/-- The sum. One that wrapped around lies on the wrong side of the first operand. -/
def add? (a b : Int64) : Option Int64 :=
  let sum := a + b
  if (0 < b ∧ sum < a) ∨ (b < 0 ∧ a < sum) then none else some sum

/-- The product. One that wrapped around does not give back the first operand when it is divided by
the second, except for the least integer times minus one. -/
def mul? (a b : Int64) : Option Int64 :=
  if a = 0 ∨ b = 0 then some 0
  else
    let product := a * b
    if product / b ≠ a ∨ (a = -1 ∧ b = .minValue) ∨ (b = -1 ∧ a = .minValue) then none
    else some product

/-- The negation, which only the least integer does not have. -/
def neg? (a : Int64) : Option Int64 := if a = .minValue then none else some (-a)

/-- The integer is too large or too small for a signed integer type of the given width. -/
def exceedsSigned (width : Nat) (n : Int64) : Bool :=
  let limit : Int64 := 1 <<< Int64.ofNat (width - 1)
  width < 64 && (n < -limit || limit ≤ n)

/-- The integer, which is not negative, is too large for an unsigned integer type of the given
width. -/
def exceedsUnsigned (width : Nat) (n : Int64) : Bool :=
  let limit : UInt64 := 1 <<< UInt64.ofNat width
  width < 64 && limit ≤ n.toUInt64

end Generics.Const.Word
