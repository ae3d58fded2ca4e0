import Generics.Const.Eval
import Mathlib.Tactic.Linarith
import Mathlib.Tactic.Ring

/-!
# Exact arithmetic in 64 bits

The operations of `Const.Word` wrap around and then test whether they did. Each test is exact: it
passes when the result over all integers has 64 bits, and then this is the result.

A sum or a negation is off by one turn of `2 ^ 64`. A product may be off by many, and the test
divides it by the second operand: the quotient can only be the first operand if the product is less
than one turn off, since a remainder is smaller than the divisor.

## Main results

* `Word.map_toInt_add?`, `Word.map_toInt_mul?`, `Word.map_toInt_neg?`: an operation has the exact
  result if that has 64 bits, and none otherwise.
-/

namespace Generics

namespace ConstValue

theorem inWord_iff {n : Int} : inWord n = true ↔ -2 ^ 63 ≤ n ∧ n < 2 ^ 63 := by
  simp [inWord]

end ConstValue

namespace Const.Word

open ConstValue (inWord inWord_iff)

/-- An integer, if it has 64 bits. -/
def fit? (n : Int) : Option Int := if inWord n then some n else none

theorem fit?_of_inWord {n : Int} (h : inWord n = true) : fit? n = some n := if_pos h

theorem fit?_of_not_inWord {n : Int} (h : ¬inWord n = true) : fit? n = none := if_neg h

theorem inWord_toInt (a : Int64) : inWord a.toInt = true :=
  inWord_iff.mpr ⟨a.le_toInt, a.toInt_lt⟩

/-- Wrapping around changes nothing in an integer of 64 bits. -/
theorem bmod_of_inWord {n : Int} (h : inWord n = true) : n.bmod (2 ^ 64) = n := by
  obtain ⟨hlow, hhigh⟩ := inWord_iff.mp h
  rw [Int.bmod_def]
  push_cast
  split <;> omega

/-- Wrapping around changes an integer by a whole number of turns, and keeps it in 64 bits. -/
theorem exists_bmod_eq (n : Int) :
    ∃ turns, n.bmod (2 ^ 64) = n - turns * 2 ^ 64 ∧ inWord (n.bmod (2 ^ 64)) = true := by
  have hbmod : n.bmod (2 ^ 64) = n % 2 ^ 64 ∨ n.bmod (2 ^ 64) = n % 2 ^ 64 - 2 ^ 64 := by
    rw [Int.bmod_def]
    push_cast
    split
    · exact .inl rfl
    · exact .inr rfl
  have hword : inWord (n.bmod (2 ^ 64)) = true := by
    rw [inWord_iff, Int.bmod_def]
    push_cast
    split <;> omega
  rcases hbmod with h | h
  · exact ⟨n / 2 ^ 64, by omega, hword⟩
  · exact ⟨n / 2 ^ 64 + 1, by omega, hword⟩

/-! ## Sums and negations -/

theorem map_toInt_add? (a b : Int64) : (add? a b).map Int64.toInt = fit? (a.toInt + b.toInt) := by
  have ha := inWord_iff.mp (inWord_toInt a)
  have hb := inWord_iff.mp (inWord_toInt b)
  by_cases hfit : inWord (a.toInt + b.toInt) = true
  · have hsum : (a + b).toInt = a.toInt + b.toInt := by
      rw [Int64.toInt_add, bmod_of_inWord hfit]
    have htest : ¬((0 < b ∧ a + b < a) ∨ (b < 0 ∧ a < a + b)) := by
      simp only [Int64.lt_iff_toInt_lt, hsum, Int64.toInt_zero]
      omega
    rw [fit?_of_inWord hfit, add?, if_neg htest, Option.map_some, hsum]
  · -- one turn brings the sum to the other side of both operands
    obtain ⟨turns, hturns, hword⟩ := exists_bmod_eq (a.toInt + b.toInt)
    rw [← Int64.toInt_add] at hturns hword
    rw [inWord_iff] at hfit hword
    have htest : (0 < b ∧ a + b < a) ∨ (b < 0 ∧ a < a + b) := by
      simp only [Int64.lt_iff_toInt_lt, Int64.toInt_zero]
      omega
    rw [fit?_of_not_inWord (by rwa [inWord_iff]), add?, if_pos htest]
    rfl

theorem map_toInt_neg? (a : Int64) : (neg? a).map Int64.toInt = fit? (-a.toInt) := by
  have ha := inWord_iff.mp (inWord_toInt a)
  by_cases hmin : a = .minValue
  · have hfit : ¬inWord (-a.toInt) = true := by
      rw [hmin, Int64.toInt_minValue, inWord_iff]
      omega
    rw [fit?_of_not_inWord hfit, neg?, if_pos hmin]
    rfl
  · have hne : a.toInt ≠ -2 ^ 63 := by
      rw [← Int64.toInt_minValue]
      exact fun h => hmin (Int64.toInt_inj.mp h)
    have hfit : inWord (-a.toInt) = true := inWord_iff.mpr ⟨by omega, by omega⟩
    rw [fit?_of_inWord hfit, neg?, if_neg hmin, Option.map_some, Int64.toInt_neg,
      bmod_of_inWord hfit]

/-! ## Products -/

/-- A dividend is less than a divisor away from the product of quotient and divisor. -/
theorem natAbs_sub_tdiv_mul_lt (p : Int) {y : Int} (hy : y ≠ 0) :
    (p - p.tdiv y * y).natAbs < y.natAbs := by
  have hmod : p - p.tdiv y * y = p.tmod y := by
    have := Int.mul_tdiv_add_tmod p y
    linarith [mul_comm y (p.tdiv y)]
  rw [hmod, Int.natAbs_tmod]
  exact Nat.mod_lt _ (Int.natAbs_pos.mpr hy)

/-- A quotient that does not have 64 bits comes from dividing by one or minus one. -/
theorem natAbs_eq_one_of_tdiv {p y : Int} (hp : inWord p = true) (hy : y ≠ 0)
    (hquot : ¬inWord (p.tdiv y) = true) : y.natAbs = 1 ∧ p.tdiv y = 2 ^ 63 := by
  obtain ⟨hlow, hhigh⟩ := inWord_iff.mp hp
  rw [inWord_iff] at hquot
  have hypos : 0 < y.natAbs := Int.natAbs_pos.mpr hy
  have habs : (p.tdiv y).natAbs = p.natAbs / y.natAbs := Int.natAbs_tdiv p y
  have hle : p.natAbs / y.natAbs ≤ p.natAbs := Nat.div_le_self _ _
  refine ⟨?_, by omega⟩
  -- a divisor of two or more halves the quotient
  by_contra hne
  have hhalf : p.natAbs / y.natAbs ≤ p.natAbs / 2 := Nat.div_le_div_left (by omega) (by decide)
  omega

/-- A product that does not have 64 bits does not pass the test. -/
theorem mul_test_of_not_inWord {a b : Int64} (hb : b.toInt ≠ 0)
    (hfit : ¬inWord (a.toInt * b.toInt) = true) :
    a * b / b ≠ a ∨ (a = -1 ∧ b = .minValue) ∨ (b = -1 ∧ a = .minValue) := by
  have hyword := inWord_iff.mp (inWord_toInt b)
  obtain ⟨turns, hturns, hpword⟩ := exists_bmod_eq (a.toInt * b.toInt)
  rw [← Int64.toInt_mul] at hturns hpword
  -- the product wraps around at least once
  have hturns0 : turns ≠ 0 := by
    rintro rfl
    rw [hturns, zero_mul, sub_zero] at hpword
    exact hfit hpword
  by_contra hpass
  push Not at hpass
  obtain ⟨hdiv, -, hmin⟩ := hpass
  have hquot : ((a * b).toInt.tdiv b.toInt).bmod (2 ^ 64) = a.toInt := by
    rw [← Int64.toInt_div, hdiv]
  by_cases hqword : inWord ((a * b).toInt.tdiv b.toInt) = true
  · -- the quotient is the first operand, so the product is less than one turn off
    rw [bmod_of_inWord hqword] at hquot
    have hnear := natAbs_sub_tdiv_mul_lt (a * b).toInt hb
    rw [hquot, hturns] at hnear
    omega
  · -- the quotient overflows itself, as only the least integer divided by minus one does
    obtain ⟨hone, hlarge⟩ := natAbs_eq_one_of_tdiv hpword hb hqword
    have hleast : a.toInt = -2 ^ 63 := by
      rw [← hquot, hlarge]
      decide
    have hsign : b.toInt = 1 ∨ b.toInt = -1 := by omega
    rcases hsign with hsign | hsign
    · rw [hsign, mul_one] at hfit
      exact hfit (inWord_toInt a)
    · refine hmin (Int64.toInt_inj.mp ?_) (Int64.toInt_inj.mp ?_)
      · rw [hsign]
        rfl
      · rw [hleast, Int64.toInt_minValue]

/-- A product that has 64 bits passes the test. -/
theorem not_mul_test_of_inWord {a b : Int64} (hb : b.toInt ≠ 0)
    (hfit : inWord (a.toInt * b.toInt) = true) :
    ¬(a * b / b ≠ a ∨ (a = -1 ∧ b = .minValue) ∨ (b = -1 ∧ a = .minValue)) := by
  have hquot : a * b / b = a := by
    apply Int64.toInt_inj.mp
    rw [Int64.toInt_div, Int64.toInt_mul, bmod_of_inWord hfit, Int.mul_tdiv_cancel _ hb,
      bmod_of_inWord (inWord_toInt a)]
  rintro (hne | ⟨rfl, rfl⟩ | ⟨rfl, rfl⟩)
  · exact hne hquot
  · exact absurd hfit (by decide)
  · exact absurd hfit (by decide)

theorem map_toInt_mul? (a b : Int64) : (mul? a b).map Int64.toInt = fit? (a.toInt * b.toInt) := by
  unfold mul?
  split
  · rename_i hzero
    have hprod : a.toInt * b.toInt = 0 := by
      rcases hzero with rfl | rfl <;> simp
    rw [hprod]
    rfl
  · rename_i hzero
    have hb : b.toInt ≠ 0 := fun h => hzero (.inr (Int64.toInt_inj.mp h))
    by_cases hfit : inWord (a.toInt * b.toInt) = true
    · rw [fit?_of_inWord hfit, if_neg (not_mul_test_of_inWord hb hfit), Option.map_some,
        Int64.toInt_mul, bmod_of_inWord hfit]
    · rw [fit?_of_not_inWord hfit, if_pos (mul_test_of_not_inWord hb hfit)]
      rfl

end Const.Word

end Generics
