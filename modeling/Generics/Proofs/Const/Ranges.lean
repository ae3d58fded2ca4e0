import Generics.Const.Context
import Generics.Lists
import Generics.Proofs.Const.Exact

/-!
# Values and the types they have

Which constants a type has: the two booleans, the strings for `str` and for a shared reference to
it, and the integers of a range that the sign and the width of an integer type give. No other type
has constants.

Whether a value fits is decided in 64 bits. The limits of a type are made by shifting a one, which
works up to a width of 63; longer types are not compared with a limit at all. For integers of 64
bits this is exact: the limits of shorter types are the powers of two that they should be, and those
of longer types hold of themselves.

## Main results

* `Const.Word.exceedsSigned_eq_false_iff`, `Const.Word.exceedsUnsigned_eq_false_iff`: the tests in
  64 bits are those of the mathematical ranges;
* `ConstValue.misfit?_eq_none_iff`: a value fits a type exactly when the type has it.
-/

namespace Generics

namespace Const.Word

/-! ## Limits made by shifting -/

/-- Up to the last bit but one, a shifted one is a power of two and not negative. -/
theorem toInt_one_shiftLeft {k : Nat} (h : k < 63) :
    ((1 : Int64) <<< Int64.ofNat k).toInt = 2 ^ k := by
  have hall : ∀ k < 63, ((1 : Int64) <<< Int64.ofNat k).toInt = 2 ^ k := by decide
  exact hall k h

theorem toNat_one_shiftLeft {k : Nat} (h : k < 64) :
    ((1 : UInt64) <<< UInt64.ofNat k).toNat = 2 ^ k := by
  have hk : (UInt64.ofNat k).toNat % 64 = k := by
    rw [UInt64.toNat_ofNat']
    omega
  have hpow : 2 ^ k < 2 ^ 64 := Nat.pow_lt_pow_right (by decide) h
  rw [UInt64.toNat_shiftLeft, hk, UInt64.toNat_one, Nat.one_shiftLeft, Nat.mod_eq_of_lt hpow]

/-- An integer is in the range of a signed type exactly if the test says so. -/
theorem exceedsSigned_eq_false_iff {width : Nat} (hwidth : 0 < width) (n : Int64) :
    exceedsSigned width n = false ↔ -2 ^ (width - 1) ≤ n.toInt ∧ n.toInt ≤ 2 ^ (width - 1) - 1 := by
  have hn := ConstValue.inWord_iff.mp (inWord_toInt n)
  unfold exceedsSigned
  by_cases hshort : width < 64
  · -- the limit is a power of two below the greatest integer, so its negation does not wrap
    have hlimit := toInt_one_shiftLeft (k := width - 1) (by omega)
    have hsmall : (2 : Int) ^ (width - 1) < 2 ^ 63 := pow_lt_pow_right₀ (by decide) (by omega)
    have hpos : (0 : Int) < 2 ^ (width - 1) := by positivity
    have hneg : (-((1 : Int64) <<< Int64.ofNat (width - 1))).toInt = -2 ^ (width - 1) := by
      rw [Int64.toInt_neg, hlimit, bmod_of_inWord (ConstValue.inWord_iff.mpr (by omega))]
    simp only [hshort, decide_true, Bool.true_and, Bool.or_eq_false_iff, decide_eq_false_iff_not,
      Int64.lt_iff_toInt_lt, Int64.le_iff_toInt_le, hlimit, hneg]
    omega
  · -- the range of a longer type takes in all integers of 64 bits
    have hlarge : (2 : Int) ^ 63 ≤ 2 ^ (width - 1) := pow_le_pow_right₀ (by decide) (by omega)
    simp only [hshort, decide_false, Bool.false_and, true_iff]
    omega

/-- A natural number is in the range of an unsigned type exactly if the test says so. -/
theorem exceedsUnsigned_eq_false_iff {width : Nat} {n : Int64} (hn : 0 ≤ n.toInt) :
    exceedsUnsigned width n = false ↔ n.toInt ≤ 2 ^ width - 1 := by
  have hword := ConstValue.inWord_iff.mp (inWord_toInt n)
  -- an integer that is not negative is the same without its sign
  have hnat : (n.toUInt64.toNat : Int) = n.toInt := by
    rw [Int64.toNat_toUInt64_of_le (Int64.le_iff_toInt_le.mpr hn)]
    exact Int.toNat_of_nonneg hn
  unfold exceedsUnsigned
  by_cases hshort : width < 64
  · have hlimit : (((1 : UInt64) <<< UInt64.ofNat width).toNat : Int) = 2 ^ width := by
      rw [toNat_one_shiftLeft hshort]
      push_cast
      rfl
    simp only [hshort, decide_true, Bool.true_and, decide_eq_false_iff_not, UInt64.le_iff_toNat_le]
    omega
  · have hlarge : (2 : Int) ^ 64 ≤ 2 ^ width := pow_le_pow_right₀ (by decide) (by omega)
    simp only [hshort, decide_false, Bool.false_and, true_iff]
    omega

end Const.Word

/-! ## The constants of a type -/

/-- The integer types by name, with whether they are signed and their width in bits. -/
inductive IntegerType : String → Bool → Nat → Prop
  | sized (signed : Bool) {bits : Nat} (h : bits ∈ [8, 16, 32, 64, 128]) :
      IntegerType ((if signed then "i" else "u") ++ toString bits) signed bits
  | pointerSized (signed : Bool) : IntegerType ((if signed then "i" else "u") ++ "size") signed 64

/-- The table of integer types is made of a row of widths for each sign. -/
theorem integers_eq : Primitive.integers = [true, false].flatMap fun signed =>
    ([8, 16, 32, 64, 128].map fun bits =>
      ((if signed then "i" else "u") ++ toString bits, signed, bits)) ++
      [((if signed then "i" else "u") ++ "size", signed, 64)] := by
  decide

theorem integerType_iff_mem {name : String} {signed : Bool} {bits : Nat} :
    IntegerType name signed bits ↔ (name, signed, bits) ∈ Primitive.integers := by
  rw [integers_eq, List.mem_flatMap]
  constructor
  · rintro (⟨signed, h⟩ | signed)
    · exact ⟨signed, by cases signed <;> simp, List.mem_append_left _ (List.mem_map_of_mem h)⟩
    · exact ⟨signed, by cases signed <;> simp, List.mem_append_right _ List.mem_cons_self⟩
  · rintro ⟨signed', -, hmem⟩
    rcases List.mem_append.mp hmem with hmem | hmem
    · obtain ⟨bits', hbits, heq⟩ := List.mem_map.mp hmem
      cases heq
      exact .sized signed hbits
    · cases List.mem_singleton.mp hmem
      exact .pointerSized signed

theorem integer?_eq_some_iff {name : String} {signed : Bool} {bits : Nat} :
    Primitive.integer? name = some (signed, bits) ↔ IntegerType name signed bits := by
  have htable : ∀ row ∈ Primitive.integers, Primitive.integer? row.1 = some row.2 := by decide
  rw [integerType_iff_mem]
  constructor
  · exact mem_of_lookup
  · exact htable _

namespace IntegerType

variable {name : String} {signed : Bool} {bits : Nat}

theorem pos (h : IntegerType name signed bits) : 0 < bits := by
  have htable : ∀ row ∈ Primitive.integers, 0 < row.2.2 := by decide
  exact htable _ (integerType_iff_mem.mp h)

/-- No integer type is called like one of the other types with constants. -/
theorem ne (h : IntegerType name signed bits) : name ≠ "bool" ∧ name ≠ "str" := by
  have htable : ∀ row ∈ Primitive.integers, row.1 ≠ "bool" ∧ row.1 ≠ "str" := by decide
  exact htable _ (integerType_iff_mem.mp h)

end IntegerType

/-- The range of the integer types with the given sign and width. -/
def InRange : Bool → Nat → Int → Prop
  | true, bits, n => -2 ^ (bits - 1) ≤ n ∧ n ≤ 2 ^ (bits - 1) - 1
  | false, bits, n => 0 ≤ n ∧ n ≤ 2 ^ bits - 1

namespace ConstValue

/-- The value is one of the type. -/
inductive Inhabits : ConstValue → Ty → Prop
  | bool (b : Bool) : Inhabits (.bool b) (.prim "bool")
  | string (bytes : List UInt8) : Inhabits (.string bytes) (.prim "str")
  | sharedString (bytes : List UInt8) (region : Region) :
      Inhabits (.string bytes) (.ref region false (.prim "str"))
  | integer {name : String} {signed : Bool} {bits : Nat} {n : Int}
      (h : IntegerType name signed bits) (hn : InRange signed bits n) :
      Inhabits (.integer n) (.prim name)

/-! ## What the check accepts -/

theorem rangeMisfit?_eq_none_iff {type : String} {signed : Bool} {bits : Nat} {n : Int}
    (hbits : 0 < bits) (hn : (ConstValue.integer n).Fits) :
    rangeMisfit? type signed bits n = none ↔ InRange signed bits n := by
  have htoInt := Const.toInt_ofInt_of_fits hn
  unfold rangeMisfit?
  cases signed with
  | true =>
    have htest := Const.Word.exceedsSigned_eq_false_iff hbits (.ofInt n)
    rw [htoInt] at htest
    rw [if_pos rfl, ite_eq_right_iff, InRange, ← htest]
    simp
  | false =>
    rw [if_neg Bool.false_ne_true, InRange]
    by_cases hneg : n < 0
    · rw [if_pos hneg]
      simp [hneg]
    · -- a number that is not negative is compared as a word without sign
      have htest := @Const.Word.exceedsUnsigned_eq_false_iff bits (.ofInt n) (by omega)
      rw [htoInt] at htest
      rw [if_neg hneg, ite_eq_right_iff, ← htest]
      simp [Int.not_lt.mp hneg]

/-- A primitive type that has a value is `bool`, `str` or an integer type, by the kind of the
value. -/
theorem inhabits_prim_iff {v : ConstValue} {name : String} : v.Inhabits (.prim name) ↔
    v.kind = .bool ∧ name = "bool" ∨ v.kind = .string ∧ name = "str" ∨
      ∃ n signed bits, v = .integer n ∧ IntegerType name signed bits ∧ InRange signed bits n := by
  constructor
  · intro h
    cases h with
    | bool b => exact .inl ⟨rfl, rfl⟩
    | string bytes => exact .inr (.inl ⟨rfl, rfl⟩)
    | integer h hn => exact .inr (.inr ⟨_, _, _, rfl, h, hn⟩)
  · rintro (⟨hkind, rfl⟩ | ⟨hkind, rfl⟩ | ⟨n, signed, bits, rfl, h, hn⟩)
    · cases v with
      | bool b => exact .bool b
      | integer n => cases hkind
      | string bytes => cases hkind
    · cases v with
      | string bytes => exact .string bytes
      | integer n => cases hkind
      | bool b => cases hkind
    · exact .integer h hn

theorem misfit?_integerType {name : String} {signed : Bool} {bits : Nat}
    (h : IntegerType name signed bits) {v : ConstValue} (hv : v.Fits) :
    v.misfit? (.prim name) = none ↔ v.Inhabits (.prim name) := by
  have hinteger := integer?_eq_some_iff.mpr h
  simp only [misfit?, inhabits_prim_iff, h.ne.1, h.ne.2, hinteger, if_false, and_false, false_or]
  cases v with
  | integer n =>
    rw [rangeMisfit?_eq_none_iff h.pos hv]
    constructor
    · exact fun hn => ⟨n, signed, bits, rfl, h, hn⟩
    · rintro ⟨m, signed', bits', hm, h', hn⟩
      -- a name stands for one sign and width only
      obtain ⟨rfl, rfl⟩ := Prod.mk.inj
        (Option.some.inj (hinteger.symm.trans (integer?_eq_some_iff.mpr h')))
      rwa [integer.inj hm]
  | bool b => exact iff_of_false (by rintro ⟨⟩) (by rintro ⟨n, signed', bits', ⟨⟩, -⟩)
  | string bytes => exact iff_of_false (by rintro ⟨⟩) (by rintro ⟨n, signed', bits', ⟨⟩, -⟩)

/-- A value of 64 bits fits a type exactly when the type has it. -/
theorem misfit?_eq_none_iff {t : Ty} {v : ConstValue} (hv : v.Fits) :
    v.misfit? t = none ↔ v.Inhabits t := by
  cases t with
  | prim name =>
    cases hinteger : Primitive.integer? name with
    | some row => exact misfit?_integerType (integer?_eq_some_iff.mp hinteger) hv
    | none =>
      -- of the other primitive types only `bool` and `str` have constants
      have hno : ∀ signed bits, ¬IntegerType name signed bits := fun signed bits h => by
        rw [integer?_eq_some_iff.mpr h] at hinteger
        cases hinteger
      rw [inhabits_prim_iff]
      simp only [misfit?, hinteger, hno, false_and, and_false, exists_false, or_false]
      by_cases hbool : name = "bool"
      · simp [hbool]
      · by_cases hstr : name = "str"
        · simp [hstr]
        · simp [hbool, hstr]
  | ref region isMut inner =>
    simp only [misfit?, ite_eq_left_iff, reduceCtorEq, imp_false, not_not]
    constructor
    · rintro ⟨rfl, rfl, hkind⟩
      cases v with
      | integer n => cases hkind
      | bool b => cases hkind
      | string bytes => exact .sharedString bytes region
    · rintro ⟨⟩
      exact ⟨rfl, rfl, rfl⟩
  | _ => exact iff_of_false (by rintro ⟨⟩) (by rintro ⟨⟩)

end ConstValue

end Generics
