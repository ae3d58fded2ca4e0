import Generics.Proofs.Const.Writing
import Generics.Proofs.Text.Quoting

/-!
# Printed values

A value is printed as an expression, and evaluation of what is printed gives the value again. The
one exception is the least integer of 64 bits. A sign is an operator and no part of a literal, and
the literal is tested before the sign is applied to it, so the number that the digits of the least
integer stand for is one too large; it can only be written as the result of an operation.

## Main results

* `writes_decimal`: the digits of a number are a way to write it;
* `exists_writes_render`: a printed value is a way to write it, with one exception;
* `eval_render_least`: the error for the exception;
* `Evaluator.evaluate_render`: which values are returned, and which of them evaluate to themselves.
-/

namespace Generics.Const

open ConstValue Text Token

/-! ## Digits as bytes -/

/-- An ASCII character is read back from its byte. -/
theorem charOf_byteOf {c : Char} (h : c.toNat < 128) : charOf (Utf8.byteOf c) = c :=
  charOf_eq_iff.mpr (Utf8.toNat_byteOf h)

/-- The bytes of digits are digits, and they are the same ones. -/
theorem digits_ofChars {ds : List Char} (h : ∀ d ∈ ds, d.isDigit = true) :
    (∀ b ∈ Utf8.ofChars ds, isDigitByte b = true) ∧ (Utf8.ofChars ds).map charOf = ds := by
  induction ds with
  | nil => exact ⟨by simp [Utf8.ofChars], rfl⟩
  | cons d ds ih =>
    obtain ⟨hd, hds⟩ := List.forall_mem_cons.mp h
    have hascii : d.toNat < 128 := Nat.lt_of_le_of_lt (Char.isDigit_iff_toNat.mp hd).2 (by decide)
    obtain ⟨hbytes, hmap⟩ := ih hds
    rw [Utf8.ofChars_cons_of_lt hascii, List.map_cons, hmap, charOf_byteOf hascii]
    refine ⟨List.forall_mem_cons.mpr ⟨?_, hbytes⟩, rfl⟩
    rw [isDigitByte, charOf_byteOf hascii, hd]

/-- A number is written as a digit and more digits, and nothing is dropped from them. -/
theorem exists_digits (n : Nat) : ∃ b bs, Utf8.ofChars (decimal n) = b :: bs ∧
    isDigitByte b = true ∧ (∀ c ∈ bs, isIntByte c = true) ∧
    ((b :: bs).filter isDigitByte).map charOf = decimal n := by
  obtain ⟨hdigits, hmap⟩ := digits_ofChars fun d hd => isDigit_of_mem_decimal (n := n) hd
  have hne : Utf8.ofChars (decimal n) ≠ [] := by
    intro hnil
    rw [hnil] at hmap
    exact decimal_ne_nil n hmap.symm
  obtain ⟨b, bs, hbytes⟩ := List.exists_cons_of_ne_nil hne
  rw [hbytes] at hdigits hmap
  obtain ⟨hb, hbs⟩ := List.forall_mem_cons.mp hdigits
  -- the scanner drops underscores, of which there are none here
  refine ⟨b, bs, hbytes, hb, fun c hc => ?_, ?_⟩
  · rw [isIntByte, hbs c hc, Bool.true_or]
  · rw [List.filter_eq_self.mpr hdigits, hmap]

/-- The digits of a number are one token. -/
theorem lexes_decimal (n : Nat) : Lexes (Utf8.ofChars (decimal n)) [.int (decimal n)] := by
  obtain ⟨b, bs, hbytes, hb, hbs, hdigits⟩ := exists_digits n
  rw [hbytes, ← hdigits]
  exact lexes_int hb hbs

/-- The digits of a number are a way to write it. -/
theorem writes_decimal {n : Nat} (hn : n < 2 ^ 63) :
    Writes .operand (Utf8.ofChars (decimal n)) (.int n hn) := by
  obtain ⟨b, bs, hbytes, hb, hbs, hdigits⟩ := exists_digits n
  rw [hbytes]
  refine .int hn hb hbs ?_
  rw [hdigits]
  exact Nat.ofDigitChars_ten_toDigits

/-! ## The bytes of printed values -/

/-- A number is printed by its digits. -/
theorem ofText_render_natCast (n : Nat) :
    Utf8.ofText (render (.integer n)) = Utf8.ofChars (decimal n) :=
  Utf8.ofText_ofList (decimal n)

/-- A negative number is printed with a minus in front of its digits. -/
theorem ofText_render_neg {n : Nat} (hn : 0 < n) :
    Utf8.ofText (render (.integer (-(n : Int)))) =
      Utf8.byteOf '-' :: Utf8.ofChars (decimal n) := by
  obtain ⟨m, rfl⟩ := Nat.exists_eq_add_one.mpr hn
  have hrender : render (.integer (-((m + 1 : Nat) : Int))) =
      String.ofList ('-' :: decimal (m + 1)) :=
    (@String.ofList_append ['-'] (decimal (m + 1))).symm
  rw [hrender, Utf8.ofText_ofList, Utf8.ofChars_cons_of_lt (by decide)]

/-- A string is printed with its pieces encoded, in quotes. -/
theorem ofText_render_string (bytes : List UInt8) :
    Utf8.ofText (render (.string bytes)) = Utf8.byteOf '"' ::
      (Utf8.ofChars ((Utf8.pieces bytes).flatMap Quoted.encodePiece) ++ [Utf8.byteOf '"']) := by
  rw [render, Utf8.ofText_ofList, Quoted.encode, List.cons_append,
    Utf8.ofChars_cons_of_lt (by decide), Utf8.ofChars_append]
  rfl

/-- A minus sign and digits write the negated number. -/
theorem writes_neg {n : Nat} (hn : n < 2 ^ 63) :
    Writes .operand (Utf8.byteOf '-' :: Utf8.ofChars (decimal n)) (.neg (.int n hn)) :=
  .neg (by decide) (writes_decimal hn)

/-- The value of a negated numeral. -/
theorem value_neg {n : Nat} (hn : n < 2 ^ 63) :
    (Expr.neg (.int n hn)).value = .ok (.integer (-(n : Int))) := by
  have hfits : (integer n).Fits := fits_integer_iff.mpr (by omega)
  have hoffence : offenceOf '-' (integer n) (integer n) (exactNeg? (integer n)) = none := by
    rw [exactNeg?, offenceOf, if_pos (by omega)]
  obtain ⟨v, hexact, hvalue, -⟩ := (meets_neg hfits).of_none hoffence
  cases hexact
  exact hvalue

/-- A printed value is a way to write it, unless it is the least integer. -/
theorem exists_writes_render {v : ConstValue} (h : v.Fits) (hv : v ≠ .integer (-2 ^ 63)) :
    ∃ e, Writes .operand (Utf8.ofText v.render) e ∧ e.value = .ok v := by
  cases v with
  | integer n =>
    obtain ⟨hlow, hhigh⟩ := fits_integer_iff.mp h
    have hne : n ≠ -2 ^ 63 := fun hn => hv (congrArg integer hn)
    -- the digits are those of the absolute value, which is in range as a literal
    rcases lt_or_ge n 0 with hneg | hpos
    · obtain ⟨m, rfl⟩ := Int.exists_eq_neg_ofNat (Int.le_of_lt hneg)
      have hm : m < 2 ^ 63 := by omega
      rw [ofText_render_neg (by omega)]
      exact ⟨.neg (.int m hm), writes_neg hm, value_neg hm⟩
    · obtain ⟨m, rfl⟩ := Int.eq_ofNat_of_zero_le hpos
      have hm : m < 2 ^ 63 := by omega
      rw [ofText_render_natCast]
      exact ⟨.int m hm, writes_decimal hm, rfl⟩
  | bool b => exact ⟨.bool b, .bool b, rfl⟩
  | string bytes =>
    rw [ofText_render_string]
    exact ⟨.string bytes, .string (by decide) (by decide) (Quoted.decode_body bytes), rfl⟩

/-! ## Values of printed values -/

/-- Every value but the least integer is read back from its printing. -/
theorem eval_render {v : ConstValue} (h : v.Fits) (hv : v ≠ .integer (-2 ^ 63)) :
    eval v.render = .ok v := by
  obtain ⟨e, hwrites, hvalue⟩ := exists_writes_render h hv
  have hsum := @Writes.single .plus _ _ (@Writes.single .times _ _ hwrites)
  exact hsum.eval_eq.trans hvalue

/-- The failure of an operand is that of the product and of the sum around it. -/
theorem readAt_level_of_error (op : Operator) {ts : List Token} {f : Failure}
    (h : readAt op.below ts = .error f) : readAt op.level ts = .error f := by
  rw [readAt_level, h]
  rfl

/-- A literal of more than 64 bits is an error, also after a minus sign. -/
theorem eval_render_neg_of_le {n : Nat} (hn : 2 ^ 63 ≤ n) : eval (render (.integer (-(n : Int)))) =
    .error (.fault (.outOfRange (String.ofList (decimal n)))) := by
  have hminus : charOf (Utf8.byteOf '-') ∈ operators := by decide
  have hscan := ((lexes_decimal n).operator hminus).scan_eq
  rw [charOf_byteOf (by decide)] at hscan
  -- the digits are read before the minus is applied to them
  have hword : ¬ConstValue.inWord n = true := by
    rw [ConstValue.inWord_iff]
    omega
  have hliteral : literalOf (.int (decimal n)) =
      .error (.fault (.outOfRange (String.ofList (decimal n)))) := by
    have hdigits : Nat.ofDigitChars 10 (decimal n) 0 = n := Nat.ofDigitChars_ten_toDigits
    rw [literalOf, intLiteral, hdigits]
    exact if_neg hword
  have hread : readAt .operand [.op '-', .int (decimal n)] =
      .error (.fault (.outOfRange (String.ofList (decimal n)))) := by
    rw [readAt_minus, readAt_literal (by rintro ⟨⟩) (by rintro ⟨⟩), hliteral]
    rfl
  have hsum : readAt .sum _ = _ := readAt_level_of_error .plus (readAt_level_of_error .times hread)
  rw [eval, ofText_render_neg (by omega), hscan]
  refine (evalTokens_eq (List.cons_ne_nil _ _)).trans ?_
  rw [hsum]
  rfl

/-- The least integer is not: its digits alone are out of range. -/
theorem eval_render_least : eval (render (.integer (-2 ^ 63))) =
    .error (.fault (.outOfRange "9223372036854775808")) := by
  have hdigits : String.ofList (decimal (2 ^ 63)) = "9223372036854775808" := by decide +kernel
  rw [← hdigits]
  exact eval_render_neg_of_le (Nat.le_refl _)

/-- The least integer is the result of an operation. -/
theorem eval_least : eval "-9223372036854775807+-1" = .ok (.integer (-2 ^ 63)) := by
  have hmax := writes_neg (n := 2 ^ 63 - 1) (by decide)
  have hone := writes_neg (n := 1) (by decide)
  have hsum := @Writes.binary .plus (Utf8.byteOf '+') _ _ _ _ rfl
    (@Writes.single .plus _ _ (@Writes.single .times _ _ hmax)) (@Writes.single .times _ _ hone)
  -- the bytes of the text are those of the sum of the two printed integers
  have hbytes : Utf8.byteOf '-' :: Utf8.ofChars (decimal (2 ^ 63 - 1)) ++
      Utf8.byteOf '+' :: Utf8.byteOf '-' :: Utf8.ofChars (decimal 1) =
        Utf8.ofText "-9223372036854775807+-1" := by decide +kernel
  rw [hbytes] at hsum
  exact hsum.eval_eq

/-- Every integer of 64 bits, every boolean and every byte string is the value of some text. -/
theorem exists_eval_iff {v : ConstValue} : (∃ text, eval text = .ok v) ↔ v.Fits := by
  constructor
  · rintro ⟨text, h⟩
    exact fits_of_eval h
  · intro h
    by_cases hv : v = .integer (-2 ^ 63)
    · exact ⟨_, hv ▸ eval_least⟩
    · exact ⟨v.render, eval_render h hv⟩

/-! ## The evaluator -/

namespace Evaluator

/-- An evaluator returns the integers of 64 bits, the booleans and the byte strings, and nothing
else. What it returned is returned again for its printed form, whatever is evaluated before. The
exception is the least integer, whose printed form has a literal that is out of range. -/
theorem evaluate_render (v : ConstValue) :
    (v.Fits ↔ ∃ earlier text, ((after earlier).evaluate text).2 = .ok v) ∧
    ∀ earlier text, ((after earlier).evaluate text).2 = .ok v →
      ∀ later, ((after later).evaluate v.render).2 =
        if v = .integer (-2 ^ 63) then
          .error (.constEval "-9223372036854775808"
            "integer literal 9223372036854775808 out of range")
        else .ok v := by
  simp only [evaluate_after_eq_ok_iff]
  refine ⟨?_, fun _ text h later => ?_⟩
  · rw [← exists_eval_iff]
    exact ⟨fun h => ⟨[], h⟩, fun ⟨_, h⟩ => h⟩
  · split
    case isTrue hv =>
      rw [hv, ((faithful_after later).evaluate _).1, eval_render_least]
      rfl
    case isFalse hv => exact evaluate_after_eq_ok_iff.mpr (eval_render (fits_of_eval h) hv)

/-- A sum of two strings with a byte outside any character, a quote and a line end. -/
theorem evaluate_render_of_strings :
    ((after []).evaluate "\"a\\xff\"+\"\\\"\\n\"").2 = .ok (.string [97, 255, 34, 10]) ∧
      ((after ["1"]).evaluate "\"a\\xff\\\"\\n\"").2 = .ok (.string [97, 255, 34, 10]) := by
  have hleft : Writes .operand (34 :: (Utf8.ofText "a\\xff" ++ [34])) (.string [97, 255]) :=
    .string rfl rfl (by decide +kernel)
  have hright : Writes .operand (34 :: (Utf8.ofText "\\\"\\n" ++ [34])) (.string [34, 10]) :=
    .string rfl rfl (by decide +kernel)
  have hsum := @Writes.binary .plus 43 _ _ _ _ rfl
    (@Writes.single .plus _ _ (@Writes.single .times _ _ hleft)) (@Writes.single .times _ _ hright)
  have hbytes : 34 :: (Utf8.ofText "a\\xff" ++ [34]) ++
      43 :: 34 :: (Utf8.ofText "\\\"\\n" ++ [34]) = Utf8.ofText "\"a\\xff\"+\"\\\"\\n\"" := by
    decide +kernel
  rw [hbytes] at hsum
  have hvalue : ((after []).evaluate "\"a\\xff\"+\"\\\"\\n\"").2 =
      .ok (.string [97, 255, 34, 10]) := evaluate_after_eq_ok_iff.mpr hsum.eval_eq
  refine ⟨hvalue, ?_⟩
  have hprinted := (evaluate_render _).2 _ _ hvalue ["1"]
  rw [if_neg (by decide)] at hprinted
  have hrender : render (.string [97, 255, 34, 10]) = "\"a\\xff\\\"\\n\"" := by decide +kernel
  rwa [hrender] at hprinted

/-- The least integer is returned, and its printed form is not evaluated. -/
theorem evaluate_least_twice :
    ((after []).evaluate "-9223372036854775807+-1").2 = .ok (.integer (-9223372036854775808)) ∧
      ((after ["-9223372036854775807+-1"]).evaluate
        (ConstValue.render (.integer (-9223372036854775808)))).2 =
          .error (.constEval "-9223372036854775808"
            "integer literal 9223372036854775808 out of range") := by
  refine ⟨evaluate_after_eq_ok_iff.mpr eval_least, ?_⟩
  rw [((faithful_after _).evaluate _).1]
  exact congrArg (Except.mapError _) eval_render_least

end Evaluator

end Generics.Const
