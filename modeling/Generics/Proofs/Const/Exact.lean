import Generics.Proofs.Const.Word

/-!
# Exact values of expressions

An expression as a tree, and two ways to give it a value. `Expr.value` evaluates it with the
operations that const expressions use, left operand first, and stops at the first failure.
`Expr.exactValue?` computes with all integers, and has no value only if an operation has operands of
the wrong kinds.

An operation of the tree is an *offence* if its exact operands are of the wrong kinds, or if its
exact result is an integer of more than 64 bits. The two ways agree as long as there is no offence,
and otherwise the failure is that of the first offending operation in evaluation order.

## Main results

* `Operator.meets_apply` and `meets_neg`: one operation has its exact result, or its offence as
  failure;
* `Expr.meets_value`: so has a whole expression.
-/

namespace Generics

/-- An integer value has 64 bits. -/
def ConstValue.Fits (v : ConstValue) : Prop := ∀ n, v = .integer n → -2 ^ 63 ≤ n ∧ n < 2 ^ 63

namespace ConstValue

/-- An integer fits if it has at most 64 bits. -/
theorem fits_integer_iff {n : Int} : (integer n).Fits ↔ -2 ^ 63 ≤ n ∧ n < 2 ^ 63 := by
  constructor
  · exact fun h => h n rfl
  · rintro h m hm
    rwa [← integer.inj hm]

theorem fits_bool (b : Bool) : (bool b).Fits := by
  rintro n ⟨⟩

theorem fits_string (bytes : List UInt8) : (string bytes).Fits := by
  rintro n ⟨⟩

end ConstValue

namespace Const

/-! ## Operations -/

/-- What is wrong with an operation. -/
inductive Offence where
  /-- The result has more than 64 bits. -/
  | overflow
  /-- The operator does not take operands of these kinds. -/
  | operands (op : Char) (lhs rhs : ConstKind)

namespace Offence

/-- The failure that an offence leads to. -/
def failure : Offence → Failure
  | overflow => .fault .overflow
  | operands op lhs rhs => .operands op lhs rhs

/-- The error for an expression with the offence. -/
def error (text : String) : Offence → Error
  | overflow => .constEval text "integer overflow"
  | operands op lhs rhs =>
    .typeMismatch "integer operands" s!"{lhs} {op} {rhs}" s!"const expression '{text}'"

/-- The failure for an offence is reported as its error. -/
theorem toError_failure (text : String) (o : Offence) : o.failure.toError text = o.error text := by
  cases o with
  | overflow => rfl
  | operands op lhs rhs => rfl

end Offence

/-- The operators between two values. -/
inductive Operator where
  | plus
  | times

namespace Operator

/-- The character of an operator. -/
def symbol : Operator → Char
  | plus => '+'
  | times => '*'

/-- The operation on values. -/
def apply : Operator → ConstValue → ConstValue → Except Failure ConstValue
  | plus => add
  | times => mul

/-- The result over all integers, if the operands are of the right kinds. -/
def result? : Operator → ConstValue → ConstValue → Option ConstValue
  | plus, .integer a, .integer b => some (.integer (a + b))
  | plus, .string a, .string b => some (.string (a ++ b))
  | times, .integer a, .integer b => some (.integer (a * b))
  | _, _, _ => none

end Operator

/-- The negation over all integers. -/
def exactNeg? : ConstValue → Option ConstValue
  | .integer a => some (.integer (-a))
  | _ => none

/-- The offence of an operation, from its operands and its exact result. -/
def offenceOf (op : Char) (lhs rhs : ConstValue) : Option ConstValue → Option Offence
  | none => some (.operands op lhs.kind rhs.kind)
  | some (.integer n) => if -2 ^ 63 ≤ n ∧ n < 2 ^ 63 then none else some .overflow
  | some _ => none

/-- What is computed is the exact value, or the failure for the offence. -/
inductive Meets : Option Offence → Option ConstValue → Except Failure ConstValue → Prop
  | value {v : ConstValue} (hfits : v.Fits) : Meets none (some v) (.ok v)
  | failure {o : Offence} {exact : Option ConstValue} : Meets (some o) exact (.error o.failure)

namespace Meets

variable {offence : Option Offence} {exact : Option ConstValue} {result : Except Failure ConstValue}

/-- Where there is no offence, the exact value is computed. -/
theorem of_none (h : Meets offence exact result) (hnone : offence = none) :
    ∃ v, exact = some v ∧ result = .ok v ∧ v.Fits := by
  cases h with
  | value hfits => exact ⟨_, rfl, rfl, hfits⟩
  | failure => cases hnone

/-- Where there is an offence, the computation fails for it. -/
theorem of_some {o : Offence} (h : Meets offence exact result) (hsome : offence = some o) :
    result = .error o.failure := by
  cases h with
  | value => cases hsome
  | failure =>
    cases hsome
    rfl

/-- Where a value is computed, it is the exact one and there is no offence. -/
theorem of_ok {v : ConstValue} (h : Meets offence exact result) (hok : result = .ok v) :
    offence = none ∧ exact = some v ∧ v.Fits := by
  cases h with
  | value hfits =>
    cases hok
    exact ⟨rfl, rfl, hfits⟩
  | failure => cases hok

end Meets

/-- The result of an operation in 64 bits against its exact result. -/
theorem meets_ofWord? {op : Char} {lhs rhs : ConstValue} {word : Option Int64} {n : Int}
    (h : word.map Int64.toInt = Word.fit? n) :
    Meets (offenceOf op lhs rhs (some (.integer n))) (some (.integer n)) (ofWord? word) := by
  -- the word is there exactly if the integer fits, and then it is the integer
  by_cases hfit : -2 ^ 63 ≤ n ∧ n < 2 ^ 63
  · rw [Word.fit?_of_inWord (ConstValue.inWord_iff.mpr hfit)] at h
    obtain ⟨m, rfl, rfl⟩ := Option.map_eq_some_iff.mp h
    rw [offenceOf, if_pos hfit]
    exact .value (ConstValue.fits_integer_iff.mpr hfit)
  · rw [Word.fit?_of_not_inWord (by rwa [ConstValue.inWord_iff]), Option.map_eq_none_iff] at h
    rw [h, offenceOf, if_neg hfit]
    exact .failure

/-- An integer that fits is not changed by its machine representation. -/
theorem toInt_ofInt_of_fits {n : Int} (h : (ConstValue.integer n).Fits) :
    (Int64.ofInt n).toInt = n := by
  obtain ⟨hlow, hhigh⟩ := ConstValue.fits_integer_iff.mp h
  exact Int64.toInt_ofInt_of_le hlow hhigh

/-- An operator gives the exact result, or its offence as failure. -/
theorem Operator.meets_apply (op : Operator) {x y : ConstValue} (hx : x.Fits) (hy : y.Fits) :
    Meets (offenceOf op.symbol x y (op.result? x y)) (op.result? x y) (op.apply x y) := by
  -- two integers are computed in 64 bits, two strings are joined, all else is an offence
  cases x with
  | integer a =>
    cases y with
    | integer b =>
      cases op with
      | plus =>
        refine meets_ofWord? ?_
        rw [Word.map_toInt_add?, toInt_ofInt_of_fits hx, toInt_ofInt_of_fits hy]
      | times =>
        refine meets_ofWord? ?_
        rw [Word.map_toInt_mul?, toInt_ofInt_of_fits hx, toInt_ofInt_of_fits hy]
    | bool b => cases op <;> exact .failure
    | string b => cases op <;> exact .failure
  | bool a => cases op <;> cases y <;> exact .failure
  | string a =>
    cases y with
    | integer b => cases op <;> exact .failure
    | bool b => cases op <;> exact .failure
    | string b =>
      cases op with
      | plus => exact .value (ConstValue.fits_string (a ++ b))
      | times => exact .failure

/-- Negation gives the exact result, or its offence as failure. -/
theorem meets_neg {x : ConstValue} (hx : x.Fits) :
    Meets (offenceOf '-' x x (exactNeg? x)) (exactNeg? x) (neg x) := by
  cases x with
  | integer a =>
    refine meets_ofWord? ?_
    rw [Word.map_toInt_neg?, toInt_ofInt_of_fits hx]
  | bool b => exact .failure
  | string b => exact .failure

/-! ## Expressions -/

/-- A const expression as a tree. Literals are not negative and have 64 bits. -/
inductive Expr where
  | int (n : Nat) (hn : n < 2 ^ 63)
  | bool (b : Bool)
  | string (bytes : List UInt8)
  | neg (e : Expr)
  | binary (op : Operator) (lhs rhs : Expr)

namespace Expr

/-- The value over all integers, if every operation has operands of the right kinds. -/
def exactValue? : Expr → Option ConstValue
  | int n _ => some (.integer n)
  | bool b => some (.bool b)
  | string bytes => some (.string bytes)
  | neg e => e.exactValue?.bind exactNeg?
  | binary op lhs rhs => lhs.exactValue?.bind fun x => rhs.exactValue?.bind fun y => op.result? x y

/-- The operations of an expression in the order of evaluation: operands come first, from left to
right. -/
def operations : Expr → List Expr
  | neg e => e.operations ++ [neg e]
  | binary op lhs rhs => lhs.operations ++ rhs.operations ++ [binary op lhs rhs]
  | _ => []

/-- The offence of the outermost operation, if its operands have exact values. -/
def offence? : Expr → Option Offence
  | neg e => e.exactValue?.bind fun x => offenceOf '-' x x (exactNeg? x)
  | binary op lhs rhs => lhs.exactValue?.bind fun x => rhs.exactValue?.bind fun y =>
      offenceOf op.symbol x y (op.result? x y)
  | _ => none

/-- The offence of the first operation that has one. -/
def firstOffence? (e : Expr) : Option Offence := e.operations.findSome? offence?

/-- The value of an expression, with operands evaluated from left to right. -/
def value : Expr → Except Failure ConstValue
  | int n _ => .ok (.integer n)
  | bool b => .ok (.bool b)
  | string bytes => .ok (.string bytes)
  | neg e => e.value >>= Const.neg
  | binary op lhs rhs => do
    let x ← lhs.value
    let y ← rhs.value
    op.apply x y

/-- The operand of a negation comes before the negation. -/
theorem firstOffence?_neg (e : Expr) :
    (neg e).firstOffence? = (e.firstOffence? <|> (neg e).offence?) := by
  simp [firstOffence?, operations, List.findSome?_append]

/-- The left operand of an operation comes before the right one, and both before the operation. -/
theorem firstOffence?_binary (op : Operator) (lhs rhs : Expr) :
    (binary op lhs rhs).firstOffence? =
      (lhs.firstOffence? <|> rhs.firstOffence? <|> (binary op lhs rhs).offence?) := by
  simp [firstOffence?, operations, List.findSome?_append]

/-- The value of an expression is exact if no operation is an offence, and the failure for the first
one otherwise. -/
theorem meets_value (e : Expr) : Meets e.firstOffence? e.exactValue? e.value := by
  induction e with
  | int n hn =>
    refine .value (ConstValue.fits_integer_iff.mpr ?_)
    have : (n : Int) < 2 ^ 63 := by exact_mod_cast hn
    omega
  | bool b => exact .value (ConstValue.fits_bool b)
  | string bytes => exact .value (ConstValue.fits_string bytes)
  | neg e ih =>
    rw [firstOffence?_neg, offence?, exactValue?, value]
    -- only what is known of the operand matters, not the operand
    revert ih
    generalize e.firstOffence? = o, e.exactValue? = x, e.value = v
    rintro (hfits | _)
    · exact meets_neg hfits
    · exact .failure
  | binary op lhs rhs ihl ihr =>
    rw [firstOffence?_binary, offence?, exactValue?, value]
    revert ihl ihr
    generalize lhs.firstOffence? = o, lhs.exactValue? = x, lhs.value = v
    generalize rhs.firstOffence? = o', rhs.exactValue? = y, rhs.value = w
    -- an offence on the left hides whatever the right has
    rintro (hfits | _) hrhs
    · rcases hrhs with hfits' | _
      · exact op.meets_apply hfits hfits'
      · exact .failure
    · exact .failure

end Expr

end Const

end Generics
