import Generics.Const.Token
import Generics.Const.Value
import Generics.Const.Word
import Generics.Error
import Generics.Text.Parsed

/-!
# Const expressions

Expressions over integers, booleans and strings with sums, products, negation and parentheses. An
asterisk binds tighter than a plus, and both group to the left. Values are computed while operands are
read, so of several faults the first in reading order is reported. Integers have 64 bits, and an
operation whose result does not fit is a fault.
-/

namespace Generics.Const

open Text

/-- Why an expression has no value. -/
inductive Failure where
  | fault (f : Fault)
  /-- An operator between values that it can not take. -/
  | operands (op : Char) (lhs rhs : ConstKind)
deriving DecidableEq, Repr

/-- The failure of an expression as an error. -/
def Failure.toError (expr : String) : Failure → Error
  | fault f => .constEval expr f.reason
  | operands op lhs rhs =>
    .typeMismatch "integer operands" s!"{lhs} {op} {rhs}" s!"const expression '{expr}'"

/-- The result of an operation in 64 bits, if it has one. -/
def ofWord? : Option Int64 → Except Failure ConstValue
  | some n => .ok (.integer n.toInt)
  | none => .error (.fault .overflow)

/-- The sum of two integers, or two strings joined. -/
def add : ConstValue → ConstValue → Except Failure ConstValue
  | .integer a, .integer b => ofWord? (Word.add? (.ofInt a) (.ofInt b))
  | .string a, .string b => .ok (.string (a ++ b))
  | a, b => .error (.operands '+' a.kind b.kind)

/-- The product of two integers. -/
def mul : ConstValue → ConstValue → Except Failure ConstValue
  | .integer a, .integer b => ofWord? (Word.mul? (.ofInt a) (.ofInt b))
  | a, b => .error (.operands '*' a.kind b.kind)

/-- The negation of an integer. -/
def neg : ConstValue → Except Failure ConstValue
  | .integer a => ofWord? (Word.neg? (.ofInt a))
  | a => .error (.operands '-' a.kind a.kind)

/-- The value of an integer literal. -/
def intLiteral (digits : List Char) : Except Failure ConstValue :=
  let n : Int := Nat.ofDigitChars 10 digits 0
  if ConstValue.inWord n then .ok (.integer n)
  else .error (.fault (.outOfRange (String.ofList digits)))

/-- The value of a string literal. -/
def stringLiteral (body : List UInt8) : Except Failure ConstValue :=
  match Quoted.decode body with
  | some bytes => .ok (.string bytes)
  | none => .error (.fault (.badString (Token.string body).text))

/-- The value of a name. -/
def nameValue (name : List UInt8) : Except Failure ConstValue :=
  if name = Utf8.ofText "true" then .ok (.bool true)
  else if name = Utf8.ofText "false" then .ok (.bool false)
  else .error (.fault (.unknownName (Utf8.toText name)))

/-- A value, and the tokens left after an operator chain that started with them. -/
structure Chained (ts : List Token) where
  value : ConstValue
  rest : List Token
  noLonger : rest.length ≤ ts.length

mutual

/-- Reads a literal, a negated operand or an expression in parentheses. -/
def operand : (ts : List Token) → Except Failure (Parsed ConstValue ts)
  | [] => .error (.fault .operandAtEnd)
  | .int digits :: ts => return .ofToken (← intLiteral digits) (.int digits) ts
  | .string body :: ts => return .ofToken (← stringLiteral body) (.string body) ts
  | .word name :: ts => return .ofToken (← nameValue name) (.word name) ts
  | .op c :: ts =>
    if c = '(' then do
      let inner ← sum ts
      if inner.rest.head? = some (.op ')') then return inner.closed (.op c)
      else .error (.fault .missingParen)
    else if c = '-' then do
      let inner ← operand ts
      return inner.after (.op c) (← neg inner.value)
    else .error (.fault (.operandExpected c.toString))
termination_by ts => (ts.length, 0)

/-- Reads factors for as long as an asterisk follows. -/
def factors (lhs : ConstValue) : (ts : List Token) → Except Failure (Chained ts)
  | .op '*' :: ts => do
    let rhs ← operand ts
    have hrhs : rhs.rest.length < ts.length := rhs.shorter
    let product ← mul lhs rhs.value
    let out ← factors product rhs.rest
    return ⟨out.value, out.rest, by
      have := out.noLonger
      simp only [List.length_cons]
      omega⟩
  | ts => .ok ⟨lhs, ts, Nat.le_refl _⟩
termination_by ts => (ts.length, 0)

/-- Reads a product. -/
def product (ts : List Token) : Except Failure (Parsed ConstValue ts) := do
  let lhs ← operand ts
  have hlhs : lhs.rest.length < ts.length := lhs.shorter
  let out ← factors lhs.value lhs.rest
  return ⟨out.value, out.rest, Nat.lt_of_le_of_lt out.noLonger hlhs⟩
termination_by (ts.length, 1)

/-- Reads terms for as long as a plus follows. -/
def terms (lhs : ConstValue) : (ts : List Token) → Except Failure (Chained ts)
  | .op '+' :: ts => do
    let rhs ← product ts
    have hrhs : rhs.rest.length < ts.length := rhs.shorter
    let total ← add lhs rhs.value
    let out ← terms total rhs.rest
    return ⟨out.value, out.rest, by
      have := out.noLonger
      simp only [List.length_cons]
      omega⟩
  | ts => .ok ⟨lhs, ts, Nat.le_refl _⟩
termination_by ts => (ts.length, 0)

/-- Reads a sum. -/
def sum (ts : List Token) : Except Failure (Parsed ConstValue ts) := do
  let lhs ← product ts
  have hlhs : lhs.rest.length < ts.length := lhs.shorter
  let out ← terms lhs.value lhs.rest
  return ⟨out.value, out.rest, Nat.lt_of_le_of_lt out.noLonger hlhs⟩
termination_by (ts.length, 2)

end

/-- The value of the expression with the given tokens. -/
def evalTokens (ts : List Token) : Except Failure ConstValue := do
  if ts.isEmpty then .error (.fault .empty)
  let out ← sum ts
  match out.rest with
  | [] => .ok out.value
  | tok :: _ => .error (.fault (.unexpected tok.text))

/-- The value of a written expression. -/
def eval (expr : String) : Except Failure ConstValue := do
  let ts ← (Token.scan (Utf8.ofText expr)).mapError Failure.fault
  evalTokens ts

/-- Expressions evaluated so far, with their values. -/
structure Evaluator where
  cache : List (String × ConstValue) := []

/-- The value of a written expression, remembered if there is one. -/
def Evaluator.evaluate (e : Evaluator) (expr : String) : Evaluator × Except Error ConstValue :=
  match e.cache.lookup expr with
  | some v => (e, .ok v)
  | none =>
    match eval expr with
    | .ok v => (⟨(expr, v) :: e.cache⟩, .ok v)
    | .error f => (e, .error (f.toError expr))

end Generics.Const
