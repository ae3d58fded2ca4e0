import Generics.Const.Word
import Generics.Text.Quoted
import Generics.Ty.Primitive
import Generics.Ty.Printer

/-!
# Constant values

The values of const parameters: integers of 64 bits, booleans and byte strings. A value is printed in
source syntax, and mangled into a part of an identifier. It fits a parameter when it lies in the range
of the parameter's type.
-/

namespace Generics

/-- The three kinds of constant values. -/
inductive ConstKind where
  | integer
  | bool
  | string
deriving DecidableEq, Repr

/-- The name of a kind. -/
def ConstKind.render : ConstKind → String
  | integer => "integer"
  | bool => "bool"
  | string => "string"

instance : ToString ConstKind := ⟨ConstKind.render⟩

/-- The value of a const parameter. -/
inductive ConstValue where
  /-- An integer; values of expressions and requests lie in the signed 64-bit range. -/
  | integer (n : Int)
  | bool (b : Bool)
  /-- A string, which need not be well-formed UTF-8. -/
  | string (bytes : List UInt8)
deriving DecidableEq, Repr

/-- Why a value can not be given to a parameter. -/
inductive Misfit where
  /-- No constant has this type. -/
  | notConst (type : Ty)
  | overflow (n : Int) (type : String)
  | negative (n : Int) (type : String)
  | wrongKind (value : ConstValue)

namespace ConstValue

/-- The kind of a value. -/
def kind : ConstValue → ConstKind
  | integer _ => .integer
  | bool _ => .bool
  | string _ => .string

/-- The value in source syntax. -/
def render : ConstValue → String
  | integer n => toString n
  | bool b => toString b
  | string bytes => String.ofList (Text.Quoted.encode bytes)

instance : ToString ConstValue := ⟨render⟩

/-- The value as a part of an identifier: `m` stands for a minus sign, and the bytes of a string are
written in hexadecimal after an `s`. -/
def mangle : ConstValue → List Char
  | integer n => if n < 0 then 'm' :: Text.decimal n.natAbs else Text.decimal n.natAbs
  | bool true => ['t', 'r', 'u', 'e']
  | bool false => ['f', 'a', 'l', 's', 'e']
  | string bytes => 's' :: Text.hexBytes bytes

/-- The integers from `-2 ^ 63` up to and without `2 ^ 63`. -/
def inWord (n : Int) : Bool := -Int.pow 2 63 ≤ n && n < Int.pow 2 63

/-- Why an integer is not in the range of the integer type with the given name, sign and width. -/
def rangeMisfit? (type : String) (signed : Bool) (width : Nat) (n : Int) : Option Misfit :=
  if signed then
    if Const.Word.exceedsSigned width (.ofInt n) then some (.overflow n type) else none
  else if n < 0 then some (.negative n type)
  else if Const.Word.exceedsUnsigned width (.ofInt n) then some (.overflow n type)
  else none

/-- Why a value can not have the given type, if it can not. A string may be given as `str` or behind
a shared reference. -/
def misfit? (t : Ty) (v : ConstValue) : Option Misfit :=
  match t with
  | .prim name =>
    if name = "bool" then if v.kind = .bool then none else some (.wrongKind v)
    else if name = "str" then if v.kind = .string then none else some (.wrongKind v)
    else
      match Primitive.integer? name, v with
      | some (signed, width), integer n => rangeMisfit? name signed width n
      | some _, v => some (.wrongKind v)
      | none, _ => some (.notConst t)
  | .ref _ isMut inner =>
    if inner = .prim "str" ∧ isMut = false ∧ v.kind = .string then none else some (.wrongKind v)
  | t => some (.notConst t)

end ConstValue

/-- The wording of a misfit. -/
def Misfit.message : Misfit → String
  | notConst type => s!"'{type}' cannot be the type of a const parameter"
  | overflow n type => s!"{n} overflows {type}"
  | negative n type => s!"negative value {n} for unsigned {type}"
  | wrongKind value => s!"{value.kind} value {value}"

end Generics
