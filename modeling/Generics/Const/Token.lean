import Generics.Text.Digit
import Generics.Text.Letter
import Generics.Text.Utf8

/-!
# Tokens of a const expression

An expression is split byte by byte. Each byte above the ASCII range counts as the character with its
number, so that a name may hold some of them and a message may show one.
-/

namespace Generics.Const

open Text

/-- What is wrong with a const expression, apart from the kinds of its operands. -/
inductive Fault where
  | empty
  | unterminatedString
  | unexpectedChar (c : Char)
  | operandAtEnd
  | outOfRange (digits : String)
  | badString (literal : String)
  | unknownName (name : String)
  | missingParen
  | overflow
  | operandExpected (found : String)
  | unexpected (found : String)
deriving DecidableEq, Repr

/-- The wording of a fault. -/
def Fault.reason : Fault → String
  | empty => "empty expression"
  | unterminatedString => "unterminated string literal"
  | unexpectedChar c => s!"unexpected character '{c}'"
  | operandAtEnd => "operand expected at end of expression"
  | outOfRange digits => s!"integer literal {digits} out of range"
  | badString literal => s!"bad string literal {literal}"
  | unknownName name => s!"unknown name '{name}'"
  | missingParen => "missing ')'"
  | overflow => "integer overflow"
  | operandExpected found => s!"operand expected but found '{found}'"
  | unexpected found => s!"unexpected '{found}'"

/-- A token of a const expression. -/
inductive Token where
  /-- The digits of an integer, without underscores. -/
  | int (digits : List Char)
  /-- What stands between the quotes of a string literal. -/
  | string (body : List UInt8)
  | word (name : List UInt8)
  /-- A plus, asterisk, minus or parenthesis. -/
  | op (c : Char)
deriving DecidableEq, Repr

namespace Token

/-- The character with the number of a byte. -/
def charOf (b : UInt8) : Char := Char.ofNat b.toNat

/-- The text by which a message shows the token. -/
def text : Token → String
  | int digits => String.ofList digits
  | string body => Utf8.toText (UInt8.ofNat '"'.toNat :: body ++ [UInt8.ofNat '"'.toNat])
  | word name => Utf8.toText name
  | op c => c.toString

/-- A space, tab or line end. -/
def isSpace (b : UInt8) : Bool := charOf b = ' ' || charOf b = '\t' || charOf b = '\n'

/-- A digit from `0` to `9`. -/
def isDigitByte (b : UInt8) : Bool := (charOf b).isDigit

/-- A byte that goes on in an integer. -/
def isIntByte (b : UInt8) : Bool := isDigitByte b || charOf b = '_'

/-- A byte that can start a name. -/
def isWordStart (b : UInt8) : Bool := charOf b = '_' || isLetter (charOf b)

/-- A byte that goes on in a name. -/
def isWordByte (b : UInt8) : Bool := isWordStart b || isDigit (charOf b)

/-- The characters that are tokens by themselves. -/
def operators : List Char := ['+', '*', '(', ')', '-']

/-- Splits at the quote that ends a string literal. A byte after a backslash never ends it. -/
def spanString : List UInt8 → Option (List UInt8 × List UInt8)
  | [] => none
  | b :: bs =>
    if charOf b = '"' then some ([], bs)
    else if charOf b = '\\' then
      match bs with
      | [] => none
      | c :: bs => (spanString bs).map fun (body, rest) => (b :: c :: body, rest)
    else (spanString bs).map fun (body, rest) => (b :: body, rest)

theorem length_spanString_le {bs body rest : List UInt8} (h : spanString bs = some (body, rest)) :
    rest.length ≤ bs.length := by
  fun_induction spanString bs generalizing body rest with
  | case1 => simp at h
  | case2 b bs hq =>
    obtain ⟨-, rfl⟩ : [] = body ∧ bs = rest := by simpa using h
    simp
  | case3 => simp at h
  | case4 b c bs hb hq ih =>
    simp only [Option.map_eq_some_iff, Prod.exists, Prod.mk.injEq] at h
    obtain ⟨body', rest', hspan, -, rfl⟩ := h
    have := ih hspan
    simp only [List.length_cons]
    omega
  | case5 b bs hq hb ih =>
    simp only [Option.map_eq_some_iff, Prod.exists, Prod.mk.injEq] at h
    obtain ⟨body', rest', hspan, -, rfl⟩ := h
    have := ih hspan
    simp only [List.length_cons]
    omega

/-- Splits an expression into tokens. -/
def scan : List UInt8 → Except Fault (List Token)
  | [] => .ok []
  | b :: bs =>
    if isSpace b then scan bs
    else if isDigitByte b then do
      let rest ← scan (bs.dropWhile isIntByte)
      let digits := (b :: bs.takeWhile isIntByte).filter isDigitByte
      return .int (digits.map charOf) :: rest
    else if charOf b = '"' then
      match _h : spanString bs with
      | none => .error .unterminatedString
      | some (body, after) => do
        let rest ← scan after
        return .string body :: rest
    else if isWordStart b then do
      let rest ← scan (bs.dropWhile isWordByte)
      return .word (b :: bs.takeWhile isWordByte) :: rest
    else if operators.contains (charOf b) then do
      let rest ← scan bs
      return .op (charOf b) :: rest
    else .error (.unexpectedChar (charOf b))
termination_by bs => bs.length
decreasing_by
  · simp
  · have := (bs.dropWhile_sublist isIntByte).length_le
    simp only [List.length_cons]
    omega
  · have := length_spanString_le _h
    simp only [List.length_cons]
    omega
  · have := (bs.dropWhile_sublist isWordByte).length_le
    simp only [List.length_cons]
    omega
  · simp

end Token

end Generics.Const
