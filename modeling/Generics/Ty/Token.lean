import Generics.Text.Blank
import Generics.Text.Digit
import Generics.Text.Letter

/-!
# Tokens of a type

A written type splits into names, regions, numbers, variables and punctuation. Blanks separate tokens
and are dropped. A name may contain `::`; a lone colon belongs to no token.
-/

namespace Generics

/-- What is wrong with the text of a type. -/
inductive Malformation where
  /-- A quote with no region name after it. -/
  | regionName
  /-- A question mark with no number after it. -/
  | variableNumber
  | unexpectedChar (c : Char)
  | typeExpected
  /-- A variable number that does not fit in 64 bits. -/
  | badVariable (digits : String)
  | unexpected (found : String)
  | expected (wanted found : String)
  /-- An asterisk with neither `const` nor `mut` after it. -/
  | pointerQualifier
  | sizeExpected (found : String)
  /-- An array size that does not fit in 64 bits. -/
  | badSize (digits : String)
  | trailing (found : String)
deriving DecidableEq, Repr

/-- The wording of a malformation. -/
def Malformation.reason : Malformation → String
  | regionName => "region name expected after '"
  | variableNumber => "variable number expected after ?"
  | unexpectedChar c => s!"unexpected character '{c}'"
  | typeExpected => "type expected"
  | badVariable digits => s!"bad variable number {digits}"
  | unexpected found => s!"unexpected '{found}'"
  | expected wanted found => s!"expected '{wanted}' but found '{found}'"
  | pointerQualifier => "expected 'const' or 'mut' after '*'"
  | sizeExpected found => s!"array size expected but found '{found}'"
  | badSize digits => s!"bad array size {digits}"
  | trailing found => s!"unexpected '{found}' after type"

/-- A token of a written type. -/
inductive Token where
  | ident (name : String)
  /-- A region with its leading quote. -/
  | region (name : String)
  | number (digits : String)
  /-- A variable, by the digits after its question mark. -/
  | var (digits : String)
  | sym (c : Char)
  /-- The arrow before a return type. -/
  | arrow
deriving DecidableEq, Repr

namespace Token

open Text

/-- The text by which a message shows the token. -/
def text : Token → String
  | ident name => name
  | region name => name
  | number digits => digits
  | var digits => digits
  | sym c => c.toString
  | arrow => "->"

/-- The punctuation characters that are tokens by themselves. -/
def symbols : List Char := ['(', ')', '[', ']', ';', ',', '&', '*', '<', '>', '!']

/-- A character that can start a name. -/
def isNameStart (c : Char) : Bool := c = '_' || isLetter c

/-- A character that can go on in a name. -/
def isNameChar (c : Char) : Bool := c = '_' || isLetter c || isDigit c

/-- Splits off the longest continuation of a name, in which colons stand in pairs. -/
def spanName : List Char → List Char × List Char
  | [] => ([], [])
  | ':' :: ':' :: cs => (':' :: ':' :: (spanName cs).1, (spanName cs).2)
  | c :: cs => if isNameChar c then (c :: (spanName cs).1, (spanName cs).2) else ([], c :: cs)

theorem length_spanName_le (cs : List Char) : (spanName cs).2.length ≤ cs.length := by
  fun_induction spanName cs <;> grind

/-- Splits a text into tokens, from left to right. -/
def scan : List Char → Except Malformation (List Token)
  | [] => .ok []
  | c :: cs =>
    if isBlank c then scan cs
    else if isNameStart c then do
      let rest ← scan (spanName cs).2
      return .ident (String.ofList (c :: (spanName cs).1)) :: rest
    else if c = '\'' then
      if (cs.takeWhile isNameChar).isEmpty then .error .regionName
      else do
        let rest ← scan (cs.dropWhile isNameChar)
        return .region (String.ofList (c :: cs.takeWhile isNameChar)) :: rest
    else if isDigit c then do
      let rest ← scan (cs.dropWhile isDigit)
      return .number (String.ofList (c :: cs.takeWhile isDigit)) :: rest
    else if c = '?' then
      if (cs.takeWhile isDigit).isEmpty then .error .variableNumber
      else do
        let rest ← scan (cs.dropWhile isDigit)
        return .var (String.ofList (cs.takeWhile isDigit)) :: rest
    else if c = '-' ∧ cs.head? = some '>' then do
      let rest ← scan cs.tail
      return .arrow :: rest
    else if symbols.contains c then do
      let rest ← scan cs
      return .sym c :: rest
    else .error (.unexpectedChar c)
termination_by cs => cs.length
decreasing_by
  all_goals
    have := length_spanName_le cs
    have := (cs.dropWhile_sublist isNameChar).length_le
    have := (cs.dropWhile_sublist isDigit).length_le
    simp only [List.length_cons, List.length_tail]
    omega

end Token

end Generics
