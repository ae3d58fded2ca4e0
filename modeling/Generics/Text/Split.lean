import Generics.Text.Blank
import Generics.Text.Utf8

/-!
# Splitting texts

A list is split at a separator that stands outside all brackets. The `>` of an arrow closes nothing.
-/

namespace Generics.Text

/-- The text around the first separator outside brackets, and what follows it, part by part. `depth`
is the number of brackets open before the text, and `previous` the character in front of it. -/
def partsAtDepth (sep : Char) : (depth : Int) → (previous : Option Char) → List Char →
    List Char × List (List Char)
  | _, _, [] => ([], [])
  | depth, previous, c :: cs =>
    if c = '(' ∨ c = '[' ∨ c = '<' then
      let (part, parts) := partsAtDepth sep (depth + 1) (some c) cs
      (c :: part, parts)
    else if c = ')' ∨ c = ']' ∨ (c = '>' ∧ previous ≠ some '-') then
      let (part, parts) := partsAtDepth sep (depth - 1) (some c) cs
      (c :: part, parts)
    else if c = sep ∧ depth = 0 then
      let (part, parts) := partsAtDepth sep depth (some c) cs
      ([], part :: parts)
    else
      let (part, parts) := partsAtDepth sep depth (some c) cs
      (c :: part, parts)

/-- Splits a text at each separator outside brackets and trims the parts. -/
def splitTopLevelChars (sep : Char) (cs : List Char) : List (List Char) :=
  let (part, parts) := partsAtDepth sep 0 none cs
  (part :: parts).map trimChars

/-- Splits a text at each separator outside brackets and trims the parts. -/
def splitTopLevel (sep : Char) (s : String) : List String :=
  (splitTopLevelChars sep s.toList).map String.ofList

/-- The text before the first `c`, and the bytes that follow the first byte of that `c`. Without a
`c` the second part is empty. -/
def cutAt (c : Char) (s : String) : String × List UInt8 :=
  let head := s.toList.takeWhile (· ≠ c)
  let rest := s.toList.dropWhile (· ≠ c)
  (String.ofList head, (Utf8.ofText (String.ofList rest)).drop 1)

end Generics.Text
