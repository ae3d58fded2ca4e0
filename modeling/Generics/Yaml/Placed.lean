import Generics.Position

/-!
# Placed characters

The characters of a file with their places. All ways to end a line are read as a newline, except for
the line and paragraph separators, which stay what they are.
-/

namespace Generics.Yaml

/-- A character and where it stands. -/
structure Placed where
  char : Char
  pos : Position
deriving DecidableEq, Repr

/-- A character that ends a line. -/
def isBreak (c : Char) : Bool := c = '\n' || c = '\u2028' || c = '\u2029'

/-- A space, a tab or the end of a line. -/
def isGap (c : Char) : Bool := c = ' ' || c = '\t' || isBreak c

/-- A character that a file may contain. -/
def isAllowed (c : Char) : Bool :=
  c = '\t' || c = '\n' || c = '\r' || c = '\u0085' || (' ' ≤ c && c ≤ '~') ||
    ('\u00a0' ≤ c && c ≤ '\ufffd') || 0x10000 ≤ c.toNat

/-- Reads every way to end a line as a newline. -/
def unifyBreaks : List Char → List Char
  | '\r' :: '\n' :: cs => '\n' :: unifyBreaks cs
  | c :: cs => (if c = '\r' || c = '\u0085' then '\n' else c) :: unifyBreaks cs
  | [] => []

/-- The place after a character. -/
def after (c : Char) (p : Position) : Position :=
  if isBreak c then ⟨p.line + 1, 1⟩ else ⟨p.line, p.column + 1⟩

/-- Places characters from a position on. -/
def place (p : Position) : List Char → List Placed
  | [] => []
  | c :: cs => ⟨c, p⟩ :: place (after c p) cs

/-- The placed characters of a file. A byte order mark in front is left out. -/
def placed (text : String) : List Placed :=
  let cs := match text.toList with
    | '\ufeff' :: cs => cs
    | cs => cs
  place .start (unifyBreaks cs)

/-- A word ends here: nothing follows, or a gap. -/
def endsWord : List Placed → Bool
  | [] => true
  | p :: _ => isGap p.char

/-- A line that consists of a mark between documents starts here: three dashes or three dots. -/
def documentMark? : List Placed → Option Char
  | a :: b :: c :: rest =>
    if a.pos.column = 1 && (a.char = '-' || a.char = '.') && b.char = a.char && c.char = a.char &&
      endsWord rest then some a.char
    else none
  | _ => none

end Generics.Yaml
