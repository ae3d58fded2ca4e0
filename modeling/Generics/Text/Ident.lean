import Generics.Text.Digit
import Generics.Text.Letter

/-!
# Identifiers made from texts
-/

namespace Generics.Text

/-- A character that an identifier may contain. -/
def isIdentChar (c : Char) : Bool := c = '_' || isLetter c || isDigit c

/-- The text with an underscore for every character that an identifier may not contain. -/
def identSafe (s : String) : String :=
  String.ofList (s.toList.map fun c => if isIdentChar c then c else '_')

end Generics.Text
