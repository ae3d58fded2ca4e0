import Generics.Text.Interval

/-!
# Blanks

The characters with the property White_Space.
-/

namespace Generics.Text

/-- The intervals of blanks, in increasing order. -/
def blankIntervals : Intervals :=
  [(0x9, 0xD), (0x20, 0x20), (0x85, 0x85), (0xA0, 0xA0), (0x1680, 0x1680), (0x2000, 0x200A),
   (0x2028, 0x2029), (0x202F, 0x202F), (0x205F, 0x205F), (0x3000, 0x3000)]

/-- A blank, which separates tokens and is trimmed from the ends of a text. -/
def isBlank (c : Char) : Bool := blankIntervals.covers c.toNat

/-- The text without the blanks at its two ends. -/
def trimChars (cs : List Char) : List Char :=
  ((cs.dropWhile isBlank).reverse.dropWhile isBlank).reverse

/-- The text without the blanks at its two ends. -/
def trim (s : String) : String := String.ofList (trimChars s.toList)

end Generics.Text
