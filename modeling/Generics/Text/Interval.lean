/-!
# Sets of characters given by intervals

A character class is written as a list of closed intervals of code points, in increasing order.
-/

namespace Generics.Text

/-- A list of closed intervals of code points. -/
abbrev Intervals := List (Nat × Nat)

/-- The code point lies in one of the intervals. -/
def Intervals.covers (ranges : Intervals) (code : Nat) : Bool :=
  ranges.any fun range => range.1 ≤ code && code ≤ range.2

theorem Intervals.covers_iff {ranges : Intervals} {code : Nat} :
    ranges.covers code = true ↔ ∃ range ∈ ranges, range.1 ≤ code ∧ code ≤ range.2 := by
  simp [Intervals.covers]

end Generics.Text
