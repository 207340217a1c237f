/-!
# Sets of characters given by ranges

A property of characters that no formula gives is held as a list of closed ranges of code points,
in increasing order. `CodeRanges.contains` is membership.
-/

namespace LineCalc.Text

/-- Closed ranges of code points. -/
abbrev CodeRanges := List (Nat × Nat)

namespace CodeRanges

/-- Is the character in one of the ranges? -/
def contains (ranges : CodeRanges) (c : Char) : Bool :=
  ranges.any fun (first, last) => decide (first ≤ c.toNat) && decide (c.toNat ≤ last)

end CodeRanges

end LineCalc.Text
