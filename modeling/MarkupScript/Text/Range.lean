/-!
# Ranges of characters

A set of characters given by ranges of code points.
-/

namespace MarkupScript.Text

/-- Whether a character is in one of some ranges; both ends belong to a range. -/
def inRanges (ranges : List (Nat × Nat)) (c : Char) : Bool :=
  ranges.any fun range => range.1 ≤ c.toNat && c.toNat ≤ range.2

end MarkupScript.Text
