import MarkupScript.Decimal.Text

/-!
# Positions

Positions are counted with natural numbers of at most 64 bits.
-/

namespace MarkupScript.Text

/-- Reads digits, with a plus sign in front or not, as a number below `2 ^ 64`. -/
def position? (cs : List Char) : Option Nat :=
  let digits := match cs with
    | '+' :: rest => rest
    | _ => cs
  if digits ≠ [] && digits.all Decimal.isDigit then
    let n := Decimal.digitsValue digits
    if n < Nat.pow 2 64 then some n else none
  else none

end MarkupScript.Text
