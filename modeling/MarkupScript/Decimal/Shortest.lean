import MarkupScript.Decimal.Dyadic

/-!
# The fewest digits that read back

A double stands for all reals that round to it. `shortest` finds the decimal with
the fewest digits among them and, of two such neighbours, the nearer one; a tie
goes up. All arithmetic is exact: a positive rational is a pair of naturals.
-/

namespace MarkupScript.Decimal

/-- The decimal `0.d₁d₂… · 10 ^ point` for `digits = d₁d₂…`. -/
structure Digits where
  digits : List Nat
  point : Int
deriving Repr, DecidableEq

/-- A positive rational. -/
structure Ratio where
  num : Nat
  den : Nat
deriving Repr, DecidableEq

namespace Ratio

/-- `m · 2 ^ e`. -/
def ofBinary (m : Nat) (e : Int) : Ratio :=
  if 0 ≤ e then ⟨m * Nat.pow 2 e.toNat, 1⟩ else ⟨m, Nat.pow 2 (-e).toNat⟩

/-- `r · 10 ^ k`. -/
def shift10 (r : Ratio) (k : Int) : Ratio :=
  if 0 ≤ k then ⟨r.num * Nat.pow 10 k.toNat, r.den⟩
  else ⟨r.num, r.den * Nat.pow 10 (-k).toNat⟩

def floor (r : Ratio) : Nat := r.num / r.den

/-- `r ≤ n`. -/
def leNat (r : Ratio) (n : Nat) : Bool := r.num ≤ n * r.den

/-- `r < n`. -/
def ltNat (r : Ratio) (n : Nat) : Bool := r.num < n * r.den

/-- `n ≤ r`. -/
def natLe (n : Nat) (r : Ratio) : Bool := n * r.den ≤ r.num

/-- `n < r`. -/
def natLt (n : Nat) (r : Ratio) : Bool := n * r.den < r.num

end Ratio

/-- A positive double with the reals that round to it. -/
structure RoundingInterval where
  value : Ratio
  low : Ratio
  high : Ratio
  /-- Whether the two ends round to the value too. -/
  closed : Bool
deriving Repr, DecidableEq

namespace RoundingInterval

/-- The interval of a positive double. The neighbour below is half as far away
where the exponent changes. Ends are included when the mantissa is even. -/
def ofDyadic (d : Dyadic) : RoundingInterval :=
  let m := d.mantissa
  let e := d.exponent
  let narrow := m == Dyadic.leadingBit && Dyadic.minExponent < e
  { value := .ofBinary m e
    low := if narrow then .ofBinary (4 * m - 1) (e - 2) else .ofBinary (2 * m - 1) (e - 1)
    high := .ofBinary (2 * m + 1) (e - 1)
    closed := m % 2 == 0 }

def shift10 (i : RoundingInterval) (k : Int) : RoundingInterval :=
  { i with value := i.value.shift10 k, low := i.low.shift10 k, high := i.high.shift10 k }

/-- Whether the natural number `n` lies in the interval. -/
def holds (i : RoundingInterval) (n : Nat) : Bool :=
  if i.closed then i.low.leNat n && Ratio.natLe n i.high
  else i.low.ltNat n && Ratio.natLt n i.high

/-- The natural number in the interval next to its value, if there is one. Of two,
the nearer; a tie goes up. -/
def nearest? (i : RoundingInterval) : Option Nat :=
  let n := i.value.floor
  match i.holds n, i.holds (n + 1) with
  | true, true =>
    -- `2 · value` against `2 · n + 1`
    if 2 * i.value.num < (2 * n + 1) * i.value.den then some n else some (n + 1)
  | true, false => some n
  | false, true => some (n + 1)
  | false, false => none

end RoundingInterval

/-- The least `k` with `r < 10 ^ k`, searched from `k` for `fuel` steps. -/
def pointFrom : Nat → Int → Ratio → Int
  | 0, k, _ => k
  | fuel + 1, k, r => if (r.shift10 (-k)).ltNat 1 then k else pointFrom fuel (k + 1) r

/-- The least `k` with `r < 10 ^ k`, for a positive `r` that is a double: those lie
between `10 ^ -324` and `10 ^ 309`. -/
def point (r : Ratio) : Int :=
  pointFrom 633 (-324) r

/-- Tries `count`, `count + 1`, … digits, for `fuel` steps. -/
def shortestFrom : Nat → Nat → Int → RoundingInterval → Digits
  | 0, count, k, i => ⟨Nat.toDigits 10 (i.shift10 (count - k)).value.floor |>.map
      (fun c => c.toNat - 48), k⟩
  | fuel + 1, count, k, i =>
    match (i.shift10 (count - k)).nearest? with
    | none => shortestFrom fuel (count + 1) k i
    | some n =>
      let digits := (Nat.toDigits 10 n).map fun c => c.toNat - 48
      -- Rounding up to a power of ten makes one digit more.
      ⟨digits, k + (digits.length - count)⟩

/-- The digits of a positive double. Seventeen always suffice. -/
def shortest (d : Dyadic) : Digits :=
  let i := RoundingInterval.ofDyadic d
  shortestFrom 17 1 (point i.value) i

end MarkupScript.Decimal
