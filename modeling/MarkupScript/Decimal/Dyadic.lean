/-!
# Doubles as dyadic numbers

A finite double is `± mantissa · 2 ^ exponent` for a mantissa below `2 ^ 53` and
an exponent of at least `-1074`. Exact arithmetic on doubles works on this form.

* `Dyadic.ofFloat?` reads it off the bits, `Dyadic.toFloat` packs it again.
* `remainder` is the exact remainder of a division that rounds toward zero.
-/

namespace MarkupScript.Decimal

/-- The number `± mantissa · 2 ^ exponent`. -/
structure Dyadic where
  negative : Bool
  mantissa : Nat
  exponent : Int
deriving Repr, DecidableEq

namespace Dyadic

/-- The exponent of the least positive double. -/
def minExponent : Int := -1074

/-- The mantissa of a double that is not subnormal has this bit set. -/
def leadingBit : Nat := Nat.pow 2 52

/-- The dyadic form of a finite double. -/
def ofFloat? (x : Float) : Option Dyadic :=
  let bits := x.toBits.toNat
  let negative := bits / Nat.pow 2 63 == 1
  let biased : Nat := bits / leadingBit % Nat.pow 2 11
  let fraction : Nat := bits % leadingBit
  if biased == 2047 then none
  else if biased == 0 then some { negative, mantissa := fraction, exponent := minExponent }
  else some { negative, mantissa := fraction + leadingBit, exponent := (biased : Int) - 1075 }

/-- Moves factors of two from the exponent to the mantissa while the mantissa
stays below `2 ^ 53` and the exponent at least `-1074`, for at most `fuel` steps. -/
def widen : Nat → Nat → Int → Nat × Int
  | 0, m, e => (m, e)
  | fuel + 1, m, e =>
    if m < leadingBit && minExponent < e then widen fuel (2 * m) (e - 1) else (m, e)

/-- The bits of a dyadic number that is a double. Its exponent is at least
`-1074`; its mantissa is below `2 ^ 53`. -/
def toBits (d : Dyadic) : Nat :=
  let sign := if d.negative then Nat.pow 2 63 else 0
  let (m, e) := widen 52 d.mantissa d.exponent
  if m < leadingBit then sign + m
  else sign + (e + 1075).toNat * leadingBit + (m - leadingBit)

/-- The double of a dyadic number that is one. -/
def toFloat (d : Dyadic) : Float :=
  Float.ofBits (UInt64.ofNat d.toBits)

/-- The mantissa with respect to a smaller exponent. -/
def scaled (d : Dyadic) (exponent : Int) : Nat :=
  d.mantissa * Nat.pow 2 (d.exponent - exponent).toNat

end Dyadic

/-- The double that is no number. -/
def notANumber : Float := 0.0 / 0.0

/-- Positive infinity. -/
def infinity : Float := 1.0 / 0.0

/-- The remainder of `x` divided by `y`, for a quotient rounded toward zero. It is
exact and has the sign of `x`; there is none of an infinite `x` or by zero. -/
def remainder (x y : Float) : Float :=
  match Dyadic.ofFloat? x, Dyadic.ofFloat? y with
  | some a, some b =>
    if b.mantissa = 0 then notANumber
    else
      let e := min a.exponent b.exponent
      Dyadic.toFloat
        { negative := a.negative, mantissa := a.scaled e % b.scaled e, exponent := e }
  | some _, none => if y.isNaN then notANumber else x
  | none, _ => notANumber

end MarkupScript.Decimal
