import MarkupScript.Decimal.Shortest

/-!
# Numbers as text

Numbers are written positionally, never with an exponent, and with the fewest
digits that read back. They are read with an optional sign, an optional point and
an optional exponent; infinities and not-a-number are read by name.

* `write` gives the text of a number.
* `read?` reads a whole text as a number.
-/

namespace MarkupScript.Decimal

/-- Writes `0.d₁d₂… · 10 ^ point` without an exponent. -/
def Digits.positional (d : Digits) : String :=
  let text := d.digits.map Nat.digitChar
  let zeros (n : Nat) := List.replicate n '0'
  if d.point ≤ 0 then
    String.ofList ('0' :: '.' :: zeros (-d.point).toNat ++ text)
  else
    let whole := d.point.toNat
    if text.length ≤ whole then String.ofList (text ++ zeros (whole - text.length))
    else String.ofList (text.take whole ++ '.' :: text.drop whole)

/-- Drops the zeros at the end. -/
def Digits.normalize (d : Digits) : Digits :=
  { d with digits := (d.digits.reverse.dropWhile (· == 0)).reverse }

/-- The text of a number. Zero is written without a sign. -/
def write (x : Float) : String :=
  match Dyadic.ofFloat? x with
  | none => if x.isNaN then "NaN" else if x < 0.0 then "-inf" else "inf"
  | some d =>
    if d.mantissa = 0 then "0"
    else
      let text := (shortest d).normalize.positional
      if d.negative then "-" ++ text else text

/-! ## Reading -/

def isDigit (c : Char) : Bool := '0' ≤ c && c ≤ '9'

/-- The value of a row of digits. -/
def digitsValue (cs : List Char) : Nat :=
  cs.foldl (fun n c => 10 * n + (c.toNat - 48)) 0

/-- Takes a sign from the front; the flag says that it is a minus. -/
def takeSign : List Char → Bool × List Char
  | '-' :: rest => (true, rest)
  | '+' :: rest => (false, rest)
  | cs => (false, cs)

/-- Reads what follows the digits: nothing, or an exponent of at least one digit. -/
def exponent? : List Char → Option Int
  | [] => some 0
  | c :: rest =>
    if c = 'e' || c = 'E' then
      let (negative, digits) := takeSign rest
      if digits ≠ [] && digits.all isDigit then
        let n : Int := digitsValue digits
        some (if negative then -n else n)
      else none
    else none

/-- The double nearest to `n · 10 ^ e`. Exponents out of all range are cut off
before any power is computed. -/
def scale (n : Nat) (e : Int) : Float :=
  let size : Int := (Nat.toDigits 10 n).length + e
  if n = 0 || size < -400 then 0.0
  else if 400 < size then infinity
  else if e < 0 then Float.ofScientific n true (-e).toNat
  else Float.ofScientific n false e.toNat

/-- Reads digits with an optional point among, before or after them, and an
optional exponent. -/
def unsigned? (cs : List Char) : Option Float :=
  let whole := cs.takeWhile isDigit
  let rest := cs.dropWhile isDigit
  let (fraction, rest) :=
    match rest with
    | '.' :: rest => (rest.takeWhile isDigit, rest.dropWhile isDigit)
    | _ => ([], rest)
  if whole.isEmpty && fraction.isEmpty then none
  else (exponent? rest).map fun e => scale (digitsValue (whole ++ fraction)) (e - fraction.length)

/-- The numbers that are read by name, in any case of letters. -/
def named? (cs : List Char) : Option Float :=
  match String.ofList (cs.map Char.toLower) with
  | "inf" | "infinity" => some infinity
  | "nan" => some notANumber
  | _ => none

/-- Reads a whole text as a number. -/
def readChars? (cs : List Char) : Option Float :=
  let (negative, rest) := takeSign cs
  let magnitude := (unsigned? rest).or (named? rest)
  magnitude.map fun x => if negative then -x else x

/-- Reads a whole text as a number. -/
def read? (s : String) : Option Float := readChars? s.toList

end MarkupScript.Decimal
