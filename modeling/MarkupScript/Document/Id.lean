/-!
# Annotation ids

An annotation is known by a number of 128 bits, written as 32 hexadecimal digits
in five groups. A document draws ids for new annotations from a supply.

* `AnnotationId.text` writes an id, `AnnotationId.parse?` reads one.
* `IdSupply.take` draws the next id.
-/

namespace MarkupScript

/-- The identity of an annotation. -/
structure AnnotationId where
  bits : BitVec 128
deriving DecidableEq

namespace AnnotationId

/-- The lengths of the groups of digits that hyphens divide. -/
def groups : List Nat := [8, 4, 4, 4, 12]

/-- The 32 digits, the most significant first. -/
def digits (id : AnnotationId) : List Char :=
  (List.range 32).reverse.map fun i => Nat.digitChar (id.bits.toNat / Nat.pow 16 i % 16)

/-- Puts hyphens between the groups. -/
def hyphenate : List Nat → List Char → List Char
  | [], cs => cs
  | [n], cs => cs.take n
  | n :: rest, cs => cs.take n ++ '-' :: hyphenate rest (cs.drop n)

/-- The id as 32 digits in lower case in groups of 8, 4, 4, 4 and 12. -/
def text (id : AnnotationId) : String :=
  String.ofList (hyphenate groups id.digits)

def hexValue? (c : Char) : Option Nat :=
  if '0' ≤ c && c ≤ '9' then some (c.toNat - 48)
  else if 'a' ≤ c && c ≤ 'f' then some (c.toNat - 87)
  else if 'A' ≤ c && c ≤ 'F' then some (c.toNat - 55)
  else none

/-- Reads 32 digits, in either case. -/
def ofDigits? (cs : List Char) : Option AnnotationId :=
  if cs.length = 32 then
    let add (acc : Option Nat) (c : Char) : Option Nat :=
      acc.bind fun n => (hexValue? c).map (16 * n + ·)
    (cs.foldl add (some 0)).map fun n => ⟨BitVec.ofNat 128 n⟩
  else none

/-- Removes the hyphens between the groups, which must stand where they belong. -/
def unhyphenate? : List Nat → List Char → Option (List Char)
  | [], cs => if cs.isEmpty then some [] else none
  | [n], cs => if cs.length = n then some cs else none
  | n :: rest, cs =>
    match cs.drop n with
    | '-' :: after => (unhyphenate? rest after).map (cs.take n ++ ·)
    | _ => none

def ofHyphenated? (cs : List Char) : Option AnnotationId :=
  (unhyphenate? groups cs).bind ofDigits?

/-- The word in front of an id written as a name; its case does not count. -/
def urn : List Char := "urn:uuid:".toList

/-- Reads an id: 32 digits, the groups with hyphens, those in curly brackets, or
those as a name. -/
def parse? (s : String) : Option AnnotationId :=
  let cs := s.toList
  match cs.length with
  | 32 => ofDigits? cs
  | 36 => ofHyphenated? cs
  | 38 =>
    if cs.head? = some '{' && cs.getLast? = some '}' then ofHyphenated? (cs.drop 1).dropLast
    else none
  | 45 =>
    if (cs.take 9).map Char.toLower = urn then ofHyphenated? (cs.drop 9) else none
  | _ => none

end AnnotationId

/-- Where the ids of new annotations come from: a sequence of ids, of which some
have been used. -/
structure IdSupply where
  sequence : Nat → AnnotationId
  used : Nat := 0

/-- Draws the next id. -/
def IdSupply.take (s : IdSupply) : AnnotationId × IdSupply :=
  (s.sequence s.used, { s with used := s.used + 1 })

end MarkupScript
