/-!
# Enclosed text

Quotes and brackets that stand around a whole text.
-/

namespace MarkupScript.Text

/-- The characters before a closing `close`, if the text ends with it. -/
def beforeLast? (close : Char) (cs : List Char) : Option (List Char) :=
  match cs.getLast? with
  | some c => if c = close then some cs.dropLast else none
  | none => none

/-- What stands between an opening `start` and a closing `close` that are two
characters of their own: a lone quote encloses nothing. -/
def enclosed? (start close : Char) : List Char → Option (List Char)
  | c :: rest => if c = start then beforeLast? close rest else none
  | [] => none

/-- Removes one pair of single quotes, or else one pair of double quotes, that
stands around the whole text. -/
def unquoteChars (cs : List Char) : List Char :=
  match enclosed? '\'' '\'' cs with
  | some inner => inner
  | none => (enclosed? '"' '"' cs).getD cs

/-- Removes one pair of quotes that stands around the whole text. -/
def unquote (s : String) : String :=
  String.ofList (unquoteChars s.toList)

end MarkupScript.Text
