/-!
# JSON values

Documents and settings are stored as JSON. A value is kept as it stands in the
text: fields in order, repeated ones included, and numbers by their spelling.
-/

namespace MarkupScript

/-- A JSON value. -/
inductive Json where
  | null
  | bool (b : Bool)
  | number (literal : String)
  | string (text : String)
  | array (items : List Json)
  | object (fields : List (String × Json))
  /-- A string, or an object with a key, that has half of a surrogate pair and so
  is no text. Such a value can be skipped, but it cannot be read. -/
  | unreadable

namespace Json

def string? : Json → Option String
  | string s => some s
  | _ => none

def array? : Json → Option (List Json)
  | array items => some items
  | _ => none

/-- The values of the field `name`. -/
def valuesOf (fields : List (String × Json)) (name : String) : List Json :=
  fields.filterMap fun field => if field.1 = name then some field.2 else none

/-- The value of the field `name`, if there is one; repeated fields are refused. -/
def field? (fields : List (String × Json)) (name : String) : Option (Option Json) :=
  match valuesOf fields name with
  | [] => some none
  | [value] => some (some value)
  | _ => none

/-- The values of a record with the given fields, an absent one as `none`. A record
is an object, which may have other fields, or an array of the values in order, of
which those at the end may be missing. -/
def record? (names : List String) : Json → Option (List (Option Json))
  | object fields => names.mapM (field? fields)
  | array items =>
    if items.length ≤ names.length then
      some (items.map some ++ List.replicate (names.length - items.length) none)
    else none
  | _ => none

end Json

end MarkupScript
