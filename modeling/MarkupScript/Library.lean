import MarkupScript.Keyed

/-!
# Libraries of scripts

A library is a list of shelves, each with script texts by name. A name is looked up
on the first shelf that has it.
-/

namespace MarkupScript

/-- Script texts by name. -/
abbrev Shelf := Keyed String String

/-- Shelves in the order in which they are searched. -/
abbrev Library := List Shelf

namespace Library

/-- The text of a script. -/
def find? : Library → String → Option String
  | [], _ => none
  | shelf :: rest, name =>
    match Keyed.get? shelf name with
    | some text => some text
    | none => find? rest name

/-- All names on the shelves. -/
def names (library : Library) : List String :=
  library.flatMap Keyed.keys

end Library

end MarkupScript
