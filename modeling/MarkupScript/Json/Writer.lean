import MarkupScript.Json.Basic

/-!
# Writing JSON

* `Json.pretty` writes a value over several lines, indented by two blanks a level.
* `Json.compact` writes a value on one line without blanks.
-/

namespace MarkupScript.Json

/-- A character of a string: quotes, backslashes and control characters are escaped. -/
def escapeChar (c : Char) : List Char :=
  match c with
  | '"' => ['\\', '"']
  | '\\' => ['\\', '\\']
  | '\x08' => ['\\', 'b']
  | '\x0c' => ['\\', 'f']
  | '\n' => ['\\', 'n']
  | '\r' => ['\\', 'r']
  | '\t' => ['\\', 't']
  | c =>
    if c.toNat < 0x20 then
      ['\\', 'u', '0', '0', Nat.digitChar (c.toNat / 16), Nat.digitChar (c.toNat % 16)]
    else [c]

/-- A string between quotes. -/
def quote (s : String) : String :=
  String.ofList ('"' :: s.toList.flatMap escapeChar ++ ['"'])

/-- A line break and the blanks of a level. -/
def newline (level : Nat) : String :=
  String.ofList ('\n' :: List.replicate (2 * level) ' ')

mutual

/-- Writes a value that stands at a level. -/
def prettyAt (level : Nat) : Json → String
  | null | unreadable => "null"
  | bool b => if b then "true" else "false"
  | number literal => literal
  | string s => quote s
  | array [] => "[]"
  | array (item :: items) =>
    "[" ++ newline (level + 1) ++ prettyAt (level + 1) item ++ prettyItems (level + 1) items ++
      newline level ++ "]"
  | object [] => "\x7b\x7d"
  | object ((key, value) :: fields) =>
    "\x7b" ++ newline (level + 1) ++ quote key ++ ": " ++ prettyAt (level + 1) value ++
      prettyFields (level + 1) fields ++ newline level ++ "\x7d"

/-- Writes the values of an array after the first. -/
def prettyItems (level : Nat) : List Json → String
  | [] => ""
  | item :: items => "," ++ newline level ++ prettyAt level item ++ prettyItems level items

/-- Writes the fields of an object after the first. -/
def prettyFields (level : Nat) : List (String × Json) → String
  | [] => ""
  | (key, value) :: fields =>
    "," ++ newline level ++ quote key ++ ": " ++ prettyAt level value ++ prettyFields level fields

end

/-- Writes a value over several lines. -/
def pretty (j : Json) : String := prettyAt 0 j

mutual

/-- Writes a value on one line. -/
def compact : Json → String
  | null | unreadable => "null"
  | bool b => if b then "true" else "false"
  | number literal => literal
  | string s => quote s
  | array [] => "[]"
  | array (item :: items) => "[" ++ compact item ++ compactItems items ++ "]"
  | object [] => "\x7b\x7d"
  | object ((key, value) :: fields) =>
    "\x7b" ++ quote key ++ ":" ++ compact value ++ compactFields fields ++ "\x7d"

/-- Writes the values of an array after the first. -/
def compactItems : List Json → String
  | [] => ""
  | item :: items => "," ++ compact item ++ compactItems items

/-- Writes the fields of an object after the first. -/
def compactFields : List (String × Json) → String
  | [] => ""
  | (key, value) :: fields => "," ++ quote key ++ ":" ++ compact value ++ compactFields fields

end

end MarkupScript.Json
