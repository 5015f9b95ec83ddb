/-!
# Text for terminals

A terminal takes sequences of characters as commands: how the text after them looks, the
title of the window, strings for the device. A sequence starts with the escape character.

* `bold` and `heading` set text off by such sequences.
* `plain` is what a reader that is no terminal sees of a text.
-/

namespace MarkupScript.Text

/-- Text in bold letters. -/
def bold (text : String) : String := "\x1b[1m" ++ text ++ "\x1b[0m"

/-- Text in bold letters with a line under it. -/
def heading (text : String) : String := "\x1b[1m\x1b[4m" ++ text ++ "\x1b[0m"

/-! ## Sequences -/

/-- How far a sequence has come. -/
inductive Sequence where
  /-- There is none. -/
  | none
  /-- After the escape character. -/
  | escape
  /-- After the escape character and marks such as `#` or a bracket. -/
  | marked
  /-- In a command; a letter ends it. -/
  | command
  /-- In a title; a bell ends it. -/
  | title
  /-- At the start of a string for the device. -/
  | device
  /-- In the numbers before a string for the device. -/
  | deviceNumbers
  /-- In the marks before a string for the device. -/
  | deviceMarks
  /-- In a string for the device. -/
  | deviceString
deriving Repr, DecidableEq

/-- Control characters that lay out text. -/
def isLayout (c : Char) : Bool := c = '\t' || c = '\n' || c = '\x0c' || c = '\r'

def isControl (c : Char) : Bool := c.toNat < 0x20 || c.toNat = 0x7F

/-- Whether the byte `9C` is part of a character. It ends strings for the device,
wherever it stands. -/
def endsString (c : Char) : Bool := (String.utf8EncodeChar c).contains 0x9C

namespace Sequence

/-- A sequence after a character of ASCII that is no control character. -/
def next (s : Sequence) (c : Char) : Sequence :=
  let n := c.toNat
  match s with
  | none | title | deviceString => s
  | escape =>
    if c = '[' then command
    else if c = ']' then title
    else if c = 'P' then device
    else if c = 'X' || c = '^' || c = '_' then deviceString
    else if n < 0x30 then marked
    else none
  | marked => if n < 0x30 then marked else none
  | command => if n < 0x40 then command else none
  | device =>
    if n < 0x30 then deviceMarks else if n < 0x40 then deviceNumbers else deviceString
  | deviceNumbers =>
    if n < 0x30 then deviceMarks else if n < 0x3C then deviceNumbers else deviceString
  | deviceMarks => if n < 0x30 then deviceMarks else deviceString

/-- A sequence after a control character other than the escape character. -/
def afterControl (s : Sequence) (c : Char) : Sequence :=
  if c = '\x18' || c = '\x1a' || (c = '\x07' && s = title) then none else s

/-- A sequence after a character that is not of ASCII. -/
def afterWide (s : Sequence) (c : Char) : Sequence :=
  if s = deviceString && endsString c then none else s

/-- Whether layout is shown within a sequence. -/
def showsLayout : Sequence → Bool
  | none | escape | marked | command => true
  | title | device | deviceNumbers | deviceMarks | deviceString => false

end Sequence

/-- A reader within a text. -/
structure Reader where
  sequence : Sequence := .none
  /-- Layout has interrupted the sequence. Text is shown again, and the next control
  character takes the sequence up. -/
  interrupted : Bool := false
deriving Repr, DecidableEq

/-- The reader after a character, and whether the character is shown. -/
def Reader.step (r : Reader) (c : Char) : Reader × Bool :=
  if c = '\x1b' then ({ sequence := .escape }, false)
  else if isControl c then
    if isLayout c && r.sequence.showsLayout then ({ r with interrupted := true }, true)
    else ({ sequence := r.sequence.afterControl c }, false)
  else if r.interrupted || r.sequence = .none then
    (if c.toNat < 0x80 then r else {}, true)
  else if c.toNat < 0x80 then ({ sequence := r.sequence.next c }, false)
  else ({ sequence := r.sequence.afterWide c }, false)

/-- The characters that a reader sees. -/
def Reader.shown : Reader → List Char → List Char
  | _, [] => []
  | r, c :: cs =>
    match r.step c with
    | (r, true) => c :: r.shown cs
    | (r, false) => r.shown cs

/-- A text without control characters and sequences, layout apart. -/
def plain (text : String) : String := String.ofList (Reader.shown {} text.toList)

end MarkupScript.Text
