import MarkupScript.Script.Error

/-!
# The lines of a script text

Lines are numbered from one. Blank lines and comments are passed over.

* `SourceLine.read` cuts a text into lines of tokens.
-/

namespace MarkupScript

/-- A line of a script that is neither blank nor a comment. It has one token at
least. -/
structure SourceLine where
  pos : Position
  tokens : List Token
deriving Repr, DecidableEq

namespace SourceLine

/-- The text of the first token, if it is written plainly. -/
def keyword (l : SourceLine) : Option String :=
  match l.tokens with
  | t :: _ => if t.kind = .plain then some t.text else none
  | [] => none

/-- The tokens after the first. -/
def operands (l : SourceLine) : List Token := l.tokens.drop 1

/-- A fault in the shape of the line. -/
def fault {α : Type} (l : SourceLine) (f : LineFault) : Except CompileError α :=
  .error (.malformed l.pos f)

/-- Cuts a text at line breaks: a line feed, with a carriage return in front of it or
not. -/
def splitLines : List Char → List (List Char)
  | [] => [[]]
  | '\n' :: rest => [] :: splitLines rest
  | '\r' :: '\n' :: rest => [] :: splitLines rest
  | c :: rest =>
    match splitLines rest with
    | line :: lines => (c :: line) :: lines
    | [] => [[c]]

/-- Whether a line has something to compile. -/
def isCode : List Token → Bool
  | [] => false
  | t :: _ => t.kind ≠ .comment

/-- Cuts lines into tokens; the first has the number `number`. -/
def readFrom (number : Nat) : List (List Char) → Except CompileError (List SourceLine)
  | [] => .ok []
  | line :: rest =>
    let pos : Position := { line := number, text := String.ofList (Text.trimChars line) }
    match Token.tokenize (String.ofList line) with
    | .error e => .error (.syntactic pos e)
    | .ok tokens => do
      let lines ← readFrom (number + 1) rest
      return if isCode tokens then { pos, tokens } :: lines else lines

/-- Cuts a script text into lines of tokens. -/
def read (source : String) : Except CompileError (List SourceLine) :=
  readFrom 1 (splitLines source.toList)

end SourceLine

end MarkupScript
