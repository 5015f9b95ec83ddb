import MarkupScript.Text.Blank

/-!
# The words of a script line

A script line is cut into tokens at spaces and tabs that stand outside quotes
and brackets. Round brackets hold an expression, curly brackets a set of
annotations; a set may hold expressions and sets, an expression no set. Between
quotes only the matching quote counts. A backslash takes the special meaning
from the character after it, everywhere on the line.

* `Token.tokenize` cuts a line into tokens, or gives the first fault.
* `SyntaxError.message` words the faults.
-/

namespace MarkupScript

/-- The two kinds of brackets that group text. -/
inductive Bracket where
  | round
  | curly
deriving Repr, DecidableEq

namespace Bracket

def opener : Bracket → Char
  | round => '('
  | curly => '{'

def closer : Bracket → Char
  | round => ')'
  | curly => '}'

end Bracket

/-- The two kinds of quotes. -/
inductive QuoteMark where
  | single
  | double
deriving Repr, DecidableEq

/-- A quote mark opens and closes with the same character. -/
def QuoteMark.char : QuoteMark → Char
  | single => '\''
  | double => '"'

/-- What has been opened on a line and waits for its end. -/
inductive Opening where
  /-- A bracket that groups text. -/
  | group (bracket : Bracket)
  /-- A quote. -/
  | quoted (mark : QuoteMark)
  /-- An escaped bracket in front of a token; it ends at the escaped closer, and
  nothing between the two is special. -/
  | verbatim (bracket : Bracket)
deriving Repr, DecidableEq

/-- The character that an opening is written with. -/
def Opening.char : Opening → Char
  | group b => b.opener
  | quoted m => m.char
  | verbatim b => b.opener

/-- Why a line cannot be cut into tokens. -/
inductive SyntaxError where
  /-- A quote or bracket is still open at the end of the line. -/
  | unclosed (opener : Char)
  /-- A closing bracket does not close the innermost open bracket. -/
  | unmatchedCloser (closer : Char)
  /-- A set of annotations opens inside an expression. -/
  | illegalNesting
deriving Repr, DecidableEq

def SyntaxError.message : SyntaxError → String
  | unclosed opener => s!"unclosed '{opener}' at end of line"
  | unmatchedCloser closer => s!"unmatched closing '{closer}'"
  | illegalNesting =>
    "annotation set constructor '\x7b' is not allowed inside an expression"

/-- What a token is, as far as its spelling on the line decides it. -/
inductive TokenKind where
  /-- A token whose first character tells what it is. -/
  | plain
  /-- A token whose first character was escaped: literal text. -/
  | literal
  /-- A whole comment line. -/
  | comment
deriving Repr, DecidableEq

/-- One word of a script line. -/
structure Token where
  kind : TokenKind
  text : String
deriving Repr, DecidableEq

namespace Token

/-- The token being read: its text so far, whether its first character was
escaped, and what is open, innermost first. -/
structure Partial where
  text : String := ""
  literal : Bool := false
  openings : List Opening := []
deriving Repr, DecidableEq

namespace Partial

/-- Adds a character to the text. -/
def push (p : Partial) (c : Char) : Partial :=
  { p with text := p.text.push c }

/-- Nothing has been read of the token and nothing is open. -/
def atStart (p : Partial) : Bool :=
  p.text.isEmpty && p.openings.isEmpty

/-- The finished token. Text of blanks alone makes no token. -/
def finish (p : Partial) : List Token :=
  if Text.isBlankText p.text then []
  else [{ kind := if p.literal then .literal else .plain, text := p.text }]

end Partial

/-- Whether an escaped `closer` follows. -/
def closesLater (closer : Char) : List Char → Bool
  | '\\' :: c :: rest => c = closer || closesLater closer rest
  | _ :: rest => closesLater closer rest
  | [] => false

/-- The bracket that an escaped character opens verbatim: only in front of a
token, and only if its escaped closer is among the characters `rest` after it. -/
def verbatimBracket? (c : Char) (rest : List Char) : Option Bracket :=
  if c = '{' && closesLater '}' rest then some .curly
  else if c = '(' && closesLater ')' rest then some .round
  else none

/-- Reads the escaped character `c`, with `rest` after it. -/
def Partial.escaped (p : Partial) (c : Char) (rest : List Char) : Partial :=
  let literal := p.literal || p.atStart
  let openings :=
    match p.openings with
    | [] =>
      if p.atStart then (verbatimBracket? c rest).toList.map .verbatim else []
    | .verbatim b :: outer => if c = b.closer then outer else p.openings
    | _ => p.openings
  { text := p.text.push c, literal, openings }

/-- Closes the bracket `b`, which must be the innermost opening. -/
def Partial.close (p : Partial) (b : Bracket) : Except SyntaxError Partial :=
  match p.openings with
  | o :: outer =>
    if o = .group b then .ok { p.push b.closer with openings := outer }
    else .error (.unmatchedCloser b.closer)
  | [] => .error (.unmatchedCloser b.closer)

/-- Reads an unescaped character outside quotes that does not end the token. -/
def Partial.ordinary (p : Partial) (c : Char) : Except SyntaxError Partial :=
  match c with
  | '\'' => .ok { p.push c with openings := .quoted .single :: p.openings }
  | '"' => .ok { p.push c with openings := .quoted .double :: p.openings }
  | '(' => .ok { p.push c with openings := .group .round :: p.openings }
  | '{' =>
    if p.openings.contains (.group .round) then .error .illegalNesting
    else .ok { p.push c with openings := .group .curly :: p.openings }
  | ')' => p.close .round
  | '}' => p.close .curly
  | _ => .ok (p.push c)

/-- Reads an unescaped character inside a token. -/
def Partial.step (p : Partial) (c : Char) : Except SyntaxError Partial :=
  match p.openings with
  | .quoted m :: outer =>
    if c = m.char then .ok { p.push c with openings := outer } else .ok (p.push c)
  | .verbatim _ :: _ => .ok (p.push c)
  | _ => p.ordinary c

/-- Whether an unescaped `c` ends the token. -/
def Partial.endsAt (p : Partial) (c : Char) : Bool :=
  p.openings.isEmpty && (c = ' ' || c = '\t')

/-- Reads the characters of a line after the partial token `p`. A backslash that
ends the line stands for itself. -/
def scan (p : Partial) : List Char → Except SyntaxError (List Token)
  | [] =>
    match p.openings with
    | o :: _ => .error (.unclosed o.char)
    | [] => .ok p.finish
  | ['\\'] =>
    match p.openings with
    | o :: _ => .error (.unclosed o.char)
    | [] => .ok (p.push '\\').finish
  | '\\' :: c :: rest => scan (p.escaped c rest) rest
  | c :: rest =>
    if p.endsAt c then do
      let tokens ← scan {} rest
      return p.finish ++ tokens
    else
      match p.step c with
      | .ok p => scan p rest
      | .error e => .error e

/-- Cuts a line into tokens. A blank line has none; a line whose first
character that is no blank is `#` is one comment. -/
def tokenize (line : String) : Except SyntaxError (List Token) :=
  match Text.trimChars line.toList with
  | [] => .ok []
  | '#' :: rest => .ok [{ kind := .comment, text := String.ofList ('#' :: rest) }]
  | cs => scan {} cs

end Token

end MarkupScript
