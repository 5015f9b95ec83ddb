import MarkupScript.Line.Token
import MarkupScript.Text.Enclosed

/-!
# Arguments

A token that stands as an argument of a command is literal text, an expression,
a set of annotations or a variable, told by its first character. It is evaluated
only when the command runs.
-/

namespace MarkupScript

/-- An argument of a command. Expressions, sets and variables are kept as
written; literal text has lost its quotes. -/
inductive Argument where
  | literal (text : String)
  | expression (text : String)
  | annotationSet (text : String)
  | variableRef (name : String)
deriving Repr, DecidableEq

namespace Argument

/-- The kind of argument that a token is. -/
def ofToken (token : Token) : Argument :=
  if token.kind = .literal then .literal token.text
  else
    match token.text.toList with
    | '(' :: _ => .expression token.text
    | '{' :: _ => .annotationSet token.text
    | '$' :: _ => .variableRef token.text
    | _ => .literal (Text.unquote token.text)

def text : Argument → String
  | literal t | expression t | annotationSet t | variableRef t => t

/-- Removes the bracket pair around a text, and blanks inside it. A text whose
first and last characters are not the pair stays as it is. -/
def stripBracket (b : Bracket) (text : String) : String :=
  match Text.enclosed? b.opener b.closer text.toList with
  | some inner => String.ofList (Text.trimChars inner)
  | none => text

/-- The text without the brackets of an expression or set. -/
def inner : Argument → String
  | expression t => stripBracket .round t
  | annotationSet t => stripBracket .curly t
  | literal t | variableRef t => t

/-- Whether the argument is written in brackets. -/
def isBracketed : Argument → Bool
  | expression _ | annotationSet _ => true
  | literal _ | variableRef _ => false

end Argument

end MarkupScript
