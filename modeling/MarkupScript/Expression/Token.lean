import MarkupScript.Decimal.Text
import MarkupScript.Expression.Basic
import MarkupScript.Text.Blank
import MarkupScript.Text.Numeric

/-!
# The tokens of an expression

Whether `-`, `*` and `/` are operators or belong to an operand depends on what came
before: an operand is expected at the start and after an operator, a comma or an
opening bracket. A path is one token; its predicates may hold anything.

* `ExprToken.lex` cuts a text into tokens.
* `ExpressionFault.message` words what can be wrong with an expression.
-/

namespace MarkupScript

/-- A token of an expression. -/
inductive ExprToken where
  | number (x : Float)
  | text (s : String)
  | var (name : String)
  | path (text : String)
  /-- The name of a function; its bracket is the next token. -/
  | call (name : String)
  | openBracket
  | closeBracket
  | comma
  | neg
  | op (o : Operator)

/-- How a token is named in messages. -/
def ExprToken.label : ExprToken → String
  | number _ => "Number"
  | text _ => "Str"
  | var _ => "Var"
  | path _ => "Path"
  | call _ => "Call"
  | openBracket => "LParen"
  | closeBracket => "RParen"
  | comma => "Comma"
  | neg => "Neg"
  | op _ => "Op"

/-- What can be wrong with an expression. -/
inductive ExpressionFault where
  | unclosedQuote (quote : Char) (input : String)
  | invalidNumber (text : String)
  | missingVariableName (input : String)
  | unexpectedChar (c : Char) (input : String)
  | expectedOperator (word : String)
  | unclosedPredicate
  | trailingInput (input : String)
  /-- A bracket is not closed where it should be; the token that stands there, if
  any. -/
  | expectedClose (found : Option ExprToken)
  | malformedArguments (name : String)
  | unexpectedToken (token : ExprToken)
  | unexpectedEnd
  | expectedSeparator (path : String)
  | separatorLast (path : String)
  | attributeInside (path : String)
  | textAfterPredicate (step : String)
  | malformedAttribute (step : String)
  | emptyStep
  /-- `.` and `..` do not follow a double slash. -/
  | afterDescendant (name : String)
  | positionZero
  | unsupportedPredicate (text : String)
  | countNeedsPath
  | unknownFunction (name : String) (count : Nat)
  /-- A path starts at a variable that holds no annotations. -/
  | notAnnotations (name typeName : String)
  /-- Annotations are asked for and something else is given. -/
  | noSelection (text : String)

def ExpressionFault.message : ExpressionFault → String
  | unclosedQuote quote input => s!"unclosed {quote} in '{input}'"
  | invalidNumber text => s!"invalid number '{text}'"
  | missingVariableName input => s!"missing variable name in '{input}'"
  | unexpectedChar c input => s!"unexpected '{c}' in '{input}'"
  | expectedOperator word => s!"expected an operator, found '{word}'"
  | unclosedPredicate => "unclosed '[' in path"
  | trailingInput input => s!"unexpected trailing input in '{input}'"
  | expectedClose (some found) => s!"expected RParen, found {found.label}"
  | expectedClose none => "expected RParen at end of input"
  | malformedArguments name => s!"malformed arguments to {name}()"
  | unexpectedToken token => s!"unexpected {token.label}"
  | unexpectedEnd => "unexpected end of expression"
  | expectedSeparator path => s!"expected '/' in path '{path}'"
  | separatorLast path => s!"path '{path}' ends with a separator"
  | attributeInside path => s!"attribute step must come last in '{path}'"
  | textAfterPredicate step => s!"unexpected text after predicate in '{step}'"
  | malformedAttribute step => s!"malformed attribute step '{step}'"
  | emptyStep => "empty path step"
  | afterDescendant name => s!"'{name}' cannot follow '//'"
  | positionZero => "positions start at 1"
  | unsupportedPredicate text => s!"unsupported predicate '[{text}]'"
  | countNeedsPath => "count() expects a path"
  | unknownFunction name count => s!"unknown function {name}() with {count} argument(s)"
  | notAnnotations name typeName => s!"{name} holds a {typeName}, not annotations"
  | noSelection text => s!"'{text}' does not select annotations"

namespace ExprToken

/-! ## Classes of characters -/

def isNameStart (c : Char) : Bool := Text.isAlphabetic c || c = '_'

def isNameChar (c : Char) : Bool := Text.isAlphanumeric c || c = '_' || c = '-'

def isVariableChar (c : Char) : Bool := Text.isAlphanumeric c || c = '_'

/-- The characters of a path outside its predicates. -/
def isPathChar (c : Char) : Bool :=
  isNameChar c || c = '/' || c = '.' || c = '*' || c = '@' || c = ':' || c = '$'

/-! ## Predicates and paths -/

/-- Takes the rest of a predicate up to and with the bracket that closes it. `depth`
brackets are open, and so is the quote, if there is one. -/
def closePredicate (depth : Nat) (quote : Option Char) :
    List Char → Option (List Char × List Char)
  | [] => none
  | c :: rest =>
    let goOn (depth : Nat) (quote : Option Char) :=
      (closePredicate depth quote rest).map fun (inside, rest) => (c :: inside, rest)
    match quote with
    | some q => if c = q then goOn depth none else goOn depth (some q)
    | none =>
      if c = '\'' || c = '"' then goOn depth (some c)
      else if c = '[' then goOn (depth + 1) none
      else if c = ']' then
        if depth = 1 then some ([c], rest) else goOn (depth - 1) none
      else goOn depth none

theorem length_closePredicate {depth : Nat} {quote : Option Char} {cs inside rest : List Char}
    (h : closePredicate depth quote cs = some (inside, rest)) : rest.length < cs.length := by
  induction cs generalizing depth quote inside with
  | nil => simp [closePredicate] at h
  | cons c cs ih =>
    have step : ∀ {d q}, (closePredicate d q cs).map (fun (p : List Char × List Char) =>
        (c :: p.1, p.2)) = some (inside, rest) → rest.length < (c :: cs).length := by
      intro d q hm
      obtain ⟨⟨inside', rest'⟩, hp, he⟩ := Option.map_eq_some_iff.1 hm
      have hr : rest' = rest := congrArg Prod.snd he
      subst hr
      exact Nat.lt_succ_of_lt (ih hp)
    unfold closePredicate at h
    split at h
    · split at h
      · exact step h
      · exact step h
    · split at h
      · exact step h
      · split at h
        · exact step h
        · split at h
          · split at h
            · have hr : cs = rest := congrArg Prod.snd (Option.some.inj h)
              subst hr
              exact Nat.lt_succ_self _
            · exact step h
          · exact step h

/-- Takes characters as long as `continues` accepts them, and predicates in square
brackets as a whole. There is no result if a predicate is not closed. -/
def takeBracketed (continues : Char → Bool) (cs : List Char) :
    Option (List Char × List Char) :=
  match cs with
  | [] => some ([], [])
  | c :: rest =>
    if c = '[' then
      match _h : closePredicate 1 none rest with
      | none => none
      | some (inside, after) =>
        (takeBracketed continues after).map fun (taken, rest) => (c :: inside ++ taken, rest)
    else if continues c then
      (takeBracketed continues rest).map fun (taken, rest) => (c :: taken, rest)
    else some ([], c :: rest)
termination_by cs.length
decreasing_by
  · exact Nat.lt_succ_of_lt (length_closePredicate _h)
  · exact Nat.lt_succ_self _

/-! ## One token -/

/-- A token taken from the front of a text, whether an operand is expected after it,
and the rest. -/
structure Taken where
  token : ExprToken
  operandNext : Bool
  rest : List Char

/-- Takes a path. -/
def takePath (cs : List Char) : Except ExpressionFault Taken :=
  match takeBracketed isPathChar cs with
  | some (taken, rest) =>
    .ok { token := path (String.ofList taken), operandNext := false, rest }
  | none => .error .unclosedPredicate

/-- Takes a text up to the next `quote`, after the opening one. -/
def takeText (input : String) (quote : Char) (cs : List Char) : Except ExpressionFault Taken :=
  match cs.dropWhile (· ≠ quote) with
  | _ :: rest =>
    .ok { token := text (String.ofList (cs.takeWhile (· ≠ quote))), operandNext := false, rest }
  | [] => .error (.unclosedQuote quote input)

def isNumberChar (c : Char) : Bool := Decimal.isDigit c || c = '.'

/-- Takes digits and points as a number. -/
def takeNumber (cs : List Char) : Except ExpressionFault Taken :=
  let digits := cs.takeWhile isNumberChar
  match Decimal.readChars? digits with
  | some x => .ok { token := number x, operandNext := false, rest := cs.dropWhile isNumberChar }
  | none => .error (.invalidNumber (String.ofList digits))

/-- Takes a variable, after its dollar sign. With a slash after its name it starts a
path. -/
def takeVariable (input : String) (cs : List Char) : Except ExpressionFault Taken :=
  let name := cs.takeWhile isVariableChar
  let rest := cs.dropWhile isVariableChar
  if name.isEmpty then .error (.missingVariableName input)
  else if rest.head? = some '/' then takePath ('$' :: cs)
  else .ok { token := var (String.ofList ('$' :: name)), operandNext := false, rest }

/-- Takes a name: of a function if a bracket follows, else it starts a path. -/
def takeName (cs : List Char) : Except ExpressionFault Taken :=
  let name := cs.takeWhile isNameChar
  let rest := cs.dropWhile isNameChar
  if (rest.dropWhile Text.isBlank).head? = some '(' then
    .ok { token := call (String.ofList name), operandNext := true, rest }
  else takePath cs

/-- Takes a token where an operand is expected, from `c` and what follows it. -/
def takeOperand (input : String) (c : Char) (rest : List Char) :
    Except ExpressionFault Taken :=
  if c = '(' then .ok { token := openBracket, operandNext := true, rest }
  else if c = ')' then .ok { token := closeBracket, operandNext := false, rest }
  else if c = '-' then .ok { token := neg, operandNext := true, rest }
  else if c = '\'' || c = '"' then takeText input c rest
  else if Decimal.isDigit c || (c = '.' && (rest.head?.map Decimal.isDigit).getD false) then
    takeNumber (c :: rest)
  else if c = '$' then takeVariable input rest
  else if isNameStart c then takeName (c :: rest)
  else if c = '/' || c = '.' || c = '@' || c = '*' then takePath (c :: rest)
  else .error (.unexpectedChar c input)

/-- The operators that are words. -/
def wordOperator? (word : String) : Option Operator :=
  match word with
  | "and" => some .and
  | "or" => some .or
  | "div" => some .div
  | "mod" => some .mod
  | _ => none

/-- Takes a word as an operator. -/
def takeWord (cs : List Char) : Except ExpressionFault Taken :=
  let word := String.ofList (cs.takeWhile isNameChar)
  match wordOperator? word with
  | some o => .ok { token := op o, operandNext := true, rest := cs.dropWhile isNameChar }
  | none => .error (.expectedOperator word)

/-- Takes a token after an operand, from `c` and what follows it. -/
def takeOperator (input : String) (c : Char) (rest : List Char) :
    Except ExpressionFault Taken :=
  let operator (o : Operator) (rest : List Char) : Except ExpressionFault Taken :=
    .ok { token := op o, operandNext := true, rest }
  match c, rest with
  | ')', _ => .ok { token := closeBracket, operandNext := false, rest }
  | ',', _ => .ok { token := comma, operandNext := true, rest }
  | '=', _ => operator .eq rest
  | '!', '=' :: rest => operator .ne rest
  | '<', '=' :: rest => operator .le rest
  | '<', _ => operator .lt rest
  | '>', '=' :: rest => operator .ge rest
  | '>', _ => operator .gt rest
  | '+', _ => operator .add rest
  | '-', _ => operator .sub rest
  | '*', _ => operator .mul rest
  | '/', _ => operator .div rest
  | _, _ =>
    if isNameStart c then takeWord (c :: rest) else .error (.unexpectedChar c input)

/-- Takes the next token. -/
def take (input : String) (operand : Bool) (c : Char) (rest : List Char) :
    Except ExpressionFault Taken :=
  if operand then takeOperand input c rest else takeOperator input c rest

/-- Cuts the characters `cs` of `input` into tokens. A token takes one character at
least, so the length of the text bounds the steps. -/
def lexFrom (input : String) : Nat → Bool → List Char → Except ExpressionFault (List ExprToken)
  | _, _, [] => .ok []
  | 0, _, _ :: _ => .ok []
  | fuel + 1, operand, c :: rest =>
    if Text.isBlank c then lexFrom input fuel operand rest
    else do
      let taken ← take input operand c rest
      let tokens ← lexFrom input fuel taken.operandNext taken.rest
      return taken.token :: tokens

/-- Cuts a text into tokens. -/
def lex (input : String) : Except ExpressionFault (List ExprToken) :=
  lexFrom input input.toList.length true input.toList

end ExprToken

end MarkupScript
