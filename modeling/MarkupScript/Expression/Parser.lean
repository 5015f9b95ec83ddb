import MarkupScript.Expression.Path

/-!
# Reading expressions

Operators bind as `Operator.precedence` says and group to the left; a minus sign in
front binds stronger than all of them.

* `Expr.parse` reads the text of an expression.
-/

namespace MarkupScript.Expr

/-- An expression taken from the front of some tokens, and the rest. -/
abbrev Parsed (α : Type) := α × List ExprToken

mutual

/-- Takes an expression whose operators bind at least as strongly as `least`. The
first argument bounds the depth of the recursion. -/
def binaryFrom : Nat → Nat → List ExprToken → Except ExpressionFault (Parsed Expr)
  | 0, _, _ => .error .unexpectedEnd
  | fuel + 1, least, tokens => do
    let (left, rest) ← unaryFrom fuel tokens
    operatorsFrom fuel least left rest

/-- Takes the operators after `left` that bind at least as strongly as `least`, with
their right operands. -/
def operatorsFrom : Nat → Nat → Expr → List ExprToken → Except ExpressionFault (Parsed Expr)
  | 0, _, _, _ => .error .unexpectedEnd
  | fuel + 1, least, left, .op o :: rest =>
    if o.precedence < least then .ok (left, .op o :: rest)
    else do
      let (right, rest) ← binaryFrom fuel (o.precedence + 1) rest
      operatorsFrom fuel least (.binary o left right) rest
  | _ + 1, _, left, tokens => .ok (left, tokens)

/-- Takes an operand with the minus signs in front of it. -/
def unaryFrom : Nat → List ExprToken → Except ExpressionFault (Parsed Expr)
  | 0, _ => .error .unexpectedEnd
  | fuel + 1, .neg :: rest => do
    let (operand, rest) ← unaryFrom fuel rest
    return (.neg operand, rest)
  | fuel + 1, tokens => primaryFrom fuel tokens

/-- Takes an operand. -/
def primaryFrom : Nat → List ExprToken → Except ExpressionFault (Parsed Expr)
  | 0, _ => .error .unexpectedEnd
  | _ + 1, [] => .error .unexpectedEnd
  | _ + 1, .number x :: rest => .ok (.number x, rest)
  | _ + 1, .text s :: rest => .ok (.text s, rest)
  | _ + 1, .var name :: rest => .ok (.var name, rest)
  | _ + 1, .path source :: rest => do
    let p ← Path.parse source
    return (.path p, rest)
  | fuel + 1, .openBracket :: rest => do
    match ← binaryFrom fuel 0 rest with
    | (inner, .closeBracket :: rest) => return (inner, rest)
    | (_, token :: _) => .error (.expectedClose (some token))
    | (_, []) => .error (.expectedClose none)
  | fuel + 1, .call name :: rest =>
    match rest with
    | .openBracket :: .closeBracket :: rest => .ok (.call name [], rest)
    | .openBracket :: rest => do
      let (args, rest) ← argumentsFrom fuel name rest
      return (.call name args, rest)
    | _ => .error (.malformedArguments name)
  | _ + 1, token :: _ => .error (.unexpectedToken token)

/-- Takes the arguments of a call and its closing bracket. -/
def argumentsFrom : Nat → String → List ExprToken → Except ExpressionFault (Parsed (List Expr))
  | 0, _, _ => .error .unexpectedEnd
  | fuel + 1, name, tokens => do
    match ← binaryFrom fuel 0 tokens with
    | (arg, .closeBracket :: rest) => return ([arg], rest)
    | (arg, .comma :: rest) =>
      let (args, rest) ← argumentsFrom fuel name rest
      return (arg :: args, rest)
    | _ => .error (.malformedArguments name)

end

/-- Reads the text of an expression. Between two tokens the recursion deepens by less
than four. -/
def parse (input : String) : Except ExpressionFault Expr := do
  let tokens ← ExprToken.lex input
  let (expr, rest) ← binaryFrom (4 * tokens.length + 4) 0 tokens
  if rest.isEmpty then return expr else .error (.trailingInput input)

end MarkupScript.Expr
