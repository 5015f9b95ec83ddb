import MarkupScript.Expression.Token
import MarkupScript.Text.Enclosed
import MarkupScript.Text.Natural
import MarkupScript.Text.Search

/-!
# Reading paths

A path is steps with slashes between them, after a variable or nothing. A double
slash goes to all descendants. A step is a name with predicates in square brackets.

* `Path.parse` reads the text of a path.
-/

namespace MarkupScript

/-- Reads a predicate, given without its brackets: a position, or an attribute alone
or compared with a value. -/
def Predicate.parse (cs : List Char) : Except ExpressionFault Predicate :=
  let cs := Text.trimChars cs
  let trimmed (cs : List Char) : String := String.ofList (Text.trimChars cs)
  let value (cs : List Char) : String := String.ofList (Text.unquoteChars (Text.trimChars cs))
  match Text.position? cs with
  | some 0 => .error .positionZero
  | some n => .ok (.position n)
  | none =>
    match cs with
    | '@' :: test =>
      match Text.splitOnce? ['!', '='] test with
      | some (name, v) => .ok (.compare (trimmed name) (value v) true)
      | none =>
        match Text.splitOnce? ['='] test with
        | some (name, v) => .ok (.compare (trimmed name) (value v) false)
        | none => .ok (.has (trimmed test))
    | _ => .error (.unsupportedPredicate (String.ofList cs))

namespace Step

/-- Reads the predicates of a step. After a predicate comes the next or nothing. -/
def parsePredicates (step : String) (cs : List Char) :
    Except ExpressionFault (List Predicate) :=
  match cs with
  | [] => .ok []
  | '[' :: rest =>
    match _h : ExprToken.closePredicate 1 none rest with
    | none => .error .unclosedPredicate
    | some (inside, after) => do
      let predicate ← Predicate.parse inside.dropLast
      let predicates ← parsePredicates step after
      return predicate :: predicates
  | _ :: _ => .error (.textAfterPredicate step)
termination_by cs.length
decreasing_by exact Nat.lt_succ_of_lt (ExprToken.length_closePredicate _h)

/-- Reads a step that follows a single slash (`child`) or a double one. -/
def parse (axis : Axis) (cs : List Char) : Except ExpressionFault Step := do
  let step := String.ofList cs
  let name := cs.takeWhile (· ≠ '[')
  let predicates ← parsePredicates step (cs.dropWhile (· ≠ '['))
  match name with
  | '@' :: label =>
    if !predicates.isEmpty || axis ≠ .child || label.isEmpty then
      .error (.malformedAttribute step)
    else .ok (.attributes (.ofText (String.ofList label)))
  | [] => .error .emptyStep
  | ['.'] =>
    if axis = .child then .ok (.nodes .self .any predicates)
    else .error (.afterDescendant ".")
  | ['.', '.'] =>
    if axis = .child then .ok (.nodes .parent .any predicates)
    else .error (.afterDescendant "..")
  | _ => .ok (.nodes axis (.ofText (String.ofList name)) predicates)

def isAttribute : Step → Bool
  | attributes _ => true
  | nodes .. => false

end Step

namespace Path

/-- Takes the slashes in front of a step. The first step of a path that starts at the
scope needs none. -/
def takeSeparator (bare : Bool) : List Char → Option (Axis × List Char)
  | '/' :: '/' :: rest => some (.descendant, rest)
  | '/' :: rest => some (.child, rest)
  | cs => if bare then some (.child, cs) else none

/-- Takes the text of a step: all up to the next slash outside predicates. -/
def takeStep (cs : List Char) : Option (List Char × List Char) :=
  ExprToken.takeBracketed (· ≠ '/') cs

/-- Reads the steps of the path `text`. `first` says that none has been read, and
`bare` that the next needs no slash. Every step takes one character at least, so
the length of the text bounds the steps. -/
def parseSteps (text : String) :
    Nat → Bool → Bool → List Char → Except ExpressionFault (List Step)
  | _, _, _, [] => .ok []
  | 0, _, _, _ :: _ => .ok []
  | fuel + 1, first, bare, cs =>
    match takeSeparator bare cs with
    | none => .error (.expectedSeparator text)
    | some (axis, []) =>
      if axis = .child && first then .ok [] else .error (.separatorLast text)
    | some (axis, rest) =>
      match takeStep rest with
      | none => .error .unclosedPredicate
      | some (step, rest) => do
        let step ← Step.parse axis step
        let steps ← parseSteps text fuel false false rest
        return step :: steps

/-- Takes the variable that a path starts with. -/
def takeStart : List Char → PathStart × List Char
  | '$' :: rest =>
    (.fromVariable (String.ofList ('$' :: rest.takeWhile (· ≠ '/'))), rest.dropWhile (· ≠ '/'))
  | cs => (.context, cs)

/-- Reads the text of a path. An attribute step must be the last. -/
def parse (text : String) : Except ExpressionFault Path := do
  let (start, rest) := takeStart text.toList
  let steps ← parseSteps text rest.length true (start = .context) rest
  if steps.dropLast.any Step.isAttribute then .error (.attributeInside text)
  else .ok { start, steps }

end Path

end MarkupScript
