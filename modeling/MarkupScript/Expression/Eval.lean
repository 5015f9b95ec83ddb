import MarkupScript.Bindings
import MarkupScript.Document.Basic
import MarkupScript.Expression.Parser

/-!
# Evaluating expressions

An expression is evaluated in view of a document, through a scope, with bindings.
Selections of annotations and of attribute values are kept as such until a value is
asked for.

* `View.expression` gives the value of an expression, `View.path` the annotations
  that it selects, `View.condition` its truth.
-/

namespace MarkupScript

/-- What an expression is evaluated against. -/
structure View where
  document : Document
  scope : AnnotationId
  bindings : Bindings

/-- Why an expression has no value. -/
inductive EvalError where
  | unboundVariable (name : String)
  | invalid (fault : ExpressionFault)

def EvalError.message : EvalError → String
  | unboundVariable name => s!"unbound variable {name}"
  | invalid fault => fault.message

/-- The result of a part of an expression. -/
inductive Operand where
  /-- Selected annotations. -/
  | nodes (ids : List AnnotationId)
  /-- Selected attribute values. -/
  | strings (values : List String)
  | value (v : Value)

namespace View

/-! ## Paths -/

/-- The annotations that a step goes to from one. -/
def along (v : View) (axis : Axis) (id : AnnotationId) : List AnnotationId :=
  match axis with
  | .child => v.document.children v.scope id
  | .descendant => v.document.descendants v.scope id
  | .parent => (v.document.parent? v.scope id).toList
  | .self => [id]

/-- Whether an annotation is in the scope and of a type that the test takes. -/
def accepts (v : View) (test : NameTest) (id : AnnotationId) : Bool :=
  match v.document.kind? v.scope id with
  | some kind => test.accepts kind
  | none => false

/-- The annotations that a predicate keeps. -/
def keep (v : View) (ids : List AnnotationId) : Predicate → List AnnotationId
  | .position n => (ids[n - 1]?).toList
  | .has name => ids.filter fun id => (v.document.attribute? v.scope id name).isSome
  | .compare name value negated =>
    ids.filter fun id =>
      match v.document.attribute? v.scope id name with
      | some actual => (actual == value) != negated
      | none => false

/-- The annotations that a step selects from one. Predicates narrow them one after
another. -/
def stepFrom (v : View) (axis : Axis) (test : NameTest) (predicates : List Predicate)
    (id : AnnotationId) : List AnnotationId :=
  predicates.foldl v.keep ((v.along axis id).filter (v.accepts test))

/-- The attribute values that a test selects from one annotation. -/
def valuesFrom (v : View) (test : NameTest) (id : AnnotationId) : List String :=
  ((v.document.attributes v.scope id).filter fun entry => test.accepts entry.1).map
    (·.2)

/-- Follows the steps of a path from some annotations. -/
def follow (v : View) : List Step → List AnnotationId → Operand
  | [], ids => .nodes ids
  | .attributes test :: _, ids => .strings (ids.flatMap (v.valuesFrom test))
  | .nodes axis test predicates :: rest, ids =>
    v.follow rest (ids.flatMap (v.stepFrom axis test predicates))

/-- The annotations that a path starts from. -/
def startOf (v : View) : PathStart → Except EvalError (List AnnotationId)
  | .context => .ok [v.scope]
  | .fromVariable name =>
    match v.bindings.get? name with
    | some (.annotations ids) => .ok ids
    | some other => .error (.invalid (.notAnnotations name other.typeName))
    | none => .error (.unboundVariable name)

/-- What a path selects. -/
def select (v : View) (p : Path) : Except EvalError Operand := do
  let ids ← v.startOf p.start
  return v.follow p.steps ids

/-! ## Operands as values -/

/-- The text of the first annotation or value selected, or of a value. -/
def string (v : View) : Operand → String
  | .nodes ids => ((ids.head?.bind (v.document.valueOf v.scope))).getD ""
  | .strings values => values.head?.getD ""
  | .value value => value.text

def number (v : View) : Operand → Float
  | .value value => value.toNumber
  | selection => (Value.string (v.string selection)).toNumber

/-- A selection is true if it is not empty. -/
def truth : Operand → Bool
  | .nodes ids => !ids.isEmpty
  | .strings values => !values.isEmpty
  | .value value => value.truth

/-- The values that a comparison tries. -/
def items (v : View) : Operand → List Value
  | .nodes ids => (ids.filterMap (v.document.valueOf v.scope)).map .string
  | .strings values => values.map .string
  | .value value => [value]

/-- The value of an operand. -/
def toValue : Operand → Value
  | .nodes ids => .annotations ids
  | .strings values => .string (values.head?.getD "")
  | .value value => value

/-! ## Operators -/

/-- Truth values are equal as such; with a number both are compared as numbers, else
as text. -/
def equal (left right : Value) : Bool :=
  match left, right with
  | .boolean l, .boolean r => l == r
  | .number l, r => l == r.toNumber
  | l, .number r => l.toNumber == r
  | l, r => l.text == r.text

def compareValues (o : Operator) (left right : Value) : Bool :=
  match o with
  | .eq => equal left right
  | .ne => !equal left right
  | .lt => left.toNumber < right.toNumber
  | .le => left.toNumber ≤ right.toNumber
  | .gt => left.toNumber > right.toNumber
  | .ge => left.toNumber ≥ right.toNumber
  | _ => false

def isBoolean : Operand → Bool
  | .value (.boolean _) => true
  | _ => false

/-- A comparison with a truth value compares truth. Otherwise it holds if it holds
for some item of one side and some item of the other. -/
def compare (v : View) (o : Operator) (left right : Operand) : Bool :=
  if isBoolean left || isBoolean right then
    compareValues o (.boolean (truth left)) (.boolean (truth right))
  else
    (v.items left).any fun l => (v.items right).any fun r => compareValues o l r

/-- Applies an operator to two operands. -/
def binary (v : View) (o : Operator) (left right : Operand) : Operand :=
  match o with
  | .add => .value (.number (v.number left + v.number right))
  | .sub => .value (.number (v.number left - v.number right))
  | .mul => .value (.number (v.number left * v.number right))
  | .div => .value (.number (v.number left / v.number right))
  | .mod => .value (.number (Decimal.remainder (v.number left) (v.number right)))
  | _ => .value (.boolean (v.compare o left right))

/-! ## Functions -/

/-- Applies a function of the expression language. -/
def call (v : View) (name : String) (args : List Operand) : Except EvalError Value :=
  match name, args with
  | "true", [] => .ok (.boolean true)
  | "false", [] => .ok (.boolean false)
  | "not", [x] => .ok (.boolean (!truth x))
  | "boolean", [x] => .ok (.boolean (truth x))
  | "count", [.nodes ids] => .ok (.number (Float.ofNat ids.length))
  | "count", [.strings values] => .ok (.number (Float.ofNat values.length))
  | "count", [_] => .error (.invalid .countNeedsPath)
  | "string", [] => .ok (.string ((v.document.valueOf v.scope v.scope).getD ""))
  | "string", [x] => .ok (.string (v.string x))
  | "number", [x] => .ok (.number (v.number x))
  | "concat", first :: second :: rest =>
    .ok (.string (String.join ((first :: second :: rest).map v.string)))
  | "contains", [text, part] =>
    .ok (.boolean (Text.hasPart (v.string part).toList (v.string text).toList))
  | "starts-with", [text, start] =>
    .ok (.boolean ((v.string start).toList.isPrefixOf (v.string text).toList))
  | "string-length", [x] => .ok (.number (Float.ofNat (v.string x).length))
  | "name", [] => .ok (.string ((v.document.kind? v.scope v.scope).getD ""))
  | "name", [.nodes ids] =>
    .ok (.string ((ids.head?.bind (v.document.kind? v.scope)).getD ""))
  | _, _ => .error (.invalid (.unknownFunction name args.length))

/-! ## Expressions -/

mutual

/-- Evaluates an expression. The right side of `or` and `and` is left alone if the
left side decides. -/
def eval (v : View) : Expr → Except EvalError Operand
  | .number x => .ok (.value (.number x))
  | .text s => .ok (.value (.string s))
  | .var name =>
    match v.bindings.get? name with
    | some (.annotations ids) => .ok (.nodes ids)
    | some value => .ok (.value value)
    | none => .error (.unboundVariable name)
  | .path p => v.select p
  | .neg e => do
    let operand ← v.eval e
    return .value (.number (-v.number operand))
  | .binary .or left right => do
    let l ← v.eval left
    if truth l then return .value (.boolean true)
    let r ← v.eval right
    return .value (.boolean (truth r))
  | .binary .and left right => do
    let l ← v.eval left
    if !truth l then return .value (.boolean false)
    let r ← v.eval right
    return .value (.boolean (truth r))
  | .binary o left right => do
    let l ← v.eval left
    let r ← v.eval right
    return v.binary o l r
  | .call name args => do
    let operands ← v.evalAll args
    let value ← v.call name operands
    return .value value

/-- Evaluates expressions in order. -/
def evalAll (v : View) : List Expr → Except EvalError (List Operand)
  | [] => .ok []
  | e :: rest => do
    let operand ← v.eval e
    let operands ← v.evalAll rest
    return operand :: operands

end

/-- Reads and evaluates an expression. -/
def operand (v : View) (text : String) : Except EvalError Operand :=
  match Expr.parse text with
  | .ok e => v.eval e
  | .error fault => .error (.invalid fault)

/-- The value of an expression. -/
def expression (v : View) (text : String) : Except EvalError Value := do
  let operand ← v.operand text
  return toValue operand

/-- The annotations that an expression selects. -/
def path (v : View) (text : String) : Except EvalError (List AnnotationId) := do
  match ← v.operand text with
  | .nodes ids => return ids
  | .value (.annotations ids) => return ids
  | _ => .error (.invalid (.noSelection text))

/-- The truth of an expression. A selection is true if it is not empty, whatever the
text of its first item. -/
def condition (v : View) (text : String) : Except EvalError Bool := do
  let operand ← v.operand text
  return truth operand

/-- The truth of the value of an expression. -/
def coercedCondition (v : View) (text : String) : Except EvalError Bool := do
  let value ← v.expression text
  return value.truth

end View

end MarkupScript
