import MarkupScript.Run.State

/-!
# Reading arguments

A site is where an argument is read: a scope and bindings. The document is that of
the run at the time.
-/

namespace MarkupScript

/-- A scope and bindings. -/
structure Site where
  scope : AnnotationId
  bindings : Bindings

/-- How the condition of a branch is judged. -/
inductive ConditionRule where
  /-- A selection is true if it is not empty. -/
  | selection
  /-- A condition is the truth of its value. -/
  | coerced
deriving Repr, DecidableEq

namespace Site

def view (site : Site) (d : Document) : View :=
  { document := d, scope := site.scope, bindings := site.bindings }

/-- Evaluates a text against the document and notes what it gives. -/
def evaluate {α : Type} (site : Site) (text : String) (read : View → Except EvalError α)
    (value : α → Value) : Action α := fun s =>
  match read (site.view s.document) with
  | .ok a => .ok a { s with events := s.events.push (.evaluated text (value a)) }
  | .error e => .error (.ofEval text e) s

/-- The value of an expression. -/
def expression (site : Site) (text : String) : Action Value :=
  site.evaluate text (·.expression text) id

/-- The annotations that an expression selects. -/
def path (site : Site) (text : String) : Action (List AnnotationId) :=
  site.evaluate text (·.path text) .annotations

/-- The truth of an expression. -/
def condition (site : Site) (rule : ConditionRule) (text : String) : Action Bool :=
  match rule with
  | .selection => site.evaluate text (·.condition text) .boolean
  | .coerced => site.evaluate text (·.coercedCondition text) .boolean

/-- The value of a variable. -/
def lookup (site : Site) (name : String) : Action Value :=
  match site.bindings.get? name with
  | some value => pure value
  | none => throw (.unboundVariable name)

/-- The value of an argument. -/
def argument (site : Site) : Argument → Action Value
  | .literal text => pure (.string text)
  | a@(.expression _) => site.expression a.inner
  | a@(.annotationSet _) => do
    let ids ← site.path a.inner
    return .annotations ids
  | .variableRef name => site.lookup name

/-- The annotations of an argument that has to be a set. -/
def annotations (site : Site) (a : Argument) : Action (List AnnotationId) := do
  match ← site.argument a with
  | .annotations ids => return ids
  | _ => throw (.notASet a.text)

/-- Whether the condition of a branch holds. -/
def test (site : Site) (rule : ConditionRule) (a : Argument) : Action Bool :=
  match a with
  | .expression _ => site.condition rule a.inner
  | _ => do
    let value ← site.argument a
    return value.truth

end Site

end MarkupScript
