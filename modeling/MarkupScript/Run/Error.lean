import MarkupScript.Expression.Eval
import MarkupScript.Script.Basic

/-!
# Why a run stops

A fault that arises while a script runs is pinned to the statement that raised it.
-/

namespace MarkupScript

/-- What went wrong in a statement. -/
inductive RuntimeError where
  | unboundVariable (name : String)
  | evaluation (expression : String) (fault : ExpressionFault)
  /-- A set of annotations is needed and something else was found. -/
  | notASet (expression : String)
  | function (name : String) (cause : FunctionError)
  /-- An annotation is not in the scope. -/
  | detached (id : AnnotationId)
  | missingScript (name : String)
  /-- The functions of the run lack one that the script was compiled with. -/
  | unregisteredFunction (name : String)
  | missingArguments (name : String) (expected given : Nat)

namespace RuntimeError

def message : RuntimeError → String
  | unboundVariable name => s!"unbound variable {name}"
  | evaluation expression fault => s!"cannot evaluate '{expression}': {fault.message}"
  | notASet expression => s!"'{expression}' does not yield an annotation set"
  | function name cause => s!"{name}: {cause.message}"
  | detached id => s!"annotation {id.text} is not part of the current document"
  | missingScript name => s!"no script named '{name}'"
  | unregisteredFunction name => s!"function '{name}' is not registered with this executor"
  | missingArguments name expected given =>
    s!"{name} expects {expected} argument(s), got {given}"

/-- The error of a text that could not be evaluated. -/
def ofEval (text : String) : EvalError → RuntimeError
  | .unboundVariable name => unboundVariable name
  | .invalid fault => evaluation text fault

end RuntimeError

/-- An error with the statement that raised it. -/
structure Failure where
  error : RuntimeError
  pos : Position

def Failure.message (f : Failure) : String :=
  s!"line {f.pos.line}: {f.error.message} in '{f.pos.text}'"

/-- Why a run does not come to its end. -/
inductive Stop where
  /-- A statement has failed. -/
  | failed (failure : Failure)
  /-- Scripts invoke each other more deeply than allowed. No statement has failed then. -/
  | tooDeep

def Stop.message : Stop → String
  | failed failure => failure.message
  | tooDeep => "scripts invoke each other too deeply"

end MarkupScript
