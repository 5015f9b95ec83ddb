import MarkupScript.Script.Basic

/-!
# Why a script does not compile

Every error names a line. A fault in the shape of a line is a `LineFault`.
-/

namespace MarkupScript

/-- What is wrong with the shape of a line. -/
inductive LineFault where
  | missingVariable
  | notAVariable (text : String)
  | defineShape
  | clearShape
  | clearAllShape
  | loopShape
  | loopOverLiteral
  | conditionShape (keyword : String)
  | notACondition
  | conditionOfElse
  | noCommand (keyword : String)
  | controlAfter (keyword next : String)
  | elseIfAfterElse
  | secondElse
  | invokeShape (kind : InvokeKind)
  | notAScriptName (name : String)
  | notAScope (text : String)
  | missingArguments (usage : String) (expected given : Nat)
  | nestedSub
  | subShape
  | endSubShape
deriving Repr, DecidableEq

def LineFault.message : LineFault → String
  | missingVariable => "missing variable name"
  | notAVariable text => s!"variable names must start with '$', got '{text}'"
  | defineShape => "'def' expects a variable and one value"
  | clearShape => "'clearDef' expects exactly one variable"
  | clearAllShape => "'clearDefs' takes no arguments"
  | loopShape => "'for' expects a variable and an annotation set"
  | loopOverLiteral =>
    "'for' iterates over a '\x7b...\x7d' set, '(...)' expression or variable"
  | conditionShape keyword => s!"'{keyword}' expects exactly one condition"
  | notACondition => "condition must be a '(...)' expression or a variable"
  | conditionOfElse => "'else' takes no condition"
  | noCommand keyword => s!"'{keyword}' must be followed by a command"
  | controlAfter keyword next => s!"'{keyword}' must be followed by a command, not '{next}'"
  | elseIfAfterElse => "'elseIf' cannot follow 'else'"
  | secondElse => "only one 'else' is allowed"
  | invokeShape kind => s!"'{kind.keyword}' expects a script name and an optional scope"
  | notAScriptName name => s!"'{name}' is not a script name"
  | notAScope text => s!"scope must be a '\x7b...\x7d' set or a variable, got '{text}'"
  | missingArguments usage expected given =>
    s!"'{usage}' expects {expected} argument(s), got {given}"
  | nestedSub => "sub-scripts cannot declare further sub-scripts"
  | subShape => "'sub' expects exactly one name"
  | endSubShape => "'endSub' takes no arguments"

/-- Why a script does not compile. -/
inductive CompileError where
  /-- A line cannot be cut into tokens. -/
  | syntactic (pos : Position) (cause : SyntaxError)
  | unknownFunction (pos : Position) (name : String) (arity : Nat)
  | malformed (pos : Position) (fault : LineFault)
  | duplicateSub (line : Nat) (name : String)
  /-- A block is opened and not closed, or closed and not opened. -/
  | unmatched (pos : Position) (keyword : String)
  /-- No library script has the name. -/
  | unresolved (line : Nat) (kind : InvokeKind) (name : String)
  /-- A library script needs itself. -/
  | cyclic (line : Nat) (kind : InvokeKind) (name : String)
  /-- A library script does not compile. -/
  | external (line : Nat) (name : String) (cause : CompileError)
deriving Repr, DecidableEq

namespace CompileError

/-- The line that an error names. -/
def line : CompileError → Nat
  | syntactic pos _ | unknownFunction pos _ _ | malformed pos _ | unmatched pos _ => pos.line
  | duplicateSub line _ | unresolved line _ _ | cyclic line _ _ | external line _ _ => line

def message : CompileError → String
  | syntactic pos cause => s!"line {pos.line}: {cause.message} in '{pos.text}'"
  | unknownFunction pos name arity =>
    s!"line {pos.line}: unknown function '{name}' with {arity} argument(s) in '{pos.text}'"
  | malformed pos fault => s!"line {pos.line}: {fault.message} in '{pos.text}'"
  | duplicateSub line name => s!"line {line}: duplicate sub-script '{name}'"
  | unmatched pos keyword => s!"line {pos.line}: unmatched '{keyword}' in '{pos.text}'"
  | unresolved line kind name =>
    s!"line {line}: cannot resolve {kind.keyword} target '{name}'"
  | cyclic line kind name =>
    s!"line {line}: script '{name}' references itself through {kind.keyword}"
  | external line name cause =>
    s!"line {line}: script '{name}' failed to compile: {cause.message}"

/-- The error of a script that invokes one with an error. A cycle is reported as it
is. -/
def within (e : CompileError) (i : Invocation) : CompileError :=
  match e with
  | cyclic .. => e
  | _ => external i.line i.name e

end CompileError

end MarkupScript
