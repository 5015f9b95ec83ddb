import MarkupScript.Function.Basic
import MarkupScript.Line.Argument

/-!
# Scripts

A script is a list of statements with named sub-scripts. A statement is a command
of one line, a loop over annotations, or a choice between branches. A script may
invoke its sub-scripts and scripts of a library; a program is a script with all the
library scripts that it needs.

* `Statement.count` counts commands, `Unit.invocations` lists what a script invokes.
-/

namespace MarkupScript

/-- How another script is invoked. -/
inductive InvokeKind where
  /-- With variables of its own. -/
  | call
  /-- With variables of its own inside those of the caller. -/
  | inclusion
deriving Repr, DecidableEq

/-- The keyword of an invocation. -/
def InvokeKind.keyword : InvokeKind → String
  | call => "call"
  | inclusion => "include"

/-- Where a statement stands: the number of its first line and the text of it. -/
structure Position where
  line : Nat
  text : String
deriving Repr, DecidableEq

/-- A command of one line. -/
inductive Command where
  /-- Binds a variable. -/
  | define (name : String) (value : Argument)
  /-- Removes a variable. -/
  | clear (name : String)
  /-- Removes all variables. -/
  | clearAll
  /-- Calls a function. Arguments beyond its parameters have no effect. -/
  | function (descriptor : Descriptor) (args : List Argument)
  /-- Invokes a script, once or for each annotation of a scope. It is a sub-script of
  the same unit or, if external, a script of the library. -/
  | invoke (kind : InvokeKind) (name : String) (scope : Option Argument) (external : Bool)
deriving Repr, DecidableEq

/-- A statement of a script. -/
inductive Statement where
  | command (pos : Position) (c : Command)
  /-- Runs the body once for each annotation of a set, with a variable bound to it. -/
  | loop (pos : Position) (name : String) (set : Argument) (body : List Statement)
  /-- Runs the statement of the first branch whose condition holds or that has none. -/
  | choice (pos : Position) (branches : List (Option Argument × Statement))

namespace Statement

def pos : Statement → Position
  | command pos _ | loop pos _ _ _ | choice pos _ => pos

mutual

/-- The number of commands in a statement: itself and those inside. -/
def count : Statement → Nat
  | command _ _ => 1
  | loop _ _ _ body => 1 + countAll body
  | choice _ branches => 1 + countBranches branches

def countAll : List Statement → Nat
  | [] => 0
  | s :: rest => count s + countAll rest

def countBranches : List (Option Argument × Statement) → Nat
  | [] => 0
  | (_, s) :: rest => count s + countBranches rest

end

end Statement

/-- A place where a script invokes another. -/
structure Invocation where
  line : Nat
  kind : InvokeKind
  name : String
  external : Bool
deriving Repr, DecidableEq

namespace Statement

mutual

/-- The invocations in a statement, in the order of their lines. -/
def invocations : Statement → List Invocation
  | command pos (.invoke kind name _ external) => [⟨pos.line, kind, name, external⟩]
  | command _ _ => []
  | loop _ _ _ body => invocationsAll body
  | choice _ branches => invocationsBranches branches

def invocationsAll : List Statement → List Invocation
  | [] => []
  | s :: rest => invocations s ++ invocationsAll rest

def invocationsBranches : List (Option Argument × Statement) → List Invocation
  | [] => []
  | (_, s) :: rest => invocations s ++ invocationsBranches rest

end

end Statement

/-- One script text: its statements and its sub-scripts in order. -/
structure ScriptUnit where
  body : List Statement
  subs : Keyed String (List Statement) := []

namespace ScriptUnit

/-- All invocations: those of the sub-scripts, then those of the body. -/
def invocations (u : ScriptUnit) : List Invocation :=
  u.subs.flatMap (fun sub => Statement.invocationsAll sub.2) ++ Statement.invocationsAll u.body

/-- The invocations of library scripts. -/
def externals (u : ScriptUnit) : List Invocation :=
  u.invocations.filter (·.external)

/-- The number of commands in the body. -/
def count (u : ScriptUnit) : Nat := Statement.countAll u.body

end ScriptUnit

/-- A script with the library scripts that it needs, directly or not, by name. -/
structure Program where
  main : ScriptUnit
  units : Keyed String ScriptUnit := []

end MarkupScript
