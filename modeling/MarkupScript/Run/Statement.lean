import MarkupScript.Run.Binding

/-!
# Running statements

A statement runs in a scope and for a unit, whose sub-scripts it may invoke. How the
statements of an invoked script run is a parameter here.

* `Setting.statement` runs a statement, `Setting.block` a list of them.
-/

namespace MarkupScript

/-- What does not change in a run: the functions, how conditions are judged, and the
library scripts. -/
structure Setting where
  catalogue : Catalogue
  conditions : ConditionRule := .selection
  units : Keyed String ScriptUnit := []

/-- Runs statements of a unit in a scope. -/
abbrev Invoker := ScriptUnit → List Statement → AnnotationId → Running Unit

/-- Where a statement runs: the unit it belongs to and the scope. -/
structure Frame where
  owner : ScriptUnit
  scope : AnnotationId

namespace Frame

/-- Does something at the site of the frame with the bindings of the time. -/
def withSite {α : Type} (frame : Frame) (action : Site → Action α) : Action α := fun s =>
  action { scope := frame.scope, bindings := s.bindings } s

/-- The annotations of an argument that has to be a set. -/
def annotations (frame : Frame) (a : Argument) : Action (List AnnotationId) :=
  frame.withSite (·.annotations a)

/-- Binds a variable to the value of an argument. -/
def assign (frame : Frame) (name : String) (a : Argument) : Action Unit := do
  let value ← frame.withSite (·.argument a)
  Action.record (.assigned name value)
  modify fun s => { s with bindings := s.bindings.set name value }

/-- The scope of one annotation. -/
def narrowed (frame : Frame) (id : AnnotationId) : Action AnnotationId := fun s =>
  match s.document.narrow? frame.scope id with
  | some scope => .ok scope s
  | none => .error (.detached id) s

end Frame

/-- Runs another script with its own variables. -/
def InvokeKind.enter (kind : InvokeKind) (run : Running Unit) : Running Unit := fun s =>
  match kind with
  | .call => Running.withBindings .empty run s
  | .inclusion => Running.withBindings s.bindings.push run s

namespace Setting

/-- The unit and the statements that an invocation runs. -/
def target? (env : Setting) (owner : ScriptUnit) (name : String) (external : Bool) :
    Option (ScriptUnit × List Statement) :=
  if external then (Keyed.get? env.units name).map fun u => (u, u.body)
  else (Keyed.get? owner.subs name).map fun body => (owner, body)

/-- Runs a script in the scope of the frame, or once for each annotation of a set in the
scope of that annotation. -/
def invocation (frame : Frame) (pos : Position) (set : Option Argument)
    (run : AnnotationId → Running Unit) : Running Unit :=
  match set with
  | none => run frame.scope
  | some a => do
    let ids ← (frame.annotations a).pinned pos
    ids.forM fun id => do
      let scope ← (frame.narrowed id).pinned pos
      run scope

def command (env : Setting) (invoke : Invoker) (frame : Frame) (pos : Position) :
    Command → Running Unit
  | .define name value => (frame.assign name value).pinned pos
  | .clear name => modify fun s => { s with bindings := s.bindings.remove name }
  | .clearAll => modify fun s => { s with bindings := s.bindings.clear }
  | .function d args => (frame.withSite (·.call env.catalogue d args)).pinned pos
  | .invoke kind name set external =>
    match env.target? frame.owner name external with
    | none => throw (.failed { error := .missingScript name, pos })
    | some (unit, body) => invocation frame pos set fun scope => kind.enter (invoke unit body scope)

/-- One round of a loop. -/
def round (name : String) (id : AnnotationId) (run : Running Unit) : Running Unit := do
  let value := Value.annotations [id]
  modify fun s => { s with events := s.events.push (.iterated name value) }
  Running.withVariable name value run

/-- Whether a branch is taken; one without a condition always is. -/
def taken (env : Setting) (frame : Frame) (pos : Position) : Option Argument → Running Bool
  | none => pure true
  | some a => (frame.withSite (·.test env.conditions a)).pinned pos

mutual

/-- Runs a statement. The annotations of a loop are fixed before its first round. -/
def statement (env : Setting) (invoke : Invoker) (frame : Frame) : Statement → Running Unit
  | .command pos c => env.command invoke frame pos c
  | .loop pos name set body => do
    let ids ← (frame.annotations set).pinned pos
    ids.forM fun id => round name id (env.block invoke frame body)
  | .choice pos branches => env.choose invoke frame pos branches

/-- Runs statements in order. -/
def block (env : Setting) (invoke : Invoker) (frame : Frame) : List Statement → Running Unit
  | [] => pure ()
  | s :: rest => do
    env.statement invoke frame s
    env.block invoke frame rest

/-- Runs the statement of the first branch that is taken. -/
def choose (env : Setting) (invoke : Invoker) (frame : Frame) (pos : Position) :
    List (Option Argument × Statement) → Running Unit
  | [] => pure ()
  | (condition, s) :: rest => do
    if ← env.taken frame pos condition then env.statement invoke frame s
    else env.choose invoke frame pos rest

end

end Setting

end MarkupScript
