import MarkupScript.Run.Site
import MarkupScript.Text.Natural

/-!
# Binding arguments to parameters

The parameters of a function are bound from left to right. A set parameter takes a
set as a whole. A scalar parameter takes the members of a set one after the other, as
their texts, and the function works once for each; several such parameters give all
combinations, the leftmost changing slowest.

What was bound at position `k`, counted from one, is the variable `$k` in the
arguments after it. A variable that is bound before the call is read before.

* `Site.call` binds arguments and lets the function work on each combination.
-/

namespace MarkupScript

/-- An argument before its position is bound. -/
inductive Slot where
  /-- A variable that was bound before the call, with its value then. -/
  | read (value : Value)
  /-- Evaluated when its position is bound. -/
  | deferred (a : Argument)

/-- The variable of a position. -/
def positionVariable (position : Nat) : String := s!"${position}"

/-- Whether a name is the variable of one of the first positions. -/
def isPositionVariable (name : String) (arity : Nat) : Bool :=
  match name.toList with
  | '$' :: digits =>
    match Text.position? digits with
    | some k => 1 ≤ k && k ≤ arity
    | none => false
  | _ => false

namespace Site

/-- Reads an argument that is a variable. The variable of a position may still be
unbound. -/
def slot (site : Site) (arity : Nat) : Argument → Action Slot
  | .variableRef name =>
    match site.bindings.get? name with
    | some value => pure (.read value)
    | none =>
      if isPositionVariable name arity then pure (.deferred (.variableRef name))
      else throw (.unboundVariable name)
  | a => pure (.deferred a)

/-- A value as a set. The text of any other value is taken as an expression. -/
def toAnnotations (site : Site) : Value → Action (List AnnotationId)
  | .annotations ids => pure ids
  | value => site.path value.text

/-- The set for a set parameter. -/
def setFor (site : Site) : Slot → Action (List AnnotationId)
  | .read value => site.toAnnotations value
  | .deferred (.variableRef name) => do
    let value ← site.lookup name
    site.toAnnotations value
  | .deferred a => site.path a.inner

/-- The value for a scalar parameter, or the set whose members it takes. -/
def valueFor (site : Site) : Slot → Action Value
  | .read value => pure value
  | .deferred a => site.argument a

/-- The text of a member of a set. -/
def member (site : Site) (id : AnnotationId) : Action Value := do
  match (← get).document.valueOf site.scope id with
  | some text => return .string text
  | none => throw (.detached id)

/-- The site with one more position bound. -/
def bound (site : Site) (position : Nat) (value : Value) : Site :=
  { site with bindings := site.bindings.push.set (positionVariable position) value }

/-- Lets a function change the document. -/
def process (site : Site) (f : Function) (name : String) (params : List Value) :
    Action (Option String) := fun s =>
  match f.process { scope := site.scope, params, bindings := site.bindings } s.document with
  | .ok status d => .ok status { s with document := d }
  | .error e d => .error (.function name e) { s with document := d }

/-- Lets the function that a descriptor stands for work on values, and adds its line
to the trace. -/
def apply (site : Site) (f : Function) (d : Descriptor) (params : List Value) : Action Unit := do
  Action.record (.invoking d params)
  let status ← site.process f d.name params
  Action.record (.invoked d status)
  match status with
  | some line => modify fun s => { s with trace := s.trace.push line }
  | none => pure ()

/-- Binds the positions after those of `params`, and lets the function work on each
combination. -/
def bindFrom (f : Function) (d : Descriptor) :
    List (Slot × ParameterType) → Site → List Value → Action Unit
  | [], site, params => site.apply f d params
  | (slot, .annotationSet) :: rest, site, params => do
    let ids ← site.setFor slot
    bindFrom f d rest (site.bound (params.length + 1) (.annotations ids))
      (params ++ [.annotations ids])
  | (slot, .scalar) :: rest, site, params => do
    match ← site.valueFor slot with
    | .annotations ids =>
      ids.forM fun id => do
        let value ← site.member id
        bindFrom f d rest (site.bound (params.length + 1) value) (params ++ [value])
    | value => bindFrom f d rest (site.bound (params.length + 1) value) (params ++ [value])

/-- Calls a function. -/
def call (site : Site) (c : Catalogue) (d : Descriptor) (args : List Argument) : Action Unit :=
  match c.implementation d with
  | none => throw (.unregisteredFunction d.name)
  | some f =>
    if args.length < d.arity then throw (.missingArguments d.name d.arity args.length)
    else do
      let slots ← (args.take d.arity).mapM (site.slot d.arity)
      bindFrom f d (slots.zip (d.params.map (·.type))) site []

end Site

end MarkupScript
