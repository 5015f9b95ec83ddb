import MarkupScript.Function.Catalogue
import MarkupScript.Run.Error

/-!
# The state of a run

A run changes the document and the bindings, and leaves a trace: the lines that
functions gave back. It also leaves a list of events, finer than the trace. What was
done before a failure stays.
-/

namespace MarkupScript

/-- Something that happens in a run. -/
inductive Event where
  | assigned (name : String) (value : Value)
  /-- The variable of a loop takes its next value. -/
  | iterated (name : String) (value : Value)
  | evaluated (expression : String) (value : Value)
  /-- A function is about to work on these values. -/
  | invoking (function : Descriptor) (params : List Value)
  /-- A function has done its work. -/
  | invoked (function : Descriptor) (status : Option String)

/-- What a run changes. -/
structure RunState where
  document : Document
  bindings : Bindings
  trace : Array String := #[]
  events : Array Event := #[]

/-- A part of one statement. -/
abbrev Action := EStateM RuntimeError RunState

/-- A part of a run, of whole statements. -/
abbrev Running := EStateM Stop RunState

/-- Notes an event. -/
def Action.record (e : Event) : Action Unit :=
  modify fun s => { s with events := s.events.push e }

/-- Pins an error to the statement at a position. -/
def Action.pinned {α : Type} (action : Action α) (pos : Position) : Running α := fun s =>
  match action s with
  | .ok a s => .ok a s
  | .error e s => .error (.failed { error := e, pos }) s

namespace Running

/-- Runs something with other bindings, and restores those from before. -/
def withBindings (bindings : Bindings) (run : Running Unit) : Running Unit := fun s =>
  match run { s with bindings } with
  | .ok a t => .ok a { t with bindings := s.bindings }
  | .error e t => .error e { t with bindings := s.bindings }

/-- Runs something with a variable bound, and removes the variable. -/
def withVariable (name : String) (value : Value) (run : Running Unit) : Running Unit := fun s =>
  match run { s with bindings := s.bindings.set name value } with
  | .ok a t => .ok a { t with bindings := t.bindings.remove name }
  | .error e t => .error e { t with bindings := t.bindings.remove name }

end Running

end MarkupScript
