import MarkupScript.Run.Statement
import MarkupScript.Script.Program

/-!
# Running a program

* `Program.run` runs a program on a document, in a scope and with bindings.
-/

namespace MarkupScript

/-- Runs statements of a unit; below them scripts may invoke each other to a depth. -/
def Setting.invoke (env : Setting) : Nat → Invoker
  | 0 => fun _ _ _ => throw .tooDeep
  | depth + 1 => fun owner body scope =>
    env.block (env.invoke depth) { owner, scope } body

/-- What is left of a run. -/
structure Outcome where
  /-- Why it did not come to its end, if it did not. -/
  stop : Option Stop
  document : Document
  bindings : Bindings
  /-- The lines that functions gave back. -/
  trace : List String
  events : List Event

/-- What is left of a run after its last step. -/
def Outcome.ofResult : EStateM.Result Stop RunState Unit → Outcome
  | .ok _ s => ofState none s
  | .error stop s => ofState (some stop) s
where
  ofState (stop : Option Stop) (s : RunState) : Outcome :=
    { stop, document := s.document, bindings := s.bindings,
      trace := s.trace.toList, events := s.events.toList }

namespace Program

/-- The depth to which scripts may invoke each other unless said otherwise. It is there so
that every run ends, also where scripts invoke each other without end; such a run stops
with `Stop.tooDeep`. -/
def maxDepth : Nat := 1000000000

/-- Runs a program. -/
def run (p : Program) (catalogue : Catalogue) (document : Document) (scope : AnnotationId)
    (bindings : Bindings) (conditions : ConditionRule := .selection)
    (depth : Nat := maxDepth) : Outcome :=
  let env : Setting := { catalogue, conditions, units := p.units }
  .ofResult (env.invoke depth p.main p.main.body scope { document, bindings })

end Program

end MarkupScript
