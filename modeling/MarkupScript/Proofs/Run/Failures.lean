import MarkupScript.Proofs.Run.Course
import MarkupScript.Proofs.Run.Resolution
import MarkupScript.Proofs.Script.Accounting

/-!
# The statement that a failure names

A failure names a statement by its line and text. It is the one that raised the error: no loop,
choice or invocation around it is named in its place. What the error says fits that statement.

* `RuntimeError.BelongsTo`: the statements that may be named with an error.
* `Setting.Raises.belongsTo`: what a statement raises belongs to it.
* `Setting.Comes.owned`: a run comes only to statements of the program.
* `Program.RaisesAt`, `Program.failure_named`: when a run fails, and what the failure names.
-/

namespace MarkupScript

open Contract
open Document (smallDocument)

/-! ## Errors and the statements that raise them -/

/-- A statement may be named with an error. If the error is about a function, the statement calls
it; if it is about a set, the statement is a loop over it, or an invocation for its members. -/
def RuntimeError.BelongsTo (st : Statement) : RuntimeError → Prop
  | .function name _ | .unregisteredFunction name =>
    ∃ pos d args, st = .command pos (.function d args) ∧ d.name = name
  | .missingArguments name expected given =>
    ∃ pos d args, st = .command pos (.function d args) ∧ d.name = name ∧ d.arity = expected ∧
      args.length = given
  | .notASet text =>
    (∃ pos name a body, st = .loop pos name a body ∧ a.text = text) ∨
      ∃ pos kind name a external,
        st = .command pos (.invoke kind name (some a) external) ∧ a.text = text
  | .detached _ =>
    (∃ pos d args, st = .command pos (.function d args)) ∨
      ∃ pos kind name a external, st = .command pos (.invoke kind name (some a) external)
  | .missingScript name =>
    ∃ pos kind set external, st = .command pos (.invoke kind name set external)
  | .unboundVariable _ | .evaluation _ _ => ∀ pos name, st ≠ .command pos (.clear name) ∧
    st ≠ .command pos .clearAll

/-- Only errors that belong to a statement are raised. -/
def blaming (st : Statement) : Contract RuntimeError RunState where
  step _ _ := True
  error e := e.BelongsTo st
  refl _ := trivial
  trans _ _ := trivial

theorem blaming_evaluates {st : Statement} (h : ∀ pos name, st ≠ .command pos (.clear name) ∧
    st ≠ .command pos .clearAll) : (blaming st).Evaluates where
  note _ _ _ := trivial
  fail {e} he := by
    cases e with
    | unboundVariable name => exact h
    | evaluation text fault => exact h
    | _ => cases he

theorem blaming_annotations {st : Statement} {a : Argument} (frame : Frame)
    (h : ∀ pos name, st ≠ .command pos (.clear name) ∧ st ≠ .command pos .clearAll)
    (hset : (RuntimeError.notASet a.text).BelongsTo st) :
    (blaming st).Holds (frame.annotations a) :=
  frame.holds_withSite fun _ => (blaming_evaluates h).annotations _ hset

theorem blaming_apply {st : Statement} {site : Site} {f : Function} {called : Descriptor}
    {params : List Value} (h : ∀ cause, (RuntimeError.function called.name cause).BelongsTo st) :
    (blaming st).Holds (site.apply f called params) := by
  refine holds_work (fun e => holds_modify fun _ => trivial) (fun _ _ => trivial) fun s => ?_
  unfold Site.process
  cases f.process { scope := site.scope, params, bindings := site.bindings } s.document with
  | ok status d => trivial
  | error e d => exact ⟨trivial, h e⟩

theorem blaming_call {pos : Position} {d : Descriptor} {args : List Argument}
    (catalogue : Catalogue) (site : Site) :
    (blaming (.command pos (.function d args))).Holds (site.call catalogue d args) := by
  have hc : (blaming (.command pos (.function d args))).Evaluates :=
    blaming_evaluates (by simp)
  refine hc.call ?_ ?_ ?_ site.bindings
  · exact fun _ => ⟨pos, d, args, rfl, rfl⟩
  · exact fun _ => ⟨pos, d, args, rfl, rfl, rfl, rfl⟩
  · intro f _
    exact { hc with
      gone := fun id => Or.inl ⟨pos, d, args, rfl⟩
      work := fun params bindings => blaming_apply fun cause => ⟨pos, d, args, rfl, rfl⟩ }

namespace Setting

variable {env : Setting}

/-- What a statement raises by itself belongs to it. -/
theorem Raises.belongsTo {invoke : Invoker} {frame : Frame} {st : Statement} {s : RunState}
    {e : RuntimeError} (h : env.Raises invoke frame st s e) : e.BelongsTo st := by
  cases h with
  | @value pos name a _ _ _ h =>
    have hc : (blaming (.command pos (.define name a))).Evaluates := blaming_evaluates (by simp)
    have hassign : (blaming (.command pos (.define name a))).Holds (frame.assign name a) := by
      refine holds_bind (frame.holds_withSite fun _ => hc.argument _ a) fun value => ?_
      exact holds_bind (holds_modify fun _ => trivial) fun _ => holds_modify fun _ => trivial
    exact (hassign.of_error h).2
  | @function pos d args _ _ _ h =>
    have hcall : (blaming (.command pos (.function d args))).Holds
        (frame.withSite (·.call env.catalogue d args)) :=
      frame.holds_withSite fun _ => blaming_call env.catalogue _
    exact (hcall.of_error h).2
  | @missing pos kind name set external _ _ => exact ⟨pos, kind, set, external, rfl⟩
  | @scopes pos kind name a external _ _ _ _ _ h =>
    have hset : (RuntimeError.notASet a.text).BelongsTo
        (.command pos (.invoke kind name (some a) external)) :=
      Or.inr ⟨pos, kind, name, a, external, rfl, rfl⟩
    exact ((blaming_annotations frame (by simp) hset).of_error h).2
  | @scope pos kind name a external _ _ _ _ _ _ _ u _ _ _ _ _ h =>
    -- Narrowing the scope fails in one way only.
    have hdetached : ∃ id, e = .detached id := by
      unfold Frame.narrowed at h
      split at h
      · cases h
      · cases h
        exact ⟨_, rfl⟩
    rcases hdetached with ⟨id, rfl⟩
    exact Or.inr ⟨pos, kind, name, a, external, rfl⟩
  | @set pos name a body _ _ _ h =>
    have hset : (RuntimeError.notASet a.text).BelongsTo (.loop pos name a body) :=
      Or.inl ⟨pos, name, a, body, rfl, rfl⟩
    exact ((blaming_annotations frame (by simp) hset).of_error h).2
  | @condition pos a st branches others _ _ _ _ _ h =>
    have hc : (blaming (.choice pos branches)).Evaluates := blaming_evaluates (by simp)
    have htest : (blaming (.choice pos branches)).Holds
        (frame.withSite (·.test env.conditions a)) :=
      frame.holds_withSite fun _ => hc.test _ env.conditions a
    exact (htest.of_error h).2

/-! ## Statements of the program -/

/-- What an invocation runs is a body of a unit of the program. -/
theorem target?_owned {p : Program} (henv : env.units = p.units) {owner unit : ScriptUnit}
    (howner : p.Owns owner) {name : String} {external : Bool} {body : List Statement}
    (h : env.target? owner name external = some (unit, body)) :
    p.Owns unit ∧ body ∈ unit.bodies := by
  refine ⟨(Policy.owns_of_target? henv howner h).1, ?_⟩
  unfold target? at h
  cases external with
  | true =>
    rcases Option.map_eq_some_iff.mp h with ⟨u, -, heq⟩
    cases heq
    exact List.mem_cons_self
  | false =>
    rcases Option.map_eq_some_iff.mp h with ⟨b, hget, heq⟩
    cases heq
    exact List.mem_cons_of_mem _ (List.mem_map.mpr ⟨_, Keyed.mem_of_get? hget, rfl⟩)

theorem Enters.owned {p : Program} (henv : env.units = p.units) {invoke : Invoker} {frame : Frame}
    {unit : ScriptUnit} {body : List Statement} {st : Statement} {s t : RunState}
    {scope : AnnotationId} (howner : p.Owns frame.owner)
    (h : env.Enters invoke frame unit body st s scope t) : p.Owns unit ∧ body ∈ unit.bodies := by
  cases h with
  | once htarget => exact target?_owned henv howner htarget
  | narrowed htarget _ _ _ => exact target?_owned henv howner htarget

/-- A run comes only to statements of the program. -/
theorem Comes.owned {p : Program} (henv : env.units = p.units) {point : Point} {depth : Nat}
    {owner : ScriptUnit} {body : List Statement} {scope : AnnotationId} {s : RunState}
    (howner : p.Owns owner) (hbody : body ∈ owner.bodies)
    (h : env.Comes point depth owner body scope s) :
    p.Owns point.frame.owner ∧ point.statement ∈ point.frame.owner.statements := by
  induction h with
  | own hleads => exact ⟨howner, List.mem_flatMap.mpr ⟨_, hbody, hleads.mem_partsAll⟩⟩
  | invoked _ henters _ ih =>
    rcases henters.owned henv howner with ⟨hunit, hinner⟩
    exact ih hunit hinner

end Setting

namespace Program

/-- A unit of a compiled program is that of the text, or that of a script which the text needs. -/
theorem reaches_of_owns {catalogue : Catalogue} {find? : String → Option String} {depth : Nat}
    {source : String} {p : Program} (h : compileWith catalogue find? depth source = .ok p)
    {u : ScriptUnit} (hu : p.Owns u) :
    ScriptUnit.compile catalogue source = .ok u ∨
      ∃ name, Reaches catalogue find? p.main name ∧ unitOf? catalogue find? name = some u := by
  have hmain := (compileWith_eq_ok h).1
  have hlinked := compileWith_linked h
  rcases hu with rfl | ⟨name, hget⟩
  · exact Or.inl hmain
  · refine Or.inr ⟨name, ?_, (hlinked.closed name u hget).1⟩
    rcases hlinked.reached name (Keyed.has_iff.mpr ⟨u, hget⟩) with hnone | ⟨i, hi, hpath⟩
    · cases hnone
    · exact ⟨i.name, (ScriptUnit.calls_iff hmain).mpr ⟨i, hi, rfl⟩, hpath⟩

/-- A run of a program comes to a statement that raises an error by itself. -/
def RaisesAt (p : Program) (functions : Catalogue) (conditions : ConditionRule) (depth : Nat)
    (scope : AnnotationId) (s : RunState) (point : Setting.Point) (e : RuntimeError) : Prop :=
  (p.setting functions conditions).Comes point depth p.main p.main.body scope s ∧
    point.Raises (p.setting functions conditions) e

/-- A run of a compiled program fails exactly if it comes to a statement that raises an error by
itself, and the failure names that statement. There is only one. It is a statement of the text, of
one of its sub-scripts, or of a script which the text needs, and the error belongs to it. -/
theorem failure_named {catalogue : Catalogue} {find? : String → Option String}
    {compileDepth : Nat} {source : String} {p : Program}
    (h : compileWith catalogue find? compileDepth source = .ok p) (functions : Catalogue)
    (document : Document) (scope : AnnotationId) (bindings : Bindings)
    (conditions : ConditionRule) (depth : Nat) :
    (∀ failure,
      (p.run functions document scope bindings conditions depth).stop = some (.failed failure) ↔
        ∃ point, p.RaisesAt functions conditions depth scope { document, bindings } point
          failure.error ∧ point.statement.pos = failure.pos) ∧
    ∀ point e, p.RaisesAt functions conditions depth scope { document, bindings } point e →
      point.statement ∈ point.frame.owner.statements ∧
      (ScriptUnit.compile catalogue source = .ok point.frame.owner ∨
        ∃ name, Reaches catalogue find? p.main name ∧
          unitOf? catalogue find? name = some point.frame.owner) ∧
      e.BelongsTo point.statement ∧
      ∀ other e', p.RaisesAt functions conditions depth scope { document, bindings } other e' →
        other = point := by
  constructor
  · intro failure
    constructor
    · intro hstop
      rcases run_stop_iff.mp hstop with ⟨t, ht⟩
      rcases Setting.comes_of_invoke ht with ⟨point, hcomes, hraises, hpos⟩
      exact ⟨point, ⟨hcomes, hraises⟩, hpos⟩
    · rintro ⟨point, ⟨hcomes, hraises⟩, hpos⟩
      have hstop := run_stop_iff.mpr (Setting.invoke_of_comes hcomes hraises)
      rwa [hpos] at hstop
  · rintro point e ⟨hcomes, hraises⟩
    rcases hcomes.owned rfl (Or.inl rfl) List.mem_cons_self with ⟨howner, hmem⟩
    refine ⟨hmem, reaches_of_owns h howner, hraises.belongsTo, ?_⟩
    rintro other e' ⟨hother, hotherRaises⟩
    exact hother.unique hotherRaises hcomes hraises

/-- A library script calls a function that the run lacks. Neither of the two invocations on the
way to it is named. -/
theorem failure_named_noting :
    compileWith printing (fun _ => some "print x") 2 "sub s\ncall n\nendSub\ncall s" =
      .ok noting ∧
    (noting.run .empty smallDocument smallDocument.root .empty .selection 3).stop =
      some (.failed
        { error := .unregisteredFunction "print", pos := { line := 1, text := "print x" } }) ∧
    ∃ point : Setting.Point, point.statement.pos = { line := 1, text := "print x" } ∧
      point.statement ∈ point.frame.owner.statements ∧
      ∃ pos d args, point.statement = .command pos (.function d args) ∧ d.name = "print" := by
  have hcompile := compileWith_ok compile_noting (link_noting (fun _ => some "print x") rfl)
  have hstop : (noting.run .empty smallDocument smallDocument.root .empty .selection 3).stop =
      some (.failed
        { error := .unregisteredFunction "print", pos := { line := 1, text := "print x" } }) := rfl
  have hnamed := failure_named hcompile .empty smallDocument smallDocument.root .empty .selection 3
  rcases (hnamed.1 _).mp hstop with ⟨point, hraises, hpos⟩
  rcases hnamed.2 point _ hraises with ⟨hmem, -, hbelongs, -⟩
  exact ⟨hcompile, hstop, point, hpos, hmem, hbelongs⟩

end Program

end MarkupScript
