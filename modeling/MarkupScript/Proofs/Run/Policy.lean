import MarkupScript.Proofs.Run.Contract
import MarkupScript.Proofs.Script.Linking

/-!
# Policies of runs

A policy says how a run in a scope may change the document, and which errors its statements
may raise. Whether a run keeps to a policy is decided by the single commands: by the functions
that are called, and by what is said of an invocation that finds no script.

* `Policy.holds_statement`: a statement keeps to a policy if its commands do.
* `Policy.holds_invoke`: so does a script, at any depth of invocations.
* `Policy.run_keeps`: so does a run.
-/

namespace MarkupScript

open Contract

/-- How a run in a scope may change the document, and which errors may be raised. What may be
done in a narrower scope may be done. -/
structure Policy where
  change : AnnotationId → Document → Document → Prop
  error : RuntimeError → Prop
  refl : ∀ scope d, change scope d d
  trans : ∀ {scope d e f}, change scope d e → change scope e f → change scope d f
  narrow : ∀ {scope inner d e}, d.contains scope inner = true → change inner d e → change scope d e
  reading : ∀ {e : RuntimeError}, e.OfReading → error e

namespace Policy

/-- The contract for a part of one statement. -/
def action (P : Policy) (scope : AnnotationId) : Contract RuntimeError RunState where
  step s t := P.change scope s.document t.document
  error := P.error
  refl _ := P.refl scope _
  trans := P.trans

/-- The contract for whole statements. -/
def running (P : Policy) (scope : AnnotationId) : Contract Stop RunState where
  step s t := P.change scope s.document t.document
  error stop := ∀ failure, stop = .failed failure → P.error failure.error
  refl _ := P.refl scope _
  trans := P.trans

/-- The contract for what a function does. -/
def editing (P : Policy) (scope : AnnotationId) (name : String) :
    Contract FunctionError Document where
  step := P.change scope
  error e := P.error (.function name e)
  refl := P.refl scope
  trans := P.trans

variable {P : Policy} {scope : AnnotationId}

theorem holds_of_reads {α : Type} {x : Action α} (h : Reading.Holds x) :
    (P.action scope).Holds x := by
  refine h.weaken ?_ P.reading
  intro s t hst
  have hst : t.document = s.document := hst
  have hrefl := P.refl scope s.document
  show P.change scope s.document t.document
  rw [hst]
  exact hrefl

/-! ## Calls of functions -/

theorem holds_process {site : Site} {f : Function} {name : String} {params : List Value}
    (h : (P.editing site.scope name).Holds
      (f.process { scope := site.scope, params, bindings := site.bindings })) :
    (P.action site.scope).Holds (site.process f name params) := by
  intro s
  unfold Site.process
  cases hf : f.process { scope := site.scope, params, bindings := site.bindings } s.document with
  | ok status d => exact h.of_ok hf
  | error e d => exact h.of_error hf

theorem holds_apply {site : Site} {f : Function} {called : Descriptor} {params : List Value}
    (h : (P.editing site.scope called.name).Holds
      (f.process { scope := site.scope, params, bindings := site.bindings })) :
    (P.action site.scope).Holds (site.apply f called params) :=
  holds_work (fun e => holds_of_reads (reads_record e)) (fun s _ => P.refl _ s.document)
    (holds_process h)

theorem action_evaluates : (P.action scope).Evaluates where
  note _ _ _ := P.refl scope _
  fail h := P.reading h.ofReading

theorem holds_call {catalogue : Catalogue} {d : Descriptor} {args : List Argument}
    (hmissing : catalogue.implementation d = none → P.error (.unregisteredFunction d.name))
    (hshort : args.length < d.arity → P.error (.missingArguments d.name d.arity args.length))
    (hf : ∀ f, catalogue.implementation d = some f → ∀ params bindings,
      (P.editing scope d.name).Holds (f.process { scope, params, bindings }))
    (bindings : Bindings) :
    (P.action scope).Holds (Site.call { scope, bindings } catalogue d args) := by
  refine action_evaluates.call hmissing hshort (fun f himpl => ?_) bindings
  exact { action_evaluates with
    gone := fun id => P.reading trivial
    work := fun params bindings => holds_apply (hf f himpl params bindings) }

/-! ## Statements -/

theorem holds_pinned {α : Type} {x : Action α} (h : (P.action scope).Holds x) (pos : Position) :
    (P.running scope).Holds (x.pinned pos) := by
  intro s
  unfold Action.pinned
  cases hx : x s with
  | ok a t => exact h.of_ok hx
  | error e t =>
    obtain ⟨hstep, herror⟩ := h.of_error hx
    refine ⟨hstep, ?_⟩
    intro failure hfailure
    cases hfailure
    exact herror

theorem holds_withBindings {bindings : Bindings} {x : Running Unit}
    (h : (P.running scope).Holds x) :
    (P.running scope).Holds (Running.withBindings bindings x) := by
  intro s
  unfold Running.withBindings
  cases hx : x { s with bindings } with
  | ok a t =>
    have hstep := h.of_ok hx
    exact hstep
  | error e t =>
    have hstep := h.of_error hx
    exact hstep

theorem holds_withVariable {name : String} {value : Value} {x : Running Unit}
    (h : (P.running scope).Holds x) :
    (P.running scope).Holds (Running.withVariable name value x) := by
  intro s
  unfold Running.withVariable
  cases hx : x { s with bindings := s.bindings.set name value } with
  | ok a t =>
    have hstep := h.of_ok hx
    exact hstep
  | error e t =>
    have hstep := h.of_error hx
    exact hstep

theorem holds_enter (kind : InvokeKind) {x : Running Unit} (h : (P.running scope).Holds x) :
    (P.running scope).Holds (kind.enter x) := by
  cases kind with
  | call => exact fun s => holds_withBindings h s
  | inclusion => exact fun s => holds_withBindings h s

/-- What a run does in a scope to which it narrows its own, it may do in its own. -/
theorem holds_narrowed {frame : Frame} {pos : Position} {id : AnnotationId}
    {run : AnnotationId → Running Unit} (h : (P.running id).Holds (run id)) :
    (P.running frame.scope).Holds (do
      let scope ← (frame.narrowed id).pinned pos
      run scope) := by
  intro s
  -- The check and the run see the same document, so what was checked still holds there.
  by_cases hin : s.document.contains frame.scope id = true
  · have heq : (do let scope ← (frame.narrowed id).pinned pos; run scope : Running Unit) s =
        run id s := by
      simp [bind, EStateM.bind, Action.pinned, Frame.narrowed, Document.narrow?, hin]
    rw [heq]
    cases hrun : run id s with
    | ok a t => exact P.narrow hin (h.of_ok hrun)
    | error e t =>
      obtain ⟨hstep, herror⟩ := h.of_error hrun
      exact ⟨P.narrow hin hstep, herror⟩
  · have heq : (do let scope ← (frame.narrowed id).pinned pos; run scope : Running Unit) s =
        .error (.failed { error := .detached id, pos }) s := by
      simp [bind, EStateM.bind, Action.pinned, Frame.narrowed, Document.narrow?, hin]
    rw [heq]
    refine ⟨P.refl _ _, ?_⟩
    intro failure hfailure
    cases hfailure
    exact P.reading trivial

theorem holds_invocation {frame : Frame} {pos : Position} {set : Option Argument}
    {run : AnnotationId → Running Unit} (h : ∀ scope, (P.running scope).Holds (run scope)) :
    (P.running frame.scope).Holds (Setting.invocation frame pos set run) := by
  cases set with
  | none => exact h frame.scope
  | some a =>
    refine holds_bind (holds_pinned (holds_of_reads (frame.reads_annotations a)) pos) fun ids => ?_
    exact holds_forM fun id _ => holds_narrowed (h id)

/-- A command is fit for a policy: a function that it calls keeps to it, and if it is an
invocation that finds no script, the policy allows for that. -/
def Admits (P : Policy) (env : Setting) (owner : ScriptUnit) : Command → Prop
  | .function d args => ∀ scope bindings,
    (P.action scope).Holds (Site.call { scope, bindings } env.catalogue d args)
  | .invoke _ name _ external =>
    env.target? owner name external = none → P.error (.missingScript name)
  | .define _ _ | .clear _ | .clearAll => True

variable {env : Setting} {invoke : Invoker} {frame : Frame}

/-- If every error is allowed, all commands are fit for a policy to which the functions keep. -/
theorem admits_of_process (herror : ∀ e, P.error e)
    (hf : ∀ d f, env.catalogue.implementation d = some f → ∀ scope params bindings,
      (P.editing scope d.name).Holds (f.process { scope, params, bindings }))
    (owner : ScriptUnit) (c : Command) : P.Admits env owner c := by
  cases c with
  | define _ _ => trivial
  | clear _ => trivial
  | clearAll => trivial
  | invoke _ _ _ _ => exact fun _ => herror _
  | function d args =>
    intro scope bindings
    exact holds_call (fun _ => herror _) (fun _ => herror _)
      (fun f himpl params bindings => hf d f himpl scope params bindings) bindings

theorem holds_command {pos : Position} {c : Command} (hc : P.Admits env frame.owner c)
    (hinvoke : ∀ {name external unit body},
      env.target? frame.owner name external = some (unit, body) →
        ∀ scope, (P.running scope).Holds (invoke unit body scope)) :
    (P.running frame.scope).Holds (env.command invoke frame pos c) := by
  cases c with
  | define name value => exact holds_pinned (holds_of_reads (frame.reads_assign name value)) pos
  | clear name => exact holds_modify fun s => P.refl _ _
  | clearAll => exact holds_modify fun s => P.refl _ _
  | function d args => exact holds_pinned (frame.holds_withSite fun b => hc frame.scope b) pos
  | invoke kind name set external =>
    rw [Setting.command]
    cases htarget : env.target? frame.owner name external with
    | none =>
      refine holds_throw ?_
      intro failure hfailure
      cases hfailure
      exact hc htarget
    | some target =>
      obtain ⟨unit, body⟩ := target
      exact holds_invocation fun scope => holds_enter kind (hinvoke htarget scope)

theorem holds_taken (pos : Position) (condition : Option Argument) :
    (P.running frame.scope).Holds (env.taken frame pos condition) := by
  cases condition with
  | none => exact holds_pure true
  | some a =>
    have htest : Reading.Holds (frame.withSite (·.test env.conditions a)) :=
      frame.holds_withSite fun _ => reading_evaluates.test _ env.conditions a
    exact holds_pinned (holds_of_reads htest) pos

mutual

/-- A statement keeps to a policy if its commands do. -/
theorem holds_statement (s : Statement)
    (h : ∀ pc ∈ s.commands, (P.running frame.scope).Holds (env.command invoke frame pc.1 pc.2)) :
    (P.running frame.scope).Holds (env.statement invoke frame s) := by
  cases s with
  | command pos c =>
    rw [Setting.statement]
    exact h (pos, c) (by simp [Statement.commands])
  | loop pos name set body =>
    rw [Setting.statement]
    refine holds_bind (holds_pinned (holds_of_reads (frame.reads_annotations set)) pos) fun ids => ?_
    refine holds_forM fun id _ => ?_
    refine holds_bind (holds_modify fun _ => P.refl _ _) fun _ => ?_
    rw [Statement.commands] at h
    exact holds_withVariable (holds_block body h)
  | choice pos branches =>
    rw [Setting.statement]
    rw [Statement.commands] at h
    exact holds_choose pos branches h

theorem holds_block (body : List Statement)
    (h : ∀ pc ∈ Statement.commandsAll body,
      (P.running frame.scope).Holds (env.command invoke frame pc.1 pc.2)) :
    (P.running frame.scope).Holds (env.block invoke frame body) := by
  cases body with
  | nil =>
    rw [Setting.block]
    exact holds_pure _
  | cons s rest =>
    rw [Setting.block]
    rw [Statement.commandsAll] at h
    exact holds_bind (holds_statement s fun pc hpc => h pc (List.mem_append_left _ hpc)) fun _ =>
      holds_block rest fun pc hpc => h pc (List.mem_append_right _ hpc)

theorem holds_choose (pos : Position) (branches : List (Option Argument × Statement))
    (h : ∀ pc ∈ Statement.commandsBranches branches,
      (P.running frame.scope).Holds (env.command invoke frame pc.1 pc.2)) :
    (P.running frame.scope).Holds (env.choose invoke frame pos branches) := by
  match branches with
  | [] =>
    rw [Setting.choose]
    exact holds_pure _
  | (condition, s) :: rest =>
    rw [Setting.choose]
    rw [Statement.commandsBranches] at h
    refine holds_bind (holds_taken pos condition) fun taken => ?_
    cases taken with
    | true => exact holds_statement s fun pc hpc => h pc (List.mem_append_left _ hpc)
    | false => exact holds_choose pos rest fun pc hpc => h pc (List.mem_append_right _ hpc)

end

/-! ## Scripts and runs -/

/-- What an invocation runs belongs to the program. -/
theorem owns_of_target? {p : Program} (henv : env.units = p.units) {owner unit : ScriptUnit}
    (howner : p.Owns owner) {name : String} {external : Bool} {body : List Statement}
    (h : env.target? owner name external = some (unit, body)) :
    p.Owns unit ∧ ∀ pc ∈ Statement.commandsAll body, pc ∈ unit.commands := by
  unfold Setting.target? at h
  cases external with
  | true =>
    rw [if_pos rfl] at h
    obtain ⟨u, hget, heq⟩ := Option.map_eq_some_iff.mp h
    cases heq
    rw [henv] at hget
    exact ⟨Or.inr ⟨name, hget⟩, fun pc => ScriptUnit.mem_commands_of_body⟩
  | false =>
    rw [if_neg (by simp)] at h
    obtain ⟨b, hget, heq⟩ := Option.map_eq_some_iff.mp h
    cases heq
    exact ⟨howner, fun pc hpc => ScriptUnit.mem_commands_of_sub hget hpc⟩

/-- The statements of a program keep to a policy if all commands of the program are fit for
it. -/
theorem holds_invoke {p : Program} (henv : env.units = p.units)
    (hall : ∀ owner, p.Owns owner → ∀ pc ∈ owner.commands, P.Admits env owner pc.2)
    (depth : Nat) {owner : ScriptUnit} (howner : p.Owns owner) {body : List Statement}
    (hbody : ∀ pc ∈ Statement.commandsAll body, pc ∈ owner.commands) (scope : AnnotationId) :
    (P.running scope).Holds (env.invoke depth owner body scope) := by
  induction depth generalizing owner body scope with
  | zero =>
    -- Stopping at the depth is no failure of a statement.
    refine holds_throw ?_
    intro failure hfailure
    cases hfailure
  | succ depth ih =>
    have hcommands : ∀ pc ∈ Statement.commandsAll body, (P.running scope).Holds
        (env.command (env.invoke depth) { owner, scope } pc.1 pc.2) := by
      intro pc hpc
      refine holds_command (hall owner howner pc (hbody pc hpc)) ?_
      intro name external unit body' htarget scope'
      obtain ⟨hunit, hbody'⟩ := owns_of_target? henv howner htarget
      exact ih hunit hbody' scope'
    exact holds_block body hcommands

/-- A run keeps to a policy if all commands of the program are fit for it. -/
theorem run_keeps {p : Program} {catalogue : Catalogue} {conditions : ConditionRule}
    (hall : ∀ owner, p.Owns owner → ∀ pc ∈ owner.commands,
      P.Admits { catalogue, conditions, units := p.units } owner pc.2)
    (document : Document) (scope : AnnotationId) (bindings : Bindings) (depth : Nat) :
    P.change scope document (p.run catalogue document scope bindings conditions depth).document ∧
    ∀ failure, (p.run catalogue document scope bindings conditions depth).stop =
      some (.failed failure) → P.error failure.error := by
  have hrun := holds_invoke rfl hall depth (Or.inl rfl)
    (fun pc => ScriptUnit.mem_commands_of_body) scope
  unfold Program.run
  cases hx : Setting.invoke { catalogue, conditions, units := p.units } depth p.main p.main.body
      scope { document, bindings } with
  | ok a t =>
    simp only [hx]
    refine ⟨hrun.of_ok hx, ?_⟩
    intro failure hstop
    cases hstop
  | error stop t =>
    simp only [hx]
    obtain ⟨hstep, herror⟩ := hrun.of_error hx
    refine ⟨hstep, ?_⟩
    intro failure hstop
    exact herror failure (Option.some.inj hstop)

end Policy

end MarkupScript
