import MarkupScript.Proofs.Run.Congruence
import MarkupScript.Proofs.Run.Detached

/-!
# The course of a run

A run works through statements. It goes from one to the next, into the rounds of a loop, into the
branch of a choice that is taken, and into the scripts that are invoked. A statement may raise an
error by itself: with its argument, its set, its condition, or the function that it calls. All
other failures come from a statement further inside.

* `Setting.Leads`: a run of statements comes to one of the same script, inside some loops.
* `Setting.Raises`: a statement raises an error by itself.
* `Setting.Enters`: an invocation comes to run a script.
* `Setting.block_error_iff`: a run of statements stops exactly if it comes to one that raises an
  error, or that invokes a script whose run stops.
* `Setting.block_of_leads`: the variables of the loops around it are gone then.
* `Setting.Comes`: a run comes to a statement of any script.
* `Setting.invoke_of_comes`, `Setting.comes_of_invoke`: a run fails exactly if it comes to a
  statement that raises an error, and the error is pinned to that statement.
-/

namespace MarkupScript

/-! ## Loops of the implementation -/

/-- A loop that fails has failed in one of its rounds, after others that succeeded. -/
theorem forM_eq_error {ε σ α : Type} {body : α → EStateM ε σ PUnit} {items : List α} {s t : σ}
    {e : ε} (h : items.forM body s = .error e t) :
    ∃ before a after u, items = before ++ a :: after ∧ before.forM body s = .ok ⟨⟩ u ∧
      body a u = .error e t := by
  induction items generalizing s with
  | nil => cases h
  | cons a rest ih =>
    rw [List.forM] at h
    cases ha : body a s with
    | error e' u =>
      rw [bind_of_error ha] at h
      cases h
      exact ⟨[], a, rest, s, rfl, rfl, ha⟩
    | ok x u =>
      rw [bind_of_ok ha] at h
      rcases ih h with ⟨before, b, after, v, hitems, hbefore, hb⟩
      refine ⟨a :: before, b, after, v, by rw [hitems, List.cons_append], ?_, hb⟩
      rw [List.forM, bind_of_ok ha]
      exact hbefore

theorem forM_cons_eq_ok {ε σ α : Type} {body : α → EStateM ε σ PUnit} {a : α} {rest : List α}
    {s t : σ} (h : (a :: rest).forM body s = .ok ⟨⟩ t) :
    ∃ u, body a s = .ok ⟨⟩ u ∧ rest.forM body u = .ok ⟨⟩ t := by
  rw [List.forM] at h
  cases ha : body a s with
  | error e u =>
    rw [bind_of_error ha] at h
    cases h
  | ok x u =>
    rw [bind_of_ok ha] at h
    exact ⟨u, rfl, h⟩

/-- The round in which a loop fails is told by the loop. -/
theorem forM_split_unique {ε σ α : Type} {body : α → EStateM ε σ PUnit}
    {before before' after after' : List α} {a a' : α} {s u u' : σ}
    (hitems : before ++ a :: after = before' ++ a' :: after')
    (hbefore : before.forM body s = .ok ⟨⟩ u) (ha : ∀ t, body a u ≠ .ok ⟨⟩ t)
    (hbefore' : before'.forM body s = .ok ⟨⟩ u') (ha' : ∀ t, body a' u' ≠ .ok ⟨⟩ t) :
    before = before' ∧ a = a' ∧ u = u' := by
  -- The rounds before it succeed, so none of the two lists goes beyond the other.
  induction before generalizing before' s with
  | nil =>
    cases hbefore
    cases before' with
    | nil =>
      cases hbefore'
      exact ⟨rfl, (List.cons.inj hitems).1, rfl⟩
    | cons b rest =>
      rcases forM_cons_eq_ok hbefore' with ⟨v, hb, -⟩
      rw [(List.cons.inj hitems).1] at ha
      exact absurd hb (ha v)
  | cons b rest ih =>
    rcases forM_cons_eq_ok hbefore with ⟨v, hb, hrest⟩
    cases before' with
    | nil =>
      cases hbefore'
      rw [← (List.cons.inj hitems).1] at ha'
      exact absurd hb (ha' v)
    | cons b' rest' =>
      rcases List.cons.inj hitems with ⟨rfl, htail⟩
      rcases forM_cons_eq_ok hbefore' with ⟨v', hb', hrest'⟩
      cases hb.symm.trans hb'
      rcases ih htail hrest hrest' with ⟨rfl, ha, hu⟩
      exact ⟨rfl, ha, hu⟩

/-- The state in which a round of a loop starts. -/
def RunState.inRound (s : RunState) (name : String) (id : AnnotationId) : RunState :=
  { s with
    events := s.events.push (.iterated name (.annotations [id]))
    bindings := s.bindings.set name (.annotations [id]) }

/-- The state in which an invoked script starts. -/
def InvokeKind.entered (kind : InvokeKind) (s : RunState) : RunState :=
  match kind with
  | .call => { s with bindings := .empty }
  | .inclusion => { s with bindings := s.bindings.push }

theorem Action.pinned_of_ok {α : Type} {x : Action α} {s t : RunState} {a : α}
    (h : x s = .ok a t) (pos : Position) : x.pinned pos s = .ok a t := by
  rw [pinned, h]

theorem Action.pinned_of_error {α : Type} {x : Action α} {s t : RunState} {e : RuntimeError}
    (h : x s = .error e t) (pos : Position) :
    x.pinned pos s = .error (.failed { error := e, pos }) t := by
  rw [pinned, h]

theorem Action.pinned_eq_error {α : Type} {x : Action α} {pos : Position} {s t : RunState}
    {stop : Stop} (h : x.pinned pos s = .error stop t) :
    ∃ e, x s = .error e t ∧ stop = .failed { error := e, pos } := by
  cases hx : x s with
  | ok a u =>
    rw [pinned_of_ok hx] at h
    cases h
  | error e u =>
    rw [pinned_of_error hx] at h
    cases h
    exact ⟨e, rfl, rfl⟩

theorem InvokeKind.enter_of_error (kind : InvokeKind) {run : Running Unit} {s t : RunState}
    {stop : Stop} (h : run (kind.entered s) = .error stop t) :
    kind.enter run s = .error stop { t with bindings := s.bindings } := by
  cases kind with
  | call =>
    have hrun : run { s with bindings := .empty } = .error stop t := h
    simp only [enter, Running.withBindings, hrun]
  | inclusion =>
    have hrun : run { s with bindings := s.bindings.push } = .error stop t := h
    simp only [enter, Running.withBindings, hrun]

theorem InvokeKind.enter_eq_error {kind : InvokeKind} {run : Running Unit} {s t : RunState}
    {stop : Stop} (h : kind.enter run s = .error stop t) :
    ∃ u, run (kind.entered s) = .error stop u := by
  cases hrun : run (kind.entered s) with
  | error stop' u =>
    rw [kind.enter_of_error hrun] at h
    cases h
    exact ⟨u, rfl⟩
  | ok a u =>
    cases kind with
    | call =>
      have hok : run { s with bindings := .empty } = .ok a u := hrun
      simp only [enter, Running.withBindings, hok] at h
      cases h
    | inclusion =>
      have hok : run { s with bindings := s.bindings.push } = .ok a u := hrun
      simp only [enter, Running.withBindings, hok] at h
      cases h

namespace Setting

theorem round_of_error {name : String} {id : AnnotationId} {run : Running Unit} {s t : RunState}
    {stop : Stop} (h : run (s.inRound name id) = .error stop t) :
    round name id run s = .error stop { t with bindings := t.bindings.remove name } := by
  show Running.withVariable name (.annotations [id]) run
    { s with events := s.events.push (.iterated name (.annotations [id])) } = _
  have hrun : run { s with
      events := s.events.push (.iterated name (.annotations [id]))
      bindings := s.bindings.set name (.annotations [id]) } = .error stop t := h
  simp only [Running.withVariable, hrun]

theorem round_eq_error {name : String} {id : AnnotationId} {run : Running Unit} {s t : RunState}
    {stop : Stop} (h : round name id run s = .error stop t) :
    ∃ u, run (s.inRound name id) = .error stop u := by
  cases hrun : run (s.inRound name id) with
  | error stop' u =>
    rw [round_of_error hrun] at h
    cases h
    exact ⟨u, rfl⟩
  | ok a u =>
    have hok : round name id run s = .ok a { u with bindings := u.bindings.remove name } := by
      show Running.withVariable name (.annotations [id]) run
        { s with events := s.events.push (.iterated name (.annotations [id])) } = _
      have hrun' : run { s with
          events := s.events.push (.iterated name (.annotations [id]))
          bindings := s.bindings.set name (.annotations [id]) } = .ok a u := hrun
      simp only [Running.withVariable, hrun']
    rw [hok] at h
    cases h

/-! ## Statements of one script -/

section Relations

variable (env : Setting) (invoke : Invoker) (frame : Frame)

/-- The conditions of the first branches of a choice do not hold, and others are left. -/
inductive Skips (pos : Position) (left : List (Option Argument × Statement)) (t : RunState) :
    List (Option Argument × Statement) → RunState → Prop
  | none : Skips pos left t left t
  | one {condition : Option Argument} {st : Statement}
      {rest : List (Option Argument × Statement)} {s u : RunState}
      (htaken : env.taken frame pos condition s = .ok false u)
      (hrest : Skips pos left t rest u) : Skips pos left t ((condition, st) :: rest) s

/-- A run of statements comes to a statement of the same script, in some state. The variables of
the loops in whose rounds it is then are listed, the outermost first. -/
inductive Leads (part : Statement) (t : RunState) :
    List String → List Statement → RunState → Prop
  /-- It is the first. -/
  | here {rest : List Statement} : Leads part t [] (part :: rest) t
  /-- The first comes to its end, and the others lead there. -/
  | next {loops : List String} {st : Statement} {rest : List Statement} {s u : RunState}
      (hst : env.statement invoke frame st s = .ok () u) (hrest : Leads part t loops rest u) :
      Leads part t loops (st :: rest) s
  /-- The first is a loop. After rounds that come to their end, another leads there. -/
  | round {loops : List String} {pos : Position} {name : String} {set : Argument}
      {body rest : List Statement} {before after : List AnnotationId} {id : AnnotationId}
      {s u v : RunState} (hset : frame.annotations set s = .ok (before ++ id :: after) u)
      (hbefore : (before.forM fun id => Setting.round name id (env.block invoke frame body)) u =
        .ok () v)
      (hbody : Leads part t loops body (v.inRound name id)) :
      Leads part t (name :: loops) (.loop pos name set body :: rest) s
  /-- The first is a choice. The branch that is taken leads there. -/
  | branch {loops : List String} {pos : Position} {condition : Option Argument} {st : Statement}
      {branches others : List (Option Argument × Statement)} {rest : List Statement}
      {s u v : RunState} (hskip : env.Skips frame pos ((condition, st) :: others) u branches s)
      (htaken : env.taken frame pos condition u = .ok true v)
      (hst : Leads part t loops [st] v) : Leads part t loops (.choice pos branches :: rest) s

/-- A statement raises an error by itself, and not because of one that it contains or invokes. -/
inductive Raises : Statement → RunState → RuntimeError → Prop
  | value {pos : Position} {name : String} {a : Argument} {s t : RunState} {e : RuntimeError}
      (h : frame.assign name a s = .error e t) : Raises (.command pos (.define name a)) s e
  | function {pos : Position} {d : Descriptor} {args : List Argument} {s t : RunState}
      {e : RuntimeError} (h : frame.withSite (·.call env.catalogue d args) s = .error e t) :
      Raises (.command pos (.function d args)) s e
  /-- The script to invoke is not there. -/
  | missing {pos : Position} {kind : InvokeKind} {name : String} {set : Option Argument}
      {external : Bool} {s : RunState} (h : env.target? frame.owner name external = none) :
      Raises (.command pos (.invoke kind name set external)) s (.missingScript name)
  /-- The scopes to invoke a script in are not there. -/
  | scopes {pos : Position} {kind : InvokeKind} {name : String} {a : Argument} {external : Bool}
      {target : ScriptUnit × List Statement} {s t : RunState} {e : RuntimeError}
      (htarget : env.target? frame.owner name external = some target)
      (h : frame.annotations a s = .error e t) :
      Raises (.command pos (.invoke kind name (some a) external)) s e
  /-- One of the scopes is gone, after the script has run in those before it. -/
  | scope {pos : Position} {kind : InvokeKind} {name : String} {a : Argument} {external : Bool}
      {unit : ScriptUnit} {body : List Statement} {before after : List AnnotationId}
      {id : AnnotationId} {s t u v : RunState} {e : RuntimeError}
      (htarget : env.target? frame.owner name external = some (unit, body))
      (hset : frame.annotations a s = .ok (before ++ id :: after) t)
      (hbefore : frame.rounds pos (fun scope => kind.enter (invoke unit body scope)) before t =
        .ok () u)
      (h : frame.narrowed id u = .error e v) :
      Raises (.command pos (.invoke kind name (some a) external)) s e
  | set {pos : Position} {name : String} {a : Argument} {body : List Statement} {s t : RunState}
      {e : RuntimeError} (h : frame.annotations a s = .error e t) :
      Raises (.loop pos name a body) s e
  | condition {pos : Position} {a : Argument} {st : Statement}
      {branches others : List (Option Argument × Statement)} {s t u : RunState}
      {e : RuntimeError} (hskip : env.Skips frame pos ((some a, st) :: others) t branches s)
      (h : frame.withSite (·.test env.conditions a) t = .error e u) :
      Raises (.choice pos branches) s e

/-- An invocation comes to run statements of a unit in a scope, from some state. -/
inductive Enters (unit : ScriptUnit) (body : List Statement) :
    Statement → RunState → AnnotationId → RunState → Prop
  | once {pos : Position} {kind : InvokeKind} {name : String} {external : Bool} {s : RunState}
      (htarget : env.target? frame.owner name external = some (unit, body)) :
      Enters unit body (.command pos (.invoke kind name none external)) s frame.scope
        (kind.entered s)
  | narrowed {pos : Position} {kind : InvokeKind} {name : String} {a : Argument} {external : Bool}
      {before after : List AnnotationId} {id scope : AnnotationId} {s t u v : RunState}
      (htarget : env.target? frame.owner name external = some (unit, body))
      (hset : frame.annotations a s = .ok (before ++ id :: after) t)
      (hbefore : frame.rounds pos (fun scope => kind.enter (invoke unit body scope)) before t =
        .ok () u)
      (hscope : frame.narrowed id u = .ok scope v) :
      Enters unit body (.command pos (.invoke kind name (some a) external)) s scope
        (kind.entered v)

/-- A statement does not come to its end, and none that it contains is the cause: it raises an
error by itself, or invokes a script whose run stops. -/
inductive Breaks : Statement → RunState → Stop → Prop
  | raised {st : Statement} {s : RunState} {e : RuntimeError}
      (h : env.Raises invoke frame st s e) : Breaks st s (.failed { error := e, pos := st.pos })
  | invoked {unit : ScriptUnit} {body : List Statement} {st : Statement} {s t u : RunState}
      {scope : AnnotationId} {stop : Stop}
      (henters : env.Enters invoke frame unit body st s scope t)
      (h : invoke unit body scope t = .error stop u) : Breaks st s stop

end Relations

variable {env : Setting} {invoke : Invoker} {frame : Frame} {part st : Statement}
  {loops : List String} {body rest : List Statement} {s t u : RunState} {stop : Stop}
  {pos : Position}

/-! ### What breaks fails -/

/-- One more branch is passed over. -/
theorem Skips.snoc {condition : Option Argument}
    {left branches : List (Option Argument × Statement)}
    (h : env.Skips frame pos ((condition, st) :: left) t branches s)
    (htaken : env.taken frame pos condition t = .ok false u) :
    env.Skips frame pos left u branches s := by
  generalize hfirst : (condition, st) :: left = first at h
  induction h with
  | none =>
    subst hfirst
    exact .one htaken .none
  | one hother _ ih => exact .one hother ih

theorem choose_of_skips {left branches : List (Option Argument × Statement)}
    (h : env.Skips frame pos left t branches s) :
    env.choose invoke frame pos branches s = env.choose invoke frame pos left t := by
  induction h with
  | none => rfl
  | one htaken _ ih =>
    rw [choose, bind_of_ok htaken]
    exact ih

theorem choose_of_taken {condition : Option Argument}
    {others : List (Option Argument × Statement)}
    (h : env.taken frame pos condition s = .ok true t) :
    env.choose invoke frame pos ((condition, st) :: others) s =
      env.statement invoke frame st t := by
  rw [choose, bind_of_ok h]
  rfl

theorem block_singleton : env.block invoke frame [st] s = .error stop t ↔
    env.statement invoke frame st s = .error stop t := by
  rw [block, block]
  constructor
  · intro h
    cases hst : env.statement invoke frame st s with
    | error stop' u =>
      rw [bind_of_error hst] at h
      exact h
    | ok a u =>
      rw [bind_of_ok hst] at h
      cases h
  · exact bind_of_error

/-- A statement that raises an error by itself fails with it, and the error is pinned to it. -/
theorem statement_of_raises {e : RuntimeError} (h : env.Raises invoke frame st s e) :
    ∃ t, env.statement invoke frame st s = .error (.failed { error := e, pos := st.pos }) t := by
  cases h with
  | value h =>
    rw [statement]
    exact ⟨_, Action.pinned_of_error h _⟩
  | function h =>
    rw [statement]
    exact ⟨_, Action.pinned_of_error h _⟩
  | missing h =>
    rw [statement, command, h]
    exact ⟨_, rfl⟩
  | scopes htarget h =>
    rw [statement, command, htarget]
    exact ⟨_, bind_of_error (Action.pinned_of_error h _)⟩
  | scope htarget hset hbefore h =>
    rw [statement, command, htarget]
    exact ⟨_, (invocation_members hset).trans
      (forM_error hbefore (bind_of_error (Action.pinned_of_error h _)))⟩
  | set h =>
    rw [statement]
    exact ⟨_, bind_of_error (Action.pinned_of_error h _)⟩
  | condition hskip h =>
    rw [statement, choose_of_skips hskip, choose]
    exact ⟨_, bind_of_error (Action.pinned_of_error h _)⟩

/-- An invocation fails if the script that it comes to run fails. -/
theorem statement_of_enters {unit : ScriptUnit} {scope : AnnotationId}
    (h : env.Enters invoke frame unit body st s scope t)
    (hrun : invoke unit body scope t = .error stop u) :
    ∃ v, env.statement invoke frame st s = .error stop v := by
  cases h with
  | once htarget =>
    rw [statement, command, htarget]
    exact ⟨_, InvokeKind.enter_of_error _ hrun⟩
  | narrowed htarget hset hbefore hscope =>
    rw [statement, command, htarget]
    exact ⟨_, (invocation_members hset).trans (forM_error hbefore
      ((bind_of_ok (Action.pinned_of_ok hscope _)).trans (InvokeKind.enter_of_error _ hrun)))⟩

theorem statement_of_breaks (h : env.Breaks invoke frame st s stop) :
    ∃ t, env.statement invoke frame st s = .error stop t := by
  cases h with
  | raised h => exact statement_of_raises h
  | invoked henters hrun => exact statement_of_enters henters hrun

/-- A run of statements that leads to one that fails, fails with it. The variables of the loops
around it are gone. -/
theorem block_of_leads (h : env.Leads invoke frame part t loops body s)
    (hpart : env.statement invoke frame part t = .error stop u) :
    ∃ v, env.block invoke frame body s = .error stop v ∧
      ∀ name ∈ loops, Keyed.get? v.bindings.own name = none := by
  induction h with
  | here =>
    refine ⟨u, ?_, by simp⟩
    rw [block, bind_of_error hpart]
  | next hst _ ih =>
    rcases ih with ⟨v, hv, hgone⟩
    refine ⟨v, ?_, hgone⟩
    rw [block, bind_of_ok hst, hv]
  | @round loops pos name set body rest before after id s w w' hset hbefore _ ih =>
    rcases ih with ⟨v, hv, hgone⟩
    refine ⟨{ v with bindings := v.bindings.remove name }, ?_, ?_⟩
    · rw [block, statement]
      refine bind_of_error ?_
      rw [bind_of_ok (Action.pinned_of_ok hset pos)]
      exact forM_error hbefore (round_of_error hv)
    · -- The round removes its variable, and brings back none of the others.
      intro other hother
      show Keyed.get? (Keyed.erase v.bindings.own name) other = none
      rw [Keyed.get?_erase]
      by_cases hsame : name = other
      · rw [if_pos hsame]
      · rw [if_neg hsame]
        rcases List.mem_cons.mp hother with heq | hinner
        · exact absurd heq.symm hsame
        · exact hgone other hinner
  | branch hskip htaken _ ih =>
    rcases ih with ⟨v, hv, hgone⟩
    refine ⟨v, ?_, hgone⟩
    rw [block, statement]
    refine bind_of_error ?_
    rw [choose_of_skips hskip, choose_of_taken htaken]
    exact block_singleton.mp hv

/-! ### What fails breaks -/

/-- What a statement leads to, it also leads to with others after it. -/
theorem Leads.followed (h : env.Leads invoke frame part t loops [st] s) (rest : List Statement) :
    env.Leads invoke frame part t loops (st :: rest) s := by
  cases h with
  | here => exact .here
  | next _ hrest => cases hrest
  | round hset hbefore hbody => exact .round hset hbefore hbody
  | branch hskip htaken hst => exact .branch hskip htaken hst

/-- Statements come to one that breaks. -/
def LeadsToBreak (env : Setting) (invoke : Invoker) (frame : Frame) (body : List Statement)
    (s : RunState) (stop : Stop) : Prop :=
  ∃ loops part t, env.Leads invoke frame part t loops body s ∧ env.Breaks invoke frame part t stop

theorem breaks_of_invocation {kind : InvokeKind} {name : String} {set : Option Argument}
    {external : Bool}
    (h : env.command invoke frame pos (.invoke kind name set external) s = .error stop t) :
    env.Breaks invoke frame (.command pos (.invoke kind name set external)) s stop := by
  rw [command] at h
  cases htarget : env.target? frame.owner name external with
  | none =>
    rw [htarget] at h
    cases h
    exact .raised (.missing htarget)
  | some target =>
    rcases target with ⟨unit, body⟩
    rw [htarget] at h
    dsimp only at h
    cases set with
    | none =>
      rcases InvokeKind.enter_eq_error h with ⟨u, hu⟩
      exact .invoked (.once htarget) hu
    | some a =>
      cases hset : frame.annotations a s with
      | error e u =>
        have hfail : invocation frame pos (some a)
            (fun scope => kind.enter (invoke unit body scope)) s =
              .error (.failed { error := e, pos }) u :=
          bind_of_error (Action.pinned_of_error hset pos)
        rw [hfail] at h
        cases h
        exact .raised (.scopes htarget hset)
      | ok ids u =>
        rw [invocation_members hset] at h
        rcases forM_eq_error h with ⟨before, id, after, v, rfl, hbefore, hid⟩
        -- The scope is gone, or the script fails in it.
        cases hscope : frame.narrowed id v with
        | error e w =>
          rw [bind_of_error (Action.pinned_of_error hscope pos)] at hid
          cases hid
          exact .raised (.scope htarget hset hbefore hscope)
        | ok scope w =>
          rw [bind_of_ok (Action.pinned_of_ok hscope pos)] at hid
          rcases InvokeKind.enter_eq_error hid with ⟨x, hx⟩
          exact .invoked (.narrowed htarget hset hbefore hscope) hx

theorem breaks_of_command {c : Command} (h : env.command invoke frame pos c s = .error stop t) :
    env.Breaks invoke frame (.command pos c) s stop := by
  cases c with
  | define name a =>
    rcases Action.pinned_eq_error h with ⟨e, he, rfl⟩
    exact .raised (.value he)
  | clear name => cases h
  | clearAll => cases h
  | function d args =>
    rcases Action.pinned_eq_error h with ⟨e, he, rfl⟩
    exact .raised (.function he)
  | invoke kind name set external => exact breaks_of_invocation h

theorem taken_eq_error {condition : Option Argument}
    (h : env.taken frame pos condition s = .error stop t) :
    ∃ a e, condition = some a ∧ frame.withSite (·.test env.conditions a) s = .error e t ∧
      stop = .failed { error := e, pos } := by
  cases condition with
  | none => cases h
  | some a =>
    rcases Action.pinned_eq_error h with ⟨e, he, hstop⟩
    exact ⟨a, e, rfl, he, hstop⟩

mutual

/-- A statement that fails leads to one that breaks. -/
theorem leads_of_statement (st : Statement) {s t : RunState}
    (h : env.statement invoke frame st s = .error stop t) :
    env.LeadsToBreak invoke frame [st] s stop := by
  cases st with
  | command pos c =>
    rw [statement] at h
    exact ⟨[], _, s, .here, breaks_of_command h⟩
  | loop pos name set body =>
    rw [statement] at h
    cases hset : frame.annotations set s with
    | error e u =>
      rw [bind_of_error (Action.pinned_of_error hset pos)] at h
      cases h
      exact ⟨[], _, s, .here, .raised (.set hset)⟩
    | ok ids u =>
      rw [bind_of_ok (Action.pinned_of_ok hset pos)] at h
      rcases forM_eq_error h with ⟨before, id, after, v, rfl, hbefore, hround⟩
      rcases round_eq_error hround with ⟨w, hw⟩
      rcases leads_of_block body hw with ⟨loops, part, x, hleads, hbreaks⟩
      exact ⟨name :: loops, part, x, .round hset hbefore hleads, hbreaks⟩
  | choice pos branches =>
    rw [statement] at h
    exact leads_of_choose pos branches .none h

theorem leads_of_block (body : List Statement) {s t : RunState}
    (h : env.block invoke frame body s = .error stop t) :
    env.LeadsToBreak invoke frame body s stop := by
  cases body with
  | nil =>
    rw [block] at h
    cases h
  | cons st rest =>
    rw [block] at h
    cases hst : env.statement invoke frame st s with
    | error stop' u =>
      rw [bind_of_error hst] at h
      cases h
      rcases leads_of_statement st hst with ⟨loops, part, x, hleads, hbreaks⟩
      exact ⟨loops, part, x, hleads.followed rest, hbreaks⟩
    | ok a u =>
      rw [bind_of_ok hst] at h
      rcases leads_of_block rest h with ⟨loops, part, x, hleads, hbreaks⟩
      exact ⟨loops, part, x, .next hst hleads, hbreaks⟩

/-- Some branches of a choice were passed over, and what is left of it fails. -/
theorem leads_of_choose (pos : Position) (left : List (Option Argument × Statement))
    {all : List (Option Argument × Statement)} {first s t : RunState}
    (hskip : env.Skips frame pos left s all first)
    (h : env.choose invoke frame pos left s = .error stop t) :
    env.LeadsToBreak invoke frame [.choice pos all] first stop := by
  -- On the branches that are left. It is the whole choice that breaks or leads further, so those
  -- that were passed over are kept in `hskip`.
  match left with
  | [] =>
    rw [choose] at h
    cases h
  | (condition, st) :: rest =>
    rw [choose] at h
    cases htaken : env.taken frame pos condition s with
    | error stop' u =>
      rw [bind_of_error htaken] at h
      cases h
      rcases taken_eq_error htaken with ⟨a, e, rfl, he, rfl⟩
      exact ⟨[], _, first, .here, .raised (.condition hskip he)⟩
    | ok taken u =>
      rw [bind_of_ok htaken] at h
      cases taken with
      | true =>
        rcases leads_of_statement st h with ⟨loops, part, x, hleads, hbreaks⟩
        exact ⟨loops, part, x, .branch hskip htaken hleads, hbreaks⟩
      | false => exact leads_of_choose pos rest (hskip.snoc htaken) h

end

/-- A run of statements stops exactly if it comes to one that breaks. -/
theorem block_error_iff :
    (∃ t, env.block invoke frame body s = .error stop t) ↔
      env.LeadsToBreak invoke frame body s stop := by
  constructor
  · rintro ⟨t, h⟩
    exact leads_of_block body h
  · rintro ⟨loops, part, t, hleads, hbreaks⟩
    rcases statement_of_breaks hbreaks with ⟨u, hpart⟩
    rcases block_of_leads hleads hpart with ⟨v, hv, -⟩
    exact ⟨v, hv⟩

/-! ### One statement is to blame -/

/-- The first branch of a choice that is not passed over is told by the choice. -/
theorem Skips.unique {condition condition' : Option Argument} {st st' : Statement}
    {left left' branches : List (Option Argument × Statement)} {t t' : RunState}
    (h : env.Skips frame pos ((condition, st) :: left) t branches s)
    (hstop : ∀ u, env.taken frame pos condition t ≠ .ok false u)
    (h' : env.Skips frame pos ((condition', st') :: left') t' branches s)
    (hstop' : ∀ u, env.taken frame pos condition' t' ≠ .ok false u) :
    condition = condition' ∧ st = st' ∧ t = t' := by
  induction h with
  | none =>
    cases h' with
    | none => exact ⟨rfl, rfl, rfl⟩
    | one htaken _ => exact absurd htaken (hstop _)
  | one htaken _ ih =>
    cases h' with
    | none => exact absurd htaken (hstop' _)
    | one htaken' hrest' =>
      cases htaken.symm.trans htaken'
      exact ih hrest'

theorem Breaks.not_ok (h : env.Breaks invoke frame st s stop) (t : RunState) :
    env.statement invoke frame st s ≠ .ok () t := by
  rcases statement_of_breaks h with ⟨u, hu⟩
  rw [hu]
  simp

/-- A loop that breaks has no set. -/
theorem Breaks.loop {name : String} {set : Argument} (h : env.Breaks invoke frame
    (.loop pos name set body) s stop) (ids : List AnnotationId) (t : RunState) :
    frame.annotations set s ≠ .ok ids t := by
  cases h with
  | raised h =>
    cases h with
    | set hset =>
      rw [hset]
      simp
  | invoked henters _ => cases henters

/-- A choice that breaks has no branch that is taken. -/
theorem Breaks.choice {condition : Option Argument}
    {branches left : List (Option Argument × Statement)}
    (h : env.Breaks invoke frame (.choice pos branches) s stop)
    (hskip : env.Skips frame pos ((condition, st) :: left) t branches s) (u : RunState) :
    env.taken frame pos condition t ≠ .ok true u := by
  intro htaken
  cases h with
  | raised h =>
    cases h with
    | condition hskip' herror =>
      -- The branches before are passed over, so it is the same condition that holds and fails.
      have hfail := Action.pinned_of_error herror pos
      rcases hskip.unique (by simp [htaken]) hskip' (by simp [taken, hfail]) with ⟨rfl, -, rfl⟩
      cases htaken.symm.trans hfail
  | invoked henters _ => cases henters

/-- The round of a loop in which statements lead to one that breaks does not end. -/
theorem Leads.round_not_ok {id : AnnotationId} {name : String}
    (h : env.Leads invoke frame part t loops body (s.inRound name id))
    (hbreaks : env.Breaks invoke frame part t stop) (u : RunState) :
    Setting.round name id (env.block invoke frame body) s ≠ .ok () u := by
  rcases block_error_iff.mpr ⟨_, _, _, h, hbreaks⟩ with ⟨v, hv⟩
  rw [round_of_error hv]
  simp

theorem Leads.statement_not_ok (h : env.Leads invoke frame part t loops [st] s)
    (hbreaks : env.Breaks invoke frame part t stop) (u : RunState) :
    env.statement invoke frame st s ≠ .ok () u := by
  rcases block_error_iff.mpr ⟨_, _, _, h, hbreaks⟩ with ⟨v, hv⟩
  rw [block_singleton.mp hv]
  simp

/-- Statements lead to one that breaks, and to no other. -/
theorem Leads.unique {part' : Statement} {loops' : List String} {t' : RunState} {stop' : Stop}
    (h : env.Leads invoke frame part t loops body s) (hbreaks : env.Breaks invoke frame part t stop)
    (h' : env.Leads invoke frame part' t' loops' body s)
    (hbreaks' : env.Breaks invoke frame part' t' stop') :
    part = part' ∧ t = t' ∧ loops = loops' := by
  -- What leads to a statement that breaks does not end, so the other way cannot pass it by.
  induction h generalizing loops' with
  | here =>
    cases h' with
    | here => exact ⟨rfl, rfl, rfl⟩
    | next hst _ => exact absurd hst (hbreaks.not_ok _)
    | round hset _ _ => exact absurd hset (hbreaks.loop _ _)
    | branch hskip htaken _ => exact absurd htaken (hbreaks.choice hskip _)
  | next hst _ ih =>
    cases h' with
    | here => exact absurd hst (hbreaks'.not_ok _)
    | next hst' hrest' =>
      cases hst.symm.trans hst'
      exact ih hrest'
    | round hset hbefore hbody =>
      exact absurd hst (Leads.statement_not_ok (.round hset hbefore hbody) hbreaks' _)
    | branch hskip htaken hinner =>
      exact absurd hst (Leads.statement_not_ok (.branch hskip htaken hinner) hbreaks' _)
  | round hset hbefore hbody ih =>
    cases h' with
    | here => exact absurd hset (hbreaks'.loop _ _)
    | next hst' _ =>
      exact absurd hst' (Leads.statement_not_ok (.round hset hbefore hbody) hbreaks _)
    | round hset' hbefore' hbody' =>
      injection hset.symm.trans hset' with hids hstate
      subst hstate
      rcases forM_split_unique hids hbefore (hbody.round_not_ok hbreaks) hbefore'
        (hbody'.round_not_ok hbreaks') with ⟨-, rfl, rfl⟩
      rcases ih hbody' with ⟨hpart, ht, rfl⟩
      exact ⟨hpart, ht, rfl⟩
  | branch hskip htaken hinner ih =>
    cases h' with
    | here => exact absurd htaken (hbreaks'.choice hskip _)
    | next hst' _ =>
      exact absurd hst' (Leads.statement_not_ok (.branch hskip htaken hinner) hbreaks _)
    | branch hskip' htaken' hinner' =>
      rcases hskip.unique (by simp [htaken]) hskip' (by simp [htaken']) with ⟨rfl, rfl, rfl⟩
      cases htaken.symm.trans htaken'
      exact ih hinner'

theorem narrowed_not_ok {id : AnnotationId} {e : RuntimeError} {run : AnnotationId → Running Unit}
    (h : frame.narrowed id s = .error e t) (u : RunState) :
    (do let scope ← (frame.narrowed id).pinned pos; run scope : Running Unit) s ≠ .ok () u := by
  rw [bind_of_error (Action.pinned_of_error h pos)]
  simp

theorem enter_not_ok {id scope : AnnotationId} {kind : InvokeKind}
    {run : AnnotationId → Running Unit} (h : frame.narrowed id s = .ok scope t)
    (hrun : run scope (kind.entered t) = .error stop u) (v : RunState) :
    (do let scope ← (frame.narrowed id).pinned pos; kind.enter (run scope) : Running Unit) s ≠
      .ok () v := by
  rw [bind_of_ok (Action.pinned_of_ok h pos), kind.enter_of_error hrun]
  simp

/-- An invocation runs one script that stops, and no other. -/
theorem Enters.unique {unit unit' : ScriptUnit} {inner inner' : List Statement}
    {scope scope' : AnnotationId} {t' u' : RunState} {stop' : Stop}
    (h : env.Enters invoke frame unit inner st s scope t)
    (hrun : invoke unit inner scope t = .error stop u)
    (h' : env.Enters invoke frame unit' inner' st s scope' t')
    (hrun' : invoke unit' inner' scope' t' = .error stop' u') :
    unit = unit' ∧ inner = inner' ∧ scope = scope' ∧ t = t' := by
  cases h with
  | once htarget =>
    cases h' with
    | once htarget' =>
      cases htarget.symm.trans htarget'
      exact ⟨rfl, rfl, rfl, rfl⟩
  | narrowed htarget hset hbefore hscope =>
    cases h' with
    | narrowed htarget' hset' hbefore' hscope' =>
      cases htarget.symm.trans htarget'
      injection hset.symm.trans hset' with hids hstate
      subst hstate
      rcases forM_split_unique hids hbefore (enter_not_ok hscope hrun) hbefore'
        (enter_not_ok hscope' hrun') with ⟨-, rfl, rfl⟩
      cases hscope.symm.trans hscope'
      exact ⟨rfl, rfl, rfl, rfl⟩

/-- An invocation that runs a script that stops raises no error by itself. -/
theorem Enters.not_raises {unit : ScriptUnit} {inner : List Statement} {scope : AnnotationId}
    (h : env.Enters invoke frame unit inner st s scope t)
    (hrun : invoke unit inner scope t = .error stop u) (e : RuntimeError) :
    ¬ env.Raises invoke frame st s e := by
  intro hraises
  cases h with
  | once htarget =>
    cases hraises with
    | missing hnone => cases htarget.symm.trans hnone
  | narrowed htarget hset hbefore hscope =>
    cases hraises with
    | missing hnone => cases htarget.symm.trans hnone
    | scopes _ herror => cases hset.symm.trans herror
    | scope htarget' hset' hbefore' herror =>
      cases htarget.symm.trans htarget'
      injection hset.symm.trans hset' with hids hstate
      subst hstate
      rcases forM_split_unique hids hbefore (enter_not_ok hscope hrun) hbefore'
        (narrowed_not_ok herror) with ⟨-, rfl, rfl⟩
      cases hscope.symm.trans herror

theorem Skips.mem_partsBranches {left branches : List (Option Argument × Statement)}
    (h : env.Skips frame pos left t branches s) :
    ∀ st ∈ Statement.partsBranches left, st ∈ Statement.partsBranches branches := by
  induction h with
  | none => exact fun st hst => hst
  | one _ _ ih =>
    intro st hst
    rw [Statement.partsBranches]
    exact List.mem_append_right _ (ih st hst)

/-- Statements lead only to what is among them or inside. -/
theorem Leads.mem_partsAll (h : env.Leads invoke frame part t loops body s) :
    part ∈ Statement.partsAll body := by
  induction h with
  | here =>
    rw [Statement.partsAll]
    refine List.mem_append_left _ ?_
    cases part <;> simp [Statement.parts]
  | next _ _ ih =>
    rw [Statement.partsAll]
    exact List.mem_append_right _ ih
  | round _ _ _ ih =>
    rw [Statement.partsAll, Statement.parts]
    exact List.mem_append_left _ (List.mem_cons_of_mem _ ih)
  | branch hskip _ _ ih =>
    rw [Statement.partsAll, Statement.parts]
    refine List.mem_append_left _ (List.mem_cons_of_mem _ (hskip.mem_partsBranches _ ?_))
    rw [Statement.partsAll, Statement.partsAll, List.append_nil] at ih
    rw [Statement.partsBranches]
    exact List.mem_append_left _ ih

/-! ## Statements of all scripts -/

/-- A statement that is about to run, and the depth to which it may invoke scripts. -/
structure Point where
  depth : Nat
  frame : Frame
  statement : Statement
  state : RunState

/-- The statement raises an error by itself. -/
def Point.Raises (env : Setting) (point : Point) (e : RuntimeError) : Prop :=
  env.Raises (env.invoke point.depth) point.frame point.statement point.state e

/-- A run of statements of a unit comes to a point, in that unit or in scripts that it invokes. -/
inductive Comes (env : Setting) (point : Point) :
    Nat → ScriptUnit → List Statement → AnnotationId → RunState → Prop
  | own {loops : List String} {body : List Statement} {s : RunState}
      (h : env.Leads (env.invoke point.depth) point.frame point.statement point.state loops body
        s) : Comes env point (point.depth + 1) point.frame.owner body point.frame.scope s
  | invoked {depth : Nat} {owner unit : ScriptUnit} {body inner : List Statement}
      {scope narrow : AnnotationId} {part : Statement} {loops : List String} {s t u : RunState}
      (hleads : env.Leads (env.invoke depth) { owner, scope } part t loops body s)
      (henters : env.Enters (env.invoke depth) { owner, scope } unit inner part t narrow u)
      (h : Comes env point depth unit inner narrow u) :
      Comes env point (depth + 1) owner body scope s

/-- A run that comes to a statement that raises an error fails with it, there. -/
theorem invoke_of_comes {point : Point} {depth : Nat} {owner : ScriptUnit} {scope : AnnotationId}
    {e : RuntimeError} (h : env.Comes point depth owner body scope s)
    (hraises : point.Raises env e) :
    ∃ t, env.invoke depth owner body scope s =
      .error (.failed { error := e, pos := point.statement.pos }) t := by
  induction h with
  | own hleads => exact block_error_iff.mpr ⟨_, _, _, hleads, .raised hraises⟩
  | invoked hleads henters _ ih =>
    rcases ih with ⟨t, ht⟩
    exact block_error_iff.mpr ⟨_, _, _, hleads, .invoked henters ht⟩

/-- A run comes to one statement that raises an error, and to no other. -/
theorem Comes.unique {point point' : Point} {depth : Nat} {owner : ScriptUnit}
    {scope : AnnotationId} {e e' : RuntimeError} (h : env.Comes point depth owner body scope s)
    (hraises : point.Raises env e) (h' : env.Comes point' depth owner body scope s)
    (hraises' : point'.Raises env e') : point = point' := by
  rcases point' with ⟨depth', ⟨owner', scope'⟩, st', state'⟩
  -- Both are in the unit itself, or both in the script that it invokes: an invocation of a script
  -- that stops raises no error by itself.
  induction h with
  | own hleads =>
    cases h' with
    | own hleads' =>
      rcases hleads.unique (.raised hraises) hleads' (.raised hraises') with ⟨hst, hstate, -⟩
      exact congrArg₂ (Point.mk point.depth point.frame) hst hstate
    | invoked hleads' henters' hcomes' =>
      rcases invoke_of_comes hcomes' hraises' with ⟨u, hrun⟩
      rcases hleads.unique (.raised hraises) hleads' (.invoked henters' hrun) with ⟨rfl, rfl, -⟩
      exact absurd hraises (henters'.not_raises hrun e)
  | invoked hleads henters hcomes ih =>
    rcases invoke_of_comes hcomes hraises with ⟨u, hrun⟩
    cases h' with
    | own hleads' =>
      rcases hleads.unique (.invoked henters hrun) hleads' (.raised hraises') with ⟨rfl, rfl, -⟩
      exact absurd hraises' (henters.not_raises hrun e')
    | invoked hleads' henters' hcomes' =>
      rcases invoke_of_comes hcomes' hraises' with ⟨u', hrun'⟩
      rcases hleads.unique (.invoked henters hrun) hleads' (.invoked henters' hrun') with
        ⟨rfl, rfl, -⟩
      rcases henters.unique hrun henters' hrun' with ⟨rfl, rfl, rfl, rfl⟩
      exact ih hcomes'

/-- A run that fails has come to a statement that raises the error by itself. -/
theorem comes_of_invoke {depth : Nat} {owner : ScriptUnit} {scope : AnnotationId}
    {failure : Failure} (h : env.invoke depth owner body scope s = .error (.failed failure) t) :
    ∃ point, env.Comes point depth owner body scope s ∧ point.Raises env failure.error ∧
      point.statement.pos = failure.pos := by
  -- On the depth, which an invocation lowers.
  induction depth generalizing owner body scope s t with
  | zero => cases h
  | succ depth ih =>
    rcases leads_of_block body h with ⟨loops, part, u, hleads, hbreaks⟩
    cases hbreaks with
    | raised hraises =>
      exact ⟨⟨depth, { owner, scope }, part, u⟩, .own hleads, hraises, rfl⟩
    | invoked henters hrun =>
      rcases ih hrun with ⟨point, hcomes, hpoint⟩
      exact ⟨point, .invoked hleads henters hcomes, hpoint⟩

end Setting

/-! ## Runs of a program -/

/-- What does not change in a run of a program. -/
def Program.setting (p : Program) (catalogue : Catalogue) (conditions : ConditionRule) : Setting :=
  { catalogue, conditions, units := p.units }

/-- A run of a program stops if the run of its statements does. -/
theorem Program.run_stop_iff {p : Program} {catalogue : Catalogue} {document : Document}
    {scope : AnnotationId} {bindings : Bindings} {conditions : ConditionRule} {depth : Nat}
    {stop : Stop} :
    (p.run catalogue document scope bindings conditions depth).stop = some stop ↔
      ∃ t, (p.setting catalogue conditions).invoke depth p.main p.main.body scope
        { document, bindings } = .error stop t := by
  have hrun : p.run catalogue document scope bindings conditions depth =
      .ofResult ((p.setting catalogue conditions).invoke depth p.main p.main.body scope
        { document, bindings }) := rfl
  rw [hrun]
  cases (p.setting catalogue conditions).invoke depth p.main p.main.body scope
      { document, bindings } with
  | ok a t => simp [Outcome.ofResult, Outcome.ofResult.ofState]
  | error stop' t => simp [Outcome.ofResult, Outcome.ofResult.ofState]

end MarkupScript
