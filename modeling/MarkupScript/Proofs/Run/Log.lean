import MarkupScript.Proofs.Run.Congruence

/-!
# The events and the trace of a run

A function at work leaves two events, one when it begins and one when it is done, with nothing
between them. Only a function that fails leaves the first alone, and its failure ends the run. The
lines of the trace are those of the functions that are done.

* `Event.Log`: the events of a run that is not inside a function, or of one that stopped there.
* `RunState.Grows`: a part of a run adds such events, and their lines to the trace.
* `logging`: this as a property that sequencing keeps; `logs_apply`: a function at work has it.
* `Program.run_log`: so have whole runs.
-/

namespace MarkupScript

/-! ## Logs -/

namespace Event

/-- The line that an event adds to the trace. -/
def line? : Event → Option String
  | .invoked _ status => status
  | .assigned _ _ | .iterated _ _ | .evaluated _ _ | .invoking _ _ => none

/-- A list of events in which functions begin and end in turn. At its end a function may not be
done, and then it is named. -/
inductive Log : Option String → List Event → Prop
  | nil : Log none []
  | cut (called : Descriptor) (params : List Value) :
      Log (some called.name) [.invoking called params]
  | plain {e : Event} {open? : Option String} {rest : List Event} (he : e.IsPlain)
      (hrest : Log open? rest) : Log open? (e :: rest)
  | done {open? : Option String} {rest : List Event} (called : Descriptor) (params : List Value)
      (status : Option String) (hrest : Log open? rest) :
      Log open? (.invoking called params :: .invoked called status :: rest)

theorem Log.append {open? : Option String} {l m : List Event} (h : Log none l)
    (hm : Log open? m) : Log open? (l ++ m) := by
  generalize hnone : none = before at h
  induction h with
  | nil => exact hm
  | cut called params => cases hnone
  | plain he _ ih => exact .plain he (ih hnone)
  | done called params status _ ih => exact .done called params status (ih hnone)

/-- A function that is done has begun right before. -/
theorem Log.begun {open? : Option String} {l : List Event} (h : Log open? l) {i : Nat}
    {called : Descriptor} {status : Option String}
    (hi : l[i]? = some (.invoked called status)) :
    ∃ j params, i = j + 1 ∧ l[j]? = some (.invoking called params) := by
  induction h generalizing i with
  | nil => simp at hi
  | cut f params =>
    rcases i with _ | i
    · simp at hi
    · simp at hi
  | plain he _ ih =>
    rcases i with _ | i
    · rw [List.getElem?_cons_zero] at hi
      cases hi
      cases he
    · obtain ⟨j, params, rfl, hj⟩ := ih hi
      exact ⟨j + 1, params, rfl, hj⟩
  | done f params status' _ ih =>
    rcases i with _ | _ | i
    · simp at hi
    · simp only [List.getElem?_cons_succ, List.getElem?_cons_zero] at hi
      cases hi
      exact ⟨0, params, rfl, rfl⟩
    · obtain ⟨j, params', rfl, hj⟩ := ih hi
      exact ⟨j + 2, params', rfl, hj⟩

/-- A function that has begun is done right after, or it is the one named and the list ends. -/
theorem Log.ended {open? : Option String} {l : List Event} (h : Log open? l) {i : Nat}
    {called : Descriptor} {params : List Value}
    (hi : l[i]? = some (.invoking called params)) :
    (∃ status, l[i + 1]? = some (.invoked called status)) ∨
      i + 1 = l.length ∧ open? = some called.name := by
  induction h generalizing i with
  | nil => simp at hi
  | cut f params' =>
    rcases i with _ | i
    · rw [List.getElem?_cons_zero] at hi
      cases hi
      exact .inr ⟨rfl, rfl⟩
    · simp at hi
  | plain he _ ih =>
    rcases i with _ | i
    · rw [List.getElem?_cons_zero] at hi
      cases hi
      cases he
    · rcases ih hi with hdone | ⟨hlast, hopen⟩
      · exact .inl hdone
      · exact .inr ⟨by simp [hlast], hopen⟩
  | done f params' status _ ih =>
    rcases i with _ | _ | i
    · rw [List.getElem?_cons_zero] at hi
      cases hi
      exact .inl ⟨status, rfl⟩
    · simp at hi
    · rcases ih hi with hdone | ⟨hlast, hopen⟩
      · exact .inl hdone
      · exact .inr ⟨by simp [hlast], hopen⟩

/-- The list ends with a function that has begun if that one is not done. -/
theorem Log.last {name : String} {l : List Event} (h : Log (some name) l) :
    ∃ called params, l.getLast? = some (.invoking called params) ∧ called.name = name := by
  generalize hopen : some name = open? at h
  induction h with
  | nil => cases hopen
  | cut called params => exact ⟨called, params, rfl, (Option.some.inj hopen).symm⟩
  | plain _ _ ih =>
    obtain ⟨called, params, hlast, hname⟩ := ih hopen
    exact ⟨called, params, by simp [List.getLast?_cons, hlast], hname⟩
  | done _ _ _ _ ih =>
    obtain ⟨called, params, hlast, hname⟩ := ih hopen
    exact ⟨called, params, by simp [List.getLast?_cons, hlast], hname⟩

end Event

/-! ## Steps that keep a log -/

/-- A part of a run adds events that make a log, and their lines to the trace. -/
def RunState.Grows (open? : Option String) (s t : RunState) : Prop :=
  ∃ new, Event.Log open? new ∧ t.events.toList = s.events.toList ++ new ∧
    t.trace.toList = s.trace.toList ++ new.filterMap Event.line?

namespace RunState.Grows

theorem refl {s t : RunState} (hevents : t.events = s.events) (htrace : t.trace = s.trace) :
    Grows none s t :=
  ⟨[], .nil, by simp [hevents], by simp [htrace]⟩

theorem trans {open? : Option String} {s t u : RunState} (h : Grows none s t)
    (h' : Grows open? t u) : Grows open? s u := by
  obtain ⟨new, hlog, hevents, htrace⟩ := h
  obtain ⟨new', hlog', hevents', htrace'⟩ := h'
  refine ⟨new ++ new', hlog.append hlog', ?_, ?_⟩
  · rw [hevents', hevents, List.append_assoc]
  · rw [htrace', htrace, List.filterMap_append, List.append_assoc]

theorem plain {s t : RunState} {e : Event} (he : e.IsPlain) (hevents : t.events = s.events.push e)
    (htrace : t.trace = s.trace) : Grows none s t := by
  refine ⟨[e], .plain he .nil, by simp [hevents], ?_⟩
  cases e with
  | invoking _ _ => cases he
  | invoked _ _ => cases he
  | _ => simp [htrace, Event.line?]

end RunState.Grows

open RunState

/-- The function whose failure an error is. -/
def RuntimeError.culprit? : RuntimeError → Option String
  | .function name _ => some name
  | .unboundVariable _ | .evaluation _ _ | .notASet _ | .detached _ | .missingScript _
  | .unregisteredFunction _ | .missingArguments _ _ _ => none

theorem RuntimeError.culprit?_eq_none {e : RuntimeError}
    (h : ∀ name cause, e ≠ .function name cause) : e.culprit? = none := by
  cases e with
  | function name cause => exact absurd rfl (h name cause)
  | _ => rfl

/-- The function whose failure has stopped a run. -/
def Stop.culprit? : Stop → Option String
  | .failed failure => failure.error.culprit?
  | .tooDeep => none

/-- What a computation leaves in its events and in the trace. It is not inside a function at its
end, unless it was stopped by one. -/
def LogsFrom {ε α : Type} (culprit? : ε → Option String) (s : RunState) :
    EStateM.Result ε RunState α → Prop
  | .ok _ t => Grows none s t
  | .error e t => Grows (culprit? e) s t

/-- Keeping a log, whatever the other computation does. -/
def logging {ε : Type} (culprit? : ε → Option String) : Congruence ε RunState where
  rel x _ := ∀ s, LogsFrom culprit? s (x s)
  rel_pure _ _ := .refl rfl rfl
  rel_bind := by
    intro α β x y f g hx hf s
    have hfirst := hx s
    cases hs : x s with
    | error e t =>
      rw [hs] at hfirst
      rw [bind_of_error hs]
      exact hfirst
    | ok a t =>
      rw [hs] at hfirst
      rw [bind_of_ok hs]
      have hrest := hf a t
      cases ht : f a t with
      | ok b u =>
        rw [ht] at hrest
        exact Grows.trans hfirst hrest
      | error e u =>
        rw [ht] at hrest
        exact Grows.trans hfirst hrest

/-- Reading and assigning leave no events of functions. -/
theorem logs_acts : (logging RuntimeError.culprit?).Acts where
  look h := fun s => h s.document s
  record he := fun s => Grows.plain he rfl rfl
  fail {α e} he := by
    intro s
    show Grows e.culprit? s s
    rw [RuntimeError.culprit?_eq_none he]
    exact .refl rfl rfl
  withSite h := fun s => h s.bindings s.bindings (fun _ => rfl) s
  set name value := fun s => Grows.refl rfl rfl

/-- A function at work leaves its two events, or the first one and its failure. -/
theorem logs_apply (scope : AnnotationId) (f : Function) (called : Descriptor) :
    (logging RuntimeError.culprit?).Works scope f called := by
  intro b c _ params s
  have hbegin : Action.record (.invoking called params) s =
      .ok () { s with events := s.events.push (.invoking called params) } := rfl
  unfold Site.apply
  rw [bind_of_ok hbegin]
  generalize hs : { s with events := s.events.push (.invoking called params) } = t
  cases hf : f.process { scope, params, bindings := b } t.document with
  | error e d =>
    have hprocess : Site.process { scope, bindings := b } f called.name params t =
        .error (.function called.name e) { t with document := d } := by
      rw [Site.process, hf]
    rw [bind_of_error hprocess, ← hs]
    exact ⟨[.invoking called params], .cut called params, by simp, by simp [Event.line?]⟩
  | ok status d =>
    have hprocess : Site.process { scope, bindings := b } f called.name params t =
        .ok status { t with document := d } := by
      rw [Site.process, hf]
    have hend : Action.record (.invoked called status) { t with document := d } =
        .ok () { t with document := d, events := t.events.push (.invoked called status) } := rfl
    have hlog : Event.Log none [.invoking called params, .invoked called status] :=
      .done called params status .nil
    rw [bind_of_ok hprocess, bind_of_ok hend, ← hs]
    cases status with
    | none => exact ⟨_, hlog, by simp, by simp [Event.line?]⟩
    | some line => exact ⟨_, hlog, by simp, by simp [List.filterMap_cons, Event.line?]⟩

/-! ## Runs that keep a log -/

theorem logs_pinned {α : Type} {x y : Action α} (pos : Position)
    (h : (logging RuntimeError.culprit?).rel x y) :
    (logging Stop.culprit?).rel (x.pinned pos) (y.pinned pos) := by
  intro s
  have hs := h s
  unfold Action.pinned
  cases hx : x s with
  | ok a t =>
    rw [hx] at hs
    exact hs
  | error e t =>
    rw [hx] at hs
    exact hs

theorem logs_withBindings {x y : Running Unit} (h : (logging Stop.culprit?).rel x y)
    (bindings : Bindings) (s : RunState) :
    LogsFrom Stop.culprit? s (Running.withBindings bindings x s) := by
  have hs := h { s with bindings }
  unfold Running.withBindings
  cases hx : x { s with bindings } with
  | ok a t =>
    rw [hx] at hs
    exact hs
  | error e t =>
    rw [hx] at hs
    exact hs

/-- Every part of a run keeps a log. -/
theorem logs_uniform (env : Setting) : (logging Stop.culprit?).Uniform env where
  steps frame := logs_acts.steps (fun d f _ => logs_apply frame.scope f d) logs_pinned
  clear name := fun s => Grows.refl rfl rfl
  clearAll := fun s => Grows.refl rfl rfl
  round name id {x y} h := by
    refine (logging Stop.culprit?).rel_bind (y := pure ()) (g := fun _ => y) ?_ fun _ => ?_
    · exact fun s => Grows.plain (e := .iterated name (.annotations [id])) trivial rfl rfl
    · intro s
      have hs := h { s with bindings := s.bindings.set name (.annotations [id]) }
      unfold Running.withVariable
      cases hx : x { s with bindings := s.bindings.set name (.annotations [id]) } with
      | ok a t =>
        rw [hx] at hs
        exact hs
      | error e t =>
        rw [hx] at hs
        exact hs
  enter kind {x y} h := by
    intro s
    cases kind with
    | call => exact logs_withBindings h .empty s
    | inclusion => exact logs_withBindings h s.bindings.push s

/-! ## What a run reports -/

theorem Stop.culprit?_eq_some {stop : Stop} {name : String} :
    stop.culprit? = some name ↔
      ∃ pos cause, stop = .failed { error := .function name cause, pos } := by
  constructor
  · intro h
    rcases stop with ⟨error, pos⟩ | _
    · cases error with
      | function f cause =>
        cases h
        exact ⟨pos, cause, rfl⟩
      | _ => cases h
    · cases h
  · rintro ⟨pos, cause, rfl⟩
    rfl

/-- Events and trace of a run agree. -/
structure Outcome.Accounted (o : Outcome) : Prop where
  /-- A function is reported done right after it was reported to begin. -/
  begun : ∀ {i called status}, o.events[i]? = some (.invoked called status) →
    ∃ j params, i = j + 1 ∧ o.events[j]? = some (.invoking called params)
  /-- A function that was reported to begin is reported done right after, or its failure ends
  the run and there are no more events. -/
  ended : ∀ {i called params}, o.events[i]? = some (.invoking called params) →
    (∃ status, o.events[i + 1]? = some (.invoked called status)) ∨
      i + 1 = o.events.length ∧
        ∃ pos cause, o.stop = some (.failed { error := .function called.name cause, pos })
  /-- The last event is that of a function that begins if and only if the failure of the function
  ends the run. -/
  last : ∀ name,
    (∃ called params, o.events.getLast? = some (.invoking called params) ∧ called.name = name) ↔
      ∃ pos cause, o.stop = some (.failed { error := .function name cause, pos })
  /-- The trace has the lines of the functions that were done. -/
  trace : o.trace = o.events.filterMap Event.line?

theorem Outcome.accounted_of_log {o : Outcome}
    (hlog : Event.Log (o.stop.bind Stop.culprit?) o.events)
    (htrace : o.trace = o.events.filterMap Event.line?) : o.Accounted := by
  have hstop : ∀ name, o.stop.bind Stop.culprit? = some name ↔
      ∃ pos cause, o.stop = some (.failed { error := .function name cause, pos }) := by
    intro name
    simp only [Option.bind_eq_some_iff, Stop.culprit?_eq_some]
    constructor
    · rintro ⟨stop, hstop, pos, cause, rfl⟩
      exact ⟨pos, cause, hstop⟩
    · rintro ⟨pos, cause, hstop⟩
      exact ⟨_, hstop, pos, cause, rfl⟩
  refine ⟨fun hi => hlog.begun hi, ?_, ?_, htrace⟩
  · intro i called params hi
    rcases hlog.ended hi with hdone | ⟨hlast, hopen⟩
    · exact .inl hdone
    · exact .inr ⟨hlast, (hstop called.name).mp hopen⟩
  · intro name
    rw [← hstop]
    constructor
    · rintro ⟨called, params, hlast, rfl⟩
      -- Nothing comes after the last event, so the function is not done.
      rw [List.getLast?_eq_getElem?] at hlast
      rcases hlog.ended hlast with ⟨status, hdone⟩ | ⟨-, hopen⟩
      · have hbound := (List.getElem?_eq_some_iff.mp hdone).1
        omega
      · exact hopen
    · intro hopen
      rw [hopen] at hlog
      exact hlog.last

/-- What started without events reports all that it has done. -/
theorem Outcome.accounted_of_logs {document : Document} {bindings : Bindings}
    {result : EStateM.Result Stop RunState Unit}
    (h : LogsFrom Stop.culprit? { document, bindings } result) : (ofResult result).Accounted := by
  have hall : ∀ {open? : Option String} {t : RunState}, Grows open? { document, bindings } t →
      Event.Log open? t.events.toList ∧
        t.trace.toList = t.events.toList.filterMap Event.line? := by
    rintro open? t ⟨new, hlog, hevents, htrace⟩
    have hnew : t.events.toList = new := by simpa using hevents
    rw [hnew]
    exact ⟨hlog, by simpa using htrace⟩
  cases result with
  | ok a t =>
    obtain ⟨hlog, htrace⟩ := hall h
    exact accounted_of_log hlog htrace
  | error stop t =>
    obtain ⟨hlog, htrace⟩ := hall h
    exact accounted_of_log hlog htrace

/-- In every run, whether it comes to its end or not, events and trace agree. -/
theorem Program.run_accounted (p : Program) (catalogue : Catalogue) (document : Document)
    (scope : AnnotationId) (bindings : Bindings) (conditions : ConditionRule) (depth : Nat) :
    (p.run catalogue document scope bindings conditions depth).Accounted := by
  have hbottom : ∀ s, LogsFrom Stop.culprit? s ((throw .tooDeep : Running Unit) s) :=
    fun s => Grows.refl rfl rfl
  have hlogs := (logs_uniform { catalogue, conditions, units := p.units }).invoke 0
    (fun _ _ _ => hbottom) depth p.main p.main.body scope
  exact Outcome.accounted_of_logs (hlogs { document, bindings })

end MarkupScript
