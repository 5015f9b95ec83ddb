import MarkupScript.Run.Program

/-!
# Contracts of stateful computations

A contract says how a computation may change its state, and which errors it may raise. The
change is judged whether the computation succeeds or fails, since what was done before a
failure stays.

* `Contract.Holds` and its rules, one for each way to build a computation.
* `Contract.Evaluates`: a contract that allows for evaluating arguments.
* `Evaluates.call`: a call keeps to such a contract if the function does.
* `Reading`: reading arguments leaves the document as it is, and raises only the errors of
  reading.
-/

namespace MarkupScript

/-- How a computation may change the state, and which errors it may raise. -/
structure Contract (ε σ : Type) where
  step : σ → σ → Prop
  error : ε → Prop
  refl : ∀ s, step s s
  trans : ∀ {s t u}, step s t → step t u → step s u

namespace Contract

variable {ε σ α β : Type}

/-- A computation keeps to a contract from every state. -/
def Holds (c : Contract ε σ) (x : EStateM ε σ α) : Prop :=
  ∀ s, match x s with
    | .ok _ t => c.step s t
    | .error e t => c.step s t ∧ c.error e

variable {c : Contract ε σ}

theorem Holds.of_ok {x : EStateM ε σ α} (h : c.Holds x) {s t : σ} {a : α}
    (hx : x s = .ok a t) : c.step s t := by
  have hs := h s
  rw [hx] at hs
  exact hs

theorem Holds.of_error {x : EStateM ε σ α} (h : c.Holds x) {s t : σ} {e : ε}
    (hx : x s = .error e t) : c.step s t ∧ c.error e := by
  have hs := h s
  rw [hx] at hs
  exact hs

theorem holds_pure (a : α) : c.Holds (pure a) := c.refl

theorem holds_get : c.Holds (get : EStateM ε σ σ) := c.refl

theorem holds_throw {e : ε} (h : c.error e) : c.Holds (throw e : EStateM ε σ α) :=
  fun s => ⟨c.refl s, h⟩

theorem holds_modify {f : σ → σ} (h : ∀ s, c.step s (f s)) :
    c.Holds (modify f : EStateM ε σ Unit) := h

theorem holds_bind {x : EStateM ε σ α} {f : α → EStateM ε σ β} (hx : c.Holds x)
    (hf : ∀ a, c.Holds (f a)) : c.Holds (x >>= f) := by
  intro s
  have heq : (x >>= f) s = match x s with
      | .ok a t => f a t
      | .error e t => .error e t := rfl
  rw [heq]
  cases hs : x s with
  | error e t => exact hx.of_error hs
  | ok a t =>
    have hfirst := hx.of_ok hs
    dsimp only
    cases ht : f a t with
    | ok b u => exact c.trans hfirst ((hf a).of_ok ht)
    | error e u =>
      obtain ⟨hrest, he⟩ := (hf a).of_error ht
      exact ⟨c.trans hfirst hrest, he⟩

theorem holds_forM {items : List α} {f : α → EStateM ε σ PUnit} (h : ∀ a ∈ items, c.Holds (f a)) :
    c.Holds (items.forM f) := by
  induction items with
  | nil => exact holds_pure _
  | cons a rest ih =>
    rw [List.forM]
    exact holds_bind (h a (by simp)) fun _ => ih fun b hb => h b (List.mem_cons_of_mem _ hb)

theorem holds_mapM {items : List α} {f : α → EStateM ε σ β} (h : ∀ a ∈ items, c.Holds (f a)) :
    c.Holds (items.mapM f) := by
  induction items with
  | nil => exact holds_pure _
  | cons a rest ih =>
    rw [List.mapM_cons]
    refine holds_bind (h a (by simp)) fun _ => ?_
    refine holds_bind (ih fun b hb => h b (List.mem_cons_of_mem _ hb)) fun _ => ?_
    exact holds_pure _

/-- A computation that keeps to a stricter contract keeps to this one. -/
theorem Holds.weaken {strict : Contract ε σ} {x : EStateM ε σ α} (h : strict.Holds x)
    (hstep : ∀ {s t}, strict.step s t → c.step s t) (herror : ∀ {e}, strict.error e → c.error e) :
    c.Holds x := by
  intro s
  cases hs : x s with
  | ok a t => exact hstep (h.of_ok hs)
  | error e t =>
    obtain ⟨ht, he⟩ := h.of_error hs
    exact ⟨hstep ht, herror he⟩

end Contract

open Contract

/-! ## Evaluating arguments -/

/-- The errors of evaluating an argument. -/
def RuntimeError.OfEvaluation : RuntimeError → Prop
  | .unboundVariable _ | .evaluation _ _ => True
  | .notASet _ | .detached _ | .function _ _ | .missingScript _ | .unregisteredFunction _
  | .missingArguments _ _ _ => False

theorem ofEvaluation_ofEval (text : String) (e : EvalError) :
    (RuntimeError.ofEval text e).OfEvaluation := by
  cases e <;> trivial

/-- A contract allows for evaluating arguments: to note what they give, and to fail at it. -/
structure Contract.Evaluates (c : Contract RuntimeError RunState) : Prop where
  note : ∀ s text value, c.step s { s with events := s.events.push (.evaluated text value) }
  fail : ∀ {e : RuntimeError}, e.OfEvaluation → c.error e

namespace Contract.Evaluates

variable {c : Contract RuntimeError RunState} (hc : c.Evaluates) (site : Site)

include hc

theorem evaluate {α : Type} (text : String) (read : View → Except EvalError α)
    (value : α → Value) : c.Holds (site.evaluate text read value) := by
  intro s
  unfold Site.evaluate
  cases read (site.view s.document) with
  | ok a => exact hc.note s text (value a)
  | error e => exact ⟨c.refl s, hc.fail (ofEvaluation_ofEval text e)⟩

theorem path (text : String) : c.Holds (site.path text) :=
  hc.evaluate site _ _ _

theorem condition (rule : ConditionRule) (text : String) : c.Holds (site.condition rule text) := by
  cases rule with
  | selection => exact hc.evaluate site text (·.condition text) .boolean
  | coerced => exact hc.evaluate site text (·.coercedCondition text) .boolean

theorem lookup (name : String) : c.Holds (site.lookup name) := by
  unfold Site.lookup
  cases site.bindings.get? name with
  | some value => exact holds_pure value
  | none => exact holds_throw (hc.fail trivial)

theorem argument (a : Argument) : c.Holds (site.argument a) := by
  cases a with
  | literal text => exact holds_pure _
  | expression text =>
    exact hc.evaluate site _ (·.expression (Argument.expression text).inner) id
  | annotationSet text =>
    exact holds_bind (hc.path site _) fun ids => holds_pure (Value.annotations ids)
  | variableRef name => exact hc.lookup site name

theorem annotations {a : Argument} (hset : c.error (.notASet a.text)) :
    c.Holds (site.annotations a) := by
  refine holds_bind (hc.argument site a) fun value => ?_
  cases value with
  | annotations ids => exact holds_pure ids
  | _ => exact holds_throw hset

theorem test (rule : ConditionRule) (a : Argument) : c.Holds (site.test rule a) := by
  have hvalue : c.Holds (do let value ← site.argument a; return value.truth) :=
    holds_bind (hc.argument site a) fun value => holds_pure value.truth
  cases a with
  | expression text => exact hc.condition site rule _
  | literal text => exact hvalue
  | annotationSet text => exact hvalue
  | variableRef name => exact hvalue

theorem slot (arity : Nat) (a : Argument) : c.Holds (site.slot arity a) := by
  cases a with
  | variableRef name =>
    rw [Site.slot]
    split
    · exact holds_pure _
    · split
      · exact holds_pure _
      · exact holds_throw (hc.fail trivial)
  | literal text => exact holds_pure _
  | expression text => exact holds_pure _
  | annotationSet text => exact holds_pure _

theorem toAnnotations (value : Value) : c.Holds (site.toAnnotations value) := by
  cases value with
  | annotations ids => exact holds_pure ids
  | boolean b => exact hc.path site (Value.boolean b).text
  | number x => exact hc.path site (Value.number x).text
  | string text => exact hc.path site (Value.string text).text

theorem setFor (slot : Slot) : c.Holds (site.setFor slot) := by
  cases slot with
  | read value => exact hc.toAnnotations site value
  | deferred a =>
    cases a with
    | variableRef name => exact holds_bind (hc.lookup site name) (hc.toAnnotations site)
    | literal text => exact hc.path site (Argument.literal text).inner
    | expression text => exact hc.path site (Argument.expression text).inner
    | annotationSet text => exact hc.path site (Argument.annotationSet text).inner

theorem valueFor (slot : Slot) : c.Holds (site.valueFor slot) := by
  cases slot with
  | read value => exact holds_pure value
  | deferred a => exact hc.argument site a

omit hc in
theorem member {id : AnnotationId} (hgone : c.error (.detached id)) :
    c.Holds (site.member id) := by
  refine holds_bind holds_get fun s => ?_
  cases s.document.valueOf site.scope id with
  | some text => exact holds_pure (Value.string text)
  | none => exact holds_throw hgone

end Contract.Evaluates

/-! ## Calls of functions -/

/-- A function at work keeps to a contract that allows for what it does to the document, for the
events around that, and for its line. -/
theorem Contract.holds_work {c : Contract RuntimeError RunState} {site : Site} {f : Function}
    {called : Descriptor} {params : List Value} (hrecord : ∀ e, c.Holds (Action.record e))
    (hline : ∀ s line, c.step s { s with trace := s.trace.push line })
    (hprocess : c.Holds (site.process f called.name params)) :
    c.Holds (site.apply f called params) := by
  unfold Site.apply
  refine holds_bind (hrecord _) fun _ => holds_bind hprocess fun status => ?_
  refine holds_bind (hrecord _) fun _ => ?_
  cases status with
  | none => exact holds_pure _
  | some line => exact holds_modify fun s => hline s line

/-- A contract allows for the parts of a call: to evaluate the arguments, to find that a member
of a set is gone, and to let the function work in the scope. -/
structure Contract.Serves (c : Contract RuntimeError RunState) (scope : AnnotationId)
    (f : Function) (called : Descriptor) : Prop extends c.Evaluates where
  gone : ∀ id, c.error (.detached id)
  work : ∀ params bindings, c.Holds (Site.apply { scope, bindings } f called params)

namespace Contract

variable {c : Contract RuntimeError RunState} {scope : AnnotationId}

theorem Serves.bindFrom {f : Function} {called : Descriptor} (hc : c.Serves scope f called)
    (slots : List (Slot × ParameterType)) (bindings : Bindings) (params : List Value) :
    c.Holds (Site.bindFrom f called slots { scope, bindings } params) := by
  induction slots generalizing bindings params with
  | nil => exact hc.work params bindings
  | cons first rest ih =>
    rcases first with ⟨slot, type⟩
    cases type with
    | annotationSet =>
      rw [Site.bindFrom]
      exact holds_bind (hc.setFor _ slot) fun ids => ih _ _
    | scalar =>
      rw [Site.bindFrom]
      refine holds_bind (hc.valueFor _ slot) fun value => ?_
      -- A set is taken member by member; any other value as it is.
      cases value with
      | annotations ids =>
        refine holds_forM fun id _ => ?_
        exact holds_bind (Evaluates.member _ (hc.gone id)) fun value => ih _ _
      | boolean b => exact ih _ _
      | number x => exact ih _ _
      | string text => exact ih _ _

theorem Evaluates.call (hc : c.Evaluates) {catalogue : Catalogue} {d : Descriptor}
    {args : List Argument}
    (hmissing : catalogue.implementation d = none → c.error (.unregisteredFunction d.name))
    (hshort : args.length < d.arity → c.error (.missingArguments d.name d.arity args.length))
    (hf : ∀ f, catalogue.implementation d = some f → c.Serves scope f d)
    (bindings : Bindings) : c.Holds (Site.call { scope, bindings } catalogue d args) := by
  unfold Site.call
  cases himpl : catalogue.implementation d with
  | none => exact holds_throw (hmissing himpl)
  | some f =>
    by_cases hlen : args.length < d.arity
    · simp only [if_pos hlen]
      exact holds_throw (hshort hlen)
    · simp only [if_neg hlen]
      refine holds_bind ?_ fun slots => (hf f himpl).bindFrom _ _ _
      exact holds_mapM fun a _ => hc.slot _ _ a

end Contract

/-! ## Reading -/

/-- The errors of reading arguments. -/
def RuntimeError.OfReading : RuntimeError → Prop
  | .unboundVariable _ | .evaluation _ _ | .notASet _ | .detached _ => True
  | .function _ _ | .missingScript _ | .unregisteredFunction _ | .missingArguments _ _ _ => False

theorem RuntimeError.OfEvaluation.ofReading {e : RuntimeError} (h : e.OfEvaluation) :
    e.OfReading := by
  cases e <;> trivial

/-- Reading leaves the document as it is. -/
def Reading : Contract RuntimeError RunState where
  step s t := t.document = s.document
  error := RuntimeError.OfReading
  refl _ := rfl
  trans h₁ h₂ := h₂.trans h₁

theorem reading_evaluates : Reading.Evaluates where
  note _ _ _ := rfl
  fail := RuntimeError.OfEvaluation.ofReading

theorem reads_record (e : Event) : Reading.Holds (Action.record e) :=
  holds_modify fun _ => rfl

namespace Frame

variable (frame : Frame)

theorem holds_withSite {α : Type} {c : Contract RuntimeError RunState} {action : Site → Action α}
    (h : ∀ bindings, c.Holds (action { scope := frame.scope, bindings })) :
    c.Holds (frame.withSite action) :=
  fun s => h s.bindings s

theorem reads_annotations (a : Argument) : Reading.Holds (frame.annotations a) :=
  frame.holds_withSite fun _ => reading_evaluates.annotations _ trivial

theorem reads_assign (name : String) (a : Argument) : Reading.Holds (frame.assign name a) := by
  refine holds_bind (frame.holds_withSite fun _ => reading_evaluates.argument _ a) fun value => ?_
  exact holds_bind (reads_record _) fun _ => holds_modify fun _ => rfl

end Frame

end MarkupScript
