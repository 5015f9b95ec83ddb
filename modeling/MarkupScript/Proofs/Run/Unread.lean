import MarkupScript.Proofs.Run.Combinations

/-!
# Variables that a call does not look up

A call looks up the variables that are whole arguments, and those in the texts that are evaluated
when positions are bound. Which these are depends on the values of the positions before. With
another value for a variable that is not looked up, each part of a call gives the same and adds the
same lines, on a document that stays as it is.

* `Site.callReads`: the names that are looked up in a call.
* `Bindings.Matches`: variables are the same but for one name.
* `InStep`: two computations on one document give the same, and add the same lines.
* `Site.inStep_setFor`, `Site.inStep_valueFor`, `Site.inStep_apply`: the parts of a call, in sites
  that are the same but for a variable that is not looked up.
-/

namespace MarkupScript

/-! ## Names that are looked up in a call -/

/-- The variable that is the whole argument. -/
def Argument.variable? : Argument → Option String
  | .variableRef name => some name
  | .literal _ | .expression _ | .annotationSet _ => none

namespace View

/-- The value of a slot for a scalar parameter. -/
def slotScalar (v : View) : Slot → Except EvalError Value
  | .read value => .ok value
  | .deferred a => v.scalarOf a

/-- The set of a slot for a set parameter. -/
def slotSet (v : View) : Slot → Except EvalError (List AnnotationId)
  | .read (.annotations ids) => .ok ids
  | .read value => v.path value.text
  | .deferred a => v.setOf a

/-- The values that a position may be bound to. -/
def slotValues (v : View) (slot : Slot) : ParameterType → List Value
  | .annotationSet =>
    match v.slotSet slot with
    | .ok ids => [.annotations ids]
    | .error _ => []
  | .scalar =>
    match v.slotScalar slot with
    | .ok (.annotations ids) => ids.filterMap fun id => (v.document.valueOf v.scope id).map .string
    | .ok value => [value]
    | .error _ => []

/-- The names that are looked up when the position of a slot is bound. -/
def slotReads (v : View) : Slot → ParameterType → List String
  | .read _, .scalar => []
  | .read (.annotations _), .annotationSet => []
  | .read value, .annotationSet => v.readsText value.text
  | .deferred a, type => a.variable?.toList ++ v.readsFor a type

/-- An argument can be evaluated in the way that a parameter asks for. -/
def evaluates (v : View) (a : Argument) : ParameterType → Bool
  | .annotationSet => (v.setOf a).toOption.isSome
  | .scalar => (v.scalarOf a).toOption.isSome

end View

namespace Site

/-- The names that are looked up from a position on, for all values of the positions before. -/
def readsFrom (document : Document) : List (Slot × ParameterType) → Site → Nat → List String
  | [], _, _ => []
  | (slot, type) :: rest, site, position =>
    (site.view document).slotReads slot type ++
      ((site.view document).slotValues slot type).flatMap fun value =>
        readsFrom document rest (site.bound position value) (position + 1)

/-- The names that are looked up in a call, by arguments that are variables and when positions are
bound. -/
def callReads (site : Site) (document : Document) (d : Descriptor) (args : List Argument) :
    List String :=
  (args.take d.arity).filterMap Argument.variable? ++
    site.readsFrom document (site.typedSlots d args) 1

end Site

/-! ## Variables that are the same but for one name -/

/-- Variables without those of a name, on all levels. -/
def Bindings.without (b : Bindings) (name : String) : Bindings where
  own := Keyed.erase b.own name
  outer := b.outer.map (Keyed.erase · name)

/-- The variables are the same on each level but for one name. -/
def Bindings.Matches (name : String) (b c : Bindings) : Prop :=
  c.without name = b.without name

namespace Bindings.Matches

variable {name : String} {b c : Bindings}

theorem own (h : Matches name b c) : Keyed.erase c.own name = Keyed.erase b.own name :=
  congrArg Bindings.own h

theorem outer (h : Matches name b c) :
    c.outer.map (Keyed.erase · name) = b.outer.map (Keyed.erase · name) :=
  congrArg Bindings.outer h

theorem set_self (b : Bindings) (value : Value) : Matches name b (b.set name value) := by
  have herase : Keyed.erase (Keyed.put b.own name value) name = Keyed.erase b.own name := by
    generalize b.own = entries
    induction entries with
    | nil => simp [Keyed.put, Keyed.erase]
    | cons entry rest ih =>
      rcases entry with ⟨key, old⟩
      unfold Keyed.put
      unfold Keyed.erase at ih ⊢
      by_cases hkey : key = name
      · simp [hkey]
      · rw [if_neg hkey, List.filter_cons, List.filter_cons, ih]
  unfold Matches without set
  rw [herase]

theorem find?_erase (levels : List (Keyed String Value)) {other : String} (h : other ≠ name) :
    find? (levels.map (Keyed.erase · name)) other = find? levels other := by
  induction levels with
  | nil => rfl
  | cons level rest ih =>
    rw [List.map_cons, find?, find?, Keyed.get?_erase, if_neg h.symm, ih]

/-- Other names are looked up alike. -/
theorem get?_eq (h : Matches name b c) {other : String} (hother : other ≠ name) :
    c.get? other = b.get? other := by
  have hlevels : (c.own :: c.outer).map (Keyed.erase · name) =
      (b.own :: b.outer).map (Keyed.erase · name) := by
    rw [List.map_cons, List.map_cons, h.own, h.outer]
  unfold get?
  rw [← find?_erase (c.own :: c.outer) hother, hlevels, find?_erase _ hother]

end Bindings.Matches

/-- A function leaves the document as it is, whether it succeeds or fails. -/
def Function.LeavesDocument (f : Function) : Prop :=
  ∀ call document, match f.process call document with
    | .ok _ d => d = document
    | .error _ d => d = document

/-- A function does not read a variable. -/
def Function.Ignores (f : Function) (name : String) : Prop :=
  ∀ scope params b c, b.Matches name c →
    f.process { scope, params, bindings := b } = f.process { scope, params, bindings := c }

/-! ## Computations in step -/

/-- Two states have the document, and the same lines. -/
structure RunState.Even (document : Document) (s t : RunState) : Prop where
  left : s.document = document
  right : t.document = document
  trace : t.trace = s.trace

/-- Two results are the same but for variables and events, and the document is as it was. -/
inductive SameEnd {ε α : Type} (document : Document) :
    EStateM.Result ε RunState α → EStateM.Result ε RunState α → Prop
  | ok (a : α) {s t : RunState} (h : s.Even document t) : SameEnd document (.ok a s) (.ok a t)
  | error (e : ε) {s t : RunState} (h : s.Even document t) :
      SameEnd document (.error e s) (.error e t)

/-- On a document, two computations give the same and add the same lines. -/
def InStep {α : Type} (document : Document) (x y : Action α) : Prop :=
  ∀ s t : RunState, s.Even document t → SameEnd document (x s) (y t)

/-- On a document, a computation may give a value. -/
def Gives {α : Type} (document : Document) (x : Action α) (a : α) : Prop :=
  ∃ s t, s.document = document ∧ x s = .ok a t

section InStep

variable {document : Document} {α β : Type}

theorem inStep_pure (a : α) : InStep document (pure a) (pure a) :=
  fun _ _ h => .ok a h

theorem inStep_throw (e : RuntimeError) : InStep document (throw e : Action α) (throw e) :=
  fun _ _ h => .error e h

theorem inStep_bind {x y : Action α} {f g : α → Action β} (hx : InStep document x y)
    (hf : ∀ a, Gives document x a → InStep document (f a) (g a)) :
    InStep document (x >>= f) (y >>= g) := by
  intro s t h
  have hfirst := hx s t h
  generalize hr : x s = r at hfirst
  generalize hr' : y t = r' at hfirst
  cases hfirst with
  | ok a hnext =>
    rw [bind_of_ok hr, bind_of_ok hr']
    exact hf a ⟨s, _, h.left, hr⟩ _ _ hnext
  | error e hnext =>
    rw [bind_of_error hr, bind_of_error hr']
    exact .error e hnext

theorem inStep_forM {items : List α} {f g : α → Action PUnit}
    (h : ∀ a ∈ items, InStep document (f a) (g a)) :
    InStep document (items.forM f) (items.forM g) := by
  induction items with
  | nil => exact inStep_pure _
  | cons a rest ih =>
    rw [List.forM, List.forM]
    refine inStep_bind (h a List.mem_cons_self) fun _ _ => ?_
    exact ih fun b hb => h b (List.mem_cons_of_mem a hb)

theorem inStep_record (e e' : Event) :
    InStep document (Action.record e) (Action.record e') :=
  fun _ _ h => .ok () ⟨h.left, h.right, h.trace⟩

end InStep

namespace Site

variable {document : Document} {site inner inner' : Site} {name : String}

/-! ## What reading gives -/

theorem evaluate_eq_ok {α : Type} {read : View → Except EvalError α} {text : String}
    {value : α → Value} {a : α} {s t : RunState} (h : inner.evaluate text read value s = .ok a t) :
    read (inner.view s.document) = .ok a := by
  unfold evaluate at h
  cases hread : read (inner.view s.document) with
  | ok b =>
    rw [hread] at h
    cases h
    rfl
  | error e =>
    rw [hread] at h
    cases h

theorem path_eq_ok {text : String} {ids : List AnnotationId} {s t : RunState}
    (h : inner.path text s = .ok ids t) : (inner.view s.document).path text = .ok ids :=
  evaluate_eq_ok h

theorem expression_eq_ok {text : String} {value : Value} {s t : RunState}
    (h : inner.expression text s = .ok value t) :
    (inner.view s.document).expression text = .ok value :=
  evaluate_eq_ok h

theorem lookup_eq_ok {other : String} {value : Value} {s t : RunState}
    (h : inner.lookup other s = .ok value t) : inner.bindings.get? other = some value ∧ t = s := by
  unfold lookup at h
  cases hfound : inner.bindings.get? other with
  | some found =>
    rw [hfound] at h
    cases h
    exact ⟨rfl, rfl⟩
  | none =>
    rw [hfound] at h
    cases h

theorem toAnnotations_eq_ok {value : Value} {ids : List AnnotationId} {s t : RunState}
    (h : inner.toAnnotations value s = .ok ids t) :
    (inner.view s.document).slotSet (.read value) = .ok ids := by
  cases value with
  | annotations found =>
    cases h
    rfl
  | boolean b => exact path_eq_ok h
  | number x => exact path_eq_ok h
  | string text => exact path_eq_ok h

theorem setFor_eq_ok {slot : Slot} {ids : List AnnotationId} {s t : RunState}
    (h : inner.setFor slot s = .ok ids t) : (inner.view s.document).slotSet slot = .ok ids := by
  cases slot with
  | read value => exact toAnnotations_eq_ok h
  | deferred a =>
    cases a with
    | literal text => exact path_eq_ok h
    | expression text => exact path_eq_ok h
    | annotationSet text => exact path_eq_ok h
    | variableRef other =>
      rw [setFor] at h
      cases hlookup : inner.lookup other s with
      | error e u =>
        rw [bind_of_error hlookup] at h
        cases h
      | ok value u =>
        rw [bind_of_ok hlookup] at h
        rcases lookup_eq_ok hlookup with ⟨hget, rfl⟩
        have hset := toAnnotations_eq_ok h
        simp only [View.slotSet, View.setOf, view, hget]
        cases value with
        | annotations found => exact hset
        | _ => exact hset

theorem valueFor_eq_ok {slot : Slot} {value : Value} {s t : RunState}
    (h : inner.valueFor slot s = .ok value t) :
    (inner.view s.document).slotScalar slot = .ok value := by
  cases slot with
  | read found =>
    cases h
    rfl
  | deferred a =>
    cases a with
    | literal text =>
      cases h
      rfl
    | expression text => exact expression_eq_ok h
    | annotationSet text =>
      rw [valueFor, argument] at h
      cases hpath : inner.path (Argument.annotationSet text).inner s with
      | error e u =>
        rw [bind_of_error hpath] at h
        cases h
      | ok ids u =>
        rw [bind_of_ok hpath] at h
        cases h
        simp only [View.slotScalar, View.scalarOf, path_eq_ok hpath, Except.map]
    | variableRef other =>
      rcases lookup_eq_ok h with ⟨hget, -⟩
      simp only [View.slotScalar, View.scalarOf, view, hget]

theorem valueOf_of_member {id : AnnotationId} {value : Value} {s t : RunState}
    (h : inner.member id s = .ok value t) :
    (s.document.valueOf inner.scope id).map Value.string = some value := by
  rw [member_eq] at h
  cases htext : s.document.valueOf inner.scope id with
  | none =>
    simp only [htext, Option.map_none, Action.require] at h
    cases h
  | some text =>
    simp only [htext, Option.map_some, Action.require] at h
    cases h
    rfl

theorem mem_slotValues_of_set {slot : Slot} {ids : List AnnotationId}
    (h : Gives document (inner.setFor slot) ids) :
    .annotations ids ∈ (inner.view document).slotValues slot .annotationSet := by
  rcases h with ⟨s, t, rfl, hset⟩
  simp only [View.slotValues, setFor_eq_ok hset, List.mem_singleton]

theorem mem_slotValues_of_value {slot : Slot} {value : Value}
    (h : Gives document (inner.valueFor slot) value) (hscalar : value.isAnnotations = false) :
    value ∈ (inner.view document).slotValues slot .scalar := by
  rcases h with ⟨s, t, rfl, hvalue⟩
  have hread := valueFor_eq_ok hvalue
  cases value with
  | annotations ids => cases hscalar
  | _ => simp only [View.slotValues, hread, List.mem_singleton]

theorem mem_slotValues_of_member {slot : Slot} {ids : List AnnotationId} {id : AnnotationId}
    {value : Value} (h : Gives document (inner.valueFor slot) (.annotations ids)) (hid : id ∈ ids)
    (hmember : Gives document (inner.member id) value) :
    value ∈ (inner.view document).slotValues slot .scalar := by
  rcases h with ⟨s, t, rfl, hvalue⟩
  rcases hmember with ⟨u, w, hu, hmember⟩
  have htext := valueOf_of_member hmember
  rw [hu] at htext
  simp only [View.slotValues, valueFor_eq_ok hvalue, List.mem_filterMap]
  exact ⟨id, hid, htext⟩

/-! ## Reading without one variable -/

/-- Two sites are the same but for one variable. -/
structure Beside (name : String) (inner inner' : Site) : Prop where
  scope : inner'.scope = inner.scope
  bindings : inner.bindings.Matches name inner'.bindings

theorem Beside.bound (h : inner.Beside name inner') (position : Nat) (value : Value) :
    (inner.bound position value).Beside name (inner'.bound position value) where
  scope := h.scope
  bindings := by
    show Bindings.without _ name = Bindings.without _ name
    unfold Site.bound Bindings.push Bindings.set Bindings.without
    rw [List.map_cons, List.map_cons, h.bindings.own, h.bindings.outer]

theorem Beside.view_eq (h : inner.Beside name inner') (document : Document) :
    inner'.view document = (inner.view document).rebound inner'.bindings := by
  rw [view, view, View.rebound, h.scope]

theorem Beside.get?_eq (h : inner.Beside name inner') {names : List String} (hname : name ∉ names) :
    ∀ other ∈ names, inner'.bindings.get? other = inner.bindings.get? other := by
  intro other hother
  refine h.bindings.get?_eq ?_
  rintro rfl
  exact hname hother

theorem inStep_evaluate {α : Type} {read : View → Except EvalError α} {text : String}
    {value : α → Value} (h : read (inner'.view document) = read (inner.view document)) :
    InStep document (inner.evaluate text read value) (inner'.evaluate text read value) := by
  intro s t heven
  unfold evaluate
  rw [heven.left, heven.right, h]
  cases read (inner.view document) with
  | ok a => exact .ok a ⟨rfl, rfl, heven.trace⟩
  | error e => exact .error _ heven

section

variable (h : inner.Beside name inner')

include h

theorem inStep_path {text : String} (hreads : name ∉ (inner.view document).readsText text) :
    InStep document (inner.path text) (inner'.path text) := by
  refine inStep_evaluate ?_
  rw [h.view_eq]
  exact View.path_eq_of_reads (h.get?_eq hreads)

theorem inStep_expression {text : String}
    (hreads : name ∉ (inner.view document).readsText text) :
    InStep document (inner.expression text) (inner'.expression text) := by
  refine inStep_evaluate ?_
  rw [h.view_eq]
  exact View.expression_eq_of_reads (h.get?_eq hreads)

theorem inStep_lookup {other : String} (hother : name ≠ other) :
    InStep document (inner.lookup other) (inner'.lookup other) := by
  unfold lookup
  rw [h.bindings.get?_eq hother.symm]
  cases inner.bindings.get? other with
  | some value => exact inStep_pure value
  | none => exact inStep_throw _

theorem inStep_toAnnotations {value : Value}
    (hreads : name ∉ (inner.view document).slotReads (.read value) .annotationSet) :
    InStep document (inner.toAnnotations value) (inner'.toAnnotations value) := by
  cases value with
  | annotations ids => exact inStep_pure ids
  | boolean b => exact inStep_path h hreads
  | number x => exact inStep_path h hreads
  | string text => exact inStep_path h hreads

theorem inStep_argument {a : Argument}
    (hreads : name ∉ (inner.view document).slotReads (.deferred a) .scalar) :
    InStep document (inner.argument a) (inner'.argument a) := by
  cases a with
  | literal text => exact inStep_pure _
  | expression text => exact inStep_expression h hreads
  | annotationSet text => exact inStep_bind (inStep_path h hreads) fun ids _ => inStep_pure _
  | variableRef other =>
    refine inStep_lookup h ?_
    rintro rfl
    exact hreads List.mem_cons_self

theorem inStep_valueFor {slot : Slot}
    (hreads : name ∉ (inner.view document).slotReads slot .scalar) :
    InStep document (inner.valueFor slot) (inner'.valueFor slot) := by
  cases slot with
  | read value => exact inStep_pure value
  | deferred a => exact inStep_argument h hreads

theorem inStep_setFor {slot : Slot}
    (hreads : name ∉ (inner.view document).slotReads slot .annotationSet) :
    InStep document (inner.setFor slot) (inner'.setFor slot) := by
  cases slot with
  | read value => exact inStep_toAnnotations h hreads
  | deferred a =>
    cases a with
    | literal text => exact inStep_path h hreads
    | expression text => exact inStep_path h hreads
    | annotationSet text => exact inStep_path h hreads
    | variableRef other =>
      have hother : name ≠ other := by
        rintro rfl
        exact hreads List.mem_cons_self
      refine inStep_bind (inStep_lookup h hother) fun value hgives => ?_
      rcases hgives with ⟨s, t, -, hlookup⟩
      have hget := (lookup_eq_ok hlookup).1
      refine inStep_toAnnotations h fun hmem => hreads (List.mem_cons_of_mem _ ?_)
      simp only [View.readsFor, view, hget]
      cases value with
      | annotations ids => cases hmem
      | _ => exact hmem

theorem inStep_member (id : AnnotationId) :
    InStep document (inner.member id) (inner'.member id) := by
  intro s t heven
  rw [member_eq, member_eq]
  dsimp only
  rw [heven.left, heven.right, h.scope]
  cases document.valueOf inner.scope id with
  | some text => exact .ok _ heven
  | none => exact .error _ heven

/-- A function that does not read the variable, and leaves the document as it is. -/
theorem inStep_apply {f : Function} (hf : f.LeavesDocument) (hignores : f.Ignores name)
    (called : Descriptor) (params : List Value) :
    InStep document (inner.apply f called params) (inner'.apply f called params) := by
  have hprocess : InStep document (inner.process f called.name params)
      (inner'.process f called.name params) := by
    intro s t heven
    have hsame := hignores inner.scope params _ _ h.bindings
    have hleaves := hf { scope := inner.scope, params, bindings := inner'.bindings } document
    unfold process
    rw [h.scope, hsame, heven.left, heven.right]
    cases hresult : f.process { scope := inner.scope, params, bindings := inner'.bindings }
        document with
    | ok status d =>
      rw [hresult] at hleaves
      exact .ok status ⟨hleaves, hleaves, heven.trace⟩
    | error e d =>
      rw [hresult] at hleaves
      exact .error _ ⟨hleaves, hleaves, heven.trace⟩
  refine inStep_bind (inStep_record _ _) fun _ _ => inStep_bind hprocess fun status _ => ?_
  refine inStep_bind (inStep_record _ _) fun _ _ => ?_
  cases status with
  | none => exact inStep_pure ()
  | some line =>
    intro s t heven
    have htrace : t.trace.push line = s.trace.push line := by rw [heven.trace]
    exact .ok () ⟨heven.left, heven.right, htrace⟩

end

end Site

end MarkupScript
