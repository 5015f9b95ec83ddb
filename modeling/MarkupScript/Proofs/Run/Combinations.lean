import MarkupScript.Proofs.Expression.Reads
import MarkupScript.Proofs.Run.Detached
import MarkupScript.Proofs.Run.Positions
import Mathlib.Algebra.BigOperators.Group.List.Basic
import Mathlib.Data.List.Forall2

/-!
# The combinations that a function works on

Each argument of a call offers values for its parameter: a set as a whole, one value, or the texts
of the members of a set. If no argument looks up a variable of a position, then what it offers is
settled before the call, and the function works on all combinations of the values offered.

* `combinations`: one value from each list, the first changing slowest.
* `View.choices`: the values that an argument offers, in view of the caller.
* `RunState.Worked`: a function has worked on calls; `Worked.trans`: and then on others.
* `Site.bindFrom_worked`: from any position on, all combinations are gone through.
* `Site.call_combinations`: the whole call.
-/

namespace MarkupScript

/-! ## Combinations -/

/-- One value from each list, in all ways, the first changing slowest. -/
def combinations {α : Type} : List (List α) → List (List α)
  | [] => [[]]
  | choices :: rest => choices.flatMap fun a => (combinations rest).map (a :: ·)

theorem length_combinations {α : Type} (lists : List (List α)) :
    (combinations lists).length = (lists.map List.length).prod := by
  induction lists with
  | nil => rfl
  | cons choices rest ih =>
    -- Each of the choices is followed by all combinations of the rest.
    rw [combinations, List.length_flatMap, List.map_cons, List.prod_cons, ← ih]
    simp

theorem combinations_of_mem_nil {α : Type} {lists : List (List α)} (h : [] ∈ lists) :
    combinations lists = [] := by
  induction lists with
  | nil => cases h
  | cons choices rest ih =>
    rcases List.mem_cons.mp h with rfl | hrest
    · rfl
    · simp [combinations, ih hrest]

/-! ## What arguments offer -/

namespace View

/-- The value of an argument for a scalar parameter. -/
def scalarOf (v : View) : Argument → Except EvalError Value
  | .literal text => .ok (.string text)
  | .expression text => v.expression (Argument.expression text).inner
  | .annotationSet text => (v.path (Argument.annotationSet text).inner).map .annotations
  | .variableRef name =>
    match v.bindings.get? name with
    | some value => .ok value
    | none => .error (.unboundVariable name)

/-- The set of an argument for a set parameter. The text of anything but a set is a path. -/
def setOf (v : View) : Argument → Except EvalError (List AnnotationId)
  | .variableRef name =>
    match v.bindings.get? name with
    | some (.annotations ids) => .ok ids
    | some value => v.path value.text
    | none => .error (.unboundVariable name)
  | a => v.path a.inner

/-- The values that an argument offers: the set as a whole, the one value, or the texts of the
members of a set, which all have to be in the scope. -/
def choices (v : View) (a : Argument) : ParameterType → Option (List Value)
  | .annotationSet => (v.setOf a).toOption.map fun ids => [.annotations ids]
  | .scalar =>
    match v.scalarOf a with
    | .ok (.annotations ids) => ids.mapM fun id => (v.document.valueOf v.scope id).map .string
    | .ok value => some [value]
    | .error _ => none

/-- The names that are looked up when the position of an argument is bound. A variable that is the
whole argument has been looked up before. -/
def readsFor (v : View) (a : Argument) (type : ParameterType) : List String :=
  match a, type with
  | .literal _, .scalar => []
  | .variableRef _, .scalar => []
  | .variableRef name, .annotationSet =>
    match v.bindings.get? name with
    | some (.annotations _) => []
    | some value => v.readsText value.text
    | none => []
  | a, _ => v.readsText a.inner

end View

namespace Site

/-- None of the names is the variable of one of the first positions. -/
def AvoidPositions (arity : Nat) (names : List String) : Prop :=
  ∀ name ∈ names, ∀ k, 1 ≤ k → k ≤ arity → name ≠ positionVariable k

/-- An argument offers values for a parameter, and looks up no variable of a position. -/
def Offers (site : Site) (document : Document) (arity : Nat) (entry : Argument × Parameter)
    (values : List Value) : Prop :=
  (site.view document).choices entry.1 entry.2.type = some values ∧
    AvoidPositions arity ((site.view document).readsFor entry.1 entry.2.type)

/-- The site after positions from one on were bound. -/
def boundFrom (site : Site) : Nat → List Value → Site
  | _, [] => site
  | position, value :: rest => (site.bound position value).boundFrom (position + 1) rest

/-- What a function is given when values were bound to the positions after those of `params`. -/
def callFrom (site : Site) (params more : List Value) : Call :=
  { scope := site.scope, params := params ++ more
    bindings := (site.boundFrom (params.length + 1) more).bindings }

theorem callFrom_cons (site : Site) (params more : List Value) (value : Value) :
    site.callFrom params (value :: more) =
      (site.bound (params.length + 1) value).callFrom (params ++ [value]) more := by
  simp only [callFrom, boundFrom, List.append_assoc, List.singleton_append, List.length_append,
    List.length_singleton]
  rfl

end Site

/-! ## Functions at work -/

/-- The function and the values of an event that says that a function begins to work. -/
def Event.invocation? : Event → Option (Descriptor × List Value)
  | .invoking called params => some (called, params)
  | .assigned _ _ | .iterated _ _ | .evaluated _ _ | .invoked _ _ => none

/-- A function has worked on calls, one after another, and nothing else was done than reading: the
events tell of each call, and the trace has got the lines. -/
structure RunState.Worked (called : Descriptor) (status : Call → Option String) (calls : List Call)
    (s t : RunState) : Prop where
  document : t.document = s.document
  bindings : t.bindings = s.bindings
  events : ∃ new, t.events.toList = s.events.toList ++ new ∧
    new.filterMap Event.invocation? = calls.map fun call => (called, call.params)
  trace : t.trace.toList = s.trace.toList ++ calls.filterMap status

section

open RunState

variable {called : Descriptor} {status : Call → Option String} {s t u : RunState}

theorem RunState.Worked.refl (s : RunState) : Worked called status [] s s where
  document := rfl
  bindings := rfl
  events := ⟨[], by simp⟩
  trace := by simp

theorem RunState.Worked.trans {calls calls' : List Call} (h : Worked called status calls s t)
    (h' : Worked called status calls' t u) : Worked called status (calls ++ calls') s u where
  document := h'.document.trans h.document
  bindings := h'.bindings.trans h.bindings
  events := by
    rcases h.events with ⟨new, hnew, hcalls⟩
    rcases h'.events with ⟨new', hnew', hcalls'⟩
    refine ⟨new ++ new', ?_, ?_⟩
    · rw [hnew', hnew, List.append_assoc]
    · rw [List.filterMap_append, hcalls, hcalls', List.map_append]
  trace := by rw [h'.trace, h.trace, List.filterMap_append, List.append_assoc]

/-- An evaluation is noted. -/
theorem RunState.worked_evaluated (s : RunState) (text : String) (value : Value) :
    Worked called status [] s { s with events := s.events.push (.evaluated text value) } where
  document := rfl
  bindings := rfl
  events := ⟨[.evaluated text value], by simp, rfl⟩
  trace := by simp

namespace Site

variable {site inner : Site} {params : List Value}

/-- A function works on one call. -/
theorem apply_worked {f : Function}
    (hf : ∀ call, f.process call s.document = .ok (status call) s.document) :
    ∃ t, inner.apply f called params s = .ok () t ∧
      Worked called status [inner.callFrom params []] s t := by
  have hcall : inner.callFrom params [] =
      { scope := inner.scope, params, bindings := inner.bindings } := by
    rw [callFrom, List.append_nil, boundFrom]
  rw [hcall]
  have hbegin : Action.record (.invoking called params) s =
      .ok () { s with events := s.events.push (.invoking called params) } := rfl
  unfold Site.apply
  rw [bind_of_ok hbegin]
  -- The first event is noted, and the document is as it was.
  generalize hs : { s with events := s.events.push (.invoking called params) } = u
  have hdocument : u.document = s.document := by rw [← hs]
  have hprocess : inner.process f called.name params u =
      .ok (status { scope := inner.scope, params, bindings := inner.bindings }) u := by
    rw [Site.process, hdocument, hf]
    simp only [← hdocument]
  have hend : Action.record
      (.invoked called (status { scope := inner.scope, params, bindings := inner.bindings })) u =
      .ok () { u with events := u.events.push (.invoked called
        (status { scope := inner.scope, params, bindings := inner.bindings })) } := rfl
  rw [bind_of_ok hprocess, bind_of_ok hend, ← hs]
  cases hstatus : status { scope := inner.scope, params, bindings := inner.bindings } with
  | none =>
    refine ⟨_, rfl, rfl, rfl, ?_, ?_⟩
    · exact ⟨[.invoking called params, .invoked called none], by simp, rfl⟩
    · simp [hstatus]
  | some line =>
    refine ⟨_, rfl, rfl, rfl, ?_, ?_⟩
    · exact ⟨[.invoking called params, .invoked called (some line)], by simp, rfl⟩
    · simp [hstatus]

/-! ## Reading at a position -/

/-- A site inside a call sees the document as its caller does, but for the variables. -/
theorem Binds.view_eq (h : site.Binds params inner) (document : Document) :
    inner.view document = (site.view document).rebound inner.bindings := by
  rw [view, view, View.rebound, h.scope]

/-- Names that are none of positions are looked up as in the caller. -/
theorem Binds.get?_eq (h : site.Binds params inner) {arity : Nat} (hlength : params.length ≤ arity)
    {names : List String} (hnames : AvoidPositions arity names) :
    ∀ name ∈ names, inner.bindings.get? name = site.bindings.get? name := by
  intro name hname
  apply h.other
  intro k hk hk'
  exact hnames name hname k hk (by omega)

theorem evaluate_worked {α : Type} {text : String} {read : View → Except EvalError α}
    {value : α → Value} {a : α} (h : read (inner.view s.document) = .ok a) :
    ∃ t, inner.evaluate text read value s = .ok a t ∧ Worked called status [] s t := by
  refine ⟨_, ?_, worked_evaluated s text (value a)⟩
  rw [evaluate, h]

section

variable (hbinds : site.Binds params inner) {arity : Nat} (hlength : params.length ≤ arity)

include hbinds hlength

theorem path_worked {text : String} {ids : List AnnotationId}
    (hpath : (site.view s.document).path text = .ok ids)
    (hreads : AvoidPositions arity ((site.view s.document).readsText text)) :
    ∃ t, inner.path text s = .ok ids t ∧ Worked called status [] s t := by
  have hsame : (inner.view s.document).path text = (site.view s.document).path text := by
    rw [hbinds.view_eq]
    exact View.path_eq_of_reads (hbinds.get?_eq hlength hreads)
  exact evaluate_worked (hsame.trans hpath)

theorem expression_worked {text : String} {value : Value}
    (hvalue : (site.view s.document).expression text = .ok value)
    (hreads : AvoidPositions arity ((site.view s.document).readsText text)) :
    ∃ t, inner.expression text s = .ok value t ∧ Worked called status [] s t := by
  have hsame : (inner.view s.document).expression text =
      (site.view s.document).expression text := by
    rw [hbinds.view_eq]
    exact View.expression_eq_of_reads (hbinds.get?_eq hlength hreads)
  exact evaluate_worked (hsame.trans hvalue)

/-- A set parameter takes the set that its argument has in view of the caller. -/
theorem setFor_worked {a : Argument} {ids : List AnnotationId}
    (hset : (site.view s.document).setOf a = .ok ids)
    (hreads : AvoidPositions arity ((site.view s.document).readsFor a .annotationSet)) :
    ∃ t, inner.setFor (site.slotOf a) s = .ok ids t ∧ Worked called status [] s t := by
  cases a with
  | literal text => exact path_worked hbinds hlength hset hreads
  | expression text => exact path_worked hbinds hlength hset hreads
  | annotationSet text => exact path_worked hbinds hlength hset hreads
  | variableRef x =>
    cases hget : site.bindings.get? x with
    | none =>
      simp only [View.setOf, view, hget] at hset
      cases hset
    | some value =>
      have hslot : site.slotOf (.variableRef x) = .read value := by
        simp only [slotOf, hget]
      rw [hslot]
      -- A set is taken as it is, and the text of anything else is a path.
      cases value with
      | annotations ids' =>
        simp only [View.setOf, view, hget] at hset
        cases hset
        exact ⟨s, rfl, .refl s⟩
      | _ =>
        simp only [View.setOf, View.readsFor, view, hget] at hset hreads
        exact path_worked hbinds hlength hset hreads

/-- A scalar parameter takes the value that its argument has in view of the caller. -/
theorem valueFor_worked {a : Argument} {value : Value}
    (hvalue : (site.view s.document).scalarOf a = .ok value)
    (hreads : AvoidPositions arity ((site.view s.document).readsFor a .scalar)) :
    ∃ t, inner.valueFor (site.slotOf a) s = .ok value t ∧ Worked called status [] s t := by
  cases a with
  | literal text =>
    cases hvalue
    exact ⟨s, rfl, .refl s⟩
  | expression text => exact expression_worked hbinds hlength hvalue hreads
  | annotationSet text =>
    cases hpath : (site.view s.document).path (Argument.annotationSet text).inner with
    | error e =>
      simp only [View.scalarOf, hpath, Except.map] at hvalue
      cases hvalue
    | ok ids =>
      simp only [View.scalarOf, hpath, Except.map] at hvalue
      cases hvalue
      rcases path_worked hbinds hlength hpath hreads with ⟨t, ht, hworked⟩
      refine ⟨t, ?_, hworked⟩
      show (inner.path (Argument.annotationSet text).inner >>= _) s = _
      rw [bind_of_ok ht]
      rfl
  | variableRef x =>
    cases hget : site.bindings.get? x with
    | none =>
      simp only [View.scalarOf, view, hget] at hvalue
      cases hvalue
    | some found =>
      have hslot : site.slotOf (.variableRef x) = .read found := by
        simp only [slotOf, hget]
      simp only [View.scalarOf, view, hget] at hvalue
      cases hvalue
      rw [hslot]
      exact ⟨s, rfl, .refl s⟩

end

/-! ## From a position on -/

variable {f : Function} {rest : List (Slot × ParameterType)} {slot : Slot}

theorem bindFrom_set {ids : List AnnotationId} (h : inner.setFor slot s = .ok ids t) :
    bindFrom f called ((slot, .annotationSet) :: rest) inner params s =
      bindFrom f called rest (inner.bound (params.length + 1) (.annotations ids))
        (params ++ [.annotations ids]) t := by
  rw [bindFrom, bind_of_ok h]

theorem bindFrom_value {value : Value} (h : inner.valueFor slot s = .ok value t)
    (hscalar : value.isAnnotations = false) :
    bindFrom f called ((slot, .scalar) :: rest) inner params s =
      bindFrom f called rest (inner.bound (params.length + 1) value) (params ++ [value]) t := by
  rw [bindFrom, bind_of_ok h]
  cases value with
  | annotations ids => cases hscalar
  | _ => rfl

theorem member_of_valueOf {id : AnnotationId} {text : String}
    (h : s.document.valueOf inner.scope id = some text) :
    inner.member id s = .ok (.string text) s := by
  rw [member_eq]
  simp only [h]
  rfl

/-- The members of a set are gone through in order. -/
theorem rounds_worked {document : Document} {ids : List AnnotationId} {values : List Value}
    (hvalues : ids.mapM (fun id => (document.valueOf inner.scope id).map Value.string) =
      some values)
    {calls : Value → List Call}
    (hnext : ∀ value s, s.document = document →
      ∃ t, bindFrom f called rest (inner.bound (params.length + 1) value) (params ++ [value]) s =
        .ok () t ∧ Worked called status (calls value) s t)
    (hs : s.document = document) :
    ∃ t, inner.rounds f called rest params ids s = .ok () t ∧
      Worked called status (values.flatMap calls) s t := by
  -- On the members: a round leaves the document, so the texts of the others stay what they are.
  induction ids generalizing values s with
  | nil =>
    cases hvalues
    exact ⟨s, rfl, .refl s⟩
  | cons id others ih =>
    rw [List.mapM_cons] at hvalues
    cases htext : document.valueOf inner.scope id with
    | none =>
      simp only [htext, Option.map_none] at hvalues
      cases hvalues
    | some text =>
      cases hmore : others.mapM (fun id => (document.valueOf inner.scope id).map Value.string) with
      | none =>
        simp only [htext, Option.map_some, hmore] at hvalues
        cases hvalues
      | some more =>
        simp only [htext, Option.map_some, hmore] at hvalues
        cases hvalues
        have hmember : inner.member id s = .ok (.string text) s :=
          member_of_valueOf (by rw [hs, htext])
        rcases hnext (.string text) s hs with ⟨t, ht, hfirst⟩
        rcases ih hmore (hfirst.document.trans hs) with ⟨u, hu, hothers⟩
        refine ⟨u, ?_, hfirst.trans hothers⟩
        have hround : (do
            let value ← inner.member id
            bindFrom f called rest (inner.bound (params.length + 1) value) (params ++ [value])) s =
              .ok () t := by
          rw [bind_of_ok hmember, ht]
        unfold rounds
        rw [List.forM, bind_of_ok hround]
        exact hu

/-- The function works on all combinations of what the arguments from a position on offer. -/
theorem bindFrom_worked {document : Document}
    (hf : ∀ call, f.process call document = .ok (status call) document) {arity : Nat}
    {entries : List (Argument × Parameter)} {values : List (List Value)}
    (hoffers : List.Forall₂ (site.Offers document arity) entries values)
    (hbinds : site.Binds params inner) (hlength : params.length + entries.length ≤ arity)
    (hs : s.document = document) :
    ∃ t, bindFrom f called (entries.map fun entry => (site.slotOf entry.1, entry.2.type)) inner
        params s = .ok () t ∧
      Worked called status ((combinations values).map (inner.callFrom params)) s t := by
  -- On the arguments that are left: more and more positions are bound around them.
  induction hoffers generalizing inner params s with
  | nil =>
    subst hs
    exact apply_worked hf
  | @cons entry offered entries values hoffer _ ih =>
    rcases entry with ⟨a, p⟩
    rcases hoffer with ⟨hchoices, hreads⟩
    rw [List.length_cons] at hlength
    have hbefore : params.length ≤ arity := by omega
    -- Each value that the argument offers is followed by all combinations of the others.
    have hnext : ∀ value s, s.document = document →
        ∃ t, bindFrom f called (entries.map fun entry => (site.slotOf entry.1, entry.2.type))
            (inner.bound (params.length + 1) value) (params ++ [value]) s = .ok () t ∧
          Worked called status
            ((combinations values).map fun more => inner.callFrom params (value :: more)) s t := by
      intro value s hs
      have hlength' : (params ++ [value]).length + entries.length ≤ arity := by
        rw [List.length_append, List.length_singleton]
        omega
      rcases ih (hbinds.bound value) hlength' hs with ⟨t, ht, hworked⟩
      refine ⟨t, ht, ?_⟩
      simpa only [callFrom_cons] using hworked
    have hcombinations : (combinations (offered :: values)).map (inner.callFrom params) =
        offered.flatMap fun value =>
          (combinations values).map fun more => inner.callFrom params (value :: more) := by
      rw [combinations, List.map_flatMap]
      simp only [List.map_map]
      rfl
    rw [hcombinations, List.map_cons]
    subst hs
    cases htype : p.type with
    | annotationSet =>
      rw [htype] at hchoices hreads
      cases hset : (site.view s.document).setOf a with
      | error e =>
        simp only [View.choices, hset, Except.toOption, Option.map_none] at hchoices
        cases hchoices
      | ok ids =>
        simp only [View.choices, hset, Except.toOption, Option.map_some] at hchoices
        cases hchoices
        rcases setFor_worked hbinds hbefore hset hreads with ⟨t, ht, hread⟩
        rcases hnext (.annotations ids) t hread.document with ⟨u, hu, hworked⟩
        rw [bindFrom_set ht, List.flatMap_singleton]
        exact ⟨u, hu, hread.trans hworked⟩
    | scalar =>
      rw [htype] at hchoices hreads
      cases hvalue : (site.view s.document).scalarOf a with
      | error e =>
        simp only [View.choices, hvalue] at hchoices
        cases hchoices
      | ok value =>
        rcases valueFor_worked hbinds hbefore hvalue hreads with ⟨t, ht, hread⟩
        cases value with
        | annotations ids =>
          simp only [View.choices, hvalue] at hchoices
          have hmembers : ids.mapM (fun id =>
              (s.document.valueOf inner.scope id).map Value.string) = some offered := by
            rw [hbinds.scope]
            exact hchoices
          rcases rounds_worked hmembers hnext hread.document with ⟨u, hu, hworked⟩
          rw [bindFrom_members ht]
          exact ⟨u, hu, hread.trans hworked⟩
        | _ =>
          simp only [View.choices, hvalue] at hchoices
          cases hchoices
          rcases hnext _ t hread.document with ⟨u, hu, hworked⟩
          rw [bindFrom_value ht rfl, List.flatMap_singleton]
          exact ⟨u, hu, hread.trans hworked⟩

/-! ## Calls -/

/-- An argument that offers values has a slot: a variable is there. -/
theorem slot_of_offers {document : Document} {arity : Nat} {entry : Argument × Parameter}
    {values : List Value} (h : site.Offers document arity entry values) (n : Nat) :
    site.slot n entry.1 s = .ok (site.slotOf entry.1) s := by
  rcases entry with ⟨a, p⟩
  cases a with
  | variableRef x =>
    cases hget : site.bindings.get? x with
    | some value =>
      simp only [slot, slotOf, hget]
      rfl
    | none =>
      -- Then there is neither a value nor a set.
      have hchoices := h.1
      cases htype : p.type with
      | annotationSet =>
        simp only [View.choices, View.setOf, view, hget, htype] at hchoices
        cases hchoices
      | scalar =>
        simp only [View.choices, View.scalarOf, view, hget, htype] at hchoices
        cases hchoices
  | _ => rfl

theorem slots_of_offers {document : Document} {arity : Nat} {args : List Argument}
    {parameters : List Parameter} {values : List (List Value)}
    (hlength : args.length = parameters.length)
    (h : List.Forall₂ (site.Offers document arity) (args.zip parameters) values) (n : Nat) :
    args.mapM (site.slot n) s = .ok (args.map site.slotOf) s := by
  induction args generalizing parameters values with
  | nil => rfl
  | cons a rest ih =>
    cases parameters with
    | nil => cases hlength
    | cons p others =>
      rw [List.zip_cons_cons] at h
      cases h with
      | cons hfirst hrest =>
        have hslot := slot_of_offers hfirst (s := s) n
        have hslots := ih (Nat.succ.inj hlength) hrest
        rw [List.mapM_cons, bind_of_ok hslot, bind_of_ok hslots]
        rfl

/-- Arguments beyond the parameters have no effect. -/
theorem call_take (site : Site) (c : Catalogue) (d : Descriptor) (args : List Argument)
    (h : d.arity ≤ args.length) : site.call c d (args.take d.arity) = site.call c d args := by
  have hlength : (args.take d.arity).length = d.arity := by
    rw [List.length_take]
    omega
  unfold call
  simp only [List.take_take, Nat.min_self, hlength, Nat.lt_irrefl, Nat.not_lt.mpr h, if_false]

/-- A function that succeeds and leaves the document alone, called with arguments that offer values
and look up no variable of a position. It works exactly on the combinations of the values offered,
in their order: the events tell of these calls and no others, and the trace gets their lines. So
there are as many as the product of the numbers of values, and none if an argument offers none.
Arguments beyond the parameters have no effect. -/
theorem call_combinations {c : Catalogue} {d : Descriptor} {args : List Argument}
    {values : List (List Value)} (hc : c.implementation d = some f)
    (hf : ∀ call, f.process call s.document = .ok (status call) s.document)
    (hargs : d.arity ≤ args.length)
    (hoffers : List.Forall₂ (site.Offers s.document d.arity) ((args.take d.arity).zip d.params)
      values) :
    ∃ t new, site.call c d args s = .ok () t ∧ t.document = s.document ∧
      t.bindings = s.bindings ∧ t.events.toList = s.events.toList ++ new ∧
      new.filterMap Event.invocation? = (combinations values).map (fun params => (d, params)) ∧
      t.trace.toList = s.trace.toList ++
        (combinations values).filterMap (fun params => status (site.callFrom [] params)) ∧
      (combinations values).length = (values.map List.length).prod ∧
      ([] ∈ values → combinations values = []) ∧
      site.call c d (args.take d.arity) = site.call c d args := by
  have hlength : (args.take d.arity).length = d.params.length := by
    rw [List.length_take]
    unfold Descriptor.arity at hargs ⊢
    omega
  have hslots : site.typedSlots d args =
      ((args.take d.arity).zip d.params).map fun entry => (site.slotOf entry.1, entry.2.type) := by
    unfold typedSlots
    rw [List.zip_map]
    rfl
  have hentries : ([] : List Value).length + ((args.take d.arity).zip d.params).length ≤
      d.arity := by
    rw [List.length_zip, List.length_nil]
    unfold Descriptor.arity
    omega
  rcases bindFrom_worked hf hoffers (binds_nil site) hentries rfl with ⟨t, ht, hworked⟩
  have hcall : site.call c d args s = .ok () t := by
    unfold call
    rw [hc]
    simp only [Nat.not_lt.mpr hargs, if_false]
    rw [bind_of_ok (slots_of_offers hlength hoffers d.arity)]
    show bindFrom f d (site.typedSlots d args) site [] s = .ok () t
    rw [hslots]
    exact ht
  rcases hworked.events with ⟨new, hevents, hcalls⟩
  refine ⟨t, new, hcall, hworked.document, hworked.bindings, hevents, ?_, ?_,
    length_combinations values, combinations_of_mem_nil, call_take site c d args hargs⟩
  · rw [hcalls, List.map_map]
    rfl
  · rw [hworked.trace, List.filterMap_map]
    rfl

open Document (smallId smallDocument)

/-- The words of the document twice, and an argument too many. -/
def wordArgs : List Argument :=
  [.annotationSet "\x7b//w\x7d", .annotationSet "\x7b//w\x7d", .literal "more"]

/-- Each word is put beside each word. -/
theorem call_combinations_words :
    ∃ t, pairSite.call { functions := [("pair", [pairing])] } pairDescriptor wordArgs
        { document := smallDocument, bindings := .empty } = .ok () t ∧
      t.document = smallDocument ∧
      t.trace.toList = ["Hello Hello", "Hello world", "world Hello", "world world"] := by
  have hinner : (Argument.annotationSet "\x7b//w\x7d").inner = "//w" := by decide +kernel
  have hreads : (pairSite.view smallDocument).readsText "//w" = [] := by decide +kernel
  have hpath : (pairSite.view smallDocument).path "//w" = .ok [smallId 3, smallId 4] := by
    have hsome : ((pairSite.view smallDocument).path "//w").toOption =
        some [smallId 3, smallId 4] := by decide +kernel
    cases hresult : (pairSite.view smallDocument).path "//w" with
    | error e =>
      rw [hresult] at hsome
      cases hsome
    | ok ids =>
      rw [hresult] at hsome
      rw [Option.some.inj hsome]
  have hoffers : ∀ p : Parameter, p.type = .scalar → pairSite.Offers smallDocument 2
      (.annotationSet "\x7b//w\x7d", p) [.string "Hello", .string "world"] := by
    intro p hp
    constructor
    · simp only [hp, View.choices, View.scalarOf, hinner, hpath]
      rfl
    · simp only [View.readsFor, hinner, hreads]
      intro name hname
      cases hname
  have hall : List.Forall₂ (pairSite.Offers smallDocument pairDescriptor.arity)
      ((wordArgs.take pairDescriptor.arity).zip pairDescriptor.params)
      [[.string "Hello", .string "world"], [.string "Hello", .string "world"]] :=
    .cons (hoffers _ rfl) (.cons (hoffers _ rfl) .nil)
  have hpairing : Catalogue.implementation { functions := [("pair", [pairing])] } pairDescriptor =
      some pairing := rfl
  have hprocess : ∀ call, pairing.process call smallDocument =
      .ok (some (" ".intercalate (call.params.map Value.text))) smallDocument := fun _ => rfl
  rcases call_combinations (s := { document := smallDocument, bindings := .empty }) hpairing
    hprocess (by decide) hall with ⟨t, -, hcall, hdocument, -, -, -, htrace, -⟩
  exact ⟨t, hcall, hdocument, htrace⟩

end Site

end

end MarkupScript
