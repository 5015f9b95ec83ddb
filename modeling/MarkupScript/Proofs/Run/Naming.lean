import MarkupScript.Proofs.Run.Course
import MarkupScript.Proofs.Run.Unread

/-!
# Naming an argument

An argument of a call can be given a name first: bound to a variable that nothing else reads, which
then stands in its place. The argument is evaluated before the call now, once, and not each time
its position is bound. If it reads no variable of a position and the function leaves the document
as it is, that makes no difference.

* `Site.Stands`: one slot can stand for another; `bindFrom_inStep`: then it does, for all positions.
* `Site.call_inStep`: the same of a call.
* `Setting.naming_argument`: naming an argument does not change a call.
-/

namespace MarkupScript

/-- There was reading only. A function that is not called may have any descriptor. -/
abbrev RunState.OnlyRead (s u : RunState) : Prop :=
  RunState.Worked { name := "", params := [] } (fun _ => none) [] s u

namespace Site

variable {document : Document} {site inner inner' : Site} {name : String}

/-! ## Slots that stand for others -/

/-- A slot can stand for another in a call: it is the same, or it has already been read. -/
inductive Stands (site : Site) (document : Document) (arity : Nat) :
    Slot × ParameterType → Slot × ParameterType → Prop
  | same (entry : Slot × ParameterType) : Stands site document arity entry entry
  | value {a : Argument} {value : Value} (hslot : site.slotOf a = .deferred a)
      (hvalue : (site.view document).scalarOf a = .ok value)
      (hreads : AvoidPositions arity ((site.view document).readsFor a .scalar)) :
      Stands site document arity (.deferred a, .scalar) (.read value, .scalar)
  | set {a : Argument} {ids : List AnnotationId} (hslot : site.slotOf a = .deferred a)
      (hset : (site.view document).setOf a = .ok ids)
      (hreads : AvoidPositions arity ((site.view document).readsFor a .annotationSet)) :
      Stands site document arity (.deferred a, .annotationSet)
        (.read (.annotations ids), .annotationSet)
  /-- The text of a literal is a path, before and after it was read. -/
  | text (text : String) :
      Stands site document arity (.deferred (.literal text), .annotationSet)
        (.read (.string text), .annotationSet)

/-- Where the function is not called, there is no new line. -/
theorem trace_of_worked_nil {s u : RunState} (h : RunState.OnlyRead s u) : u.trace = s.trace := by
  have hlines := h.trace
  rw [List.filterMap_nil, List.append_nil] at hlines
  exact Array.toList_inj.mp hlines

/-- What was read before is given again, without a trace. -/
theorem inStep_of_worked {α : Type} {x : Action α} {a : α}
    (h : ∀ s : RunState, s.document = document →
      ∃ u, x s = .ok a u ∧ RunState.OnlyRead s u) :
    InStep document x (pure a) := by
  intro s t heven
  rcases h s heven.left with ⟨u, hu, hworked⟩
  have htrace : u.trace = s.trace := trace_of_worked_nil hworked
  rw [hu]
  exact .ok a ⟨hworked.document.trans heven.left, heven.right, heven.trace.trans htrace.symm⟩

section

variable {params : List Value} {arity : Nat} {slot slot' : Slot} (hbinds : site.Binds params inner)
  (hlength : params.length ≤ arity) (hbeside : inner.Beside name inner')

include hbinds hlength hbeside

theorem Stands.inStep_valueFor
    (h : site.Stands document arity (slot, .scalar) (slot', .scalar))
    (hreads : name ∉ (inner.view document).slotReads slot .scalar) :
    InStep document (inner.valueFor slot) (inner'.valueFor slot') := by
  cases h with
  | same => exact Site.inStep_valueFor hbeside hreads
  | @value a value hslot hvalue havoid =>
    refine inStep_of_worked fun s hs => ?_
    subst hs
    have hworked : ∃ u, inner.valueFor (site.slotOf a) s = .ok value u ∧
        RunState.OnlyRead s u := valueFor_worked hbinds hlength hvalue havoid
    rwa [hslot] at hworked

theorem Stands.inStep_setFor
    (h : site.Stands document arity (slot, .annotationSet) (slot', .annotationSet))
    (hreads : name ∉ (inner.view document).slotReads slot .annotationSet) :
    InStep document (inner.setFor slot) (inner'.setFor slot') := by
  cases h with
  | same => exact Site.inStep_setFor hbeside hreads
  | text text => exact inStep_path hbeside hreads
  | @set a ids hslot hset havoid =>
    refine inStep_of_worked fun s hs => ?_
    subst hs
    have hworked : ∃ u, inner.setFor (site.slotOf a) s = .ok ids u ∧
        RunState.OnlyRead s u := setFor_worked hbinds hlength hset havoid
    rwa [hslot] at hworked

end

/-- Slots that stand for others lead to the same calls of the function. -/
theorem bindFrom_inStep {f : Function} (hf : f.LeavesDocument) (hignores : f.Ignores name)
    (called : Descriptor) {arity : Nat} {slots slots' : List (Slot × ParameterType)}
    (hslots : List.Forall₂ (site.Stands document arity) slots slots') {params : List Value}
    (hbinds : site.Binds params inner) (hbeside : inner.Beside name inner')
    (hlength : params.length + slots.length ≤ arity)
    (hreads : name ∉ readsFrom document slots inner (params.length + 1)) :
    InStep document (bindFrom f called slots inner params)
      (bindFrom f called slots' inner' params) := by
  -- On the slots that are left: the sites grow by the same positions.
  induction hslots generalizing inner inner' params with
  | nil => exact inStep_apply hbeside hf hignores called params
  | @cons entry entry' rest rest' hentry _ ih =>
    rcases entry with ⟨slot, type⟩
    rcases entry' with ⟨slot', type'⟩
    have htype : type' = type := by cases hentry <;> rfl
    subst htype
    rw [readsFrom, List.mem_append, not_or] at hreads
    rcases hreads with ⟨hfirst, hrest⟩
    rw [List.length_cons] at hlength
    have hbefore : params.length ≤ arity := by omega
    have hnext : ∀ value ∈ (inner.view document).slotValues slot type', InStep document
        (bindFrom f called rest (inner.bound (params.length + 1) value) (params ++ [value]))
        (bindFrom f called rest' (inner'.bound (params.length + 1) value) (params ++ [value])) := by
      intro value hvalue
      refine ih (hbinds.bound value) (hbeside.bound _ value) ?_ ?_
      · rw [List.length_append, List.length_singleton]
        omega
      · rw [List.length_append, List.length_singleton]
        intro hmem
        exact hrest (List.mem_flatMap.mpr ⟨value, hvalue, hmem⟩)
    cases type' with
    | annotationSet =>
      rw [bindFrom, bindFrom]
      refine inStep_bind (hentry.inStep_setFor hbinds hbefore hbeside hfirst) fun ids hgives => ?_
      exact hnext (.annotations ids) (mem_slotValues_of_set hgives)
    | scalar =>
      rw [bindFrom, bindFrom]
      refine inStep_bind (hentry.inStep_valueFor hbinds hbefore hbeside hfirst)
        fun value hgives => ?_
      cases value with
      | annotations ids =>
        refine inStep_forM fun id hid => ?_
        refine inStep_bind (inStep_member hbeside id) fun text hmember => ?_
        exact hnext text (mem_slotValues_of_member hgives hid hmember)
      | boolean b => exact hnext (.boolean b) (mem_slotValues_of_value hgives rfl)
      | number x => exact hnext (.number x) (mem_slotValues_of_value hgives rfl)
      | string text => exact hnext (.string text) (mem_slotValues_of_value hgives rfl)

/-! ## Calls -/

/-- What selects annotations has them as its value. -/
theorem expression_of_path {v : View} {text : String} {ids : List AnnotationId}
    (h : v.path text = .ok ids) : v.expression text = .ok (.annotations ids) := by
  unfold View.path at h
  unfold View.expression
  cases hoperand : v.operand text with
  | error e =>
    rw [hoperand] at h
    cases h
  | ok operand =>
    rw [hoperand] at h
    cases operand with
    | nodes found =>
      cases h
      rfl
    | strings values => cases h
    | value value =>
      cases value with
      | annotations found =>
        cases h
        rfl
      | _ => cases h

theorem slotOf_eq_deferred {a : Argument} (h : a.variable? = none) :
    site.slotOf a = .deferred a := by
  cases a with
  | variableRef x => cases h
  | _ => rfl

/-- An argument that can be evaluated has a value, and what is bound to it can stand in its
place. -/
theorem Stands.of_evaluates {a : Argument} (hvariable : a.variable? = none)
    {type : ParameterType} {arity : Nat} (h : (site.view document).evaluates a type = true)
    (hreads : AvoidPositions arity ((site.view document).readsFor a type)) :
    ∃ value, (site.view document).scalarOf a = .ok value ∧
      site.Stands document arity (site.slotOf a, type) (.read value, type) := by
  have hslot : site.slotOf a = .deferred a := slotOf_eq_deferred hvariable
  rw [hslot]
  cases type with
  | scalar =>
    cases hvalue : (site.view document).scalarOf a with
    | error e =>
      rw [View.evaluates, hvalue] at h
      cases h
    | ok value => exact ⟨value, rfl, .value hslot hvalue hreads⟩
  | annotationSet =>
    cases hset : (site.view document).setOf a with
    | error e =>
      rw [View.evaluates, hset] at h
      cases h
    | ok ids =>
      -- The value is a set already, but for a literal: its text is a path only to the parameter.
      cases a with
      | literal text => exact ⟨.string text, rfl, .text text⟩
      | expression text =>
        exact ⟨.annotations ids, expression_of_path hset, .set hslot hset hreads⟩
      | annotationSet text =>
        have hpath : (site.view document).path (Argument.annotationSet text).inner = .ok ids := hset
        refine ⟨.annotations ids, ?_, .set hslot hset hreads⟩
        rw [View.scalarOf, hpath]
        rfl
      | variableRef x => cases hvariable

/-- The error of an argument that is a variable which is neither bound nor that of a position. -/
def missing? (site : Site) (arity : Nat) (a : Argument) : Option RuntimeError :=
  match a.variable? with
  | some name =>
    if (site.bindings.get? name).isSome || isPositionVariable name arity then none
    else some (.unboundVariable name)
  | none => none

theorem slot_of_missing {arity : Nat} {a : Argument} {e : RuntimeError}
    (h : site.missing? arity a = some e) (s : RunState) : site.slot arity a s = .error e s := by
  cases a with
  | variableRef x =>
    simp only [missing?, Argument.variable?] at h
    split at h
    · cases h
    · rename_i hnot
      cases h
      simp only [Bool.or_eq_true, not_or, Bool.not_eq_true, Option.isSome_eq_false_iff,
        Option.isNone_iff_eq_none] at hnot
      simp only [slot, hnot.1, hnot.2]
      rfl
  | _ => cases h

theorem slot_of_not_missing {arity : Nat} {a : Argument} (h : site.missing? arity a = none)
    (s : RunState) : site.slot arity a s = .ok (site.slotOf a) s := by
  cases a with
  | variableRef x =>
    cases hget : site.bindings.get? x with
    | some value =>
      simp only [slot, slotOf, hget]
      rfl
    | none =>
      have hposition : isPositionVariable x arity = true := by
        simpa [missing?, Argument.variable?, hget] using h
      simp only [slot, slotOf, hget, hposition]
      rfl
  | _ => rfl

theorem mapM_slot_of_some {arity : Nat} {args : List Argument} {e : RuntimeError}
    (h : args.findSome? (site.missing? arity) = some e) (s : RunState) :
    args.mapM (site.slot arity) s = .error e s := by
  induction args with
  | nil => cases h
  | cons a rest ih =>
    rw [List.findSome?_cons] at h
    rw [List.mapM_cons]
    cases ha : site.missing? arity a with
    | some found =>
      rw [ha] at h
      cases h
      exact bind_of_error (slot_of_missing ha s)
    | none =>
      rw [ha] at h
      rw [bind_of_ok (slot_of_not_missing ha s)]
      exact bind_of_error (ih h)

theorem mapM_slot_of_none {arity : Nat} {args : List Argument}
    (h : args.findSome? (site.missing? arity) = none) (s : RunState) :
    args.mapM (site.slot arity) s = .ok (args.map site.slotOf) s := by
  induction args with
  | nil => rfl
  | cons a rest ih =>
    rw [List.findSome?_cons] at h
    rw [List.mapM_cons]
    cases ha : site.missing? arity a with
    | some found =>
      rw [ha] at h
      cases h
    | none =>
      rw [ha] at h
      rw [bind_of_ok (slot_of_not_missing ha s), bind_of_ok (ih h)]
      rfl

section

variable {value : Value} (hbeside : site.Beside name inner')
  (hname : inner'.bindings.get? name = some value)

include hbeside

theorem slotOf_eq {a : Argument} (h : a.variable? ≠ some name) :
    inner'.slotOf a = site.slotOf a := by
  cases a with
  | variableRef other =>
    have hother : other ≠ name := fun heq => h (congrArg some heq)
    simp only [slotOf, hbeside.bindings.get?_eq hother]
  | _ => rfl

theorem missing?_eq {a : Argument} (h : a.variable? ≠ some name) (arity : Nat) :
    inner'.missing? arity a = site.missing? arity a := by
  cases a with
  | variableRef other =>
    have hother : other ≠ name := fun heq => h (congrArg some heq)
    simp only [missing?, Argument.variable?, hbeside.bindings.get?_eq hother]
  | _ => rfl

include hname

/-- The slots of the call in which the variable stands for the argument at a position. -/
theorem stands_of_set {arity i : Nat} {args : List Argument} {types : List ParameterType}
    (hvariables : ∀ a ∈ args, a.variable? ≠ some name)
    (hstands : ∀ a type, args[i]? = some a → types[i]? = some type →
      site.Stands document arity (site.slotOf a, type) (.read value, type)) :
    List.Forall₂ (site.Stands document arity) ((args.map site.slotOf).zip types)
      (((args.set i (.variableRef name)).map inner'.slotOf).zip types) := by
  induction args generalizing i types with
  | nil => exact .nil
  | cons a rest ih =>
    cases types with
    | nil => simp
    | cons type others =>
      have hrest : ∀ b ∈ rest, b.variable? ≠ some name :=
        fun b hb => hvariables b (List.mem_cons_of_mem a hb)
      cases i with
      | zero =>
        have hread : inner'.slotOf (.variableRef name) = .read value := by
          simp only [slotOf, hname]
        have htail : rest.map inner'.slotOf = rest.map site.slotOf :=
          List.map_congr_left fun b hb => slotOf_eq hbeside (hrest b hb)
        rw [List.set_cons_zero, List.map_cons, List.map_cons, List.zip_cons_cons,
          List.zip_cons_cons, hread, htail]
        exact .cons (hstands a type rfl rfl) (List.forall₂_same.mpr fun entry _ => .same entry)
      | succ i =>
        rw [List.set_cons_succ, List.map_cons, List.map_cons, List.zip_cons_cons,
          List.zip_cons_cons, slotOf_eq hbeside (hvariables a List.mem_cons_self)]
        exact .cons (.same _) (ih hrest fun b type hb htype => hstands b type hb htype)

/-- The variable stands for an argument that is none, so the same variables are missing. -/
theorem missing_of_set {arity i : Nat} {args : List Argument}
    (hvariables : ∀ a ∈ args, a.variable? ≠ some name)
    (hwritten : ∀ a, args[i]? = some a → a.variable? = none) :
    (args.set i (.variableRef name)).findSome? (inner'.missing? arity) =
      args.findSome? (site.missing? arity) := by
  induction args generalizing i with
  | nil => rfl
  | cons a rest ih =>
    have hrest : ∀ b ∈ rest, b.variable? ≠ some name :=
      fun b hb => hvariables b (List.mem_cons_of_mem a hb)
    cases i with
    | zero =>
      have hfound : inner'.missing? arity (.variableRef name) = none := by
        simp [missing?, Argument.variable?, hname]
      have hnone : site.missing? arity a = none := by
        simp only [missing?, hwritten a rfl]
      have htail : rest.findSome? (inner'.missing? arity) =
          rest.findSome? (site.missing? arity) := by
        rw [← List.head?_filterMap, ← List.head?_filterMap]
        exact congrArg List.head?
          (List.filterMap_congr fun b hb => missing?_eq hbeside (hrest b hb) arity)
      rw [List.set_cons_zero, List.findSome?_cons, List.findSome?_cons, hfound, hnone]
      exact htail
    | succ i =>
      have hsame : inner'.missing? arity a = site.missing? arity a :=
        missing?_eq hbeside (hvariables a List.mem_cons_self) arity
      rw [List.set_cons_succ, List.findSome?_cons, List.findSome?_cons, hsame,
        ih hrest fun b hb => hwritten b hb]

end

/-- A variable that has been read stands for an argument of a call. -/
theorem call_inStep {c : Catalogue} {d : Descriptor} {args : List Argument} {i : Nat}
    {a : Argument} {p : Parameter} {value : Value} (hbeside : site.Beside name inner')
    (hname : inner'.bindings.get? name = some value)
    (hf : ∀ f, c.implementation d = some f → f.LeavesDocument ∧ f.Ignores name)
    (ha : args[i]? = some a) (hp : d.params[i]? = some p) (hvariable : a.variable? = none)
    (hstands : site.Stands document d.arity (site.slotOf a, p.type) (.read value, p.type))
    (hreads : name ∉ site.callReads document d args) :
    InStep document (site.call c d args)
      (inner'.call c d (args.set i (.variableRef name))) := by
  rw [callReads, List.mem_append, not_or] at hreads
  rcases hreads with ⟨hvariables, hreads⟩
  -- Arguments beyond the arity are not looked at, so those before it are compared.
  have hvariables : ∀ b ∈ args.take d.arity, b.variable? ≠ some name :=
    fun b hb heq => hvariables (List.mem_filterMap.mpr ⟨b, hb, heq⟩)
  have hi : i < d.arity := (List.getElem?_eq_some_iff.mp hp).1
  have htake : (args.take d.arity)[i]? = some a := by rw [List.getElem?_take_of_lt hi, ha]
  have hmissing : ((args.take d.arity).set i (.variableRef name)).findSome?
      (inner'.missing? d.arity) = (args.take d.arity).findSome? (site.missing? d.arity) := by
    refine missing_of_set hbeside hname hvariables fun b hb => ?_
    rw [htake] at hb
    cases hb
    exact hvariable
  have hslots : List.Forall₂ (site.Stands document d.arity) (site.typedSlots d args)
      ((((args.take d.arity).set i (.variableRef name)).map inner'.slotOf).zip
        (d.params.map (·.type))) := by
    refine stands_of_set hbeside hname hvariables fun b type hb htype => ?_
    rw [htake] at hb
    rw [List.getElem?_map, hp] at htype
    cases hb
    cases htype
    exact hstands
  unfold call
  rw [List.length_set, List.take_set]
  cases himpl : c.implementation d with
  | none => exact inStep_throw _
  | some f =>
    by_cases hargs : args.length < d.arity
    · simp only [if_pos hargs]
      exact inStep_throw _
    · simp only [if_neg hargs]
      rcases hf f himpl with ⟨hleaves, hignores⟩
      have hlength : ([] : List Value).length + (site.typedSlots d args).length ≤ d.arity := by
        rw [length_typedSlots (Nat.le_of_not_lt hargs), List.length_nil]
        omega
      have hbind := bindFrom_inStep hleaves hignores d hslots (binds_nil site) hbeside hlength
        hreads
      intro s t heven
      cases hfound : (args.take d.arity).findSome? (site.missing? d.arity) with
      | some e =>
        rw [bind_of_error (mapM_slot_of_some hfound s),
          bind_of_error (mapM_slot_of_some (hmissing.trans hfound) t)]
        exact .error e heven
      | none =>
        rw [bind_of_ok (mapM_slot_of_none hfound s),
          bind_of_ok (mapM_slot_of_none (hmissing.trans hfound) t)]
        exact hbind s t heven

end Site

/-! ## Statements -/

/-- The error of the statement that stopped a run. -/
def Stop.error? : Stop → Option RuntimeError
  | .failed failure => some failure.error
  | .tooDeep => none

/-- Two runs leave the same lines and the same document, and stop with the same error or not at
all. -/
structure Outcome.Alike (o o' : Outcome) : Prop where
  trace : o'.trace = o.trace
  document : o'.document = o.document
  stop : o'.stop.map Stop.error? = o.stop.map Stop.error?

theorem SameEnd.alike {document : Document} {x y : Action Unit} {s t : RunState}
    (h : SameEnd document (x s) (y t)) (pos pos' : Position) :
    (Outcome.ofResult (x.pinned pos s)).Alike (Outcome.ofResult (y.pinned pos' t)) := by
  unfold Action.pinned
  generalize x s = r at h ⊢
  generalize y t = r' at h ⊢
  cases h with
  | ok a heven =>
    exact ⟨congrArg Array.toList heven.trace, heven.right.trans heven.left.symm, rfl⟩
  | error e heven =>
    exact ⟨congrArg Array.toList heven.trace, heven.right.trans heven.left.symm, rfl⟩

/-- An argument that has a value is bound to it; but for that, only events are added. -/
theorem Frame.assign_of_scalarOf {frame : Frame} {a : Argument} {name : String} {value : Value}
    {s : RunState} (hvariable : a.variable? = none)
    (h : (Site.view { scope := frame.scope, bindings := s.bindings } s.document).scalarOf a =
      .ok value) :
    ∃ t, frame.assign name a s = .ok () t ∧ t.document = s.document ∧ t.trace = s.trace ∧
      t.bindings = s.bindings.set name value := by
  -- No position is bound here, so none can be looked up.
  have hnone : ∀ names, Site.AvoidPositions 0 names := by
    intro names other _ k hk hk'
    omega
  have hworked : ∃ u,
      Site.valueFor { scope := frame.scope, bindings := s.bindings } (.deferred a) s =
        .ok value u ∧ RunState.OnlyRead s u := by
    rw [← Site.slotOf_eq_deferred hvariable]
    exact Site.valueFor_worked (Site.binds_nil _) (Nat.le_refl 0) h (hnone _)
  rcases hworked with ⟨u, hu, hworked⟩
  have hargument : frame.withSite (·.argument a) s = .ok value u := hu
  have htrace : u.trace = s.trace := Site.trace_of_worked_nil hworked
  have hassign : frame.assign name a s = .ok ()
      { u with
        events := u.events.push (.assigned name value)
        bindings := u.bindings.set name value } := by
    unfold assign
    rw [bind_of_ok hargument]
    rfl
  exact ⟨_, hassign, hworked.document, htrace,
    congrArg (Bindings.set · name value) hworked.bindings⟩

namespace Setting

variable {env : Setting} {invoke : Invoker} {frame : Frame} {s : RunState}

theorem ofResult_block_singleton (st : Statement) :
    Outcome.ofResult (env.block invoke frame [st] s) =
      Outcome.ofResult (env.statement invoke frame st s) := by
  rw [block, block]
  cases hst : env.statement invoke frame st s with
  | ok a t =>
    rw [bind_of_ok hst]
    rfl
  | error stop t => rw [bind_of_error hst]

/-- An argument of a call is bound to a variable first, and the variable stands in its place. The
argument is no variable itself, can be evaluated in the way that its parameter asks for, and looks
up no variable of a position. The function leaves the document as it is. Neither the call nor the
function looks the variable up. Then the lines and the error are those of the call as it is
written. -/
theorem naming_argument {d : Descriptor} {args : List Argument} {i : Nat} {a : Argument}
    {p : Parameter} {name : String}
    (hf : ∀ f, env.catalogue.implementation d = some f → f.LeavesDocument ∧ f.Ignores name)
    (ha : args[i]? = some a) (hp : d.params[i]? = some p) (hvariable : a.variable? = none)
    (hvalue : (Site.view { scope := frame.scope, bindings := s.bindings } s.document).evaluates a
      p.type = true)
    (hpositions : Site.AvoidPositions d.arity
      ((Site.view { scope := frame.scope, bindings := s.bindings } s.document).readsFor a p.type))
    (hunused : name ∉ Site.callReads { scope := frame.scope, bindings := s.bindings } s.document d
      args)
    (pos first second : Position) :
    (Outcome.ofResult (env.statement invoke frame (.command pos (.function d args)) s)).Alike
      (Outcome.ofResult (env.block invoke frame
        [.command first (.define name a),
          .command second (.function d (args.set i (.variableRef name)))] s)) := by
  rcases Site.Stands.of_evaluates hvariable hvalue hpositions with ⟨value, hscalar, hstands⟩
  have hassign : ∃ t, frame.assign name a s = .ok () t ∧ t.document = s.document ∧
      t.trace = s.trace ∧ t.bindings = s.bindings.set name value :=
    frame.assign_of_scalarOf hvariable hscalar
  rcases hassign with ⟨t, ht, hdocument, htrace, hbindings⟩
  have hbeside : Site.Beside name { scope := frame.scope, bindings := s.bindings }
      { scope := frame.scope, bindings := t.bindings } := by
    refine ⟨rfl, ?_⟩
    rw [hbindings]
    exact .set_self s.bindings value
  have hname : t.bindings.get? name = some value := by
    rw [hbindings, Bindings.get?_set, if_pos rfl]
  have hcall := Site.call_inStep hbeside hname hf ha hp hvariable hstands hunused
  have hsame := (hcall s t ⟨rfl, hdocument, htrace⟩).alike pos second
  -- The two statements together do what the second does after the first.
  have hblock : env.block invoke frame
      [.command first (.define name a),
        .command second (.function d (args.set i (.variableRef name)))] s =
      env.block invoke frame
        [.command second (.function d (args.set i (.variableRef name)))] t := by
    have hdefine : env.statement invoke frame (.command first (.define name a)) s = .ok () t := by
      rw [statement]
      exact Action.pinned_of_ok ht first
    rw [block, bind_of_ok hdefine]
  rw [hblock, ofResult_block_singleton, statement, statement]
  exact hsame

open Document (smallId smallDocument)
open Site (pairing pairDescriptor pairSite pairArgs)

def pairSetting : Setting :=
  { catalogue := { functions := [("pair", [pairing])] } }

def pairFrame : Frame :=
  { owner := { body := [] }, scope := smallId 1 }

def pairState : RunState :=
  { document := smallDocument, bindings := pairSite.bindings }

/-- Each word is paired with what the first position is bound to. -/
def writtenPair : Statement :=
  .command { line := 1, text := "pair \x7b//w\x7d $1" } (.function pairDescriptor pairArgs)

/-- The words are named first. -/
def namedPair : List Statement :=
  [.command { line := 1, text := "def $v \x7b//w\x7d" }
      (.define "$v" (.annotationSet "\x7b//w\x7d")),
    .command { line := 2, text := "pair $v $1" }
      (.function pairDescriptor [.variableRef "$v", .variableRef "$1"])]

theorem naming_argument_pair :
    (pairSite.view smallDocument).evaluates (.annotationSet "\x7b//w\x7d") .scalar = true ∧
    "$v" ∉ pairSite.callReads smallDocument pairDescriptor pairArgs ∧
    (Outcome.ofResult
      (pairSetting.block (pairSetting.invoke 0) pairFrame namedPair pairState)).trace =
        ["Hello Hello", "world world"] := by
  have hevaluates : (pairSite.view smallDocument).evaluates (.annotationSet "\x7b//w\x7d") .scalar =
      true := by decide +kernel
  have hunused : "$v" ∉ pairSite.callReads smallDocument pairDescriptor pairArgs := by
    decide +kernel
  have hpositions : Site.AvoidPositions pairDescriptor.arity
      ((pairSite.view smallDocument).readsFor (.annotationSet "\x7b//w\x7d") .scalar) := by
    have hnone : (pairSite.view smallDocument).readsFor (.annotationSet "\x7b//w\x7d") .scalar =
        [] := by decide +kernel
    rw [hnone]
    intro name hname
    cases hname
  have hpairing : ∀ f, pairSetting.catalogue.implementation pairDescriptor = some f →
      f.LeavesDocument ∧ f.Ignores "$v" := by
    intro f hf
    have hsame : some pairing = some f := hf
    cases hsame
    exact ⟨fun _ _ => rfl, fun _ _ _ _ _ => rfl⟩
  have hwritten : (Outcome.ofResult
      (pairSetting.statement (pairSetting.invoke 0) pairFrame writtenPair pairState)).trace =
        ["Hello Hello", "world world"] := by decide +kernel
  have halike : (Outcome.ofResult
      (pairSetting.statement (pairSetting.invoke 0) pairFrame writtenPair pairState)).Alike
      (Outcome.ofResult
        (pairSetting.block (pairSetting.invoke 0) pairFrame namedPair pairState)) :=
    naming_argument (i := 0) hpairing rfl rfl rfl hevaluates hpositions hunused _ _ _
  exact ⟨hevaluates, hunused, halike.trace.trans hwritten⟩

end Setting

end MarkupScript
