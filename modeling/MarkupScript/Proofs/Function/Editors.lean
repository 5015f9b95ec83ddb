import MarkupScript.Function.Standard
import MarkupScript.Proofs.Run.Congruence
import MarkupScript.Proofs.Script.Units

/-!
# Standard functions that edit

All standard functions but one edit. They read their parameters first, and then edit the
annotations of a set one after another, up to the first that the document refuses. What was done
to those in front of it stays.

* `Editor`: the functions that edit. `Editor.read` is what the parameters of one ask for.
* `Work`: what an editor does to each annotation of its set.
* `process_eq`: all editors do the same with what they have read.
* `editEach_eq_error`: where the edits of a set stop.
-/

namespace MarkupScript

section Mapping

variable {α β : Type} {f : α → β} {x : Editing α} {d d' : Document}

theorem map_eq_error {e : FunctionError} :
    (f <$> x) d = .error e d' ↔ x d = .error e d' := by
  show EStateM.map f x d = .error e d' ↔ _
  unfold EStateM.map
  cases x d with
  | ok a d₁ => simp
  | error e₁ d₁ => simp

theorem map_of_ok {a : α} (h : x d = .ok a d') : (f <$> x) d = .ok (f a) d' := by
  show EStateM.map f x d = .ok (f a) d'
  rw [EStateM.map, h]

end Mapping

namespace Standard

/-! ## Editors -/

/-- The standard functions that edit the document. -/
inductive Editor where
  | rename
  | setAttribute
  | removeAttribute
  | copyAttribute
  | delete
  | annotate
deriving Repr, DecidableEq

/-- An editor with what it was told to do to each annotation of its set. -/
inductive Work where
  | rename (kind : String)
  | setAttribute (name value : String)
  | removeAttribute (name : String)
  | copyAttribute (source destination : String)
  | delete
  | annotate (kind : String)
deriving Repr, DecidableEq

namespace Editor

def function : Editor → Function
  | rename => Standard.rename
  | setAttribute => Standard.setAttribute
  | removeAttribute => Standard.removeAttribute
  | copyAttribute => Standard.copyAttribute
  | delete => Standard.delete
  | annotate => Standard.annotate

/-- What the parameters after the first ask for. -/
def work (params : List Value) : Editor → Except ParameterFault Work
  | rename => do
    let kind ← nameAt params 1 "type"
    return .rename kind
  | setAttribute => do
    let name ← nameAt params 1 "attribute name"
    let value ← textAt params 2
    return .setAttribute name value
  | removeAttribute => do
    let name ← nameAt params 1 "attribute name"
    return .removeAttribute name
  | copyAttribute => do
    let source ← nameAt params 1 "source attribute"
    let destination ← nameAt params 2 "destination attribute"
    return .copyAttribute source destination
  | delete => return .delete
  | annotate => do
    let kind ← nameAt params 1 "type"
    return .annotate kind

/-- What the parameters ask for: the annotations, and what to do to each. -/
def read (editor : Editor) (params : List Value) :
    Except ParameterFault (List AnnotationId × Work) := do
  let ids ← setAt params 0
  let w ← editor.work params
  return (ids, w)

end Editor

namespace Work

def editor : Work → Editor
  | rename _ => .rename
  | setAttribute _ _ => .setAttribute
  | removeAttribute _ => .removeAttribute
  | copyAttribute _ _ => .copyAttribute
  | delete => .delete
  | annotate _ => .annotate

/-- The edit of an annotation of the set, if there is one to make. -/
def edit? (scope : AnnotationId) (d : Document) (id : AnnotationId) : Work → Option Edit
  | rename kind => some (.rename kind)
  | setAttribute name value => some (.setAttribute name value)
  | removeAttribute name => some (.removeAttribute name)
  | copyAttribute source destination =>
    (d.attribute? scope id source).map (.setAttribute destination)
  | delete => some .delete
  | annotate kind => some (.wrap kind)

/-- Whether an edit counts: that of removing an attribute does if the attribute is there. -/
def counts (scope : AnnotationId) (d : Document) (id : AnnotationId) : Work → Bool
  | removeAttribute name => (d.attribute? scope id name).isSome
  | _ => true

/-- What is done to one annotation. -/
def step (w : Work) (scope : AnnotationId) (d : Document) (id : AnnotationId) :
    Except DocumentError (Document × Bool) :=
  match w.edit? scope d id with
  | some edit => (d.apply scope id edit).map fun d' => (d', w.counts scope d id)
  | none => .ok (d, false)

/-- The line for the trace, when all annotations were edited and some of them counted. -/
def report (all counted : Nat) : Work → String
  | rename kind => s!"renamed {all} annotation(s) to '{kind}'"
  | setAttribute name value => s!"set {name}='{value}' on {all} annotation(s)"
  | removeAttribute name => s!"removed {name} from {counted} annotation(s)"
  | copyAttribute source destination =>
    s!"copied {source} to {destination} on {counted} annotation(s)"
  | delete => s!"deleted {all} annotation(s)"
  | annotate kind => s!"annotated {all} annotation(s) as '{kind}'"

end Work

variable {editor : Editor} {call : Call} {d d' : Document} {ids : List AnnotationId} {w : Work}

theorem mem_functions {f : Function} (h : f ∈ functions) :
    (∃ editor : Editor, f = editor.function) ∨ f = print := by
  simp only [functions, List.mem_cons, List.not_mem_nil, or_false] at h
  rcases h with rfl | rfl | rfl | rfl | rfl | rfl | rfl
  · exact .inl ⟨.rename, rfl⟩
  · exact .inl ⟨.setAttribute, rfl⟩
  · exact .inl ⟨.removeAttribute, rfl⟩
  · exact .inl ⟨.copyAttribute, rfl⟩
  · exact .inl ⟨.delete, rfl⟩
  · exact .inl ⟨.annotate, rfl⟩
  · exact .inr rfl

section Steps

variable {scope id : AnnotationId} {edit : Edit}

theorem Work.step_of_none (h : w.edit? scope d id = none) : w.step scope d id = .ok (d, false) := by
  rw [step, h]

theorem Work.step_of_some (h : w.edit? scope d id = some edit) :
    w.step scope d id = (d.apply scope id edit).map fun d' => (d', w.counts scope d id) := by
  rw [step, h]

/-- What is done to an annotation is an edit through the scope, or nothing. -/
theorem Work.step_eq_ok {counts : Bool} (h : w.step scope d id = .ok (d', counts)) :
    d' = d ∨ ∃ edit, d.apply scope id edit = .ok d' := by
  cases hedit : w.edit? scope d id with
  | none =>
    rw [step_of_none hedit] at h
    cases h
    exact .inl rfl
  | some edit =>
    rw [step_of_some hedit] at h
    cases happly : d.apply scope id edit with
    | error err =>
      rw [happly] at h
      cases h
    | ok after =>
      rw [happly] at h
      cases h
      exact .inr ⟨edit, happly⟩

end Steps

/-! ## What a call does -/

theorem given_bind {α β : Type} (parameter : Except ParameterFault α)
    (f : α → Except ParameterFault β) :
    given (parameter >>= f) = given parameter >>= fun value => given (f value) := by
  cases parameter with
  | error fault => rfl
  | ok value => rfl

theorem given_pure {α : Type} (value : α) :
    given (pure value : Except ParameterFault α) = (pure value : Editing α) := rfl

/-- All editors do the same with what their parameters ask for. -/
theorem process_eq (editor : Editor) (call : Call) :
    editor.function.process call = (do
      let asked ← given (editor.read call.params)
      let counted ← editEach (asked.2.step call.scope) asked.1
      return some (asked.2.report asked.1.length counted)) := by
  cases editor
  all_goals
    simp only [Editor.read, Editor.work, given_bind, given_pure, bind_assoc, pure_bind]
  case copyAttribute =>
    refine bind_congr fun ids => bind_congr fun source => bind_congr fun destination => ?_
    refine congrArg (fun step => editEach step ids >>= fun counted =>
      pure (some (Work.report ids.length counted (.copyAttribute source destination)))) ?_
    -- The function passes over an annotation without the attribute, `edit?` finds no edit for it.
    funext d id
    simp only [Work.step, Work.edit?]
    cases d.attribute? call.scope id source with
    | none => rfl
    | some value => rfl
  all_goals rfl

theorem process_of_fault {fault : ParameterFault} (h : editor.read call.params = .error fault)
    (d : Document) :
    editor.function.process call d = .error (.invalidParameters fault.message) d := by
  rw [process_eq, h]
  rfl

theorem process_of_read (h : editor.read call.params = .ok (ids, w)) :
    editor.function.process call =
      (fun counted => some (w.report ids.length counted)) <$>
        editEach (w.step call.scope) ids := by
  rw [process_eq, h]
  rfl

theorem work_cons (editor : Editor) (first other : Value) (rest : List Value) :
    editor.work (first :: rest) = editor.work (other :: rest) := by
  cases editor <;> rfl

theorem editor_of_work {params : List Value} (h : editor.work params = .ok w) :
    w.editor = editor := by
  cases editor with
  | rename =>
    obtain ⟨kind, -, h⟩ := bind_eq_ok h
    cases h
    rfl
  | setAttribute =>
    obtain ⟨name, -, h⟩ := bind_eq_ok h
    obtain ⟨value, -, h⟩ := bind_eq_ok h
    cases h
    rfl
  | removeAttribute =>
    obtain ⟨name, -, h⟩ := bind_eq_ok h
    cases h
    rfl
  | copyAttribute =>
    obtain ⟨source, -, h⟩ := bind_eq_ok h
    obtain ⟨destination, -, h⟩ := bind_eq_ok h
    cases h
    rfl
  | delete =>
    cases h
    rfl
  | annotate =>
    obtain ⟨kind, -, h⟩ := bind_eq_ok h
    cases h
    rfl

theorem setAt_zero {params : List Value} (h : setAt params 0 = .ok ids) :
    ∃ others, params = .annotations ids :: others := by
  cases params with
  | nil => cases h
  | cons first others =>
    cases first with
    | annotations found =>
      cases h
      exact ⟨others, rfl⟩
    | _ => cases h

/-- The first parameter is the set, and nothing else depends on it. -/
theorem read_eq_ok {params : List Value} (h : editor.read params = .ok (ids, w)) :
    w.editor = editor ∧ ∃ others, params = .annotations ids :: others ∧
      ∀ ids', editor.read (.annotations ids' :: others) = .ok (ids', w) := by
  obtain ⟨found, hset, h⟩ := bind_eq_ok h
  obtain ⟨asked, hwork, h⟩ := bind_eq_ok h
  cases h
  obtain ⟨others, rfl⟩ := setAt_zero hset
  refine ⟨editor_of_work hwork, others, rfl, ?_⟩
  intro ids'
  rw [Editor.read, work_cons editor _ (.annotations ids), hwork]
  rfl

/-! ## Where the edits of a set stop -/

section Stopping

variable {edit : Document → AnnotationId → Except DocumentError (Document × Bool)}
  {id : AnnotationId} {rest : List AnnotationId}

theorem editEach_of_error {err : DocumentError} (h : edit d id = .error err) :
    editEach edit (id :: rest) d = .error (.document err.message) d := by
  have hone : editOne edit id d = .error (.document err.message) d := by rw [editOne, h]
  exact bind_of_error hone

theorem editEach_of_ok {counts : Bool} (h : edit d id = .ok (d', counts)) :
    editEach edit (id :: rest) d =
      ((fun others => (if counts then 1 else 0) + others) <$> editEach edit rest) d' := by
  have hone : editOne edit id d = .ok (if counts then 1 else 0) d' := by rw [editOne, h]
  exact bind_of_ok hone

/-- The edits of a set fail at one of the annotations. Those in front of it are edited as they
would be alone, and nothing is done to it. -/
theorem editEach_eq_error {e : FunctionError} (h : editEach edit ids d = .error e d') :
    ∃ before id after counted err, ids = before ++ id :: after ∧
      editEach edit before d = .ok counted d' ∧ edit d' id = .error err ∧
      e = .document err.message := by
  induction ids generalizing d with
  | nil => cases h
  | cons id rest ih =>
    cases hedit : edit d id with
    | error err =>
      rw [editEach_of_error hedit] at h
      cases h
      exact ⟨[], id, rest, 0, err, rfl, rfl, hedit, rfl⟩
    | ok result =>
      obtain ⟨d₁, counts⟩ := result
      rw [editEach_of_ok hedit, map_eq_error] at h
      obtain ⟨before, id', after, counted, err, rfl, hbefore, hstop, rfl⟩ := ih h
      have hmore : editEach edit (id :: before) d =
          .ok ((if counts then 1 else 0) + counted) d' :=
        (editEach_of_ok hedit).trans (map_of_ok hbefore)
      exact ⟨id :: before, id', after, _, err, rfl, hmore, hstop, rfl⟩

end Stopping

end Standard

end MarkupScript
