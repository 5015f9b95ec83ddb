import MarkupScript.Proofs.Document.Contents
import MarkupScript.Proofs.Document.Deletion
import MarkupScript.Proofs.Function.Editors

/-!
# Edits by standard functions

What a call of an editor does to a document is a sequence of edits, whether the call succeeds or
fails. So what is known of edits is known of calls.

* `Work.edits`: the edits that are made of the annotations of a set.
* `failed_call_stops`: what a call that fails leaves.
* `EditorCall.leftAll_eq_afterAll`: calls one after another come to the edits that they make.
* `EditorCall.values_kept`: they keep the texts of annotations.
-/

namespace MarkupScript

namespace Document

variable {d : Document} {scope id : AnnotationId} {entry : Entry} {edit : Edit}

theorem updateEntry_of_entry? (hid : d.entry? scope id = some entry) (f : Entry → Entry) :
    d.updateEntry scope id f = .ok { d with table := d.table.update id f } := by
  rw [updateEntry, hid]

/-- In a tree, an edit of an annotation in the scope goes through, unless it would take the root
from its place. -/
theorem apply_isOk (hd : d.table.Linked d.root) (hid : d.entry? scope id = some entry)
    (hroot : id = d.root → edit ≠ .delete ∧ ∀ kind, edit ≠ .wrap kind) :
    ∃ d', d.apply scope id edit = .ok d' := by
  have hparent : id ≠ d.root → ∃ parent, d.editableParent scope id = .ok parent := by
    intro hne
    obtain ⟨hin, hget⟩ := entry?_eq_some.mp hid
    obtain ⟨parent, hparent⟩ := exists_parent hd hget hne
    exact ⟨parent, by simp [editableParent, hin, hne, hget, hparent]⟩
  cases edit with
  | rename kind => exact ⟨_, updateEntry_of_entry? hid _⟩
  | setAttribute name value => exact ⟨_, updateEntry_of_entry? hid _⟩
  | removeAttribute name => exact ⟨_, updateEntry_of_entry? hid _⟩
  | setValue value => exact ⟨_, updateEntry_of_entry? hid _⟩
  | delete =>
    obtain ⟨parent, hpar⟩ := hparent fun heq => (hroot heq).1 rfl
    exact delete_isOk hd hpar
  | wrap kind =>
    obtain ⟨parent, hpar⟩ := hparent fun heq => (hroot heq).2 kind rfl
    obtain ⟨result, hwrap⟩ := wrap_isOk hd hpar kind
    exact ⟨result.2, by rw [apply, hwrap]; rfl⟩

end Document

/-- The document that is left, whether the computation succeeds or fails. -/
def Editing.left {α : Type} (x : Editing α) (d : Document) : Document :=
  match x d with
  | .ok _ d' => d'
  | .error _ d' => d'

theorem Editing.left_map {α β : Type} (f : α → β) (x : Editing α) (d : Document) :
    Editing.left (f <$> x) d = Editing.left x d := by
  cases h : x d with
  | ok a d' => rw [left, left, map_of_ok h, h]
  | error e d' => rw [left, left, map_eq_error.mpr h, h]

namespace Standard

open Document (SomeCall RemovesValue smallId smallDocument smallDocument_newUntil
  smallDocument_reachable)

variable {editor : Editor} {call : Call} {d d' : Document} {ids : List AnnotationId} {w : Work}

/-! ## The edits that are made -/

section Made

variable {scope id : AnnotationId} {edit : Edit}

/-- The edits of the annotations of a set, up to the first that is refused. -/
def Work.edits (w : Work) (scope : AnnotationId) : Document → List AnnotationId → List EditCall
  | _, [] => []
  | d, id :: rest =>
    match w.edit? scope d id with
    | none => w.edits scope d rest
    | some edit =>
      match d.apply scope id edit with
      | .ok d' => ⟨scope, id, edit⟩ :: w.edits scope d' rest
      | .error _ => []

theorem left_editEach_of_ok {counts : Bool} (h : w.step scope d id = .ok (d', counts))
    (rest : List AnnotationId) :
    Editing.left (editEach (w.step scope) (id :: rest)) d =
      Editing.left (editEach (w.step scope) rest) d' := by
  rw [Editing.left, editEach_of_ok h, ← Editing.left, Editing.left_map]

/-- What is left of the edits of a set is the document after those that were made. -/
theorem left_editEach (w : Work) (scope : AnnotationId) (d : Document) (ids : List AnnotationId) :
    Editing.left (editEach (w.step scope) ids) d = d.afterAll (w.edits scope d ids) := by
  induction ids generalizing d with
  | nil => rfl
  | cons id rest ih =>
    cases hedit : w.edit? scope d id with
    | none =>
      -- The annotation is passed over, and the document stays as it is.
      rw [left_editEach_of_ok (Work.step_of_none hedit), ih, Work.edits, hedit]
    | some edit =>
      have hstep := Work.step_of_some hedit
      cases happly : d.apply scope id edit with
      | error err =>
        rw [happly] at hstep
        simp only [Work.edits, hedit, happly]
        rw [Editing.left, editEach_of_error hstep]
        rfl
      | ok d' =>
        rw [happly] at hstep
        have hafter : d.after ⟨scope, id, edit⟩ = d' := Document.after_of_ok happly
        simp only [Work.edits, hedit, happly]
        rw [left_editEach_of_ok hstep, ih, ← hafter]
        rfl

theorem Work.edit?_ne_setValue (w : Work) (scope : AnnotationId) (d : Document)
    (id : AnnotationId) (value : Option String) : w.edit? scope d id ≠ some (.setValue value) := by
  cases w with
  | copyAttribute source destination => simp [edit?]
  | _ => simp [edit?]

/-- No standard function sets a value. -/
theorem Work.edits_ne_setValue {c : EditCall} (h : c ∈ w.edits scope d ids)
    (value : Option String) : c.edit ≠ .setValue value := by
  induction ids generalizing d with
  | nil => cases h
  | cons id rest ih =>
    cases hedit : w.edit? scope d id with
    | none =>
      simp only [edits, hedit] at h
      exact ih h
    | some edit =>
      cases happly : d.apply scope id edit with
      | error err =>
        simp only [edits, hedit, happly] at h
        cases h
      | ok d' =>
        simp only [edits, hedit, happly] at h
        rcases List.mem_cons.mp h with rfl | hrest
        · rintro rfl
          exact w.edit?_ne_setValue scope d id value hedit
        · exact ih hrest

end Made

/-! ## Calls that fail -/

section Failure

variable {scope id : AnnotationId}

/-- In a tree a member is refused if it is not in the scope, or if it is the root and would be
taken from its place. -/
theorem Work.refused (hd : d.table.Linked d.root) {err : DocumentError}
    (h : w.step scope d id = .error err) :
    d.entry? scope id = none ∨ id = d.root ∧ (w.editor = .delete ∨ w.editor = .annotate) := by
  cases hid : d.entry? scope id with
  | none => exact .inl rfl
  | some entry =>
    right
    -- Any other edit of an annotation in the scope would go through.
    by_contra hnot
    cases hedit : w.edit? scope d id with
    | none =>
      rw [step_of_none hedit] at h
      cases h
    | some edit =>
      have hroot : id = d.root → edit ≠ .delete ∧ ∀ kind, edit ≠ .wrap kind := by
        intro heq
        constructor
        · rintro rfl
          cases w <;> simp [edit?, editor, heq] at hedit hnot
        · rintro kind rfl
          cases w <;> simp [edit?, editor, heq] at hedit hnot
      obtain ⟨d', happly⟩ := Document.apply_isOk hd hid hroot
      rw [step_of_some hedit, happly] at h
      cases h

/-- An attribute is only copied where there is one, and there it can be set. -/
theorem Work.not_copyAttribute {err : DocumentError} (h : w.step scope d id = .error err) :
    w.editor ≠ .copyAttribute := by
  cases w with
  | copyAttribute source destination =>
    cases hedit : (copyAttribute source destination).edit? scope d id with
    | none =>
      rw [step_of_none hedit] at h
      cases h
    | some edit =>
      obtain ⟨value, hvalue, rfl⟩ := Option.map_eq_some_iff.mp hedit
      obtain ⟨entry, hid, -⟩ := Option.bind_eq_some_iff.mp hvalue
      rw [step_of_some hedit, Document.apply, Document.setAttribute,
        Document.updateEntry_of_entry? hid] at h
      cases h
  | _ => simp [editor]

/-- A call that fails leaves what the same call leaves with the annotations in front of the one
that is refused, and that call succeeds. Where the parameters are at fault, where the first
annotation is refused, and where attributes are copied, nothing is changed. -/
theorem failed_call_stops {e : FunctionError} (h : editor.function.process call d = .error e d') :
    (∃ message, e = .invalidParameters message ∧ d' = d) ∨
    ∃ before id after others message status,
      call.params = .annotations (before ++ id :: after) :: others ∧
      e = .document message ∧ editor ≠ .copyAttribute ∧
      editor.function.process { call with params := .annotations before :: others } d =
        .ok status d' ∧
      editor.function.process { call with params := .annotations [id] :: others } d' =
        .error e d' ∧
      (before = [] → d' = d) ∧
      (d.Reachable → d.NewUntil d'.ids.used →
        d'.entry? call.scope id = none ∨
          id = d'.root ∧ (editor = .delete ∨ editor = .annotate)) := by
  cases hread : editor.read call.params with
  | error fault =>
    rw [process_of_fault hread] at h
    cases h
    exact .inl ⟨_, rfl, rfl⟩
  | ok asked =>
    obtain ⟨ids, w⟩ := asked
    obtain ⟨heditor, others, hparams, hothers⟩ := read_eq_ok hread
    rw [process_of_read hread, map_eq_error] at h
    obtain ⟨before, id, after, counted, err, rfl, hbefore, hstop, rfl⟩ := editEach_eq_error h
    right
    refine ⟨before, id, after, others, err.message, some (w.report before.length counted), hparams,
      rfl, heditor ▸ Work.not_copyAttribute hstop, ?_, ?_, ?_, ?_⟩
    · rw [process_of_read (hothers before)]
      exact map_of_ok hbefore
    · rw [process_of_read (hothers [id]), map_eq_error]
      exact editEach_of_error hstop
    · rintro rfl
      cases hbefore
      rfl
    · -- The edits in front keep the links, so the annotation is refused by a tree.
      intro hd hnew
      have hleft : d' = d.afterAll (w.edits call.scope d before) := by
        rw [← left_editEach, Editing.left, hbefore]
      rw [hleft] at hnew
      have hlinked := (Document.sameArrangement_afterAll hd.linked hnew).1
      rw [← hleft] at hlinked
      rw [← heditor]
      exact Work.refused hlinked hstop

/-- Deletes one word twice. -/
def twice : Call :=
  { scope := smallId 1, params := [.annotations [smallId 3, smallId 3]], bindings := .empty }

/-- The small document without its first word. -/
def halfway : Document := smallDocument.after ⟨smallId 1, smallId 3, .delete⟩

theorem failed_call_stops_twice :
    ∃ e, Editor.delete.function.process twice smallDocument = .error e halfway ∧
      ∃ before id after others message status,
        twice.params = .annotations (before ++ id :: after) :: others ∧ e = .document message ∧
        Editor.delete.function.process { twice with params := .annotations before :: others }
          smallDocument = .ok status halfway ∧
        Editor.delete.function.process { twice with params := .annotations [id] :: others }
          halfway = .error e halfway ∧
        (halfway.entry? twice.scope id = none ∨ id = halfway.root) := by
  have hused : smallDocument.NewUntil halfway.ids.used :=
    smallDocument_newUntil.mono (by decide)
  have hfails : ∃ e, Editor.delete.function.process twice smallDocument = .error e halfway :=
    ⟨_, rfl⟩
  obtain ⟨e, hfails⟩ := hfails
  refine ⟨e, hfails, ?_⟩
  obtain ⟨message, -, hsame⟩ | ⟨before, id, after, others, message, status, hparams, he, -, hfront,
      hstop, -, hwhy⟩ := failed_call_stops hfails
  · exact absurd (congrArg Document.order hsame) (by decide)
  · exact ⟨before, id, after, others, message, status, hparams, he, hfront, hstop,
      (hwhy smallDocument_reachable hused).imp_right And.left⟩

/-- What was edited before a call fails is not undone: not in front of an annotation that was
deleted by the same call, not in front of the root, and not in front of one that is not there. -/
theorem failed_call_not_undone :
    (∃ e d', Editor.delete.function.process twice smallDocument = .error e d' ∧
      d'.toNode ≠ smallDocument.toNode) ∧
    (∃ e d', Editor.annotate.function.process
        { scope := smallId 1, params := [.annotations [smallId 3, smallId 1], .string "b"]
          bindings := .empty } smallDocument = .error e d' ∧
      d'.toNode ≠ smallDocument.toNode) ∧
    ∃ e d', Editor.rename.function.process
        { scope := smallId 1, params := [.annotations [smallId 1, smallId 9], .string "b"]
          bindings := .empty } smallDocument = .error e d' ∧
      d'.toNode ≠ smallDocument.toNode := by
  refine ⟨⟨_, _, rfl, ?_⟩, ⟨_, _, rfl, ?_⟩, ⟨_, _, rfl, ?_⟩⟩
  · exact fun h => absurd (congrArg Node.preorder h) (by decide)
  · exact fun h => absurd (congrArg Node.preorder h) (by decide)
  · exact fun h => absurd (congrArg Node.kind h) (by decide)

end Failure

/-! ## Sequences of calls -/

/-- A call of an editor. -/
structure EditorCall where
  editor : Editor
  call : Call

namespace EditorCall

/-- The document that is left, whether the call succeeds or fails. -/
def left (c : EditorCall) (d : Document) : Document :=
  Editing.left (c.editor.function.process c.call) d

/-- The edits that a call makes. -/
def edits (c : EditorCall) (d : Document) : List EditCall :=
  match c.editor.read c.call.params with
  | .ok asked => asked.2.edits c.call.scope d asked.1
  | .error _ => []

/-- The document that is left by calls one after another. -/
def leftAll (d : Document) (calls : List EditorCall) : Document :=
  calls.foldl (fun d c => c.left d) d

/-- The edits that are made by calls one after another. -/
def editsAll : Document → List EditorCall → List EditCall
  | _, [] => []
  | d, c :: rest => c.edits d ++ editsAll (c.left d) rest

theorem left_eq_afterAll (c : EditorCall) (d : Document) : c.left d = d.afterAll (c.edits d) := by
  unfold left edits
  cases hread : c.editor.read c.call.params with
  | error fault =>
    rw [Editing.left, process_of_fault hread]
    rfl
  | ok asked => rw [process_of_read hread, Editing.left_map, left_editEach]

theorem leftAll_eq_afterAll (d : Document) (calls : List EditorCall) :
    leftAll d calls = d.afterAll (editsAll d calls) := by
  induction calls generalizing d with
  | nil => rfl
  | cons c rest ih =>
    rw [editsAll, Document.afterAll_append, ← left_eq_afterAll, ← ih]
    rfl

theorem editsAll_ne_setValue {d : Document} {calls : List EditorCall} {made : EditCall}
    (h : made ∈ editsAll d calls) (value : Option String) : made.edit ≠ .setValue value := by
  induction calls generalizing d with
  | nil => cases h
  | cons c rest ih =>
    rcases List.mem_append.mp h with hfirst | hrest
    · unfold edits at hfirst
      cases hread : c.editor.read c.call.params with
      | error fault =>
        rw [hread] at hfirst
        cases hfirst
      | ok asked =>
        rw [hread] at hfirst
        exact Work.edits_ne_setValue hfirst value
    · exact ih hrest

/-- As long as no annotation with a value of its own is deleted, standard functions leave the text
of every annotation as it is. A wrapper has the text of what it was put around, at every moment
until it is deleted. -/
theorem values_kept {d : Document} {calls : List EditorCall} (hd : d.Reachable)
    (hnew : d.NewUntil (leftAll d calls).ids.used)
    (hplain : ¬ SomeCall RemovesValue d (editsAll d calls)) :
    leftAll d calls = d.afterAll (editsAll d calls) ∧
    (∀ x ∈ d.order, x ∈ (leftAll d calls).order →
      (leftAll d calls).valueOf d.root x = d.valueOf d.root x) ∧
    ∀ before c later after w, editsAll d calls = before ++ c :: later ++ after →
      (d.afterAll before).Adds c w → w ∈ (d.afterAll (before ++ c :: later)).order →
      (d.afterAll (before ++ c :: later)).valueOf d.root w =
        (d.afterAll before).valueOf d.root c.id := by
  have hleft := leftAll_eq_afterAll d calls
  have hset : ∀ c ∈ editsAll d calls, ∀ value, c.edit ≠ .setValue value :=
    fun c hc => editsAll_ne_setValue hc
  rw [hleft] at hnew ⊢
  have hlinked := (Document.sameArrangement_afterAll hd.linked hnew).1
  refine ⟨rfl, ?_, ?_⟩
  · intro x hx hx'
    rw [Document.mem_order_iff hd.linked] at hx
    rw [Document.mem_order_iff hlinked] at hx'
    exact Document.valueOf_afterAll hd.linked hnew hset hplain hx hx'
  · intro before c later after w hedits hadds hw
    rw [hedits] at hnew hset hplain
    -- The edits up to the moment in question are a sequence of their own.
    have hused := (Document.ids_afterAll (d.afterAll (before ++ c :: later)) after).2
    rw [← Document.afterAll_append] at hused
    have hnewThen := hnew.mono hused
    have hsetThen : ∀ c' ∈ before ++ c :: later, ∀ value, c'.edit ≠ .setValue value :=
      fun c' hc' => hset c' (List.mem_append_left after hc')
    have hplainThen := (not_or.mp (mt (Document.someCall_append d _ after).mpr hplain)).1
    have hlinkedThen := (Document.sameArrangement_afterAll hd.linked hnewThen).1
    rw [Document.mem_order_iff hlinkedThen] at hw
    exact Document.valueOf_afterAll_wrapper hd.linked hnewThen hsetThen hplainThen hadds hw

/-- Wraps both words, and then deletes the paragraph twice, which fails. -/
def wordsOnly : List EditorCall :=
  [{ editor := .annotate
     call :=
       { scope := smallId 1, params := [.annotations [smallId 3, smallId 4], .string "b"]
         bindings := .empty } },
    { editor := .delete
      call :=
        { scope := smallId 1, params := [.annotations [smallId 2, smallId 2]]
          bindings := .empty } }]

theorem values_kept_small :
    (leftAll smallDocument wordsOnly).order = [1, 100, 3, 101, 4].map smallId ∧
    ¬ SomeCall RemovesValue smallDocument (editsAll smallDocument wordsOnly) ∧
    (leftAll smallDocument wordsOnly).valueOf (smallId 1) (smallId 1) =
      smallDocument.valueOf (smallId 1) (smallId 1) ∧
    (leftAll smallDocument wordsOnly).valueOf (smallId 1) (smallId 100) =
      smallDocument.valueOf (smallId 1) (smallId 3) := by
  have horder : (leftAll smallDocument wordsOnly).order = [1, 100, 3, 101, 4].map smallId := by
    decide
  have hplain : ¬ SomeCall RemovesValue smallDocument (editsAll smallDocument wordsOnly) := by
    decide
  have hused : smallDocument.NewUntil (leftAll smallDocument wordsOnly).ids.used :=
    smallDocument_newUntil.mono (by decide)
  obtain ⟨hleft, hkept, hwrapped⟩ := values_kept smallDocument_reachable hused hplain
  refine ⟨horder, hplain, ?_, ?_⟩
  · exact hkept (smallId 1) (by decide) (by rw [horder]; decide)
  · have hwrapper := hwrapped [] ⟨smallId 1, smallId 3, .wrap "b"⟩
      [⟨smallId 1, smallId 4, .wrap "b"⟩, ⟨smallId 1, smallId 2, .delete⟩] [] (smallId 100) rfl
      ⟨"b", _, rfl, rfl⟩ (by decide)
    exact hwrapper

end EditorCall

end Standard

end MarkupScript
