import MarkupScript.Proofs.Document.Arrangement
import MarkupScript.Proofs.Run.Confinement

/-!
# Annotations that are gone

An annotation that is not in the document any more is in no scope but its own: the walk up from
it ends where it starts. So a statement that comes upon it as a member of a set stops, unless
the statement runs in the scope of that very annotation. Only statements that read the text of a
member or narrow the scope to it come upon it in this way. A loop and a set parameter hand the
members on without a look at the document.

* `Document.contains_absent`, `narrow?_absent`, `valueOf_absent`: what reading gives.
* `Site.bindFrom_detached`, `Setting.invocation_detached`: a call that takes the members of a
  set one after the other, and an invocation for the members of a set, stop there.
* `Program.absent_detached`: the two together, for all documents that can be met.
-/

namespace MarkupScript

/-! ## Reading -/

namespace Document

variable {d : Document} {id : AnnotationId}

theorem contains_absent (h : Keyed.get? d.table id = none) (scope : AnnotationId) :
    d.contains scope id = decide (id = scope) := by
  rw [contains, Table.isWithin, Table.climb, h, Option.bind_none]
  by_cases heq : id = scope
  · simp [heq]
  · simp [heq]

theorem content_absent (h : Keyed.get? d.table id = none) : d.table.content id = "" := by
  unfold Table.content
  cases d.table.length with
  | zero => rfl
  | succ fuel => rw [Table.contentTo, h]

theorem narrow?_absent (h : Keyed.get? d.table id = none) (scope : AnnotationId) :
    d.narrow? scope id = if id = scope then some scope else none := by
  rw [narrow?, contains_absent h]
  by_cases heq : id = scope
  · simp [heq]
  · simp [heq]

theorem valueOf_absent (h : Keyed.get? d.table id = none) (scope : AnnotationId) :
    d.valueOf scope id = if id = scope then some "" else none := by
  rw [valueOf, contains_absent h, content_absent h]
  by_cases heq : id = scope
  · simp [heq]
  · simp [heq]

end Document

/-! ## Members of a set -/

/-- A loop stops with the error of the first round that fails. -/
theorem forM_error {ε σ α : Type} {body : α → EStateM ε σ PUnit} {before more : List α} {a : α}
    {s t u : σ} {e : ε} (hbefore : before.forM body s = .ok ⟨⟩ t) (ha : body a t = .error e u) :
    (before ++ a :: more).forM body s = .error e u := by
  -- On the rounds that succeed: each leaves the state in which the next begins.
  induction before generalizing s with
  | nil =>
    cases hbefore
    simp [bind, EStateM.bind, ha]
  | cons b rest ih =>
    simp only [List.forM, bind, EStateM.bind] at hbefore
    cases hb : body b s with
    | error e' s' => simp [hb] at hbefore
    | ok x s' =>
      simp only [hb] at hbefore
      simp only [List.cons_append, List.forM, bind, EStateM.bind, hb]
      exact ih hbefore

namespace Site

/-- A call takes the members of a set one after the other. -/
def rounds (site : Site) (f : Function) (called : Descriptor) (rest : List (Slot × ParameterType))
    (params : List Value) (ids : List AnnotationId) : Action Unit :=
  ids.forM fun id => do
    let value ← site.member id
    bindFrom f called rest (site.bound (params.length + 1) value) (params ++ [value])

variable {site : Site} {f : Function} {called : Descriptor}
  {rest : List (Slot × ParameterType)} {params : List Value}

theorem bindFrom_members {slot : Slot} {ids : List AnnotationId} {s t : RunState}
    (h : site.valueFor slot s = .ok (.annotations ids) t) :
    bindFrom f called ((slot, .scalar) :: rest) site params s =
      site.rounds f called rest params ids t := by
  simp only [bindFrom, bind, EStateM.bind, h]
  rfl

theorem member_absent {id : AnnotationId} {s : RunState}
    (h : Keyed.get? s.document.table id = none) (hne : id ≠ site.scope) :
    site.member id s = .error (.detached id) s := by
  have hvalue : s.document.valueOf site.scope id = none := by
    rw [Document.valueOf_absent h, if_neg hne]
  have hget : (get : Action RunState) s = .ok s s := rfl
  simp only [member, bind, EStateM.bind, hget, hvalue]
  rfl

/-- A call stops at a member that is gone. -/
theorem bindFrom_detached {slot : Slot} {before more : List AnnotationId} {id : AnnotationId}
    {s t u : RunState} (hset : site.valueFor slot s = .ok (.annotations (before ++ id :: more)) t)
    (hbefore : site.rounds f called rest params before t = .ok () u)
    (hgone : Keyed.get? u.document.table id = none) (hne : id ≠ site.scope) :
    bindFrom f called ((slot, .scalar) :: rest) site params s = .error (.detached id) u := by
  rw [bindFrom_members hset]
  refine forM_error hbefore ?_
  simp only [bind, EStateM.bind, member_absent hgone hne]

end Site

/-- A script runs for the members of a set one after the other. -/
def Frame.rounds (frame : Frame) (pos : Position) (run : AnnotationId → Running Unit)
    (ids : List AnnotationId) : Running Unit :=
  ids.forM fun id => do
    let scope ← (frame.narrowed id).pinned pos
    run scope

theorem Frame.narrowed_absent {frame : Frame} {id : AnnotationId} {s : RunState}
    (h : Keyed.get? s.document.table id = none) (hne : id ≠ frame.scope) :
    frame.narrowed id s = .error (.detached id) s := by
  rw [narrowed, Document.narrow?_absent h, if_neg hne]

namespace Setting

variable {frame : Frame} {pos : Position} {a : Argument} {run : AnnotationId → Running Unit}

theorem invocation_members {ids : List AnnotationId} {s t : RunState}
    (h : frame.annotations a s = .ok ids t) :
    invocation frame pos (some a) run s = frame.rounds pos run ids t := by
  simp only [invocation, bind, EStateM.bind, Action.pinned, h]
  rfl

/-- An invocation stops at a member that is gone. -/
theorem invocation_detached {before more : List AnnotationId} {id : AnnotationId}
    {s t u : RunState} (hset : frame.annotations a s = .ok (before ++ id :: more) t)
    (hbefore : frame.rounds pos run before t = .ok () u)
    (hgone : Keyed.get? u.document.table id = none) (hne : id ≠ frame.scope) :
    invocation frame pos (some a) run s = .error (.failed { error := .detached id, pos }) u := by
  rw [invocation_members hset]
  refine forM_error hbefore ?_
  simp only [bind, EStateM.bind, Action.pinned, Frame.narrowed_absent hgone hne]

end Setting

namespace Program

/-- An annotation that is not in the document is not the root. In a scope it is there exactly if
the scope is its own: then it can be narrowed to, and has the empty text. In any other scope a
call or an invocation that comes upon it as a member of a set says that it is detached. A loop and a
set parameter take the members of a set as they are and ask no scope, so they say nothing of one
that is gone. -/
theorem absent_detached {d : Document} (hd : d.Reachable) {id : AnnotationId} (hgone : id ∉ d.order)
    (scope : AnnotationId) :
    id ≠ d.root ∧ d.contains scope id = decide (id = scope) ∧
    d.narrow? scope id = (if id = scope then some scope else none) ∧
    d.valueOf scope id = (if id = scope then some "" else none) ∧
    (id ≠ scope → ∀ (before more : List AnnotationId) (s t u : RunState), u.document = d →
      (∀ (site : Site) (f : Function) (called : Descriptor) (slot : Slot)
        (rest : List (Slot × ParameterType)) (params : List Value), site.scope = scope →
        site.valueFor slot s = .ok (.annotations (before ++ id :: more)) t →
        site.rounds f called rest params before t = .ok () u →
        Site.bindFrom f called ((slot, .scalar) :: rest) site params s =
          .error (.detached id) u) ∧
      ∀ (frame : Frame) (pos : Position) (a : Argument) (run : AnnotationId → Running Unit),
        frame.scope = scope → frame.annotations a s = .ok (before ++ id :: more) t →
        frame.rounds pos run before t = .ok () u →
        Setting.invocation frame pos (some a) run s =
          .error (.failed { error := .detached id, pos }) u) := by
  have hlinked := hd.linked
  have hget : Keyed.get? d.table id = none := by
    rw [Document.mem_order_iff hlinked, Bool.not_eq_true, Keyed.has_eq_false_iff] at hgone
    exact hgone
  refine ⟨?_, Document.contains_absent hget scope, Document.narrow?_absent hget scope,
    Document.valueOf_absent hget scope, ?_⟩
  · rintro rfl
    obtain ⟨e, he, -⟩ := hlinked.root_entry
    rw [hget] at he
    cases he
  · intro hne before more s t u hu
    rw [← hu] at hget
    constructor
    · intro site f called slot rest params hscope hset hbefore
      exact Site.bindFrom_detached hset hbefore hget (hscope ▸ hne)
    · intro frame pos a run hscope hset hbefore
      exact Setting.invocation_detached hset hbefore hget (hscope ▸ hne)

open Document (smallId smallIds smallNode smallDocument)

/-- The small document without its paragraph. -/
def withoutParagraph : Document :=
  smallDocument.after ⟨smallId 2, smallId 2, .delete⟩

/-- Where the words are, the paragraph is gone; in its own scope it is still there. -/
theorem absent_detached_paragraph :
    smallId 2 ∉ withoutParagraph.order ∧
    withoutParagraph.contains (smallId 1) (smallId 2) = false ∧
    withoutParagraph.valueOf (smallId 3) (smallId 2) = none ∧
    withoutParagraph.contains (smallId 2) (smallId 2) = true := by
  have hreachable : withoutParagraph.Reachable :=
    ⟨smallNode, smallIds, smallDocument, [⟨smallId 2, smallId 2, .delete⟩], rfl, by decide, rfl⟩
  have hgone : smallId 2 ∉ withoutParagraph.order := by decide
  obtain ⟨-, htop, -⟩ := absent_detached hreachable hgone (smallId 1)
  obtain ⟨-, -, -, hword, -⟩ := absent_detached hreachable hgone (smallId 3)
  obtain ⟨-, hown, -⟩ := absent_detached hreachable hgone (smallId 2)
  exact ⟨hgone, htop.trans (by decide), hword.trans (by decide), hown.trans (by decide)⟩

/-- Deletes the paragraph and prints it. -/
def printingDeleted : Program where
  main :=
    { body :=
        [.command { line := 1, text := "delete $p" }
          (.function Standard.delete.descriptor [.variableRef "$p"]),
         .command { line := 2, text := "print $p" }
          (.function Standard.print.descriptor [.variableRef "$p"])] }

/-- What is left of a run in a scope. -/
def printedIn (scope : AnnotationId) : Outcome :=
  printingDeleted.run plainCatalogue smallDocument scope
    { own := [("$p", .annotations [smallId 2])] } .selection 1

/-- A scope does not notice that its own annotation is deleted: a script that runs in it deletes
the annotation and goes on to print it, while in the scope of the document the same script
stops. -/
theorem deleted_scope_contains_itself :
    smallId 2 ∉ withoutParagraph.order ∧
    withoutParagraph.contains (smallId 2) (smallId 2) = true ∧
    withoutParagraph.narrow? (smallId 2) (smallId 2) = some (smallId 2) ∧
    withoutParagraph.valueOf (smallId 2) (smallId 2) = some "" ∧
    (printedIn (smallId 2)).stop.isNone = true ∧
    (printedIn (smallId 2)).trace = ["deleted 1 annotation(s)", ""] ∧
    (printedIn (smallId 1)).stop.isSome = true ∧
    (printedIn (smallId 1)).trace = ["deleted 1 annotation(s)"] := by
  refine ⟨by decide, by decide, by decide, by decide, ?_, ?_, ?_, ?_⟩
  · decide +kernel
  · decide +kernel
  · decide +kernel
  · decide +kernel

end Program

end MarkupScript
