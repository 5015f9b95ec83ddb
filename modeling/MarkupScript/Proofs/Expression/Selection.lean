import MarkupScript.Proofs.Document.Subtree
import MarkupScript.Proofs.Expression.Coercion

/-!
# Paths stay in their scope

A path goes from annotations to annotations, one step after another. A step takes an annotation
only if it can read its type, and types are read through the scope. So it does not matter where a
path starts and which ways it goes: after one step all that it has is in the scope.

* `Document.Shows`: an annotation is in the document and in the scope.
* `View.Selects`: the annotations that a path selects, inside an expression or on its own.
* `shows_of_mem_stepFrom`: what a step takes is shown.
* `stepFrom_of_not_shows`: from an annotation that is not shown no step goes anywhere.
* `follow_shows`: so all that a path comes to is shown.
* `selected_in_scope`: what a path selects is in the scope, and nothing of it above the scope.
-/

namespace MarkupScript

open Relation

namespace Document

variable {d : Document} {scope id : AnnotationId}

/-- The annotation is in the document, and in the scope. -/
def Shows (d : Document) (scope id : AnnotationId) : Prop :=
  Keyed.has d.table id = true ∧ d.contains scope id = true

instance (d : Document) (scope id : AnnotationId) : Decidable (d.Shows scope id) :=
  inferInstanceAs (Decidable (_ ∧ _))

theorem shows_iff : d.Shows scope id ↔ ∃ e, d.entry? scope id = some e := by
  simp only [Shows, entry?_eq_some, Keyed.has_iff]
  constructor
  · rintro ⟨⟨e, he⟩, hin⟩
    exact ⟨e, hin, he⟩
  · rintro ⟨e, hin, he⟩
    exact ⟨⟨e, he⟩, hin⟩

theorem entry?_of_not_shows (h : ¬ d.Shows scope id) : d.entry? scope id = none := by
  rw [shows_iff, not_exists] at h
  exact Option.eq_none_iff_forall_ne_some.mpr h

/-- In a tree nothing above the scope is shown. -/
theorem not_shows_above (hd : d.table.Linked d.root) (h : TransGen d.table.HasParent scope id) :
    ¬ d.Shows scope id := by
  rintro ⟨-, hin⟩
  exact hd.acyclic scope (h.trans_left (reaches_of_contains hin))

end Document

namespace View

variable {v : View} {axis : Axis} {test : NameTest} {predicates : List Predicate}
  {id : AnnotationId}

/-! ## One step -/

theorem keep_sublist (v : View) (ids : List AnnotationId) (predicate : Predicate) :
    (v.keep ids predicate).Sublist ids := by
  cases predicate with
  | has name => exact List.filter_sublist
  | compare name value negated => exact List.filter_sublist
  | position n =>
    rw [keep]
    cases h : ids[n - 1]? with
    | none => exact List.nil_sublist _
    | some x => exact List.singleton_sublist.mpr (List.mem_of_getElem? h)

theorem foldl_keep_sublist (v : View) (predicates : List Predicate) (ids : List AnnotationId) :
    (predicates.foldl v.keep ids).Sublist ids := by
  induction predicates generalizing ids with
  | nil => exact List.Sublist.refl ids
  | cons predicate rest ih => exact (ih (v.keep ids predicate)).trans (v.keep_sublist ids predicate)

/-- A step takes some of the annotations that it goes to, in their order. -/
theorem stepFrom_sublist (v : View) (axis : Axis) (test : NameTest) (predicates : List Predicate)
    (id : AnnotationId) :
    (v.stepFrom axis test predicates id).Sublist ((v.along axis id).filter (v.accepts test)) :=
  v.foldl_keep_sublist predicates _

theorem shows_of_accepts (h : v.accepts test id = true) : v.document.Shows v.scope id := by
  by_contra hnot
  rw [accepts, Document.kind?, Document.entry?_of_not_shows hnot] at h
  cases h

/-- What a step takes is shown. -/
theorem shows_of_mem_stepFrom {x : AnnotationId} (h : x ∈ v.stepFrom axis test predicates id) :
    v.document.Shows v.scope x := by
  have hmem := (v.stepFrom_sublist axis test predicates id).mem h
  exact shows_of_accepts (List.mem_filter.mp hmem).2

/-- From an annotation that is not shown no step goes anywhere. -/
theorem stepFrom_of_not_shows (h : ¬ v.document.Shows v.scope id) :
    v.stepFrom axis test predicates id = [] := by
  have hentry := Document.entry?_of_not_shows h
  have hnone : (v.along axis id).filter (v.accepts test) = [] := by
    cases axis with
    | child => simp [along, Document.children, hentry]
    | parent => simp [along, Document.parent?, hentry]
    | self =>
      have hnot : v.accepts test id = false := by
        rw [← Bool.not_eq_true]
        exact fun haccepts => h (shows_of_accepts haccepts)
      simp [along, hnot]
    | descendant =>
      -- The scope itself counts as in scope even after it was deleted; then it has no entry.
      rw [along, Document.descendants]
      split
      · next hin =>
        have hget : Keyed.get? v.document.table id = none := by
          rw [← hentry, Document.entry?, if_pos hin]
        rw [Table.descendants]
        cases v.document.table.length <;> simp [Table.descendTo, hget]
      · rfl
  have hsub := v.stepFrom_sublist axis test predicates id
  rw [hnone] at hsub
  exact List.sublist_nil.mp hsub

/-! ## All steps -/

/-- A path goes on from what is shown to what is shown. -/
theorem follow_shows {steps : List Step} {start ids : List AnnotationId}
    (h : v.follow steps start = .nodes ids)
    (hstart : (∃ step ∈ steps, step.isAttribute = false) ∨
      ∀ x ∈ start, v.document.Shows v.scope x) :
    ∀ x ∈ ids, v.document.Shows v.scope x := by
  induction steps generalizing start with
  | nil =>
    rcases hstart with ⟨step, hmem, -⟩ | hstart
    · cases hmem
    · cases h
      exact hstart
  | cons step rest ih =>
    cases step with
    | attributes test => cases h
    | nodes axis test predicates =>
      refine ih h (.inr ?_)
      intro x hx
      obtain ⟨id, -, hid⟩ := List.mem_flatMap.mp hx
      exact shows_of_mem_stepFrom hid

/-- What is not shown might as well be left out of the start. -/
theorem follow_shown (rest : List Step) (start : List AnnotationId) :
    v.follow (.nodes axis test predicates :: rest)
        (start.filter fun x => v.document.Shows v.scope x) =
      v.follow (.nodes axis test predicates :: rest) start := by
  rw [follow, follow]
  congr 1
  induction start with
  | nil => rfl
  | cons x rest ih =>
    by_cases hx : v.document.Shows v.scope x
    · rw [List.filter_cons_of_pos (by simpa using hx), List.flatMap_cons, List.flatMap_cons, ih]
    · rw [List.filter_cons_of_neg (by simpa using hx), ih, List.flatMap_cons,
        stepFrom_of_not_shows hx, List.nil_append]

theorem follow_ne_value (v : View) (steps : List Step) (start : List AnnotationId)
    (value : Value) : v.follow steps start ≠ .value value := by
  induction steps generalizing start with
  | nil => exact nofun
  | cons step rest ih =>
    cases step with
    | attributes test => exact nofun
    | nodes axis test predicates => exact ih _

/-- A text that is a path selects what the path selects. -/
theorem path_eq_ok_iff_select {text : String} {p : Path} {ids : List AnnotationId}
    (hread : Expr.parse text = .ok (.path p)) :
    v.path text = .ok ids ↔ v.select p = .ok (.nodes ids) := by
  have hoperand : v.operand text = v.select p := by
    rw [operand, hread]
    rfl
  cases hselect : v.select p with
  | error err =>
    rw [path, hoperand, hselect]
    constructor
    · intro h
      cases h
    · intro h
      cases h
  | ok result =>
    rw [path_eq_ok_iff (hoperand.trans hselect)]
    cases result with
    | nodes found => simp [toValue]
    | strings values => simp [toValue]
    | value value =>
      obtain ⟨start, -, hfollow⟩ := bind_eq_ok hselect
      exact absurd (Except.ok.inj hfollow) (v.follow_ne_value p.steps start value)

/-- The annotations that a path selects, as a part of an expression or as a text that is asked for
annotations. -/
inductive Selects (v : View) (p : Path) (ids : List AnnotationId) : Prop
  | inside (h : v.select p = .ok (.nodes ids))
  | asked {text : String} (hread : Expr.parse text = .ok (.path p)) (h : v.path text = .ok ids)

theorem Selects.follow {p : Path} {ids : List AnnotationId} (h : v.Selects p ids) :
    ∃ start, v.startOf p.start = .ok start ∧ v.follow p.steps start = .nodes ids := by
  have hselect : v.select p = .ok (.nodes ids) := by
    cases h with
    | inside h => exact h
    | asked hread h => exact (path_eq_ok_iff_select hread).mp h
  obtain ⟨start, hstart, hfollow⟩ := bind_eq_ok hselect
  exact ⟨start, hstart, Except.ok.inj hfollow⟩

/-- Every annotation that a path with a node step selects is in the document and in the scope,
whatever the variables hold and whatever ways the path goes. So nothing above the scope is
selected. Of the annotations of a variable, those that are not shown might as well be left out. -/
theorem selected_in_scope {p : Path} (hstep : ∃ step ∈ p.steps, step.isAttribute = false)
    {ids : List AnnotationId} (h : v.Selects p ids) :
    (∀ id ∈ ids, Keyed.has v.document.table id = true ∧ v.document.contains v.scope id = true) ∧
      (v.document.Reachable → ∀ above, TransGen v.document.table.HasParent v.scope above →
        above ∉ ids) ∧
      ∀ name set, p.start = .fromVariable name → v.bindings.get? name = some (.annotations set) →
        v.follow p.steps (set.filter fun x => v.document.Shows v.scope x) = .nodes ids := by
  obtain ⟨start, hstart, hfollow⟩ := h.follow
  have hshows := follow_shows hfollow (.inl hstep)
  refine ⟨hshows, ?_, ?_⟩
  · intro hd above habove hmem
    exact Document.not_shows_above hd.linked habove (hshows above hmem)
  · intro name set hname hset
    rw [hname, startOf, hset] at hstart
    obtain rfl := Except.ok.inj hstart
    rw [← hfollow]
    -- The first step is a node step, since the path selects annotations.
    cases hsteps : p.steps with
    | nil => simp [hsteps] at hstep
    | cons step rest =>
      cases step with
      | attributes test =>
        rw [hsteps] at hfollow
        cases hfollow
      | nodes axis test predicates => exact follow_shown rest set

open Document in
/-- The small document without its first word, seen in its paragraph. A variable holds the root, the
word that was deleted and the other word. -/
def strayed : View where
  document := smallDocument.afterAll [⟨smallId 1, smallId 3, .delete⟩]
  scope := smallId 2
  bindings := { own := [("$x", .annotations [smallId 1, smallId 3, smallId 4])] }

open Document in
theorem selected_in_scope_strayed :
    strayed.Selects ⟨.fromVariable "$x", [.nodes .parent .any []]⟩ [smallId 2] ∧
      strayed.document.contains (smallId 2) (smallId 2) = true ∧
      strayed.Selects ⟨.fromVariable "$x", [.nodes .parent .any [], .nodes .parent .any []]⟩ [] ∧
      smallId 1 ∉ [smallId 2] := by
  have hup : strayed.Selects ⟨.fromVariable "$x", [.nodes .parent .any []]⟩ [smallId 2] :=
    .inside rfl
  have hd : strayed.document.Reachable :=
    ⟨smallNode, smallIds, smallDocument, _, rfl, by decide, rfl⟩
  have habove : strayed.document.table.HasParent (smallId 2) (smallId 1) := ⟨_, rfl, rfl⟩
  obtain ⟨hin, hbelow, -⟩ := selected_in_scope ⟨_, List.mem_cons_self, rfl⟩ hup
  exact ⟨hup, (hin _ List.mem_cons_self).2, .inside rfl, hbelow hd _ (.single habove)⟩

end View

end MarkupScript
