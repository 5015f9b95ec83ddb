import MarkupScript.Proofs.Document.Arrangement
import MarkupScript.Proofs.Expression.Selection
import Mathlib.Data.List.Flatten
import Mathlib.Data.List.Nodup

/-!
# Repetition and order in what a path selects

What the steps of a path select is put together without looking for repetitions. There are none
as long as the path comes to every annotation on one way only: children and descendants of
annotations that are not below each other are all different, but two double slashes or a step to
the parent may come to one annotation on several ways.

* `Document.InOrder`: annotations that stand in document order.
* `Document.Spread`: annotations that are not below each other, in document order.
* `spread_step_child`, `step_self_sublist`: steps to children and to the annotation itself keep
  annotations spread.
* `step_descendant_sublist`: from such annotations a double slash goes along the document order.
* `nodup_step_child`: children of different annotations are different.
* `selected_once`: what is selected without repetition, and what in document order.
-/

namespace MarkupScript

open Relation

/-! ## Parts of the document order -/

namespace Table

variable {t : Table} {root : AnnotationId} {ids l : List AnnotationId}

theorem Ordered.ids_sublist (h : t.Ordered ids l) : ids.Sublist l := by
  induction h with
  | nil => exact List.Sublist.refl []
  | cons _ _ _ _ ih => exact (ih.trans (List.sublist_append_right _ _)).cons_cons _

theorem Ordered.of_sublist (h : t.Ordered ids l) {kept : List AnnotationId}
    (hsub : kept.Sublist ids) : ∃ l', t.Ordered kept l' ∧ l'.Sublist l := by
  induction h generalizing kept with
  | nil =>
    obtain rfl := List.sublist_nil.mp hsub
    exact ⟨[], .nil, List.Sublist.refl []⟩
  | @cons id e rest below after hget hbelow _ _ ih =>
    cases hsub with
    | cons _ hsub =>
      obtain ⟨l', hl', hle⟩ := ih hsub
      exact ⟨l', hl', (hle.trans (List.sublist_append_right below after)).cons id⟩
    | cons_cons _ hsub =>
      obtain ⟨l', hl', hle⟩ := ih hsub
      exact ⟨id :: (below ++ l'), .cons hget hbelow hl',
        ((List.Sublist.refl below).append hle).cons_cons id⟩

/-- Wherever an annotation stands, it stands there with all that is below it. -/
theorem Ordered.part (h : t.Ordered ids l) {x : AnnotationId} (hx : x ∈ l) :
    ∃ l', t.Ordered [x] l' ∧ l'.Sublist l := by
  induction h with
  | nil => cases hx
  | @cons id e rest below after hget hbelow hafter ihbelow ihafter =>
    rcases List.mem_cons.mp hx with rfl | hx
    · exact ⟨x :: (below ++ []), .cons hget hbelow .nil,
        ((List.Sublist.refl below).append (List.nil_sublist after)).cons_cons x⟩
    · rcases List.mem_append.mp hx with hx | hx
      · obtain ⟨l', hl', hle⟩ := ihbelow hx
        exact ⟨l', hl', (hle.trans (List.sublist_append_left below after)).cons id⟩
      · obtain ⟨l', hl', hle⟩ := ihafter hx
        exact ⟨l', hl', (hle.trans (List.sublist_append_right below after)).cons id⟩

/-- Children in place of their parents: the parents are left out of the order, and some of the
children with all that is below them. -/
theorem Ordered.flatMap_children (h : t.Ordered ids l) {f : AnnotationId → List AnnotationId}
    (hf : ∀ id e, Keyed.get? t id = some e → (f id).Sublist e.children) :
    ∃ l', t.Ordered (ids.flatMap f) l' ∧ l'.Sublist l := by
  induction h with
  | nil => exact ⟨[], .nil, List.Sublist.refl []⟩
  | @cons id e rest below after hget hbelow _ _ ih =>
    obtain ⟨first, hfirst, hfirstle⟩ := hbelow.of_sublist (hf id e hget)
    obtain ⟨others, hothers, hothersle⟩ := ih
    exact ⟨first ++ others, hfirst.append hothers, (hfirstle.append hothersle).cons id⟩

theorem Ordered.flatMap_descendants (ht : t.Linked root) (h : t.Ordered ids l)
    {f : AnnotationId → List AnnotationId} (hf : ∀ id, (f id).Sublist (t.descendants id)) :
    (ids.flatMap f).Sublist l := by
  induction h with
  | nil => exact List.Sublist.refl []
  | @cons id e rest below after hget hbelow _ _ ih =>
    have hsame : t.descendants id = below := by
      have hone := ht.ordered_descendants (Keyed.has_iff.mpr ⟨e, hget⟩)
      have heq := hone.unique (.cons hget hbelow .nil)
      simpa using heq
    exact ((hsame ▸ hf id).append ih).cons id

end Table

namespace Document

variable {d : Document} {ids : List AnnotationId}

/-- One annotation stands before another in document order. -/
def Precedes (d : Document) (a b : AnnotationId) : Prop :=
  [a, b].Sublist d.order

/-- The annotations stand in document order. -/
def InOrder (d : Document) (ids : List AnnotationId) : Prop :=
  ids.Pairwise d.Precedes

theorem inOrder_of_sublist (h : ids.Sublist d.order) : d.InOrder ids :=
  List.pairwise_iff_forall_sublist.mpr fun hpair => hpair.trans h

/-- The annotations stand in document order also with all that is below them. So none is below
another. -/
def Spread (d : Document) (ids : List AnnotationId) : Prop :=
  ∃ l, d.table.Ordered ids l ∧ l.Sublist d.order

theorem Spread.sublist_order (h : d.Spread ids) : ids.Sublist d.order := by
  obtain ⟨l, hl, hle⟩ := h
  exact hl.ids_sublist.trans hle

theorem Spread.of_sublist (h : d.Spread ids) {kept : List AnnotationId}
    (hsub : kept.Sublist ids) : d.Spread kept := by
  obtain ⟨l, hl, hle⟩ := h
  obtain ⟨l', hl', hle'⟩ := hl.of_sublist hsub
  exact ⟨l', hl', hle'.trans hle⟩

/-- Where a path starts that starts at the scope: there, or nowhere if the scope was deleted. -/
theorem spread_scope (hd : d.table.Linked d.root) (scope : AnnotationId) :
    d.Spread ([scope].filter fun x => d.Shows scope x) := by
  by_cases hscope : d.Shows scope scope
  · have hmem : scope ∈ d.order := (mem_order_iff hd).mpr hscope.1
    have hone : d.Spread [scope] := (ordered_toNode hd).part hmem
    exact hone.of_sublist List.filter_sublist
  · rw [List.filter_cons_of_neg (by simpa using hscope)]
    exact ⟨[], .nil, List.nil_sublist _⟩

end Document

/-- The step goes to annotations along the axis. -/
def Step.goes (axis : Axis) : Step → Bool
  | nodes other _ _ => other = axis
  | attributes _ => false

namespace View

variable {v : View} {test : NameTest} {predicates : List Predicate} {ids : List AnnotationId}

/-! ## One step -/

theorem stepFrom_sublist_along (v : View) (axis : Axis) (test : NameTest)
    (predicates : List Predicate) (id : AnnotationId) :
    (v.stepFrom axis test predicates id).Sublist (v.along axis id) :=
  (v.stepFrom_sublist axis test predicates id).trans List.filter_sublist

theorem stepFrom_child_sublist {id : AnnotationId} {e : Entry}
    (he : Keyed.get? v.document.table id = some e) :
    (v.stepFrom .child test predicates id).Sublist e.children := by
  refine (v.stepFrom_sublist_along .child test predicates id).trans ?_
  rw [along, Document.children, Document.entry?, he]
  split
  · exact List.Sublist.refl _
  · exact List.nil_sublist _

/-- Steps to children keep annotations spread. -/
theorem spread_step_child (h : v.document.Spread ids) :
    v.document.Spread (ids.flatMap (v.stepFrom .child test predicates)) := by
  obtain ⟨l, hl, hle⟩ := h
  obtain ⟨l', hl', hle'⟩ := hl.flatMap_children fun _ _ he => stepFrom_child_sublist he
  exact ⟨l', hl', hle'.trans hle⟩

theorem step_self_sublist (v : View) (test : NameTest) (predicates : List Predicate)
    (ids : List AnnotationId) : (ids.flatMap (v.stepFrom .self test predicates)).Sublist ids := by
  have hsub : (ids.flatMap (v.stepFrom .self test predicates)).Sublist (ids.flatMap ([·])) :=
    List.Sublist.flatMap_right ids fun id _ => v.stepFrom_sublist_along .self test predicates id
  rwa [List.flatMap_singleton'] at hsub

/-- From spread annotations a double slash goes along the document order. -/
theorem step_descendant_sublist (hd : v.document.table.Linked v.document.root)
    (h : v.document.Spread ids) :
    (ids.flatMap (v.stepFrom .descendant test predicates)).Sublist v.document.order := by
  obtain ⟨l, hl, hle⟩ := h
  refine (hl.flatMap_descendants hd fun id => ?_).trans hle
  refine (v.stepFrom_sublist_along .descendant test predicates id).trans ?_
  rw [along, Document.descendants]
  split
  · exact List.Sublist.refl _
  · exact List.nil_sublist _

/-- Children of different annotations are different. -/
theorem nodup_step_child (hd : v.document.table.Linked v.document.root) (h : ids.Nodup) :
    (ids.flatMap (v.stepFrom .child test predicates)).Nodup := by
  have hparent : ∀ {id x}, x ∈ v.stepFrom .child test predicates id →
      v.document.table.HasParent x id := by
    intro id x hx
    have hmem := (v.stepFrom_sublist_along .child test predicates id).mem hx
    rw [along, Document.children] at hmem
    cases hentry : v.document.entry? v.scope id with
    | none => simp [hentry] at hmem
    | some e =>
      have hget := (Document.entry?_eq_some.mp hentry).2
      rw [hentry] at hmem
      exact (hd.mem_children_iff hget).mp hmem
  rw [List.nodup_flatMap]
  constructor
  · intro id _
    cases hget : Keyed.get? v.document.table id with
    | none =>
      have hnot : ¬ v.document.Shows v.scope id := by simp [Document.Shows, Keyed.has, hget]
      rw [stepFrom_of_not_shows hnot]
      exact List.nodup_nil
    | some e => exact (hd.children_nodup hget).sublist (stepFrom_child_sublist hget)
  · refine h.imp ?_
    intro a b hne x ha hb
    exact hne ((hparent ha).unique (hparent hb))

/-! ## All steps -/

/-- Without attribute steps there are always annotations selected, be it none. -/
theorem follow_nodes {steps : List Step} (h : ∀ step ∈ steps, step.isAttribute = false)
    (start : List AnnotationId) : ∃ ids, v.follow steps start = .nodes ids := by
  induction steps generalizing start with
  | nil => exact ⟨start, rfl⟩
  | cons step rest ih =>
    obtain ⟨hstep, hrest⟩ := List.forall_mem_cons.mp h
    cases step with
    | attributes test => cases hstep
    | nodes axis test predicates => exact ih hrest _

section Follow

variable {steps : List Step} {start : List AnnotationId}
  (hup : ∀ step ∈ steps, step.goes .parent = false) (h : v.follow steps start = .nodes ids)
include hup h

/-- Steps that stay where they are select from the start. -/
theorem follow_sublist
    (hstay : ∀ step ∈ steps, step.goes .descendant = false ∧ step.goes .child = false) :
    ids.Sublist start := by
  induction steps generalizing start with
  | nil =>
    cases h
    exact List.Sublist.refl _
  | cons step rest ih =>
    obtain ⟨hupstep, huprest⟩ := List.forall_mem_cons.mp hup
    obtain ⟨hstep, hrest⟩ := List.forall_mem_cons.mp hstay
    cases step with
    | attributes test => cases h
    | nodes axis test predicates =>
      cases axis with
      | child => cases hstep.2
      | descendant => cases hstep.1
      | parent => cases hupstep
      | self => exact (ih huprest h hrest).trans (v.step_self_sublist test predicates start)

/-- Without a double slash, different annotations lead to different ones. -/
theorem follow_nodup (hd : v.document.table.Linked v.document.root) (hstart : start.Nodup)
    (hdown : ∀ step ∈ steps, step.goes .descendant = false) : ids.Nodup := by
  induction steps generalizing start with
  | nil =>
    cases h
    exact hstart
  | cons step rest ih =>
    obtain ⟨hupstep, huprest⟩ := List.forall_mem_cons.mp hup
    obtain ⟨hstep, hrest⟩ := List.forall_mem_cons.mp hdown
    cases step with
    | attributes test => cases h
    | nodes axis test predicates =>
      cases axis with
      | child => exact ih huprest h (nodup_step_child hd hstart) hrest
      | descendant => cases hstep
      | parent => cases hupstep
      | self =>
        have hsub := v.step_self_sublist test predicates start
        exact ih huprest h (hstart.sublist hsub) hrest

/-- With one double slash there is no repetition, and as long as no children are asked for after
it, the document order is kept. -/
theorem follow_spread (hd : v.document.table.Linked v.document.root)
    (hstart : v.document.Spread start) (honce : steps.countP (Step.goes .descendant) ≤ 1) :
    ids.Nodup ∧
      (steps.Pairwise (fun before after => before.goes .descendant = true →
        after.goes .child = false) → ids.Sublist v.document.order) := by
  induction steps generalizing start with
  | nil =>
    cases h
    have hsub := hstart.sublist_order
    exact ⟨(Document.nodup_preorder hd).sublist hsub, fun _ => hsub⟩
  | cons step rest ih =>
    obtain ⟨hupstep, huprest⟩ := List.forall_mem_cons.mp hup
    rw [List.countP_cons] at honce
    cases step with
    | attributes test => cases h
    | nodes axis test predicates =>
      cases axis with
      | parent => cases hupstep
      | child =>
        obtain ⟨hnodup, horder⟩ := ih huprest h (spread_step_child hstart) (by omega)
        exact ⟨hnodup, fun hflat => horder (List.pairwise_cons.mp hflat).2⟩
      | self =>
        have hsub := v.step_self_sublist test predicates start
        obtain ⟨hnodup, horder⟩ := ih huprest h (hstart.of_sublist hsub) (by omega)
        exact ⟨hnodup, fun hflat => horder (List.pairwise_cons.mp hflat).2⟩
      | descendant =>
        have hsub : (start.flatMap (v.stepFrom .descendant test predicates)).Sublist
            v.document.order := step_descendant_sublist hd hstart
        -- This is the one double slash, so there is none after it.
        have hnone : ∀ step ∈ rest, step.goes .descendant = false := by
          have hle : rest.countP (Step.goes .descendant) + 1 ≤ 1 := honce
          have hzero : rest.countP (Step.goes .descendant) = 0 := by omega
          simpa using List.countP_eq_zero.mp hzero
        refine ⟨follow_nodup huprest h hd ((Document.nodup_preorder hd).sublist hsub) hnone, ?_⟩
        intro hflat
        have hchild := (List.pairwise_cons.mp hflat).1
        exact (follow_sublist huprest h fun step hstep =>
          ⟨hnone step hstep, hchild step hstep rfl⟩).trans hsub

end Follow

/-- A path from the scope that has one double slash at most and never goes to a parent selects no
annotation twice. If no children are asked for after the double slash, what it selects stands in
document order: so it is without a double slash, and with one in the last step. -/
theorem selected_once (hd : v.document.Reachable) {p : Path} (hstart : p.start = .context)
    (hup : ∀ step ∈ p.steps, step.goes .parent = false)
    (honce : p.steps.countP (Step.goes .descendant) ≤ 1) :
    ((∀ step ∈ p.steps, step.isAttribute = false) → ∃ ids, v.Selects p ids) ∧
      ∀ ids, v.Selects p ids →
        ids.Nodup ∧
          (p.steps.Pairwise (fun before after => before.goes .descendant = true →
            after.goes .child = false) → v.document.InOrder ids) := by
  constructor
  · intro hnodes
    obtain ⟨ids, hids⟩ := follow_nodes (v := v) hnodes [v.scope]
    refine ⟨ids, .inside ?_⟩
    rw [select, hstart, ← hids]
    rfl
  · intro ids h
    obtain ⟨start, hscope, hfollow⟩ := h.follow
    rw [hstart] at hscope
    obtain rfl := Except.ok.inj hscope
    cases hsteps : p.steps with
    | nil =>
      rw [hsteps] at hfollow
      cases hfollow
      exact ⟨List.nodup_singleton _, fun _ => List.pairwise_singleton _ _⟩
    | cons step rest =>
      rw [hsteps] at hfollow hup honce
      cases step with
      | attributes test => cases hfollow
      | nodes axis test predicates =>
        -- The scope may have been deleted. Then the first step goes nowhere.
        rw [← follow_shown] at hfollow
        obtain ⟨hnodup, horder⟩ :=
          follow_spread hup hfollow hd.linked (Document.spread_scope hd.linked v.scope) honce
        exact ⟨hnodup, fun hflat => Document.inOrder_of_sublist (horder hflat)⟩

open Document in
/-- The small document as a whole. -/
def overview : View := { document := smallDocument, scope := smallId 1, bindings := {} }

/-- The path `.//*`. -/
def allBelow : Path := ⟨.context, [.nodes .self .any [], .nodes .descendant .any []]⟩

open Document in
theorem selected_once_small :
    overview.document.Reachable ∧ overview.Selects allBelow ([2, 3, 4].map smallId) ∧
      smallDocument.InOrder ([2, 3, 4].map smallId) := by
  have hselects : overview.Selects allBelow ([2, 3, 4].map smallId) := .inside rfl
  have hreachable : overview.document.Reachable := smallDocument_reachable
  have honce := selected_once hreachable (p := allBelow) rfl (by decide) (by decide)
  exact ⟨hreachable, hselects, (honce.2 _ hselects).2 (by decide)⟩

end View

end MarkupScript
