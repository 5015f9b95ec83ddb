import MarkupScript.Proofs.Document.Subtree

/-!
# Walks up and down

Whether one annotation is below another is decided by following the parents up, and what is below
an annotation is listed by following the children down. Neither walk counts its steps: that it
ends, and that the two say the same, holds because the table is a tree.

* `Table.Climbs`, `Table.Descends`: the two walks, as they go when nothing bounds them. There is a
  derivation for a walk that ends, and for no other.
* `Climbs.iff_reaches`: what a walk up answers.
* `Linked.climbs_iff`, `Linked.descends_iff`: in a tree both walks end, with what `isWithin` and
  `descendants` give.
* `Document.walks_agree`: after any edits, the way up and the way down say the same.
-/

namespace MarkupScript

open Relation

namespace Table

variable {t : Table} {root : AnnotationId}

/-! ## The way up -/

/-- A walk from an annotation along the parents looks for `ancestor` and ends with an answer. -/
inductive Climbs (t : Table) (ancestor : AnnotationId) : AnnotationId → Bool → Prop
  | found : Climbs t ancestor ancestor true
  | top {id : AnnotationId} (hne : id ≠ ancestor)
      (hpar : (Keyed.get? t id).bind (·.parent) = none) : Climbs t ancestor id false
  | up {id parent : AnnotationId} {answer : Bool} (hne : id ≠ ancestor)
      (hpar : (Keyed.get? t id).bind (·.parent) = some parent)
      (h : Climbs t ancestor parent answer) : Climbs t ancestor id answer

/-- A walk that ends has found the annotation if it is above. -/
theorem Climbs.iff_reaches {ancestor id : AnnotationId} {answer : Bool}
    (h : t.Climbs ancestor id answer) :
    answer = true ↔ ReflTransGen t.HasParent id ancestor := by
  induction h with
  | found => exact iff_of_true rfl .refl
  | @top id hne hpar =>
    refine iff_of_false Bool.false_ne_true ?_
    intro hpath
    rcases ReflTransGen.cases_head hpath with heq | ⟨parent, hstep, -⟩
    · exact hne heq
    · rw [parent?_eq_some.mpr hstep] at hpar
      cases hpar
  | @up id parent answer hne hpar _ ih =>
    have hstep : t.HasParent id parent := parent?_eq_some.mp hpar
    rw [ih]
    constructor
    · intro hpath
      exact .head hstep hpath
    · intro hpath
      rcases ReflTransGen.cases_head hpath with heq | ⟨other, hother, hpath⟩
      · exact absurd heq hne
      · rwa [hstep.unique hother]

/-- In a tree a walk up ends at the root if it has not ended before. -/
theorem Linked.exists_climbs (h : t.Linked root) (ancestor : AnnotationId) {id : AnnotationId}
    (hid : Keyed.has t id = true) : ∃ answer, t.Climbs ancestor id answer := by
  -- The induction is on the way from the annotation to the root, which the walk goes along.
  have hpath : ReflTransGen t.HasParent id root := h.climbs hid
  clear hid
  induction hpath using ReflTransGen.head_induction_on with
  | refl =>
    by_cases heq : root = ancestor
    · exact ⟨true, heq ▸ .found⟩
    · refine ⟨false, .top heq ?_⟩
      obtain ⟨e, he, hnone⟩ := h.root_entry
      rw [he, Option.bind_some, hnone]
  | @head id parent hstep _ ih =>
    by_cases heq : id = ancestor
    · exact ⟨true, heq ▸ .found⟩
    · obtain ⟨answer, hanswer⟩ := ih
      exact ⟨answer, .up heq (parent?_eq_some.mpr hstep) hanswer⟩

/-- In a tree a walk up ends, and its answer is that of the walk with a bound. -/
theorem Linked.climbs_iff (h : t.Linked root) {id ancestor : AnnotationId}
    (hid : Keyed.has t id = true) (answer : Bool) :
    t.Climbs ancestor id answer ↔ answer = t.isWithin id ancestor := by
  -- Both answers say whether `ancestor` is above, so no two walks can differ.
  have hsame : ∀ {answer}, t.Climbs ancestor id answer → answer = t.isWithin id ancestor := by
    intro answer hclimbs
    rw [Bool.eq_iff_iff, hclimbs.iff_reaches, h.isWithin_iff]
  refine ⟨hsame, ?_⟩
  rintro rfl
  obtain ⟨answer, hclimbs⟩ := h.exists_climbs ancestor hid
  rwa [← hsame hclimbs]

/-! ## The way down -/

/-- The children that an annotation lists. One that is not there lists none. -/
def childrenOf (t : Table) (id : AnnotationId) : List AnnotationId :=
  ((Keyed.get? t id).map (·.children)).getD []

/-- A walk over some annotations lists each and then, walking over its children, those below it;
and it ends. -/
inductive Descends (t : Table) : List AnnotationId → List AnnotationId → Prop
  | nil : Descends t [] []
  | cons {id : AnnotationId} {rest below after : List AnnotationId}
      (hbelow : Descends t (t.childrenOf id) below) (hafter : Descends t rest after) :
      Descends t (id :: rest) (id :: (below ++ after))

/-- A walk ends with one list at most. -/
theorem Descends.unique {ids l l' : List AnnotationId} (h : t.Descends ids l)
    (h' : t.Descends ids l') : l = l' := by
  induction h generalizing l' with
  | nil =>
    cases h'
    rfl
  | cons _ _ ihbelow ihafter =>
    cases h' with
    | cons hbelow' hafter' => rw [ihbelow hbelow', ihafter hafter']

/-- A walk over annotations that are there ends, and lists them in document order. -/
theorem Ordered.descends {ids l : List AnnotationId} (h : t.Ordered ids l) : t.Descends ids l := by
  induction h with
  | nil => exact .nil
  | @cons id e rest below after hget _ _ ihbelow ihafter =>
    refine .cons ?_ ihafter
    rwa [childrenOf, hget]

/-- The children of an annotation, each with all that is below it, are listed in document
order. -/
theorem Linked.ordered_below (h : t.Linked root) {id : AnnotationId} {e : Entry}
    (he : Keyed.get? t id = some e) : t.Ordered e.children (t.descendants id) := by
  -- The annotation alone is listed as itself, what is below, and nothing after.
  have hall := h.ordered_descendants (Keyed.has_iff.mpr ⟨e, he⟩)
  generalize t.descendants id = l at hall ⊢
  cases hall with
  | @cons _ e' _ below after hget hbelow hafter =>
    obtain rfl : e = e' := Option.some.inj (he.symm.trans hget)
    cases hafter
    rwa [List.append_nil]

/-- In a tree a walk down ends, and its list is that of the walk with a bound. -/
theorem Linked.descends_iff (h : t.Linked root) {id : AnnotationId} (hid : Keyed.has t id = true)
    (listed : List AnnotationId) :
    t.Descends (t.childrenOf id) listed ↔ listed = t.descendants id := by
  obtain ⟨e, he⟩ := Keyed.has_iff.mp hid
  have hends : t.Descends (t.childrenOf id) (t.descendants id) := by
    rw [childrenOf, he]
    exact (h.ordered_below he).descends
  constructor
  · intro hlisted
    exact hlisted.unique hends
  · rintro rfl
    exact hends

/-! ## Both ways -/

/-- The way down along the children is the way up along the parents, backwards. -/
theorem Linked.transGen_hasChild_iff (h : t.Linked root) {id below : AnnotationId} :
    TransGen t.HasChild id below ↔ TransGen t.HasParent below id := by
  have hswap : t.HasChild = Function.swap t.HasParent := by
    funext p c
    exact propext h.link
  rw [hswap, transGen_swap]

/-- Listed are those that are properly below, and none of them twice. -/
theorem Linked.mem_descendants_iff (h : t.Linked root) {id below : AnnotationId}
    (hid : Keyed.has t id = true) :
    below ∈ t.descendants id ↔ TransGen t.HasParent below id := by
  obtain ⟨e, he⟩ := Keyed.has_iff.mp hid
  rw [(h.ordered_below he).mem_iff h, h.exists_child_iff he]

theorem Linked.nodup_descendants (h : t.Linked root) {id : AnnotationId}
    (hid : Keyed.has t id = true) : (t.descendants id).Nodup := by
  obtain ⟨e, he⟩ := Keyed.has_iff.mp hid
  exact (h.ordered_below he).nodup h (h.apart_children he)

/-- The exported tree starts with the annotation and goes on with what the walk down lists. -/
theorem Linked.preorder_exportNode (h : t.Linked root) {id : AnnotationId}
    (hid : Keyed.has t id = true) :
    ∃ node, t.exportNode id = some node ∧ node.preorder = id :: t.descendants id := by
  obtain ⟨e, he⟩ := Keyed.has_iff.mp hid
  obtain ⟨node, hexport, rfl, hholds⟩ := h.exportTo_holds he (h.shallow hid)
  refine ⟨node, hexport, ?_⟩
  rw [Node.preorder_eq, h.descendants_eq hholds]

end Table

namespace Document

/-- In a document after any edits, take any two annotations that are there.

The walk up from one, without a bound, ends with the answer of `isWithin`, which is that the other
is the same annotation or lists it below. The walk down, without a bound, ends with the list of
`descendants`: those that are properly below through the lists of children, each once, in the
order of the exported tree. -/
theorem walks_agree {d : Document} (hd : d.Reachable) {a x : AnnotationId}
    (ha : Keyed.has d.table a = true) (hx : Keyed.has d.table x = true) :
    ((∀ answer, d.table.Climbs a x answer ↔ answer = d.table.isWithin x a) ∧
      (d.table.isWithin x a = true ↔ x = a ∨ x ∈ d.table.descendants a)) ∧
    (∀ listed, d.table.Descends (d.table.childrenOf a) listed ↔
      listed = d.table.descendants a) ∧
    (d.table.descendants a).Nodup ∧
    (∀ y, y ∈ d.table.descendants a ↔ TransGen d.table.HasChild a y) ∧
    ∃ node, d.table.exportNode a = some node ∧
      node.preorder = a :: d.table.descendants a := by
  have hlinked := hd.linked
  refine ⟨⟨hlinked.climbs_iff hx, ?_⟩, hlinked.descends_iff ha, hlinked.nodup_descendants ha, ?_,
    hlinked.preorder_exportNode ha⟩
  · rw [hlinked.isWithin_iff, hlinked.mem_descendants_iff ha, reflTransGen_iff_eq_or_transGen,
      eq_comm]
  · intro y
    rw [hlinked.mem_descendants_iff ha, hlinked.transGen_hasChild_iff]

/-- A wrapped word and one that has come up in the place of its paragraph. -/
theorem walks_agree_small :
    let t := (smallDocument.afterAll smallCalls).table
    t.descendants (smallId 1) = [3, 101, 4].map smallId ∧
      (∀ answer, t.Climbs (smallId 101) (smallId 4) answer ↔ answer = true) ∧
      (∀ answer, t.Climbs (smallId 101) (smallId 3) answer ↔ answer = false) ∧
      ∀ listed, t.Descends (t.childrenOf (smallId 1)) listed ↔
        listed = [3, 101, 4].map smallId := by
  intro t
  have hreach : (smallDocument.afterAll smallCalls).Reachable :=
    ⟨smallNode, smallIds, smallDocument, smallCalls, rfl, by decide, rfl⟩
  have hlist : t.descendants (smallId 1) = [3, 101, 4].map smallId := by decide
  have hin : t.isWithin (smallId 4) (smallId 101) = true := by decide
  have hout : t.isWithin (smallId 3) (smallId 101) = false := by decide
  have hword := walks_agree hreach (a := smallId 101) (x := smallId 4) (by decide) (by decide)
  have hother := walks_agree hreach (a := smallId 101) (x := smallId 3) (by decide) (by decide)
  have hroot := walks_agree hreach (a := smallId 1) (x := smallId 4) (by decide) (by decide)
  refine ⟨hlist, ?_, ?_, ?_⟩
  · rw [← hin]
    exact hword.1.1
  · rw [← hout]
    exact hother.1.1
  · rw [← hlist]
    exact hroot.2.1

end Document

end MarkupScript
