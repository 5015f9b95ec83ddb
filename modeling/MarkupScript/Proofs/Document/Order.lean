import MarkupScript.Proofs.Document.Building
import MarkupScript.Proofs.Document.Scope

/-!
# Document order

In document order an annotation stands before those below it, and these stand in the order of
the lists of children.

* `Table.Ordered` says this of a table, without going through a tree.
* `Linked.exportTo_holds`: the tree that is exported is the one that the table keeps.
* `ordered_toNode`: so the tree of a document lists its annotations in document order.
* `Ordered.deleted`, `Ordered.wrapped`: a deletion leaves one annotation out of the order, a
  wrapping puts one in.
-/

namespace MarkupScript

open Relation

namespace Table

variable {t : Table} {root : AnnotationId}

/-- What is below an annotation is one of its children or below one. -/
theorem Linked.exists_child_iff (h : t.Linked root) {id x : AnnotationId} {e : Entry}
    (he : Keyed.get? t id = some e) :
    (∃ c ∈ e.children, ReflTransGen t.HasParent x c) ↔ TransGen t.HasParent x id := by
  rw [TransGen.tail'_iff]
  constructor
  · rintro ⟨c, hc, hpath⟩
    exact ⟨c, hpath, (h.mem_children_iff he).mp hc⟩
  · rintro ⟨c, hpath, hc⟩
    exact ⟨c, (h.mem_children_iff he).mpr hc, hpath⟩

/-- Some annotations, each with all that is below it, stand in the order of a list. -/
inductive Ordered (t : Table) : List AnnotationId → List AnnotationId → Prop
  | nil : Ordered t [] []
  | cons {id : AnnotationId} {e : Entry} {rest below after : List AnnotationId}
      (hget : Keyed.get? t id = some e) (hbelow : Ordered t e.children below)
      (hafter : Ordered t rest after) : Ordered t (id :: rest) (id :: (below ++ after))

namespace Ordered

theorem append {ids ids' l l' : List AnnotationId} (h : t.Ordered ids l) (h' : t.Ordered ids' l') :
    t.Ordered (ids ++ ids') (l ++ l') := by
  induction h with
  | nil => exact h'
  | cons hget hbelow _ _ ih =>
    have hall := Ordered.cons hget hbelow ih
    simpa using hall

/-- There is one order at most. -/
theorem unique {ids l l' : List AnnotationId} (h : t.Ordered ids l) (h' : t.Ordered ids l') :
    l = l' := by
  induction h generalizing l' with
  | nil =>
    cases h'
    rfl
  | cons hget _ _ ihbelow ihafter =>
    cases h' with
    | cons hget' hbelow' hafter' =>
      obtain rfl := Option.some.inj (hget.symm.trans hget')
      rw [ihbelow hbelow', ihafter hafter']

/-- In the order stand the annotations given and those below them. -/
theorem mem_iff (h : t.Linked root) {ids l : List AnnotationId} (hl : t.Ordered ids l)
    {x : AnnotationId} : x ∈ l ↔ ∃ id ∈ ids, ReflTransGen t.HasParent x id := by
  induction hl with
  | nil => simp
  | @cons id e rest below after hget _ _ ihbelow ihafter =>
    rw [List.mem_cons, List.mem_append, ihbelow, ihafter, h.exists_child_iff hget,
      List.exists_mem_cons_iff, reflTransGen_iff_eq_or_transGen, or_assoc, eq_comm]

end Ordered

/-! ## No repetitions -/

/-- Below two siblings there are no common annotations. -/
theorem Linked.siblings_apart (h : t.Linked root) {a b p x : AnnotationId}
    (ha : t.HasParent a p) (hb : t.HasParent b p) (hne : a ≠ b)
    (hxa : ReflTransGen t.HasParent x a) (hxb : ReflTransGen t.HasParent x b) : False := by
  -- One of the two is above the other, and so above their parent.
  have key : ∀ {u v : AnnotationId}, t.HasParent u p → t.HasParent v p → u ≠ v →
      ¬ ReflTransGen t.HasParent u v := by
    intro u v hu hv huv hpath
    rcases ReflTransGen.cases_head hpath with heq | ⟨q, hq, hback⟩
    · exact huv heq
    · obtain rfl := hq.unique hu
      exact h.acyclic v (TransGen.head' hv hback)
  have hunique : Relator.RightUnique t.HasParent := fun _ _ _ => HasParent.unique
  rcases ReflTransGen.total_of_right_unique hunique hxa hxb with hpath | hpath
  · exact key ha hb hne hpath
  · exact key hb ha hne.symm hpath

/-- No annotation is below two of some annotations. -/
def Apart (t : Table) (ids : List AnnotationId) : Prop :=
  ids.Pairwise fun a b => ∀ x, ReflTransGen t.HasParent x a → ¬ ReflTransGen t.HasParent x b

theorem Linked.apart_children (h : t.Linked root) {id : AnnotationId} {e : Entry}
    (he : Keyed.get? t id = some e) : t.Apart e.children := by
  have hnodup : e.children.Pairwise (· ≠ ·) := h.children_nodup he
  refine hnodup.imp_of_mem ?_
  intro a b ha hb hne x hxa hxb
  rw [h.mem_children_iff he] at ha hb
  exact h.siblings_apart ha hb hne hxa hxb

/-- No annotation stands in the order twice. -/
theorem Ordered.nodup (h : t.Linked root) {ids l : List AnnotationId} (hl : t.Ordered ids l)
    (hapart : t.Apart ids) : l.Nodup := by
  induction hl with
  | nil => exact List.nodup_nil
  | @cons id e rest below after hget hbelow hafter ihbelow ihafter =>
    obtain ⟨hfirst, hrest⟩ := List.pairwise_cons.mp hapart
    have hinside : ∀ x ∈ below, TransGen t.HasParent x id := by
      intro x hx
      exact (h.exists_child_iff hget).mp ((hbelow.mem_iff h).mp hx)
    have houtside : ∀ x ∈ after, ¬ ReflTransGen t.HasParent x id := by
      intro x hx hpath
      obtain ⟨r, hr, hpath'⟩ := (hafter.mem_iff h).mp hx
      exact hfirst r hr x hpath hpath'
    rw [List.nodup_cons, List.nodup_append]
    refine ⟨?_, ihbelow (h.apart_children hget), ihafter hrest, ?_⟩
    · intro hmem
      rcases List.mem_append.mp hmem with hmem | hmem
      · exact h.acyclic id (hinside id hmem)
      · exact houtside id hmem .refl
    · rintro x hx y hy rfl
      exact houtside x hy (hinside x hx).to_reflTransGen

/-! ## The exported tree -/

mutual

/-- The tree that a table keeps lists its annotations in document order. -/
theorem Holds.ordered : ∀ {parent : Option AnnotationId} {node : Node},
    t.Holds parent node → t.Ordered [node.id] node.preorder
  | _, ⟨id, kind, attributes, value, children⟩, h => by
    rw [Holds] at h
    have hall := Ordered.cons h.1 h.2.ordered .nil
    rw [List.append_nil] at hall
    rw [Node.preorder]
    exact hall

theorem HoldsAll.ordered : ∀ {parent : AnnotationId} {nodes : List Node},
    t.HoldsAll parent nodes → t.Ordered (nodes.map (·.id)) (Node.preorderAll nodes)
  | _, [], _ => by
    rw [Node.preorderAll]
    exact .nil
  | _, _ :: _, h => by
    rw [HoldsAll] at h
    rw [Node.preorderAll]
    exact h.1.ordered.append h.2.ordered

end

/-- The trees of some annotations, if each has one. -/
theorem holdsAll_filterMap {parent : AnnotationId} {f : AnnotationId → Option Node}
    {ids : List AnnotationId}
    (h : ∀ id ∈ ids, ∃ node, f id = some node ∧ node.id = id ∧ t.Holds (some parent) node) :
    (ids.filterMap f).map (·.id) = ids ∧ t.HoldsAll parent (ids.filterMap f) := by
  induction ids with
  | nil =>
    refine ⟨rfl, ?_⟩
    rw [List.filterMap_nil, HoldsAll]
    trivial
  | cons id rest ih =>
    obtain ⟨node, hf, hid, hholds⟩ := h id List.mem_cons_self
    obtain ⟨hids, hall⟩ := ih fun i hi => h i (List.mem_cons_of_mem _ hi)
    rw [List.filterMap_cons_some hf]
    constructor
    · rw [List.map_cons, hid, hids]
    · rw [HoldsAll]
      exact ⟨hholds, hall⟩

/-- Following the children from an annotation ends within some levels. -/
def Shallow (t : Table) : Nat → AnnotationId → Prop
  | 0, _ => False
  | levels + 1, id =>
    ∀ e, Keyed.get? t id = some e → ∀ c ∈ e.children, Shallow t levels c

/-- Following the children ends, if there is a level left for every entry that is not above. -/
theorem Linked.shallow_below (h : t.Linked root) {levels : Nat} {id : AnnotationId}
    (hid : Keyed.has t id = true) {above : List AnnotationId} (hnodup : above.Nodup)
    (hknown : above ⊆ Keyed.keys t) (habove : ∀ v ∈ above, TransGen t.HasParent id v)
    (hlevels : t.length ≤ levels + above.length) : t.Shallow levels id := by
  induction levels generalizing id above with
  | zero =>
    -- There are more annotations on the way up than entries.
    obtain ⟨hnodup', hknown'⟩ := h.walk_cons hid hnodup hknown (habove id)
    have hlen := length_le_of_nodup hnodup' hknown'
    simp only [List.length_cons] at hlen
    omega
  | succ levels ih =>
    obtain ⟨hnodup', hknown'⟩ := h.walk_cons hid hnodup hknown (habove id)
    intro e he c hc
    have hpar : t.HasParent c id := (h.mem_children_iff he).mp hc
    refine ih hpar.has hnodup' hknown' ?_ (by simp only [List.length_cons]; omega)
    intro v hv
    rcases List.mem_cons.mp hv with rfl | hv
    · exact .single hpar
    · exact TransGen.head hpar (habove v hv)

/-- A tree has no more levels than there are entries. -/
theorem Linked.shallow (h : t.Linked root) {id : AnnotationId} (hid : Keyed.has t id = true) :
    t.Shallow t.length id :=
  h.shallow_below hid .nil (by simp) (by simp) (by simp)

/-- The tree that is exported is the one that the table keeps, if it is exported to its last
level. -/
theorem Linked.exportTo_holds (h : t.Linked root) {fuel : Nat} {id : AnnotationId} {e : Entry}
    (he : Keyed.get? t id = some e) (hfuel : t.Shallow fuel id) :
    ∃ node, t.exportTo fuel id = some node ∧ node.id = id ∧ t.Holds e.parent node := by
  induction fuel generalizing id e with
  | zero => cases hfuel
  | succ fuel ih =>
    have hchildren : ∀ c ∈ e.children, ∃ node, t.exportTo fuel c = some node ∧ node.id = c ∧
        t.Holds (some id) node := by
      intro c hc
      obtain ⟨ce, hce, hcp⟩ := (h.mem_children_iff he).mp hc
      rw [← hcp]
      exact ih hce (hfuel e he c hc)
    obtain ⟨hids, hall⟩ := holdsAll_filterMap hchildren
    refine ⟨_, by rw [exportTo, he]; rfl, rfl, ?_⟩
    rw [Holds, hids]
    exact ⟨he, hall⟩

/-! ## Order and edits -/

theorem Ordered.update {f : Entry → Entry} {x : AnnotationId}
    (hf : ∀ e, (f e).parent = e.parent ∧ (f e).children = e.children)
    {ids l : List AnnotationId} (h : t.Ordered ids l) : (t.update x f).Ordered ids l := by
  induction h with
  | nil => exact .nil
  | @cons id e rest below after hget _ _ ihbelow ihafter =>
    have hget' : Keyed.get? (t.update x f) id = some (if id = x then f e else e) := by
      rw [get?_update, hget, Option.map_some]
    refine .cons hget' ?_ ihafter
    split
    · rw [(hf e).2]
      exact ihbelow
    · exact ihbelow

/-- With one annotation replaced wherever it stands. -/
def substitute (x : AnnotationId) (new ids : List AnnotationId) : List AnnotationId :=
  ids.flatMap fun id => if id = x then new else [id]

theorem substitute_cons (x id : AnnotationId) (new rest : List AnnotationId) :
    substitute x new (id :: rest) = (if id = x then new else [id]) ++ substitute x new rest := by
  rw [substitute, List.flatMap_cons, ← substitute]

theorem substitute_append (x : AnnotationId) (new l l' : List AnnotationId) :
    substitute x new (l ++ l') = substitute x new l ++ substitute x new l' := by
  rw [substitute, List.flatMap_append, ← substitute, ← substitute]

theorem substitute_of_not_mem {x : AnnotationId} {new ids : List AnnotationId} (h : x ∉ ids) :
    substitute x new ids = ids := by
  have hsame : ∀ id ∈ ids, (if id = x then new else [id]) = [id] := by
    intro id hid
    rw [if_neg (ne_of_mem_of_not_mem hid h)]
  rw [substitute, List.flatMap_congr hsame]
  simp

theorem subset_substitute (x w : AnnotationId) (ids : List AnnotationId) :
    ids ⊆ substitute x [w, x] ids := by
  intro id hid
  refine List.mem_flatMap.mpr ⟨id, hid, ?_⟩
  split
  · next heq => simp [heq]
  · simp

/-- Without what was put before an annotation, a list is what it was. -/
theorem filter_substitute {x w : AnnotationId} {ids : List AnnotationId} (hw : w ∉ ids) :
    (substitute x [w, x] ids).filter (· ∈ ids) = ids := by
  have hback : ∀ id ∈ ids, (if id = x then [w, x] else [id]).filter (· ∈ ids) = [id] := by
    intro id hid
    split
    · next heq => simp [hw, ← heq, hid]
    · simp [hid]
  rw [substitute, List.filter_flatMap, List.flatMap_congr hback]
  simp

/-- In a list without repetitions, replacing the first is replacing all. -/
theorem splice_eq_substitute {x : AnnotationId} {new ids : List AnnotationId} (h : ids.Nodup) :
    splice x new ids = substitute x new ids := by
  induction ids with
  | nil => rfl
  | cons id rest ih =>
    obtain ⟨hnot, hrest⟩ := List.nodup_cons.mp h
    by_cases hid : id = x
    · subst hid
      rw [splice, if_pos rfl, substitute_cons, if_pos rfl, substitute_of_not_mem hnot]
    · rw [splice, if_neg hid, ih hrest, substitute_cons, if_neg hid]
      rfl

/-- A list of children in which an annotation gives way to others if the list is that of its
parent. -/
theorem Linked.children_substitute (h : t.Linked root) {x p id : AnnotationId} {e : Entry}
    (hx : t.HasParent x p) (he : Keyed.get? t id = some e) (new : List AnnotationId) :
    (if id = p then splice x new e.children else e.children) = substitute x new e.children := by
  split
  · exact splice_eq_substitute (h.children_nodup he)
  · next hne =>
    rw [substitute_of_not_mem]
    rw [h.mem_children_iff he]
    exact fun hpar => hne (hpar.unique hx)

section Deletion

variable {x p : AnnotationId} {e : Entry}

/-- Deleting an annotation leaves it out of the order and moves nothing. -/
theorem Ordered.deleted (h : t.Linked root) (he : Keyed.get? t x = some e)
    (hp : e.parent = some p) {ids l : List AnnotationId} (hl : t.Ordered ids l) :
    (t.deleted x p e.children).Ordered (substitute x e.children ids) (l.filter (· ≠ x)) := by
  have hxp : t.HasParent x p := ⟨e, he, hp⟩
  induction hl with
  | nil => exact .nil
  | @cons id ie rest below after hget _ _ ihbelow ihafter =>
    rw [substitute_cons]
    by_cases hid : id = x
    · -- Its children stand in its place.
      subst hid
      obtain rfl := Option.some.inj (hget.symm.trans he)
      have hnot : id ∉ ie.children := by
        rw [h.mem_children_iff he]
        exact fun hpar => h.acyclic id (.single hpar)
      rw [substitute_of_not_mem hnot] at ihbelow
      rw [if_pos rfl]
      simpa using ihbelow.append ihafter
    · rw [if_neg hid, List.filter_cons_of_pos (by simpa using hid), List.filter_append]
      have hget' : Keyed.get? (t.deleted x p e.children) id =
          some (deletedEntry x p e.children id ie) := by
        rw [get?_deleted, if_neg hid, hget, Option.map_some]
      refine .cons hget' ?_ ihafter
      have hchildren := h.children_substitute hxp hget e.children
      rw [deletedEntry]
      dsimp only
      rw [hchildren]
      exact ihbelow

end Deletion

section Wrapping

variable {x p w : AnnotationId} {e : Entry} {kind : String}

/-- Wrapping an annotation puts the wrapper before it into the order and moves nothing. -/
theorem Ordered.wrapped (h : t.Linked root) (he : Keyed.get? t x = some e)
    (hp : e.parent = some p) (hw : Keyed.get? t w = none) {ids l : List AnnotationId}
    (hl : t.Ordered ids l) :
    (t.wrapped x p w kind).Ordered (substitute x [w] ids) (substitute x [w, x] l) := by
  have hxp : t.HasParent x p := ⟨e, he, hp⟩
  have hxw : x ≠ w := by
    rintro rfl
    simp [he] at hw
  induction hl with
  | nil => exact .nil
  | @cons id ie rest below after hget _ _ ihbelow ihafter =>
    have hidw : id ≠ w := by
      rintro rfl
      simp [hget] at hw
    have hget' : Keyed.get? (t.wrapped x p w kind) id = some (wrappedEntry x p w id ie) := by
      rw [get?_wrapped, if_neg hidw, hget, Option.map_some]
    have hchildren := h.children_substitute hxp hget [w]
    have hbelow' : (t.wrapped x p w kind).Ordered (wrappedEntry x p w id ie).children
        (substitute x [w, x] below) := by
      rw [wrappedEntry]
      dsimp only
      rw [hchildren]
      exact ihbelow
    by_cases hid : id = x
    · -- The wrapper has this one annotation below it.
      subst hid
      have hgetw : Keyed.get? (t.wrapped id p w kind) w =
          some { kind, parent := some p, children := [id] } := by
        rw [get?_wrapped, if_pos rfl]
      have hone := Ordered.cons hget' hbelow' .nil
      have hall := Ordered.cons hgetw hone ihafter
      simpa [substitute] using hall
    · have hall := Ordered.cons hget' hbelow' ihafter
      simpa [substitute, hid] using hall

end Wrapping

end Table

namespace Document

/-- The tree of a document is the one that its table keeps. -/
theorem holds_toNode {d : Document} (h : d.table.Linked d.root) :
    d.toNode.id = d.root ∧ d.table.Holds none d.toNode := by
  obtain ⟨e, he, hnone⟩ := h.root_entry
  have hroot : Keyed.has d.table d.root = true := Keyed.has_iff.mpr ⟨e, he⟩
  obtain ⟨node, hexport, hid, hholds⟩ := h.exportTo_holds he (h.shallow hroot)
  have htree : d.toNode = node := by
    rw [toNode, Table.exportNode, hexport, Option.getD_some]
  rw [htree]
  rw [hnone] at hholds
  exact ⟨hid, hholds⟩

/-- The tree of a document lists its annotations in document order. -/
theorem ordered_toNode {d : Document} (h : d.table.Linked d.root) :
    d.table.Ordered [d.root] d.toNode.preorder := by
  obtain ⟨hid, hholds⟩ := holds_toNode h
  rw [← hid]
  exact hholds.ordered

theorem mem_preorder_iff {d : Document} (h : d.table.Linked d.root) {id : AnnotationId} :
    id ∈ d.toNode.preorder ↔ Keyed.has d.table id = true := by
  rw [(ordered_toNode h).mem_iff h]
  constructor
  · rintro ⟨r, hr, hpath⟩
    obtain rfl := List.mem_singleton.mp hr
    rcases ReflTransGen.cases_head hpath with rfl | ⟨p, hp, -⟩
    · obtain ⟨e, he, -⟩ := h.root_entry
      exact Keyed.has_iff.mpr ⟨e, he⟩
    · exact hp.has
  · intro hid
    exact ⟨d.root, by simp, h.climbs hid⟩

theorem nodup_preorder {d : Document} (h : d.table.Linked d.root) : d.toNode.preorder.Nodup :=
  (ordered_toNode h).nodup h (List.pairwise_singleton _ _)

end Document

end MarkupScript
