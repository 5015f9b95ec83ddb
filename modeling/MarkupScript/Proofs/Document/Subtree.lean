import MarkupScript.Proofs.Document.WellFormed
import MarkupScript.Proofs.Document.Order

/-!
# What a scope shows

Through a scope one reads the exported subtree of its annotation and nothing else. Two documents
that export the same subtree may differ everywhere outside it, also in the parent of the scope.

* `WellFormed.linked`: a well-formed document has its links in order.
* `Linked.descendants_eq`, `Linked.content_eq`: the walks down a tree read the node that the
  table keeps.
* `Linked.ordered_descendants`: an annotation and those below it stand in document order.
* `Holds.common`: tables that keep one node keep every part of it.
* `Document.Shares`: two documents share the subtree of an annotation.
* `Shares.entry?_cases`: what is read of an entry through that scope is the same in both.
-/

namespace MarkupScript

open Relation

/-- Well-formedness says all that the links need. -/
theorem Document.WellFormed.linked {d : Document} (h : d.WellFormed) : d.table.Linked d.root := by
  -- A child is not the root, so it is listed once and only by its parent.
  have hlisted : ∀ {p c : AnnotationId}, d.table.HasParent c p →
      ∃ e, Keyed.get? d.table p = some e ∧ e.children.count c = 1 := by
    intro p c hc
    have hne : c ≠ d.root := by
      rintro rfl
      obtain ⟨e, he, hp⟩ := hc
      obtain ⟨e', he', hnone⟩ := h.root_entry
      obtain rfl : e = e' := Option.some.inj (he.symm.trans he')
      simp [hnone] at hp
    obtain ⟨q, e, he, hcount, -⟩ := h.listed_once hc.has hne
    have hmem : c ∈ e.children := List.count_pos_iff.mp (by omega)
    obtain rfl := hc.unique (h.child_parent ⟨e, he, hmem⟩)
    exact ⟨e, he, hcount⟩
  refine ⟨h.keys_nodup, h.root_entry, ⟨h.child_parent, ?_⟩, ?_, h.climbs⟩
  · intro hc
    obtain ⟨e, he, hcount⟩ := hlisted hc
    exact ⟨e, he, List.count_pos_iff.mp (by omega)⟩
  · intro id e he
    rw [List.nodup_iff_count_le_one]
    intro c
    by_cases hc : c ∈ e.children
    · obtain ⟨e', he', hcount⟩ := hlisted (h.child_parent ⟨e, he, hc⟩)
      obtain rfl : e = e' := Option.some.inj (he.symm.trans he')
      omega
    · rw [List.count_eq_zero_of_not_mem hc]
      omega

namespace Node

mutual

/-- The text of a node: its own value or else the texts of its children. -/
def text : Node → String
  | ⟨_, _, _, some value, _⟩ => value
  | ⟨_, _, _, none, children⟩ => String.join (texts children)

/-- The texts of several nodes. -/
def texts : List Node → List String
  | [] => []
  | node :: rest => text node :: texts rest

end

theorem preorder_eq (node : Node) : node.preorder = node.id :: preorderAll node.children := by
  obtain ⟨id, kind, attributes, value, children⟩ := node
  rw [preorder]

end Node

namespace Table

variable {t t' : Table} {root : AnnotationId}

/-! ## Walks down a tree -/

mutual

theorem Holds.descendTo_eq : ∀ {levels : Nat} {parent : Option AnnotationId} {node : Node},
    t.Holds parent node → t.Shallow levels node.id →
      t.descendTo levels node.id = Node.preorderAll node.children
  | 0, _, _, _, hlevels => hlevels.elim
  | levels + 1, _, ⟨id, kind, attributes, value, children⟩, h, hlevels => by
    rw [Holds] at h
    rw [descendTo, h.1]
    exact h.2.descendTo_eq fun node hn => hlevels _ h.1 _ (List.mem_map_of_mem hn)

theorem HoldsAll.descendTo_eq : ∀ {levels : Nat} {parent : AnnotationId} {nodes : List Node},
    t.HoldsAll parent nodes → (∀ node ∈ nodes, t.Shallow levels node.id) →
      (nodes.map (·.id)).flatMap (fun child => child :: t.descendTo levels child) =
        Node.preorderAll nodes
  | _, _, [], _, _ => by
    rw [Node.preorderAll]
    rfl
  | _, _, node :: rest, h, hlevels => by
    rw [HoldsAll] at h
    obtain ⟨hfirst, hrest⟩ := List.forall_mem_cons.mp hlevels
    rw [List.map_cons, List.flatMap_cons, h.1.descendTo_eq hfirst, h.2.descendTo_eq hrest,
      Node.preorderAll, Node.preorder_eq]

end

mutual

theorem Holds.contentTo_eq : ∀ {levels : Nat} {parent : Option AnnotationId} {node : Node},
    t.Holds parent node → t.Shallow levels node.id → t.contentTo levels node.id = node.text
  | 0, _, _, _, hlevels => hlevels.elim
  | _ + 1, _, ⟨id, kind, attributes, some value, children⟩, h, _ => by
    rw [Holds] at h
    rw [contentTo, h.1, Node.text]
  | levels + 1, _, ⟨id, kind, attributes, none, children⟩, h, hlevels => by
    rw [Holds] at h
    have hbelow := h.2.contentTo_eq fun node hn => hlevels _ h.1 _ (List.mem_map_of_mem hn)
    rw [contentTo, h.1, Node.text, ← hbelow]

theorem HoldsAll.contentTo_eq : ∀ {levels : Nat} {parent : AnnotationId} {nodes : List Node},
    t.HoldsAll parent nodes → (∀ node ∈ nodes, t.Shallow levels node.id) →
      (nodes.map (·.id)).map (t.contentTo levels) = Node.texts nodes
  | _, _, [], _, _ => by
    rw [Node.texts]
    rfl
  | _, _, node :: rest, h, hlevels => by
    rw [HoldsAll] at h
    obtain ⟨hfirst, hrest⟩ := List.forall_mem_cons.mp hlevels
    rw [List.map_cons, List.map_cons, h.1.contentTo_eq hfirst, h.2.contentTo_eq hrest, Node.texts]

end

theorem Holds.has {parent : Option AnnotationId} {node : Node} (h : t.Holds parent node) :
    Keyed.has t node.id = true := by
  obtain ⟨e, he, -⟩ := h.entry
  exact Keyed.has_iff.mpr ⟨e, he⟩

theorem Linked.descendants_eq (h : t.Linked root) {parent : Option AnnotationId} {node : Node}
    (hnode : t.Holds parent node) : t.descendants node.id = Node.preorderAll node.children :=
  hnode.descendTo_eq (h.shallow hnode.has)

theorem Linked.content_eq (h : t.Linked root) {parent : Option AnnotationId} {node : Node}
    (hnode : t.Holds parent node) : t.content node.id = node.text :=
  hnode.contentTo_eq (h.shallow hnode.has)

/-- An annotation and those below it stand in document order. -/
theorem Linked.ordered_descendants (h : t.Linked root) {x : AnnotationId}
    (hx : Keyed.has t x = true) : t.Ordered [x] (x :: t.descendants x) := by
  obtain ⟨e, he⟩ := Keyed.has_iff.mp hx
  obtain ⟨node, -, rfl, hholds⟩ := h.exportTo_holds he (h.shallow hx)
  rw [h.descendants_eq hholds, ← Node.preorder_eq]
  exact hholds.ordered

/-- The node that is exported is kept. -/
theorem Linked.exportNode_holds (h : t.Linked root) {id : AnnotationId} {node : Node}
    (hnode : t.exportNode id = some node) : node.id = id ∧ ∃ parent, t.Holds parent node := by
  obtain ⟨e, he⟩ : ∃ e, Keyed.get? t id = some e := by
    rw [exportNode] at hnode
    cases hlen : t.length with
    | zero =>
      rw [hlen] at hnode
      cases hnode
    | succ n =>
      rw [hlen, exportTo, Option.map_eq_some_iff] at hnode
      obtain ⟨e, he, -⟩ := hnode
      exact ⟨e, he⟩
  obtain ⟨found, hfound, hid, hholds⟩ :=
    h.exportTo_holds he (h.shallow (Keyed.has_iff.mpr ⟨e, he⟩))
  obtain rfl : found = node := Option.some.inj (hfound.symm.trans hnode)
  exact ⟨hid, e.parent, hholds⟩

/-! ## Parts of a node -/

mutual

/-- Tables that keep one node, under whatever parents, keep every part of it. Below the top the
parents are in the node too. -/
theorem Holds.common : ∀ {p p' : Option AnnotationId} {node : Node},
    t.Holds p node → t'.Holds p' node → ∀ id ∈ node.preorder,
      ∃ m q q', m.id = id ∧ t.Holds q m ∧ t'.Holds q' m ∧ (id ≠ node.id → q = q')
  | p, p', ⟨top, kind, attributes, value, children⟩, h, h', id, hid => by
    rw [Node.preorder] at hid
    rcases List.mem_cons.mp hid with rfl | hbelow
    · exact ⟨_, p, p', rfl, h, h', fun hne => absurd rfl hne⟩
    · rw [Holds] at h h'
      obtain ⟨m, q, hm, hq, hq'⟩ := h.2.common h'.2 id hbelow
      exact ⟨m, q, q, hm, hq, hq', fun _ => rfl⟩

theorem HoldsAll.common : ∀ {parent : AnnotationId} {nodes : List Node},
    t.HoldsAll parent nodes → t'.HoldsAll parent nodes → ∀ id ∈ Node.preorderAll nodes,
      ∃ m q, m.id = id ∧ t.Holds q m ∧ t'.Holds q m
  | _, [], _, _, _, hid => by
    rw [Node.preorderAll] at hid
    cases hid
  | parent, node :: rest, h, h', id, hid => by
    rw [HoldsAll] at h h'
    rw [Node.preorderAll] at hid
    rcases List.mem_append.mp hid with hfirst | hrest
    · by_cases htop : id = node.id
      · exact ⟨node, some parent, htop.symm, h.1, h'.1⟩
      · obtain ⟨m, q, q', hm, hq, hq', heq⟩ := h.1.common h'.1 id hfirst
        obtain rfl := heq htop
        exact ⟨m, q, hm, hq, hq'⟩
    · exact h.2.common h'.2 id hrest

end

end Table

namespace Document

variable {d d' : Document} {scope : AnnotationId}

/-- Two well-formed documents export the same subtree of an annotation that is in both. -/
structure Shares (d d' : Document) (scope : AnnotationId) : Prop where
  wellFormed : d.WellFormed
  wellFormed' : d'.WellFormed
  has : Keyed.has d.table scope = true
  has' : Keyed.has d'.table scope = true
  export_eq : d.table.exportNode scope = d'.table.exportNode scope

/-- In scope are the annotations of the node that is kept. -/
theorem contains_iff_mem_preorder (h : d.table.Linked d.root) {parent : Option AnnotationId}
    {node : Node} (hnode : d.table.Holds parent node) (id : AnnotationId) :
    d.contains node.id id = true ↔ id ∈ node.preorder := by
  rw [contains_iff h, hnode.ordered.mem_iff h]
  simp

namespace Shares

/-- Both documents keep one node under the scope. -/
theorem node (h : Shares d d' scope) :
    ∃ node p p', node.id = scope ∧ d.table.Holds p node ∧ d'.table.Holds p' node := by
  obtain ⟨e, he⟩ := Keyed.has_iff.mp h.has
  have hlinked := h.wellFormed.linked
  obtain ⟨node, hexport, hid, hholds⟩ := hlinked.exportTo_holds he (hlinked.shallow h.has)
  have hexport' : d'.table.exportNode scope = some node := h.export_eq ▸ hexport
  obtain ⟨-, p', hholds'⟩ := h.wellFormed'.linked.exportNode_holds hexport'
  exact ⟨node, e.parent, p', hid, hholds, hholds'⟩

/-- An annotation is out of scope in both documents, or in scope in both, with one node. -/
theorem cases (h : Shares d d' scope) (id : AnnotationId) :
    (d.contains scope id = false ∧ d'.contains scope id = false) ∨
      ∃ m q q', m.id = id ∧ (id ≠ scope → q = q') ∧
        (d.contains scope id = true ∧ d.table.Holds q m) ∧
        (d'.contains scope id = true ∧ d'.table.Holds q' m) := by
  obtain ⟨node, p, p', rfl, hp, hp'⟩ := h.node
  have hin := contains_iff_mem_preorder h.wellFormed.linked hp id
  have hin' := contains_iff_mem_preorder h.wellFormed'.linked hp' id
  by_cases hid : id ∈ node.preorder
  · obtain ⟨m, q, q', hm, hq, hq', heq⟩ := hp.common hp' id hid
    exact .inr ⟨m, q, q', hm, heq, ⟨hin.mpr hid, hq⟩, ⟨hin'.mpr hid, hq'⟩⟩
  · exact .inl ⟨by simpa using mt hin.mp hid, by simpa using mt hin'.mp hid⟩

/-- An entry is seen in both documents or in neither, and only the parent of the scope may
differ. -/
theorem entry?_cases (h : Shares d d' scope) (id : AnnotationId) :
    (d.entry? scope id = none ∧ d'.entry? scope id = none) ∨
      ∃ e q, d.entry? scope id = some e ∧ d'.entry? scope id = some { e with parent := q } ∧
        (id ≠ scope → q = e.parent) := by
  unfold entry?
  rcases h.cases id with ⟨hout, hout'⟩ | ⟨m, q, q', rfl, hparent, ⟨hin, hm⟩, hin', hm'⟩
  · left
    rw [hout, hout']
    exact ⟨rfl, rfl⟩
  · right
    obtain ⟨id, kind, attributes, value, children⟩ := m
    rw [Table.Holds] at hm hm'
    rw [if_pos hin, if_pos hin']
    exact ⟨_, q', hm.1, hm'.1, fun hne => (hparent hne).symm⟩

/-- What is read of an entry without its parent is the same. -/
theorem map_entry?_eq {α : Type} (h : Shares d d' scope) (f : Entry → α)
    (hf : ∀ e q, f { e with parent := q } = f e) (id : AnnotationId) :
    (d.entry? scope id).map f = (d'.entry? scope id).map f := by
  rcases h.entry?_cases id with ⟨he, he'⟩ | ⟨e, q, he, he', -⟩
  · rw [he, he']
  · rw [he, he', Option.map_some, Option.map_some, hf e q]

theorem descendants_eq (h : Shares d d' scope) (id : AnnotationId) :
    d.descendants scope id = d'.descendants scope id := by
  unfold descendants
  rcases h.cases id with ⟨hout, hout'⟩ | ⟨m, q, q', rfl, -, ⟨hin, hm⟩, hin', hm'⟩
  · simp [hout, hout']
  · rw [if_pos hin, if_pos hin', h.wellFormed.linked.descendants_eq hm,
      h.wellFormed'.linked.descendants_eq hm']

theorem valueOf_eq (h : Shares d d' scope) (id : AnnotationId) :
    d.valueOf scope id = d'.valueOf scope id := by
  unfold valueOf
  rcases h.cases id with ⟨hout, hout'⟩ | ⟨m, q, q', rfl, -, ⟨hin, hm⟩, hin', hm'⟩
  · simp [hout, hout']
  · rw [if_pos hin, if_pos hin', h.wellFormed.linked.content_eq hm,
      h.wellFormed'.linked.content_eq hm']

end Shares

end Document

end MarkupScript
