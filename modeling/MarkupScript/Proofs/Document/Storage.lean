import MarkupScript.Proofs.Document.NodeText
import MarkupScript.Proofs.Document.Order
import MarkupScript.Proofs.Document.WellFormed

/-!
# Documents that are stored and loaded

A document is stored as the text of its tree. Edits can nest annotations deeper than a reader
follows, so a document can be stored that is not loaded again.

* `Document.Arises`: the documents that can be met.
* `toNode_ofNode`: a document built from a tree has that tree.
* `Arises.proper`: an annotation never has two attributes of one name.
* `parse_print`: a stored document is loaded as it was, within the limit on nesting.
-/

namespace MarkupScript

namespace Table

/-! ## Trees and tables -/

mutual

/-- A tree whose ids are new and distinct can be inserted. -/
theorem insert_isOk : ∀ {t : Table} (parent : Option AnnotationId) {node : Node},
    (Keyed.keys t ++ node.preorder).Nodup → ∃ t', t.insert parent node = .ok t'
  | t, parent, ⟨id, kind, attributes, value, children⟩, h => by
    rw [Node.preorder] at h
    have hnew : id ∉ Keyed.keys t := by
      intro hmem
      exact (List.nodup_append.mp h).2.2 id hmem id List.mem_cons_self rfl
    have hhas : Keyed.has t id = false := by
      rw [← Bool.not_eq_true, Keyed.has_iff, ← Keyed.mem_keys_iff]
      exact hnew
    have hkeys : ∀ e, (Keyed.keys (Keyed.put t id e) ++ Node.preorderAll children).Nodup := by
      intro e
      rw [Keyed.keys_put, if_neg hnew, List.append_assoc]
      exact h
    rw [insert, hhas, if_neg Bool.false_ne_true]
    exact insertAll_isOk id (hkeys _)

theorem insertAll_isOk : ∀ {t : Table} (parent : AnnotationId) {nodes : List Node},
    (Keyed.keys t ++ Node.preorderAll nodes).Nodup → ∃ t', t.insertAll parent nodes = .ok t'
  | t, parent, [], _ => ⟨t, by rw [insertAll]⟩
  | t, parent, node :: rest, h => by
    rw [Node.preorderAll, ← List.append_assoc] at h
    rcases insert_isOk (some parent) (List.nodup_append.mp h).1 with ⟨t', hfirst⟩
    rw [← (insert_holds hfirst).1] at h
    rcases insertAll_isOk parent h with ⟨t'', hrest⟩
    refine ⟨t'', ?_⟩
    rw [insertAll, hfirst]
    exact hrest

end

mutual

/-- A table keeps one tree at most below an annotation. -/
theorem Holds.unique {t : Table} : ∀ {p p' : Option AnnotationId} {node node' : Node},
    t.Holds p node → t.Holds p' node' → node.id = node'.id → node = node'
  | p, p', ⟨id, kind, attributes, value, children⟩, ⟨id', kind', attributes', value', children'⟩,
    h, h', hid => by
    rw [Holds] at h h'
    have hid : id = id' := hid
    subst hid
    have hentry := Option.some.inj (h.1.symm.trans h'.1)
    injection hentry with hkind hattributes hvalue _ hchildren
    rw [hkind, hattributes, hvalue, h.2.unique h'.2 hchildren]

theorem HoldsAll.unique {t : Table} : ∀ {p p' : AnnotationId} {nodes nodes' : List Node},
    t.HoldsAll p nodes → t.HoldsAll p' nodes' → nodes.map (·.id) = nodes'.map (·.id) →
    nodes = nodes'
  | _, _, [], [], _, _, _ => rfl
  | _, _, [], _ :: _, _, _, hids => by cases hids
  | _, _, _ :: _, [], _, _, hids => by cases hids
  | _, _, node :: rest, node' :: rest', h, h', hids => by
    rw [HoldsAll] at h h'
    rw [List.map_cons, List.map_cons] at hids
    injection hids with hid hrest
    rw [h.1.unique h'.1 hid, h.2.unique h'.2 hrest]

end

/-! ## Attributes -/

/-- No annotation has two attributes of one name. -/
def Distinct (t : Table) : Prop :=
  ∀ id e, Keyed.get? t id = some e → (Keyed.keys e.attributes).Nodup

theorem Distinct.put {t : Table} (h : t.Distinct) {id : AnnotationId} {e : Entry}
    (he : (Keyed.keys e.attributes).Nodup) : Distinct (Keyed.put t id e) := by
  intro k ke hk
  rw [Keyed.get?_put] at hk
  split at hk
  · cases hk
    exact he
  · exact h k ke hk

mutual

theorem Distinct.insert : ∀ {t t' : Table} {parent : Option AnnotationId} {node : Node},
    t.Distinct → node.Proper → t.insert parent node = .ok t' → t'.Distinct
  | t, t', parent, ⟨id, kind, attributes, value, children⟩, ht, hnode, h => by
    rw [Node.Proper] at hnode
    rw [Table.insert] at h
    split at h
    · cases h
    · exact Distinct.insertAll (ht.put hnode.1) hnode.2 h

theorem Distinct.insertAll : ∀ {t t' : Table} {parent : AnnotationId} {nodes : List Node},
    t.Distinct → Node.ProperAll nodes → t.insertAll parent nodes = .ok t' → t'.Distinct
  | t, t', parent, [], ht, _, h => by
    rw [Table.insertAll] at h
    cases h
    exact ht
  | t, t', parent, node :: rest, ht, hnodes, h => by
    rw [Node.ProperAll] at hnodes
    rw [Table.insertAll] at h
    cases hfirst : t.insert (some parent) node with
    | error err =>
      rw [hfirst] at h
      cases h
    | ok mid =>
      rw [hfirst] at h
      exact Distinct.insertAll (ht.insert hnodes.1 hfirst) hnodes.2 h

end

theorem Distinct.update {t : Table} (h : t.Distinct) {id : AnnotationId} {f : Entry → Entry}
    (hf : ∀ e, (Keyed.keys e.attributes).Nodup → (Keyed.keys (f e).attributes).Nodup) :
    (t.update id f).Distinct := by
  intro k e he
  rw [get?_update, Option.map_eq_some_iff] at he
  rcases he with ⟨old, hold, rfl⟩
  have hdistinct := h k old hold
  split
  · exact hf old hdistinct
  · exact hdistinct

theorem Distinct.deleted {t : Table} (h : t.Distinct) (id parent : AnnotationId)
    (children : List AnnotationId) : (t.deleted id parent children).Distinct := by
  intro k e he
  rw [get?_deleted] at he
  split at he
  · cases he
  · rcases Option.map_eq_some_iff.mp he with ⟨old, hold, rfl⟩
    exact h k old hold

theorem Distinct.wrapped {t : Table} (h : t.Distinct) (id parent wrapper : AnnotationId)
    (kind : String) : (t.wrapped id parent wrapper kind).Distinct := by
  intro k e he
  rw [get?_wrapped] at he
  split at he
  · cases he
    exact .nil
  · rcases Option.map_eq_some_iff.mp he with ⟨old, hold, rfl⟩
    exact h k old hold

mutual

/-- The tree that such a table keeps is proper. -/
theorem Distinct.proper {t : Table} (ht : t.Distinct) :
    ∀ {parent : Option AnnotationId} {node : Node}, t.Holds parent node → node.Proper
  | _, ⟨_, _, _, _, _⟩, h => by
    rw [Holds] at h
    rw [Node.Proper]
    exact ⟨ht _ _ h.1, ht.properAll h.2⟩

theorem Distinct.properAll {t : Table} (ht : t.Distinct) :
    ∀ {parent : AnnotationId} {nodes : List Node}, t.HoldsAll parent nodes →
      Node.ProperAll nodes
  | _, [], _ => by
    rw [Node.ProperAll]
    trivial
  | _, _ :: _, h => by
    rw [HoldsAll] at h
    rw [Node.ProperAll]
    exact ⟨ht.proper h.1, ht.properAll h.2⟩

end

end Table

namespace Document

/-- What building a document does to its table. -/
theorem ofNode_eq_ok {node : Node} {ids : IdSupply} {d : Document}
    (h : Document.ofNode node ids = .ok d) :
    Table.insert [] none node = .ok d.table ∧ d.root = node.id ∧ d.ids = ids := by
  unfold ofNode at h
  cases hins : Table.insert [] none node with
  | error err =>
    rw [hins] at h
    cases h
  | ok t =>
    rw [hins] at h
    cases h
    exact ⟨rfl, rfl, rfl⟩

/-- A document built from a tree has that tree. -/
theorem toNode_ofNode {node : Node} {ids : IdSupply} {d : Document}
    (h : Document.ofNode node ids = .ok d) : d.toNode = node := by
  rcases ofNode_eq_ok h with ⟨hins, hroot, -⟩
  rcases holds_toNode (linked_ofNode h) with ⟨hid, hholds⟩
  exact hholds.unique (Table.insert_holds hins).2.2.1 (hid.trans hroot)

/-- A tree whose ids are distinct makes a document. -/
theorem ofNode_isOk {node : Node} (h : node.preorder.Nodup) (ids : IdSupply) :
    ∃ d, Document.ofNode node ids = .ok d := by
  rcases Table.insert_isOk (t := []) none h with ⟨t, ht⟩
  exact ⟨{ root := node.id, table := t, ids }, by rw [ofNode, ht]; rfl⟩

/-! ## Documents that can be met -/

theorem distinct_updateEntry {d d' : Document} {scope id : AnnotationId} {f : Entry → Entry}
    (h : d.table.Distinct) (hedit : d.updateEntry scope id f = .ok d')
    (hf : ∀ e, (Keyed.keys e.attributes).Nodup → (Keyed.keys (f e).attributes).Nodup) :
    d'.table.Distinct := by
  rcases updateEntry_eq_ok hedit with ⟨e, -, -, rfl⟩
  exact h.update hf

theorem distinct_apply {d d' : Document} {scope id : AnnotationId} {edit : Edit}
    (h : d.table.Distinct) (hedit : d.apply scope id edit = .ok d') : d'.table.Distinct := by
  cases edit with
  | rename kind => exact distinct_updateEntry h hedit fun e he => he
  | setAttribute name value =>
    exact distinct_updateEntry h hedit fun e he => Keyed.nodup_keys_put he name value
  | removeAttribute name =>
    exact distinct_updateEntry h hedit fun e he => Keyed.nodup_keys_erase he name
  | setValue value => exact distinct_updateEntry h hedit fun e he => he
  | delete =>
    rcases delete_eq_ok hedit with ⟨e, parent, -, -, -, -, rfl⟩
    exact h.deleted id parent e.children
  | wrap kind =>
    cases hwrap : d.wrap scope id kind with
    | error err => simp [apply, hwrap] at hedit
    | ok result =>
      rcases result with ⟨wrapper, after⟩
      simp only [apply, hwrap, Functor.map, Except.map, Except.ok.injEq] at hedit
      rcases wrap_eq_ok hwrap with ⟨parent, -, -, -, hafter⟩
      rw [← hedit, hafter]
      exact h.wrapped id parent d.ids.take.1 kind

theorem distinct_after {d : Document} (h : d.table.Distinct) (c : EditCall) :
    (d.after c).table.Distinct := by
  unfold after
  cases hedit : d.apply c.scope c.id c.edit with
  | error err => exact h
  | ok d' => exact distinct_apply h hedit

/-- A document that can be met: read from a text or built from a proper tree, and then edited. -/
inductive Arises : Document → Prop
  | loaded {text : String} {ids : IdSupply} {d : Document} (h : Document.parse text ids = .ok d) :
      Arises d
  | built {node : Node} {ids : IdSupply} {d : Document} (hnode : node.Proper)
      (h : Document.ofNode node ids = .ok d) : Arises d
  | edited {d : Document} {c : EditCall} (h : Arises d) (hfresh : d.FreshFor c.edit) :
      Arises (d.after c)

theorem Arises.afterAll {d : Document} (h : d.Arises) {calls : List EditCall}
    (hfresh : d.FreshAlong calls) : (d.afterAll calls).Arises := by
  induction calls generalizing d with
  | nil => exact h
  | cons c rest ih => exact ih (h.edited hfresh.1) hfresh.2

/-- A document that is loaded is built from a proper tree. -/
theorem parse_eq_ok {text : String} {ids : IdSupply} {d : Document}
    (h : Document.parse text ids = .ok d) :
    ∃ node ids', node.Proper ∧ Document.ofNode node ids' = .ok d := by
  unfold Document.parse at h
  cases hread : Node.parse? text ids with
  | none =>
    rw [hread] at h
    cases h
  | some result =>
    rcases result with ⟨node, ids'⟩
    rw [hread] at h
    exact ⟨node, ids', Node.proper_of_parse? hread, h⟩

theorem distinct_ofNode {node : Node} {ids : IdSupply} {d : Document} (hnode : node.Proper)
    (h : Document.ofNode node ids = .ok d) : d.table.Distinct := by
  have hempty : Table.Distinct [] := by
    intro id e he
    cases he
  exact hempty.insert hnode (ofNode_eq_ok h).1

/-- What holds of every document that can be met: it is a tree with proper attributes. -/
theorem Arises.linked_distinct {d : Document} (h : d.Arises) :
    d.table.Linked d.root ∧ d.table.Distinct := by
  induction h with
  | loaded h =>
    rcases parse_eq_ok h with ⟨node, ids', hnode, hbuilt⟩
    exact ⟨linked_ofNode hbuilt, distinct_ofNode hnode hbuilt⟩
  | built hnode h => exact ⟨linked_ofNode h, distinct_ofNode hnode h⟩
  | edited _ hfresh ih => exact ⟨linked_after hfresh ih.1, distinct_after ih.2 _⟩

theorem Arises.proper {d : Document} (h : d.Arises) : d.toNode.Proper :=
  h.linked_distinct.2.proper (holds_toNode h.linked_distinct.1).2

/-! ## Loading what was stored -/

/-- A stored document is loaded again if its text nests its objects and arrays within the limit,
and then it is the tree that was stored. Beyond the limit its text is no document. -/
theorem parse_print {d : Document} (h : d.Arises) (ids : IdSupply) :
    ((∃ d', Document.parse d.print ids = .ok d') ↔ Json.nesting d.print ≤ Node.maxDepth) ∧
      (∀ d', Document.parse d.print ids = .ok d' → d'.toNode = d.toNode ∧ d'.ids = ids) ∧
      (Node.maxDepth < Json.nesting d.print →
        Document.parse d.print ids = .error .malformed) := by
  have hread : Node.parse? d.print ids =
      if Json.nesting d.print ≤ Node.maxDepth then some (d.toNode, ids) else none :=
    Node.parse?_print h.proper ids
  by_cases hdepth : Json.nesting d.print ≤ Node.maxDepth
  · have hparse : Document.parse d.print ids = Document.ofNode d.toNode ids := by
      rw [Document.parse, hread, if_pos hdepth]
    rcases ofNode_isOk (nodup_preorder h.linked_distinct.1) ids with ⟨d', hd'⟩
    refine ⟨⟨fun _ => hdepth, fun _ => ⟨d', hparse.trans hd'⟩⟩, ?_, fun hlt => by omega⟩
    intro other hother
    rw [hparse] at hother
    exact ⟨toNode_ofNode hother, (ofNode_eq_ok hother).2.2⟩
  · have hparse : Document.parse d.print ids = .error .malformed := by
      rw [Document.parse, hread, if_neg hdepth]
    refine ⟨⟨?_, fun hle => absurd hle hdepth⟩, ?_, fun _ => hparse⟩
    · rintro ⟨d', hd'⟩
      rw [hparse] at hd'
      cases hd'
    · intro d' hd'
      rw [hparse] at hd'
      cases hd'

/-- Wraps a word, gives it an attribute with marks that JSON uses, and an empty value. -/
def markedCalls : List EditCall :=
  [⟨smallId 1, smallId 3, .wrap "b"⟩, ⟨smallId 2, smallId 3, .setAttribute "a\"" "[\n"⟩,
    ⟨smallId 2, smallId 4, .setValue (some "")⟩]

theorem parse_print_marked :
    (smallDocument.afterAll markedCalls).Arises ∧
      Json.nesting (smallDocument.afterAll markedCalls).print = 8 ∧
      ∃ d, Document.parse (smallDocument.afterAll markedCalls).print smallIds = .ok d ∧
        d.toNode = (smallDocument.afterAll markedCalls).toNode := by
  have hproper : smallNode.Proper := by
    simp [smallNode, Node.Proper, Node.ProperAll, Keyed.keys]
  have harises : (smallDocument.afterAll markedCalls).Arises :=
    (Arises.built hproper (rfl : Document.ofNode smallNode smallIds = .ok smallDocument)).afterAll
      (by decide)
  have hnesting : Json.nesting (smallDocument.afterAll markedCalls).print = 8 := by
    rw [print, Node.print, Json.nesting_pretty (Node.textual_toJson _)]
    decide
  have hstored := parse_print harises smallIds
  rcases hstored.1.mpr (by rw [hnesting]; decide) with ⟨d, hd⟩
  exact ⟨harises, hnesting, d, hd, (hstored.2.1 d hd).1⟩

end Document

end MarkupScript
