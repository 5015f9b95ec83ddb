import MarkupScript.Proofs.Document.Storage

/-!
# Trees with repeated ids

A document is built by walking its tree in document order. The walk stops at the first node whose
id was met before, and only there.

* `FirstRepeated`: the first member of a list that stands before in the list.
* `Table.insert_eq_error`: where the walk stops.
* `Document.ofNode_eq_error_iff`: a document cannot be built exactly if an id is repeated, and the
  error names the first one that is.
* `Document.ofNode_faithful`: else the document has the tree it was built from, and every document
  can be built again from its tree.
-/

namespace MarkupScript

/-- The first member of a list that stands before in the list. -/
def FirstRepeated (ids : List AnnotationId) (id : AnnotationId) : Prop :=
  ∃ before after, ids = before ++ id :: after ∧ before.Nodup ∧ id ∈ before

namespace FirstRepeated

variable {ids : List AnnotationId} {id id' : AnnotationId}

theorem not_nodup (h : FirstRepeated ids id) : ¬ ids.Nodup := by
  obtain ⟨before, after, rfl, -, hid⟩ := h
  intro hnodup
  have hapart := (List.nodup_append.mp hnodup).2.2
  exact hapart id hid id List.mem_cons_self rfl

theorem unique (h : FirstRepeated ids id) (h' : FirstRepeated ids id') : id = id' := by
  obtain ⟨before, after, hsplit, hnodup, hid⟩ := h
  obtain ⟨before', after', hsplit', hnodup', hid'⟩ := h'
  -- Were one of the two parts before longer, it would have the repetition in it.
  have key : ∀ {a b : List AnnotationId} {x y : AnnotationId} {u v : List AnnotationId},
      a ++ x :: u = b ++ y :: v → b.Nodup → x ∈ a → b.length ≤ a.length := by
    intro a b x y u v heq hb hx
    by_contra hlt
    have hfront : a ++ [x] <+: b := by
      have hle : (a ++ [x]).length ≤ b.length := by
        rw [List.length_append, List.length_singleton]
        omega
      have hleft : a ++ [x] <+: b ++ y :: v := ⟨u, by rw [← heq]; simp⟩
      exact List.prefix_of_prefix_length_le hleft (List.prefix_append b _) hle
    have hnodup : (a ++ [x]).Nodup := hb.sublist hfront.sublist
    exact (List.nodup_append.mp hnodup).2.2 x hx x (List.mem_singleton_self x) rfl
  have hsame : before ++ id :: after = before' ++ id' :: after' := hsplit.symm.trans hsplit'
  have hlength : before.length = before'.length :=
    Nat.le_antisymm (key hsame.symm hnodup hid') (key hsame hnodup' hid)
  have htails := List.append_inj_right hsame hlength
  exact (List.cons.inj htails).1

end FirstRepeated

namespace Table

/-! ## Where the walk stops -/

mutual

/-- Inserting a tree stops at a node whose id the table has, or had from the nodes before. Up to
there no id is repeated. -/
theorem insert_eq_error : ∀ {t : Table} {parent : Option AnnotationId} {node : Node}
    {err : DocumentError}, (Keyed.keys t).Nodup → t.insert parent node = .error err →
      ∃ id before after, err = .duplicateId id ∧ node.preorder = before ++ id :: after ∧
        (Keyed.keys t ++ before).Nodup ∧ id ∈ Keyed.keys t ++ before
  | t, parent, ⟨id, kind, attributes, value, children⟩, err, hkeys, h => by
    rw [insert] at h
    by_cases hid : Keyed.has t id = true
    · rw [if_pos hid] at h
      have hmem : id ∈ Keyed.keys t := Keyed.mem_keys_iff.mpr (Keyed.has_iff.mp hid)
      refine ⟨id, [], Node.preorderAll children, ?_, ?_, ?_, ?_⟩
      · exact (Except.error.inj h).symm
      · rw [Node.preorder, List.nil_append]
      · rw [List.append_nil]
        exact hkeys
      · rw [List.append_nil]
        exact hmem
    · rw [if_neg hid] at h
      have hnew : id ∉ Keyed.keys t := by
        intro hmem
        exact hid (Keyed.has_iff.mpr (Keyed.mem_keys_iff.mp hmem))
      obtain ⟨twin, before, after, herr, hsplit, hnodup, htwin⟩ :=
        insertAll_eq_error (Keyed.nodup_keys_put hkeys id _) h
      rw [Keyed.keys_put, if_neg hnew, List.append_assoc, List.singleton_append] at hnodup htwin
      refine ⟨twin, id :: before, after, herr, ?_, hnodup, htwin⟩
      rw [Node.preorder, hsplit, List.cons_append]

theorem insertAll_eq_error : ∀ {t : Table} {parent : AnnotationId} {nodes : List Node}
    {err : DocumentError}, (Keyed.keys t).Nodup → t.insertAll parent nodes = .error err →
      ∃ id before after, err = .duplicateId id ∧
        Node.preorderAll nodes = before ++ id :: after ∧
        (Keyed.keys t ++ before).Nodup ∧ id ∈ Keyed.keys t ++ before
  | t, parent, [], err, _, h => by
    rw [insertAll] at h
    cases h
  | t, parent, node :: rest, err, hkeys, h => by
    rw [insertAll] at h
    cases hfirst : t.insert (some parent) node with
    | error err' =>
      rw [hfirst] at h
      obtain rfl : err' = err := Except.error.inj h
      obtain ⟨twin, before, after, herr, hsplit, hnodup, htwin⟩ := insert_eq_error hkeys hfirst
      refine ⟨twin, before, after ++ Node.preorderAll rest, herr, ?_, hnodup, htwin⟩
      rw [Node.preorderAll, hsplit, List.append_assoc, List.cons_append]
    | ok mid =>
      -- The ids of the first node are keys now, so they count as met for the rest.
      simp only [hfirst, bind, Except.bind] at h
      obtain ⟨hmid, -, -, hmidNodup⟩ := insert_holds hfirst
      obtain ⟨twin, before, after, herr, hsplit, hnodup, htwin⟩ :=
        insertAll_eq_error (hmidNodup hkeys) h
      rw [hmid, List.append_assoc] at hnodup htwin
      refine ⟨twin, node.preorder ++ before, after, herr, ?_, hnodup, htwin⟩
      rw [Node.preorderAll, hsplit, List.append_assoc]

end

end Table

namespace Document

variable {node : Node} {ids : IdSupply}

theorem nodup_of_ofNode {d : Document} (h : ofNode node ids = .ok d) : node.preorder.Nodup := by
  have hdistinct := nodup_preorder (linked_ofNode h)
  rwa [toNode_ofNode h] at hdistinct

/-- A document that cannot be built names the first id that is repeated. -/
theorem firstRepeated_of_ofNode {err : DocumentError} (h : ofNode node ids = .error err) :
    ∃ id, err = .duplicateId id ∧ FirstRepeated node.preorder id := by
  have hinsert : Table.insert [] none node = .error err := by
    unfold ofNode at h
    cases hins : Table.insert [] none node with
    | error err' =>
      rw [hins] at h
      exact congrArg _ (Except.error.inj h)
    | ok t =>
      rw [hins] at h
      cases h
  have hempty : (Keyed.keys ([] : Table)).Nodup := List.nodup_nil
  obtain ⟨id, before, after, herr, hsplit, hnodup, hid⟩ := Table.insert_eq_error hempty hinsert
  exact ⟨id, herr, before, after, hsplit, hnodup, hid⟩

theorem ofNode_eq_error_iff {err : DocumentError} :
    ofNode node ids = .error err ↔
      ∃ id, err = .duplicateId id ∧ FirstRepeated node.preorder id := by
  constructor
  · exact firstRepeated_of_ofNode
  · rintro ⟨id, rfl, hrepeated⟩
    cases h : ofNode node ids with
    | error err =>
      obtain ⟨id', rfl, hrepeated'⟩ := firstRepeated_of_ofNode h
      rw [hrepeated.unique hrepeated']
    | ok d => exact absurd (nodup_of_ofNode h) hrepeated.not_nodup

/-- A tree makes a document unless two of its nodes have one id, and then the error names the first
node, in document order, whose id stands before it. The document has the tree that it was made of.
Every document that can be met is made again of its tree. -/
theorem ofNode_faithful (ids : IdSupply) :
    (∀ node : Node,
      ((∃ err, ofNode node ids = .error err) ↔ ¬ node.preorder.Nodup) ∧
      (∀ err, ofNode node ids = .error err ↔
        ∃ id, err = .duplicateId id ∧ FirstRepeated node.preorder id) ∧
      ∀ d, ofNode node ids = .ok d → d.toNode = node) ∧
    ∀ d : Document, d.Reachable →
      ∃ d', ofNode d.toNode ids = .ok d' ∧ d'.toNode = d.toNode := by
  constructor
  · intro node
    refine ⟨?_, fun err => ofNode_eq_error_iff, fun d hd => toNode_ofNode hd⟩
    constructor
    · rintro ⟨err, herr⟩
      obtain ⟨id, -, hrepeated⟩ := firstRepeated_of_ofNode herr
      exact hrepeated.not_nodup
    · intro hnot
      cases h : ofNode node ids with
      | error err => exact ⟨err, rfl⟩
      | ok d => exact absurd (nodup_of_ofNode h) hnot
  · intro d hd
    obtain ⟨d', hd'⟩ := ofNode_isOk (nodup_preorder hd.linked) ids
    exact ⟨d', hd', toNode_ofNode hd'⟩

/-- A word that is also a paragraph, and once more a word. -/
def twinNode : Node :=
  { id := smallId 1, kind := "doc"
    children :=
      [{ id := smallId 2, kind := "p", children := [{ id := smallId 3, kind := "w" }] },
       { id := smallId 3, kind := "p", children := [{ id := smallId 2, kind := "w" }] }] }

theorem ofNode_faithful_small :
    ofNode twinNode smallIds = .error (.duplicateId (smallId 3)) ∧
      (smallDocument.afterAll smallCalls).Reachable ∧
      ∃ d, ofNode (smallDocument.afterAll smallCalls).toNode smallIds = .ok d ∧
        d.toNode = (smallDocument.afterAll smallCalls).toNode := by
  have hrepeated : FirstRepeated twinNode.preorder (smallId 3) :=
    ⟨[1, 2, 3].map smallId, [smallId 2], by decide, by decide, by decide⟩
  have hreachable : (smallDocument.afterAll smallCalls).Reachable :=
    ⟨smallNode, smallIds, smallDocument, smallCalls, rfl, by decide, rfl⟩
  obtain ⟨hbuild, hrebuild⟩ := ofNode_faithful smallIds
  exact ⟨((hbuild twinNode).2.1 _).mpr ⟨_, rfl, hrepeated⟩, hreachable, hrebuild _ hreachable⟩

end Document

end MarkupScript
