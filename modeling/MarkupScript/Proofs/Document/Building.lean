import MarkupScript.Proofs.Document.Links

/-!
# Tables built from a tree

* `Table.Holds` says that a table keeps a tree under a parent.
* `insert_holds`: a tree that could be inserted is kept, and its ids are new.
* `linked_of_insert`: a table built from a tree is linked.
-/

namespace MarkupScript

open Relation

namespace Table

/-! ## Tables that keep a tree -/

mutual

/-- The table keeps a node, under `parent`, and what is below it. -/
def Holds (t : Table) (parent : Option AnnotationId) : Node → Prop
  | ⟨id, kind, attributes, value, children⟩ =>
    Keyed.get? t id = some { kind, attributes, value, parent, children := children.map (·.id) } ∧
      HoldsAll t id children

/-- The table keeps some nodes under `parent`. -/
def HoldsAll (t : Table) (parent : AnnotationId) : List Node → Prop
  | [] => True
  | node :: rest => Holds t (some parent) node ∧ HoldsAll t parent rest

end

/-- What `t` has, `t'` has too. -/
def Within (t t' : Table) : Prop :=
  ∀ k e, Keyed.get? t k = some e → Keyed.get? t' k = some e

theorem Within.put {t : Table} {id : AnnotationId} (h : Keyed.has t id = false) (e : Entry) :
    t.Within (Keyed.put t id e) := by
  intro k ke hk
  have hne : ¬ id = k := by
    rintro rfl
    simp [Keyed.has, hk] at h
  rw [Keyed.get?_put, if_neg hne]
  exact hk

mutual

theorem Holds.mono {t t' : Table} (h : t.Within t') :
    ∀ {parent : Option AnnotationId} {node : Node}, t.Holds parent node → t'.Holds parent node
  | _, ⟨_, _, _, _, _⟩, hn => by
    rw [Holds] at hn ⊢
    exact ⟨h _ _ hn.1, HoldsAll.mono h hn.2⟩

theorem HoldsAll.mono {t t' : Table} (h : t.Within t') :
    ∀ {parent : AnnotationId} {nodes : List Node}, t.HoldsAll parent nodes → t'.HoldsAll parent nodes
  | _, [], _ => by
    rw [HoldsAll]
    trivial
  | _, _ :: _, hn => by
    rw [HoldsAll] at hn ⊢
    exact ⟨Holds.mono h hn.1, HoldsAll.mono h hn.2⟩

end

theorem Holds.entry {t : Table} {parent : Option AnnotationId} {node : Node}
    (h : t.Holds parent node) :
    ∃ e, Keyed.get? t node.id = some e ∧ e.parent = parent ∧
      e.children = node.children.map (·.id) := by
  obtain ⟨id, kind, attributes, value, children⟩ := node
  rw [Holds] at h
  exact ⟨_, h.1, rfl, rfl⟩

theorem HoldsAll.of_mem {t : Table} {parent : AnnotationId} {nodes : List Node}
    (h : t.HoldsAll parent nodes) {node : Node} (hn : node ∈ nodes) :
    t.Holds (some parent) node := by
  induction nodes with
  | nil => cases hn
  | cons first rest ih =>
    rw [HoldsAll] at h
    rcases List.mem_cons.mp hn with rfl | hn
    · exact h.1
    · exact ih h.2 hn

/-! ## Insertion -/

mutual

/-- Inserting a tree adds its ids in document order, keeps what was there, and leaves a
table that keeps the tree. -/
theorem insert_holds : ∀ {t t' : Table} {parent : Option AnnotationId} {node : Node},
    t.insert parent node = .ok t' →
      Keyed.keys t' = Keyed.keys t ++ node.preorder ∧ t.Within t' ∧ t'.Holds parent node ∧
        ((Keyed.keys t).Nodup → (Keyed.keys t').Nodup)
  | t, t', parent, ⟨id, kind, attributes, value, children⟩, h => by
    rw [insert] at h
    by_cases hid : Keyed.has t id = true
    · simp [hid] at h
    have hid' : Keyed.has t id = false := by simpa using hid
    rw [if_neg hid] at h
    obtain ⟨hkeys, hwithin, hall, hnodup⟩ := insertAll_holds h
    have hnew : id ∉ Keyed.keys t := by
      rw [Keyed.mem_keys_iff, ← Keyed.has_iff, hid']
      simp
    refine ⟨?_, ?_, ?_, ?_⟩
    · rw [hkeys, Keyed.keys_put, if_neg hnew, Node.preorder]
      simp
    · intro k e hk
      exact hwithin k e (Within.put hid' _ k e hk)
    · rw [Holds]
      refine ⟨hwithin id _ ?_, hall⟩
      rw [Keyed.get?_put, if_pos rfl]
    · intro hn
      exact hnodup (Keyed.nodup_keys_put hn id _)

theorem insertAll_holds : ∀ {t t' : Table} {parent : AnnotationId} {nodes : List Node},
    t.insertAll parent nodes = .ok t' →
      Keyed.keys t' = Keyed.keys t ++ Node.preorderAll nodes ∧ t.Within t' ∧
        t'.HoldsAll parent nodes ∧ ((Keyed.keys t).Nodup → (Keyed.keys t').Nodup)
  | t, t', parent, [], h => by
    rw [insertAll] at h
    cases h
    refine ⟨?_, fun k e hk => hk, ?_, fun hn => hn⟩
    · simp [Node.preorderAll]
    · rw [HoldsAll]
      trivial
  | t, t', parent, node :: rest, h => by
    rw [insertAll] at h
    cases hfirst : t.insert (some parent) node with
    | error err =>
      rw [hfirst] at h
      cases h
    | ok mid =>
      simp only [hfirst, bind, Except.bind] at h
      obtain ⟨hkeys₁, hwithin₁, hnode, hnodup₁⟩ := insert_holds hfirst
      obtain ⟨hkeys₂, hwithin₂, hrest, hnodup₂⟩ := insertAll_holds h
      refine ⟨?_, ?_, ?_, ?_⟩
      · rw [hkeys₂, hkeys₁, Node.preorderAll, List.append_assoc]
      · exact fun k e hk => hwithin₂ k e (hwithin₁ k e hk)
      · rw [HoldsAll]
        exact ⟨hnode.mono hwithin₂, hrest⟩
      · exact fun hn => hnodup₂ (hnodup₁ hn)

end

/-! ## The links of a tree that is kept -/

theorem ids_sublist_preorderAll (nodes : List Node) :
    (nodes.map (·.id)).Sublist (Node.preorderAll nodes) := by
  induction nodes with
  | nil => simp [Node.preorderAll]
  | cons node rest ih =>
    obtain ⟨id, kind, attributes, value, children⟩ := node
    rw [List.map_cons, Node.preorderAll, Node.preorder, List.cons_append]
    exact (ih.trans (List.sublist_append_right _ _)).cons_cons id

/-- What the entry of an annotation below `top` says, if the table keeps the tree. -/
structure HangsBelow (t : Table) (top id : AnnotationId) : Prop where
  children : ∀ c, t.HasChild id c → t.HasParent c id
  nodup : ∀ e, Keyed.get? t id = some e → e.children.Nodup
  climbs : ReflTransGen t.HasParent id top

mutual

theorem Holds.hangs {t : Table} : ∀ {parent : Option AnnotationId} {node : Node},
    t.Holds parent node → node.preorder.Nodup → ∀ id ∈ node.preorder,
      t.HangsBelow node.id id ∧ (id = node.id ∨ ∃ p, t.HasParent id p ∧ t.HasChild p id)
  | parent, ⟨top, kind, attributes, value, nodes⟩, h, hnodup, id, hid => by
    rw [Node.preorder] at hnodup hid
    obtain ⟨hent, hall⟩ : _ ∧ _ := by
      rw [Holds] at h
      exact h
    have hlists : ∀ n ∈ nodes, t.HasChild top n.id := by
      intro n hn
      exact ⟨_, hent, List.mem_map_of_mem hn⟩
    rcases List.mem_cons.mp hid with rfl | hid
    · refine ⟨⟨?_, ?_, .refl⟩, Or.inl rfl⟩
      · rintro c ⟨e, he, hc⟩
        obtain rfl := Option.some.inj (hent.symm.trans he)
        obtain ⟨n, hn, rfl⟩ := List.mem_map.mp hc
        obtain ⟨ne, hne, hpar, -⟩ := (hall.of_mem hn).entry
        exact ⟨ne, hne, hpar⟩
      · intro e he
        obtain rfl := Option.some.inj (hent.symm.trans he)
        exact (List.nodup_cons.mp hnodup).2.sublist (ids_sublist_preorderAll nodes)
    · obtain ⟨hbelow, hplace⟩ := hall.hangs hlists (List.nodup_cons.mp hnodup).2 id hid
      exact ⟨hbelow, Or.inr hplace⟩

theorem HoldsAll.hangs {t : Table} : ∀ {top : AnnotationId} {nodes : List Node},
    t.HoldsAll top nodes → (∀ n ∈ nodes, t.HasChild top n.id) →
      (Node.preorderAll nodes).Nodup → ∀ id ∈ Node.preorderAll nodes,
        t.HangsBelow top id ∧ ∃ p, t.HasParent id p ∧ t.HasChild p id
  | top, [], _, _, _, id, hid => by
    rw [Node.preorderAll] at hid
    cases hid
  | top, node :: rest, h, hlists, hnodup, id, hid => by
    rw [HoldsAll] at h
    rw [Node.preorderAll] at hnodup hid
    obtain ⟨hn₁, hn₂, -⟩ := List.nodup_append.mp hnodup
    rcases List.mem_append.mp hid with hid | hid
    · obtain ⟨hbelow, hplace⟩ := h.1.hangs hn₁ id hid
      obtain ⟨e, he, hpar, -⟩ := h.1.entry
      have htop : t.HasParent node.id top := ⟨e, he, hpar⟩
      refine ⟨⟨hbelow.children, hbelow.nodup, hbelow.climbs.tail htop⟩, ?_⟩
      rcases hplace with rfl | hplace
      · exact ⟨top, htop, hlists node List.mem_cons_self⟩
      · exact hplace
    · exact h.2.hangs (fun n hn => hlists n (List.mem_cons_of_mem _ hn)) hn₂ id hid

end

/-- A table built from a tree is linked. -/
theorem linked_of_insert {t : Table} {node : Node} (h : Table.insert [] none node = .ok t) :
    t.Linked node.id := by
  obtain ⟨hkeys, -, hholds, hnodup⟩ := insert_holds h
  have hkeys' : Keyed.keys t = node.preorder := by simpa [Keyed.keys] using hkeys
  have hn : (Keyed.keys t).Nodup := hnodup (by simp [Keyed.keys])
  obtain ⟨root, hroot, hnone, -⟩ := hholds.entry
  have hangs : ∀ {id}, Keyed.has t id = true →
      t.HangsBelow node.id id ∧ (id = node.id ∨ ∃ p, t.HasParent id p ∧ t.HasChild p id) := by
    intro id hid
    refine hholds.hangs (hkeys' ▸ hn) id ?_
    rw [← hkeys', Keyed.mem_keys_iff]
    exact Keyed.has_iff.mp hid
  refine ⟨hn, ⟨root, hroot, hnone⟩, ?_, ?_, ?_⟩
  · intro p c
    constructor
    · intro hc
      exact (hangs hc.has).1.children c hc
    · intro hp
      rcases (hangs hp.has).2 with rfl | ⟨q, hq, hchild⟩
      · obtain ⟨e, he, hsome⟩ := hp
        obtain rfl := Option.some.inj (hroot.symm.trans he)
        simp [hnone] at hsome
      · obtain rfl := hp.unique hq
        exact hchild
  · intro id e he
    exact (hangs (Keyed.has_iff.mpr ⟨e, he⟩)).1.nodup e he
  · intro id hid
    exact (hangs hid).1.climbs

end Table

end MarkupScript
