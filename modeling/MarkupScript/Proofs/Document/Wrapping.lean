import MarkupScript.Proofs.Document.Contents
import MarkupScript.Proofs.Document.Deletion
import MarkupScript.Proofs.Document.Storage

/-!
# Wrapping and taking the wrapper away

A wrapper comes between an annotation and its parent. All else of the document stays as it is, and
when the wrapper is deleted the annotation is back in its place.

* `Linked.get?_wrapped_deleted`: a wrapper that is deleted leaves no trace in the table.
* `Document.Enclosed`: a document with a wrapper, compared with the one without.
* `Document.delete_wrapper`: a wrapping encloses, and deleting the wrapper undoes it.
-/

namespace MarkupScript

open Relation

namespace Table

variable {t : Table} {root x p w : AnnotationId} {e : Entry} {kind : String}

/-! ## Those below an annotation -/

/-- Below a wrapper stand what it is put around and those below that. -/
theorem Linked.ordered_wrapper (h : t.Linked root) (he : Keyed.get? t x = some e)
    (hp : e.parent = some p) (hw : Keyed.get? t w = none) :
    (t.wrapped x p w kind).Ordered [w] (w :: x :: t.descendants x) := by
  have hbelow := h.ordered_descendants (Keyed.has_iff.mpr ⟨e, he⟩)
  have hnot : x ∉ t.descendants x := by
    have hnodup := hbelow.nodup h (List.pairwise_singleton _ _)
    exact (List.nodup_cons.mp hnodup).1
  have hplace : (t.wrapped x p w kind).Ordered (substitute x [w] [x])
      (substitute x [w, x] (x :: t.descendants x)) := hbelow.wrapped h he hp hw
  have hlist : substitute x [w, x] (x :: t.descendants x) = w :: x :: t.descendants x := by
    rw [substitute_cons, if_pos rfl, substitute_of_not_mem hnot]
    rfl
  rw [hlist, substitute, List.flatMap_singleton, if_pos rfl] at hplace
  exact hplace

theorem Linked.descendants_wrapper (h : t.Linked root) (he : Keyed.get? t x = some e)
    (hp : e.parent = some p) (hx : x ≠ root) (hw : Keyed.get? t w = none) :
    (t.wrapped x p w kind).descendants w = x :: t.descendants x := by
  have h' : (t.wrapped x p w kind).Linked root := h.wrapped he hp hx hw
  have hhas : Keyed.has (t.wrapped x p w kind) w = true := Keyed.has_iff.mpr ⟨_, get?_wrapper⟩
  have hsame := (h'.ordered_descendants hhas).unique (h.ordered_wrapper he hp hw)
  exact (List.cons.inj hsame).2

/-- What was there is below the wrapper exactly if it was below what the wrapper is put around. -/
theorem Linked.reaches_wrapper_iff (h : t.Linked root) (he : Keyed.get? t x = some e)
    (hp : e.parent = some p) (hx : x ≠ root) (hw : Keyed.get? t w = none) {a : AnnotationId}
    (ha : a ≠ w) :
    ReflTransGen (t.wrapped x p w kind).HasParent a w ↔ ReflTransGen t.HasParent a x := by
  have h' : (t.wrapped x p w kind).Linked root := h.wrapped he hp hx hw
  have hbelow := (h.ordered_descendants (Keyed.has_iff.mpr ⟨e, he⟩)).mem_iff h (x := a)
  have hwrapper : (t.wrapped x p w kind).Ordered [w] _ := h.ordered_wrapper he hp hw
  have hbelow' := hwrapper.mem_iff h' (x := a)
  simp only [List.mem_singleton, exists_eq_left] at hbelow hbelow'
  rw [← hbelow, ← hbelow', List.mem_cons]
  simp [ha]

/-! ## A wrapper that is deleted -/

/-- Replacing an annotation and replacing it back. -/
theorem splice_splice {l : List AnnotationId} (hw : w ∉ l) :
    splice w [x] (splice x [w] l) = l := by
  by_cases hx : x ∈ l
  · obtain ⟨before, after, rfl, hbefore⟩ := List.eq_append_cons_of_mem hx
    have hwbefore : w ∉ before := by
      intro hmem
      exact hw (List.mem_append_left _ hmem)
    rw [splice_append hbefore, List.append_assoc, List.singleton_append, splice_append hwbefore,
      List.append_assoc, List.singleton_append]
  · rw [splice_of_not_mem hx, splice_of_not_mem hw]

theorem Linked.get?_wrapped_deleted (h : t.Linked root) (he : Keyed.get? t x = some e)
    (hp : e.parent = some p) (hw : Keyed.get? t w = none) (k : AnnotationId) :
    Keyed.get? ((t.wrapped x p w kind).deleted w p [x]) k = Keyed.get? t k := by
  rw [get?_deleted, get?_wrapped]
  by_cases hk : k = w
  · rw [if_pos hk, hk, hw]
  rw [if_neg hk, if_neg hk, Option.map_map]
  cases hget : Keyed.get? t k with
  | none => rfl
  | some ke =>
    -- The wrapper is new, so nobody had it among its children.
    have hnot : w ∉ ke.children := by
      rw [h.mem_children_iff hget]
      rintro ⟨we, hwe, -⟩
      rw [hw] at hwe
      cases hwe
    have hparent : (if k ∈ [x] then some p else if k = x then some w else ke.parent) =
        ke.parent := by
      by_cases hkx : k = x
      · subst hkx
        obtain rfl := Option.some.inj (hget.symm.trans he)
        simp [hp]
      · simp [hkx]
    have hchildren : (if k = p then
          splice w [x] (if k = p then splice x [w] ke.children else ke.children)
        else if k = p then splice x [w] ke.children else ke.children) = ke.children := by
      by_cases hkp : k = p
      · simp only [if_pos hkp]
        exact splice_splice hnot
      · simp only [if_neg hkp]
    simp only [Option.map_some, Function.comp, deletedEntry, wrappedEntry, hparent, hchildren]

end Table

namespace Document

variable {d d' : Document} {id wrapper : AnnotationId}

/-- Documents whose tables give the same for each id have the same tree. -/
theorem toNode_eq_of_get? (hd : d.table.Linked d.root) (hd' : d'.table.Linked d'.root)
    (hroot : d'.root = d.root) (hget : ∀ k, Keyed.get? d'.table k = Keyed.get? d.table k) :
    d'.toNode = d.toNode := by
  obtain ⟨hid, hholds⟩ := holds_toNode hd
  obtain ⟨hid', hholds'⟩ := holds_toNode hd'
  have hwithin : d.table.Within d'.table := by
    intro k e hk
    rw [hget]
    exact hk
  exact hholds'.unique (hholds.mono hwithin) (hid'.trans (hroot.trans hid.symm))

/-- `d'` is `d` with a wrapper around an annotation, and is otherwise the same. -/
structure Enclosed (d : Document) (id wrapper : AnnotationId) (kind : String) (d' : Document) :
    Prop where
  new : wrapper ∉ d.order
  own : d'.entry? d.root wrapper =
    some { kind, parent := d.parent? d.root id, children := [id] }
  /-- The wrapper stands right before what it is put around. -/
  order : ∃ before after, d.order = before ++ id :: after ∧
    d'.order = before ++ wrapper :: id :: after
  descendants : d'.descendants d.root wrapper = id :: d.descendants d.root id
  kind : ∀ x ∈ d.order, d'.kind? d.root x = d.kind? d.root x
  attributes : ∀ x ∈ d.order, d'.attributes d.root x = d.attributes d.root x
  value : ∀ x ∈ d.order, (d'.entry? d.root x).map (·.value) = (d.entry? d.root x).map (·.value)
  text : ∀ x ∈ d.order, d'.valueOf d.root x = d.valueOf d.root x
  parent : ∀ x ∈ d.order,
    d'.parent? d.root x = if x = id then some wrapper else d.parent? d.root x
  /-- Apart from the wrapper, an annotation has above it what it had. -/
  above : ∀ x ∈ d.order, ∀ a, a ≠ wrapper → d'.contains a x = d.contains a x
  /-- The wrapper is above what it is put around and those below that. -/
  above_wrapper : ∀ x ∈ d.order, d'.contains wrapper x = d.contains id x

section Wrapping

variable {parent : AnnotationId} {e : Entry} (kind : String) (ids : IdSupply)
  (hd : d.table.Linked d.root)
  (hid : Keyed.get? d.table id = some e) (hparent : e.parent = some parent) (hroot : id ≠ d.root)
  (hnew : Keyed.get? d.table wrapper = none)
include hd hid hparent hroot hnew

theorem linked_wrapped : (d.table.wrapped id parent wrapper kind).Linked d.root :=
  hd.wrapped hid hparent hroot hnew

/-- In the scope of the root, the entry of an annotation that was there is that before, but for
its links to the wrapper. -/
theorem entry?_wrapped {x : AnnotationId} (hx : x ∈ d.order) :
    ∃ xe, d.entry? d.root x = some xe ∧
      entry? { d with table := d.table.wrapped id parent wrapper kind, ids } d.root x =
        some (Table.wrappedEntry id parent wrapper x xe) := by
  have hlinked : (d.table.wrapped id parent wrapper kind).Linked d.root :=
    linked_wrapped kind hd hid hparent hroot hnew
  have hhas : Keyed.has d.table x = true := (mem_order_iff hd).mp hx
  obtain ⟨xe, hxe⟩ := Keyed.has_iff.mp hhas
  have hne : x ≠ wrapper := by
    rintro rfl
    rw [hnew] at hxe
    cases hxe
  have hget : Keyed.get? (d.table.wrapped id parent wrapper kind) x =
      some (Table.wrappedEntry id parent wrapper x xe) := by
    rw [Table.get?_wrapped, if_neg hne, hxe, Option.map_some]
  have hin : d.contains d.root x = true := (contains_iff hd).mpr (hd.climbs hhas)
  have hin' : contains { d with table := d.table.wrapped id parent wrapper kind, ids }
      d.root x = true :=
    (contains_iff hlinked).mpr (hlinked.climbs (Keyed.has_iff.mpr ⟨_, hget⟩))
  exact ⟨xe, entry?_eq_some.mpr ⟨hin, hxe⟩, entry?_eq_some.mpr ⟨hin', hget⟩⟩

theorem order_wrapped :
    ∃ before after, d.order = before ++ id :: after ∧
      order { d with table := d.table.wrapped id parent wrapper kind, ids } =
        before ++ wrapper :: id :: after := by
  have hlinked : (d.table.wrapped id parent wrapper kind).Linked d.root :=
    linked_wrapped kind hd hid hparent hroot hnew
  have hmem : id ∈ d.order := (mem_order_iff hd).mpr (Keyed.has_iff.mpr ⟨e, hid⟩)
  obtain ⟨before, after, hsplit, hbefore⟩ := List.eq_append_cons_of_mem hmem
  have hafter : id ∉ after := by
    have hnodup : d.order.Nodup := nodup_preorder hd
    rw [hsplit] at hnodup
    exact (List.nodup_cons.mp (List.nodup_append.mp hnodup).2.1).1
  have hordered : (d.table.wrapped id parent wrapper kind).Ordered
      (Table.substitute id [wrapper] [d.root]) (Table.substitute id [wrapper, id] d.order) :=
    (ordered_toNode hd).wrapped hd hid hparent hnew
  rw [Table.substitute_of_not_mem (by simpa using hroot)] at hordered
  refine ⟨before, after, hsplit, ?_⟩
  rw [order_eq hlinked hordered, hsplit, Table.substitute_append, Table.substitute_cons,
    Table.substitute_of_not_mem hbefore, Table.substitute_of_not_mem hafter, if_pos rfl]
  rfl

omit hnew in
/-- In the scope of the root, what is wrapped has the parent that its entry names. -/
theorem parent?_eq_some_parent : d.parent? d.root id = some parent := by
  have hhas : Keyed.has d.table id = true := Keyed.has_iff.mpr ⟨e, hid⟩
  have hin : d.contains d.root id = true := (contains_iff hd).mpr (hd.climbs hhas)
  rw [parent?, if_neg hroot, entry?_eq_some.mpr ⟨hin, hid⟩, Option.bind_some, hparent]

/-- A wrapping encloses an annotation and does nothing else. -/
theorem enclosed_wrapped :
    d.Enclosed id wrapper kind
      { d with table := d.table.wrapped id parent wrapper kind, ids } := by
  have hlinked : (d.table.wrapped id parent wrapper kind).Linked d.root :=
    linked_wrapped kind hd hid hparent hroot hnew
  have hhas : Keyed.has d.table id = true := Keyed.has_iff.mpr ⟨e, hid⟩
  have hin : d.contains d.root id = true := (contains_iff hd).mpr (hd.climbs hhas)
  have hhasWrapper : Keyed.has (d.table.wrapped id parent wrapper kind) wrapper = true :=
    Keyed.has_iff.mpr ⟨_, Table.get?_wrapper⟩
  have hinWrapper : contains { d with table := d.table.wrapped id parent wrapper kind, ids }
      d.root wrapper = true := (contains_iff hlinked).mpr (hlinked.climbs hhasWrapper)
  have hne : ∀ {x}, x ∈ d.order → x ≠ wrapper := by
    rintro x hx rfl
    have hthere := (mem_order_iff hd).mp hx
    rw [Keyed.has, hnew] at hthere
    cases hthere
  -- What is read of one entry is read off the entry before.
  have hentry : ∀ {x}, x ∈ d.order → ∃ xe, d.entry? d.root x = some xe ∧
      entry? { d with table := d.table.wrapped id parent wrapper kind, ids } d.root x =
        some (Table.wrappedEntry id parent wrapper x xe) := by
    intro x hx
    exact entry?_wrapped kind ids hd hid hparent hroot hnew hx
  refine ⟨?new, ?own, order_wrapped kind ids hd hid hparent hroot hnew, ?descendants, ?kind,
    ?attributes, ?value, ?text, ?parent, ?above, ?wrapper⟩
  case new =>
    intro hmem
    exact hne hmem rfl
  case own =>
    rw [parent?_eq_some_parent hd hid hparent hroot]
    exact entry?_eq_some.mpr ⟨hinWrapper, Table.get?_wrapper⟩
  case descendants =>
    rw [Document.descendants, if_pos hinWrapper, Document.descendants, if_pos hin]
    exact hd.descendants_wrapper hid hparent hroot hnew
  case kind =>
    intro x hx
    obtain ⟨xe, hbefore, hafter⟩ := hentry hx
    rw [kind?, kind?, hbefore, hafter]
    rfl
  case attributes =>
    intro x hx
    obtain ⟨xe, hbefore, hafter⟩ := hentry hx
    rw [Document.attributes, Document.attributes, hbefore, hafter]
    rfl
  case value =>
    intro x hx
    obtain ⟨xe, hbefore, hafter⟩ := hentry hx
    rw [hbefore, hafter]
    rfl
  case text =>
    intro x hx
    have hthere := (mem_order_iff hd).mp hx
    have hthere' : Keyed.has (d.table.wrapped id parent wrapper kind) x = true := by
      rw [Keyed.has, Table.get?_wrapped, if_neg (hne hx), Option.isSome_map]
      exact hthere
    rw [valueOf_root hd hthere, ← hd.content_wrapped hid hparent hroot hnew hthere]
    exact valueOf_root hlinked hthere'
  case parent =>
    intro x hx
    obtain ⟨xe, hbefore, hafter⟩ := hentry hx
    by_cases hx0 : x = d.root
    · have hxid : x ≠ id := fun heq => hroot (heq.symm.trans hx0)
      rw [parent?, if_pos hx0, if_neg hxid, parent?, if_pos hx0]
    · rw [parent?, if_neg hx0, hafter, parent?, if_neg hx0, hbefore]
      rfl
  case above =>
    intro x hx a ha
    exact contains_eq_of_iff hd hlinked (hd.reaches_wrapped_iff hid hparent hnew (hne hx) ha)
  case wrapper =>
    intro x hx
    rw [Bool.eq_iff_iff, contains_iff hlinked, contains_iff hd]
    exact hd.reaches_wrapper_iff hid hparent hroot hnew (hne hx)

/-- A wrapper can be deleted, and then the document is what it was. -/
theorem delete_wrapped :
    ∃ d'', delete { d with table := d.table.wrapped id parent wrapper kind, ids } d.root wrapper =
      .ok d'' ∧ d''.toNode = d.toNode := by
  have hlinked : (d.table.wrapped id parent wrapper kind).Linked d.root :=
    linked_wrapped kind hd hid hparent hroot hnew
  have hwrapperRoot : wrapper ≠ d.root := by
    rintro rfl
    obtain ⟨re, hre, -⟩ := hd.root_entry
    rw [hnew] at hre
    cases hre
  have heditable : editableParent { d with table := d.table.wrapped id parent wrapper kind, ids }
      d.root wrapper = .ok parent :=
    editableParent_root hlinked Table.get?_wrapper rfl hwrapperRoot
  obtain ⟨d'', hdelete⟩ := delete_isOk hlinked heditable
  refine ⟨d'', hdelete, ?_⟩
  obtain ⟨we, parent', hpar, hwe, -, -, rfl⟩ := delete_eq_ok hdelete
  obtain rfl := Except.ok.inj (hpar.symm.trans heditable)
  obtain rfl := Option.some.inj (hwe.symm.trans Table.get?_wrapper)
  have hlinked' := hlinked.deleted Table.get?_wrapper rfl hwrapperRoot
  exact toNode_eq_of_get? hd hlinked' rfl (hd.get?_wrapped_deleted hid hparent hnew)

end Wrapping

/-- In the scope of the root every annotation but the root can be wrapped. The wrapper encloses it,
and when the wrapper is deleted the document is what it was. -/
theorem delete_wrapper {d : Document} (hd : d.Reachable) {id : AnnotationId} (hin : id ∈ d.order)
    (hroot : id ≠ d.root) {kind : String} (hfresh : d.FreshFor (.wrap kind)) :
    ∃ wrapper d' d'', d.wrap d.root id kind = .ok (wrapper, d') ∧
      d.Enclosed id wrapper kind d' ∧ d'.delete d.root wrapper = .ok d'' ∧
        d''.toNode = d.toNode := by
  have hlinked := hd.linked
  obtain ⟨e, he⟩ := Keyed.has_iff.mp ((mem_order_iff hlinked).mp hin)
  obtain ⟨parent, hparent⟩ := exists_parent hlinked he hroot
  have hnew : Keyed.get? d.table d.ids.take.1 = none := Keyed.has_eq_false_iff.mp hfresh
  have heditable := editableParent_root hlinked he hparent hroot
  obtain ⟨⟨wrapper, d'⟩, hwrap⟩ := wrap_isOk hlinked heditable kind
  obtain ⟨parent', hpar, -, rfl, rfl⟩ := wrap_eq_ok hwrap
  obtain rfl := Except.ok.inj (hpar.symm.trans heditable)
  have henclosed := enclosed_wrapped kind d.ids.take.2 hlinked he hparent hroot hnew
  obtain ⟨d'', hdelete, hback⟩ := delete_wrapped kind d.ids.take.2 hlinked he hparent hroot hnew
  exact ⟨_, _, d'', hwrap, henclosed, hdelete, hback⟩

/-- The paragraph is wrapped, and the wrapper is deleted. -/
theorem delete_wrapper_small :
    smallDocument.Reachable ∧ smallId 2 ∈ smallDocument.order ∧
      ∃ d' d'', smallDocument.wrap (smallId 1) (smallId 2) "div" = .ok (smallId 100, d') ∧
        smallDocument.Enclosed (smallId 2) (smallId 100) "div" d' ∧
        d'.delete (smallId 1) (smallId 100) = .ok d'' ∧ d''.toNode = smallDocument.toNode := by
  have hreachable := smallDocument_reachable
  have hin : smallId 2 ∈ smallDocument.order := by decide
  have hroot : smallId 2 ≠ smallDocument.root := by decide
  have hfresh : smallDocument.FreshFor (.wrap "div") := by decide
  obtain ⟨wrapper, d', d'', hwrap, henclosed, hdelete, hback⟩ :=
    delete_wrapper hreachable hin hroot hfresh
  obtain ⟨-, -, -, rfl, -⟩ := wrap_eq_ok hwrap
  exact ⟨hreachable, hin, d', d'', hwrap, henclosed, hdelete, hback⟩

end Document

end MarkupScript
