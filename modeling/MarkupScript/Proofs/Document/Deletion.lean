import MarkupScript.Function.Standard
import MarkupScript.Proofs.Document.Arrangement

/-!
# Deleting several annotations

A deletion puts the children of an annotation into its place and its parent above them. So in
every other entry the annotation gives way to what its own entry says: as a parent to its parent,
as a child to its children. Seen this way two deletions are two substitutions, and these commute,
since of two annotations only one can be above the other.

* `Table.passOver`: a table without an annotation, by substitution in every entry.
* `Linked.deleted_eq_passOver`: this is what a deletion makes of a tree.
* `Linked.passOver_comm`: two annotations can be deleted in either order.
* `Document.withoutAll_perm`: so can any number of them.
* `Document.delete_any_order`: the deletions of the standard function.
-/

namespace MarkupScript

/-! ## Substitution in lists of children -/

namespace Table

/-- What replaces `x` may hold `y`. Then what replaces `y` does not hold `x`, and it makes no
difference which of the two is replaced first. -/
theorem substitute_substitute {x y : AnnotationId} {xs ys : List AnnotationId}
    (h : y ∈ xs → x ∉ ys) :
    substitute y (substitute x xs ys) xs = substitute y ys xs := by
  by_cases hy : y ∈ xs
  · rw [substitute_of_not_mem (h hy)]
  · rw [substitute_of_not_mem hy, substitute_of_not_mem hy]

theorem substitute_comm {x y : AnnotationId} {xs ys : List AnnotationId} (hne : x ≠ y)
    (h : y ∈ xs → x ∉ ys) (l : List AnnotationId) :
    substitute y (substitute x xs ys) (substitute x xs l) =
      substitute x (substitute y ys xs) (substitute y ys l) := by
  have h' : x ∈ ys → y ∉ xs := fun hx hy => h hy hx
  induction l with
  | nil => rfl
  | cons id rest ih =>
    rw [substitute_cons, substitute_append, ih, substitute_cons y, substitute_append]
    congr 1
    by_cases hx : id = x
    · subst hx
      have hself : substitute id (substitute y ys xs) [id] = substitute y ys xs := by
        simp [substitute]
      rw [if_pos rfl, if_neg hne, hself, substitute_substitute h]
    · by_cases hy : id = y
      · subst hy
        have hself : substitute id (substitute x xs ys) [id] = substitute x xs ys := by
          simp [substitute]
        rw [if_neg hx, if_pos rfl, hself, substitute_substitute h']
      · simp [substitute, hx, hy]

end Table

/-! ## Substitution in entries -/

/-- An entry without an annotation, whose own entry is `gone`. -/
def Entry.passOver (x : AnnotationId) (gone e : Entry) : Entry :=
  { e with
    parent := if e.parent = some x then gone.parent else e.parent
    children := Table.substitute x gone.children e.children }

/-- Two annotations that are not above each other can be left out in either order. -/
theorem Entry.passOver_comm {x y : AnnotationId} {ex ey : Entry} (hne : x ≠ y)
    (hparent : ex.parent = some y → ey.parent ≠ some x)
    (hchildren : y ∈ ex.children → x ∉ ey.children) (e : Entry) :
    passOver y (passOver x ex ey) (passOver x ex e) =
      passOver x (passOver y ey ex) (passOver y ey e) := by
  have hlists := Table.substitute_comm hne hchildren e.children
  have hparents : (passOver y (passOver x ex ey) (passOver x ex e)).parent =
      (passOver x (passOver y ey ex) (passOver y ey e)).parent := by
    simp only [passOver]
    by_cases hx : e.parent = some x
    · by_cases hup : ex.parent = some y
      · simp [hx, hup, hparent hup, hne]
      · simp [hx, hup, hne]
    · by_cases hy : e.parent = some y
      · have hne' : y ≠ x := hne.symm
        by_cases hup : ey.parent = some x
        · have hdown : ex.parent ≠ some y := fun heq => hparent heq hup
          simp [hy, hup, hdown, hne']
        · simp [hy, hup, hne']
      · simp [hx, hy]
  unfold passOver at hparents ⊢
  dsimp only at hparents
  rw [hparents, hlists]

namespace Table

/-- The table without an annotation, whose entry is `gone`. -/
def passOver (t : Table) (x : AnnotationId) (gone : Entry) : Table :=
  (Keyed.erase t x).map fun row => (row.1, Entry.passOver x gone row.2)

theorem get?_passOver (t : Table) (x : AnnotationId) (gone : Entry) (k : AnnotationId) :
    Keyed.get? (t.passOver x gone) k =
      if k = x then none else (Keyed.get? t k).map (Entry.passOver x gone) := by
  have hmap := Keyed.get?_map (Keyed.erase t x) (fun _ e => Entry.passOver x gone e) k
  rw [Keyed.get?_erase] at hmap
  unfold passOver
  rw [hmap]
  by_cases hk : k = x
  · simp [hk]
  · have hk' : ¬ x = k := fun heq => hk heq.symm
    simp [hk, hk']

/-- In a table without repetitions a row is what is looked up under its key. -/
theorem get?_of_mem {t : Table} (h : (Keyed.keys t).Nodup) {row : AnnotationId × Entry}
    (hrow : row ∈ t) : Keyed.get? t row.1 = some row.2 := by
  induction t with
  | nil => cases hrow
  | cons first rest ih =>
    rcases first with ⟨k, e⟩
    have hkeys : k ∉ Keyed.keys rest ∧ (Keyed.keys rest).Nodup := List.nodup_cons.mp h
    rw [Keyed.get?_cons]
    rcases List.mem_cons.mp hrow with rfl | hrest
    · simp
    · have hne : k ≠ row.1 := by
        intro heq
        exact hkeys.1 (heq ▸ List.mem_map_of_mem hrest)
      rw [if_neg hne]
      exact ih hkeys.2 hrest

namespace Linked

variable {t : Table} {root x y p : AnnotationId} {ex ey : Entry}

/-- In a tree a deletion is a substitution in every entry. -/
theorem deleted_eq_passOver (h : t.Linked root) (hx : Keyed.get? t x = some ex)
    (hp : ex.parent = some p) : t.deleted x p ex.children = t.passOver x ex := by
  have hxp : t.HasParent x p := ⟨ex, hx, hp⟩
  have hrows : t.deleted x p ex.children =
      (Keyed.erase t x).map fun row => (row.1, deletedEntry x p ex.children row.1 row.2) := by
    rw [Table.deleted, replaceChild, update_eq_map, adopt_eq_map, List.map_map]
    apply List.map_congr_left
    rintro ⟨k, e⟩ _
    simp only [Function.comp, deletedEntry]
    by_cases hk : k ∈ ex.children
    · simp only [if_pos hk]
      split <;> rfl
    · simp only [if_neg hk]
      split <;> rfl
  rw [hrows]
  apply List.map_congr_left
  intro row hrow
  -- The entry is in the tree, so its links agree with those of the deleted annotation.
  have hget : Keyed.get? t row.1 = some row.2 :=
    get?_of_mem h.keys_nodup (List.mem_filter.mp hrow).1
  have hparent : row.1 ∈ ex.children ↔ row.2.parent = some x := by
    rw [h.mem_children_iff hx]
    constructor
    · rintro ⟨e, he, hpar⟩
      rwa [← Option.some.inj (he.symm.trans hget)]
    · intro hpar
      exact ⟨row.2, hget, hpar⟩
  have hchildren := h.children_substitute hxp hget ex.children
  simp only [deletedEntry, Entry.passOver, hparent, hchildren, hp]

/-- Two annotations of a tree can be left out in either order. -/
theorem passOver_comm (h : t.Linked root) (hne : x ≠ y) (hx : Keyed.get? t x = some ex)
    (hy : Keyed.get? t y = some ey) :
    (t.passOver x ex).passOver y (Entry.passOver x ex ey) =
      (t.passOver y ey).passOver x (Entry.passOver y ey ex) := by
  -- Were each of the two the parent of the other, each would be above itself.
  have hparent : ex.parent = some y → ey.parent ≠ some x := by
    intro hup hdown
    exact h.acyclic x (.head ⟨ex, hx, hup⟩ (.single ⟨ey, hy, hdown⟩))
  have hchildren : y ∈ ex.children → x ∉ ey.children := by
    intro hdown hup
    rw [h.mem_children_iff hx] at hdown
    rw [h.mem_children_iff hy] at hup
    exact h.acyclic x (.head hup (.single hdown))
  have hrows : ∀ {a b : AnnotationId} {ea eb : Entry}, (t.passOver a ea).passOver b eb =
      (Keyed.erase (Keyed.erase t a) b).map
        fun row => (row.1, Entry.passOver b eb (Entry.passOver a ea row.2)) := by
    intro a b ea eb
    rw [passOver, passOver, Keyed.erase, List.filter_map, List.map_map]
    rfl
  have herase : Keyed.erase (Keyed.erase t x) y = Keyed.erase (Keyed.erase t y) x :=
    List.filter_comm _ _ t
  rw [hrows, hrows, herase]
  apply List.map_congr_left
  intro row _
  rw [Entry.passOver_comm hne hparent hchildren]

end Linked

end Table

/-! ## Documents -/

namespace Document

/-- The document without an annotation, with its children in its place. -/
def without (d : Document) (id : AnnotationId) : Document :=
  match Keyed.get? d.table id with
  | some gone => { d with table := d.table.passOver id gone }
  | none => d

/-- The document without some annotations, left out one after another. -/
def withoutAll (d : Document) (ids : List AnnotationId) : Document :=
  ids.foldl without d

/-- The annotations of a list are in the document, each once, and the root is not one of them. -/
structure Deletable (d : Document) (ids : List AnnotationId) : Prop where
  present : ∀ id ∈ ids, Keyed.has d.table id = true
  nodup : ids.Nodup
  not_root : d.root ∉ ids

variable {d : Document} {id other : AnnotationId} {ids ids' : List AnnotationId} {gone : Entry}

theorem without_eq (h : Keyed.get? d.table id = some gone) :
    d.without id = { d with table := d.table.passOver id gone } := by
  rw [without, h]

theorem root_without (d : Document) (id : AnnotationId) : (d.without id).root = d.root := by
  unfold without
  split <;> rfl

theorem has_without (hne : other ≠ id) :
    Keyed.has (d.without id).table other = Keyed.has d.table other := by
  unfold without
  split
  · rw [Keyed.has, Table.get?_passOver, if_neg hne, Option.isSome_map, Keyed.has]
  · rfl

section Tree

variable (hd : d.table.Linked d.root)
include hd

/-- Every annotation of a tree but the root has a parent. -/
theorem exists_parent (hid : Keyed.get? d.table id = some gone) (hroot : id ≠ d.root) :
    ∃ parent, gone.parent = some parent := by
  have hclimbs := hd.climbs (Keyed.has_iff.mpr ⟨gone, hid⟩)
  rcases Relation.ReflTransGen.cases_head hclimbs with heq | ⟨parent, hparent, -⟩
  · exact absurd heq hroot
  · rcases hparent with ⟨e, he, hpar⟩
    rw [hid] at he
    rw [Option.some.inj he]
    exact ⟨parent, hpar⟩

/-- In the scope of the root an annotation can be edited under the parent that its entry names. -/
theorem editableParent_root {parent : AnnotationId} (hid : Keyed.get? d.table id = some gone)
    (hparent : gone.parent = some parent) (hroot : id ≠ d.root) :
    d.editableParent d.root id = .ok parent := by
  have hhas : Keyed.has d.table id = true := Keyed.has_iff.mpr ⟨gone, hid⟩
  have hin : d.contains d.root id = true := (contains_iff hd).mpr (hd.climbs hhas)
  simp [editableParent, hin, hroot, hid, hparent]

/-- In the scope of the root every annotation but the root can be deleted. -/
theorem delete_eq_without (hid : Keyed.has d.table id = true) (hroot : id ≠ d.root) :
    d.delete d.root id = .ok (d.without id) := by
  rcases Keyed.has_iff.mp hid with ⟨gone, hgone⟩
  rcases exists_parent hd hgone hroot with ⟨parent, hparent⟩
  have heditable := editableParent_root hd hgone hparent hroot
  rcases delete_isOk hd heditable with ⟨d', hd'⟩
  rcases delete_eq_ok hd' with ⟨e, p, hp, he, -, -, rfl⟩
  have hentry : e = gone := Option.some.inj (he.symm.trans hgone)
  have hsame : p = parent := Except.ok.inj (hp.symm.trans heditable)
  subst hentry hsame
  rw [hd', without_eq hgone, hd.deleted_eq_passOver hgone hparent]

theorem linked_without (hroot : id ≠ d.root) :
    (d.without id).table.Linked (d.without id).root := by
  rw [root_without]
  unfold without
  cases hid : Keyed.get? d.table id with
  | none => exact hd
  | some gone =>
    rcases exists_parent hd hid hroot with ⟨parent, hparent⟩
    have hlinked := hd.deleted hid hparent hroot
    rwa [hd.deleted_eq_passOver hid hparent] at hlinked

theorem order_without (hid : Keyed.has d.table id = true) (hroot : id ≠ d.root) :
    (d.without id).order = d.order.filter (· ≠ id) := by
  rcases Keyed.has_iff.mp hid with ⟨gone, hgone⟩
  rcases exists_parent hd hgone hroot with ⟨parent, hparent⟩
  have hordered := (ordered_toNode hd).deleted hd hgone hparent
  have hrootStays : Table.substitute id gone.children [d.root] = [d.root] :=
    Table.substitute_of_not_mem (by simpa using hroot)
  rw [hd.deleted_eq_passOver hgone hparent, hrootStays] at hordered
  have hlinked := linked_without hd hroot
  rw [without_eq hgone] at hlinked ⊢
  exact order_eq hlinked hordered

theorem without_comm (hne : id ≠ other) (hid : Keyed.has d.table id = true)
    (hother : Keyed.has d.table other = true) :
    (d.without id).without other = (d.without other).without id := by
  rcases Keyed.has_iff.mp hid with ⟨gone, hgone⟩
  rcases Keyed.has_iff.mp hother with ⟨gone', hgone'⟩
  have hlater : Keyed.get? (d.table.passOver id gone) other =
      some (Entry.passOver id gone gone') := by
    rw [Table.get?_passOver, if_neg hne.symm, hgone', Option.map_some]
  have hlater' : Keyed.get? (d.table.passOver other gone') id =
      some (Entry.passOver other gone' gone) := by
    rw [Table.get?_passOver, if_neg hne, hgone, Option.map_some]
  rw [without_eq hgone, without_eq hgone', without_eq hlater, without_eq hlater',
    hd.passOver_comm hne hgone hgone']

end Tree

/-! ## Lists of annotations -/

/-- What is left of a list can be deleted when its first annotation is gone. -/
theorem Deletable.tail (h : d.Deletable (id :: ids)) : (d.without id).Deletable ids where
  present := by
    intro other hother
    have hne : other ≠ id := by
      rintro rfl
      exact (List.nodup_cons.mp h.nodup).1 hother
    rw [has_without hne]
    exact h.present other (List.mem_cons_of_mem id hother)
  nodup := (List.nodup_cons.mp h.nodup).2
  not_root := by
    rw [root_without]
    exact fun hroot => h.not_root (List.mem_cons_of_mem id hroot)

theorem Deletable.perm (h : d.Deletable ids) (hperm : ids.Perm ids') : d.Deletable ids' where
  present := fun id hid => h.present id (hperm.mem_iff.mpr hid)
  nodup := hperm.nodup_iff.mp h.nodup
  not_root := fun hroot => h.not_root (hperm.mem_iff.mpr hroot)

theorem Deletable.head_ne_root (h : d.Deletable (id :: ids)) : id ≠ d.root := by
  intro heq
  exact h.not_root (heq ▸ List.mem_cons_self)

/-- The order in which annotations are left out makes no difference. -/
theorem withoutAll_perm (hperm : ids.Perm ids') (hd : d.table.Linked d.root)
    (h : d.Deletable ids) : d.withoutAll ids = d.withoutAll ids' := by
  induction hperm generalizing d with
  | nil => rfl
  | @cons id rest rest' _ ih => exact ih (linked_without hd h.head_ne_root) h.tail
  | @swap first second rest =>
    have hne : second ≠ first := by
      have hnodup := h.nodup
      rw [List.nodup_cons] at hnodup
      exact fun heq => hnodup.1 (heq ▸ List.mem_cons_self)
    have hcomm := without_comm hd hne (h.present second (by simp)) (h.present first (by simp))
    show ((d.without second).without first).withoutAll rest =
      ((d.without first).without second).withoutAll rest
    rw [hcomm]
  | trans hperm _ ih ih' => exact (ih hd h).trans (ih' hd (h.perm hperm))

/-- Without some annotations the others stand in the order in which they stood. -/
theorem order_withoutAll (hd : d.table.Linked d.root) (h : d.Deletable ids) :
    (d.withoutAll ids).order = d.order.filter (· ∉ ids) := by
  induction ids generalizing d with
  | nil =>
    show d.order = d.order.filter (· ∉ [])
    simp
  | cons id rest ih =>
    have hroot := h.head_ne_root
    have hrest := ih (linked_without hd hroot) h.tail
    show ((d.without id).withoutAll rest).order = _
    rw [hrest, order_without hd (h.present id (by simp)) hroot, List.filter_filter]
    apply List.filter_congr
    intro other _
    by_cases heq : other = id
    · simp [heq]
    · simp [heq]

/-- Deleting annotations one after another in the scope of the root goes through. -/
theorem editEach_delete (hd : d.table.Linked d.root) (h : d.Deletable ids) :
    Standard.editEach (Standard.counted fun e id => e.delete d.root id) ids d =
      .ok ids.length (d.withoutAll ids) := by
  induction ids generalizing d with
  | nil => rfl
  | cons id rest ih =>
    have hroot := h.head_ne_root
    have hdelete := delete_eq_without hd (h.present id (by simp)) hroot
    have hrest := ih (linked_without hd hroot) h.tail
    rw [root_without] at hrest
    have hfirst : Standard.editOne (Standard.counted fun e id => e.delete d.root id) id d =
        .ok 1 (d.without id) := by
      simp [Standard.editOne, Standard.counted, hdelete, Except.map]
    rw [Standard.editEach]
    simp only [bind, EStateM.bind, hfirst, hrest]
    show EStateM.Result.ok (1 + rest.length) _ = _
    rw [Nat.add_comm, List.length_cons]
    rfl

theorem process_delete (hd : d.table.Linked d.root) (h : d.Deletable ids) (bindings : Bindings) :
    Standard.delete.process { scope := d.root, params := [.annotations ids], bindings } d =
      .ok (some s!"deleted {ids.length} annotation(s)") (d.withoutAll ids) := by
  have hgiven : Standard.given (Standard.setAt [.annotations ids] 0) d = .ok ids d := rfl
  have hall := editEach_delete hd h
  simp only [Standard.delete, bind, EStateM.bind, hgiven, hall]
  rfl

/-- Annotations of a document, none of them twice and none the root, can be deleted in the scope
of the root in any order. The document that is left is always the same, and in it the other
annotations stand in the order in which they stood. -/
theorem delete_any_order (hd : d.Reachable) (hin : ∀ id ∈ ids, id ∈ d.order) (hnodup : ids.Nodup)
    (hroot : d.root ∉ ids) :
    ∃ d' : Document, d'.order = d.order.filter (· ∉ ids) ∧
      ∀ ids', ids'.Perm ids → ∀ bindings : Bindings,
        Standard.editEach (Standard.counted fun e id => e.delete d.root id) ids' d =
          .ok ids.length d' ∧
        Standard.delete.process { scope := d.root, params := [.annotations ids'], bindings } d =
          .ok (some s!"deleted {ids.length} annotation(s)") d' := by
  have hlinked := hd.linked
  have hdeletable : d.Deletable ids :=
    ⟨fun id hid => (mem_order_iff hlinked).mp (hin id hid), hnodup, hroot⟩
  refine ⟨d.withoutAll ids, order_withoutAll hlinked hdeletable, ?_⟩
  intro ids' hperm bindings
  have hdeletable' : d.Deletable ids' := hdeletable.perm hperm.symm
  have hsame : d.withoutAll ids' = d.withoutAll ids := withoutAll_perm hperm hlinked hdeletable'
  rw [← hperm.length_eq, ← hsame]
  exact ⟨editEach_delete hlinked hdeletable', process_delete hlinked hdeletable' bindings⟩

/-- A paragraph and its first word are deleted, from above or from below. -/
theorem delete_any_order_small :
    ∃ d' : Document, d'.order = [smallId 1, smallId 4] ∧
      Standard.delete.process
          ⟨smallId 1, [.annotations [smallId 2, smallId 3]], .empty⟩ smallDocument =
        .ok (some "deleted 2 annotation(s)") d' ∧
      Standard.delete.process
          ⟨smallId 1, [.annotations [smallId 3, smallId 2]], .empty⟩ smallDocument =
        .ok (some "deleted 2 annotation(s)") d' := by
  have hreachable : smallDocument.Reachable :=
    ⟨smallNode, smallIds, smallDocument, [], rfl, trivial, rfl⟩
  have horder : smallDocument.order = [smallId 1, smallId 2, smallId 3, smallId 4] := by decide
  have hin : ∀ id ∈ [smallId 2, smallId 3], id ∈ smallDocument.order := by decide
  rcases delete_any_order hreachable hin (by decide) (by decide) with ⟨d', hleft, hdeleted⟩
  refine ⟨d', ?_, (hdeleted _ (.refl _) .empty).2, (hdeleted _ (.swap _ _ _) .empty).2⟩
  rw [hleft, horder]
  decide

end Document

end MarkupScript
