import MarkupScript.Proofs.Document.Building

/-!
# Documents stay trees

Edits arrive one at a time through any scope, also through one whose annotation is no
longer in the document.

* `Document.WellFormed` says at length that the table of a document is a tree.
* `linked_after`: one edit keeps the links, whether it succeeds or not.
* `linked_afterAll`: so does any sequence of edits.
* `Document.Reachable`: the documents that can be met.
-/

namespace MarkupScript

open Relation

namespace Document

/-- The table of a document is a tree. -/
structure WellFormed (d : Document) : Prop where
  /-- An annotation has one entry. -/
  keys_nodup : (Keyed.keys d.table).Nodup
  /-- The root is there and has no parent. -/
  root_entry : ∃ e, Keyed.get? d.table d.root = some e ∧ e.parent = none
  /-- Every child in a list is there, and its parent is the one that lists it. -/
  child_parent : ∀ {id c}, d.table.HasChild id c → d.table.HasParent c id
  /-- Every annotation but the root is listed once, in one list of children. -/
  listed_once : ∀ {id}, Keyed.has d.table id = true → id ≠ d.root →
    ∃ p e, Keyed.get? d.table p = some e ∧ e.children.count id = 1 ∧
      ∀ q, d.table.HasChild q id → q = p
  /-- Every annotation is reached from the root through the lists of children. -/
  reached : ∀ {id}, Keyed.has d.table id = true → ReflTransGen d.table.HasChild d.root id
  /-- Following the parents from an annotation ends at the root. -/
  climbs : ∀ {id}, Keyed.has d.table id = true → ReflTransGen d.table.HasParent id d.root

theorem wellFormed_of_linked {d : Document} (h : d.table.Linked d.root) : d.WellFormed where
  keys_nodup := h.keys_nodup
  root_entry := h.root_entry
  child_parent := h.link.mp
  listed_once := by
    intro id hid hroot
    rcases ReflTransGen.cases_head (h.climbs hid) with rfl | ⟨p, hp, -⟩
    · exact absurd rfl hroot
    obtain ⟨e, he, hmem⟩ := h.link.mpr hp
    refine ⟨p, e, he, List.count_eq_one_of_mem (h.children_nodup he) hmem, ?_⟩
    intro q hq
    exact (h.link.mp hq).unique hp
  reached := by
    intro id hid
    have hswap : ReflTransGen (Function.swap d.table.HasParent) d.root id :=
      reflTransGen_swap.mpr (h.climbs hid)
    exact ReflTransGen.mono (fun a b hab => h.link.mpr hab) _ _ hswap
  climbs := h.climbs

/-! ## Edits that pass their check go through -/

/-- In a tree the parent of an annotation is still there when the annotation is gone, so
a deletion fails only before it changes anything. -/
theorem delete_isOk {d : Document} (h : d.table.Linked d.root) {scope id parent : AnnotationId}
    (hpar : d.editableParent scope id = .ok parent) : ∃ d', d.delete scope id = .ok d' := by
  obtain ⟨-, -, e, he, hp⟩ := editableParent_eq_ok hpar
  have hlink : d.table.HasParent id parent := ⟨e, he, hp⟩
  obtain ⟨pe, hpe⟩ := Keyed.has_iff.mp (h.has_parent hlink)
  have hhas : Keyed.has (Table.adopt (Keyed.erase d.table id) parent e.children) parent = true := by
    rw [Keyed.has, Table.get?_adopt, Keyed.get?_erase, if_neg (h.parent_ne hlink).symm, hpe]
    rfl
  exact ⟨_, by simp only [delete, hpar, he, bind, Except.bind, if_pos hhas]; rfl⟩

theorem wrap_isOk {d : Document} (h : d.table.Linked d.root) {scope id parent : AnnotationId}
    (hpar : d.editableParent scope id = .ok parent) (kind : String) :
    ∃ result, d.wrap scope id kind = .ok result := by
  obtain ⟨-, -, e, he, hp⟩ := editableParent_eq_ok hpar
  have hhas : Keyed.has d.table parent = true := h.has_parent ⟨e, he, hp⟩
  exact ⟨_, by simp only [wrap, hpar, bind, Except.bind, if_pos hhas]; rfl⟩

/-! ## Sequences of edits -/

end Document

/-- An edit of an annotation through a scope. -/
structure EditCall where
  scope : AnnotationId
  id : AnnotationId
  edit : Edit

namespace Document

/-- The document after an edit. One that is refused changes nothing. -/
def after (d : Document) (c : EditCall) : Document :=
  match d.apply c.scope c.id c.edit with
  | .ok d' => d'
  | .error _ => d

/-- The document after a sequence of edits. -/
def afterAll (d : Document) (calls : List EditCall) : Document :=
  calls.foldl after d

/-- If the edit needs a new id, the next one of the supply is not in the document. -/
def FreshFor (d : Document) : Edit → Prop
  | .wrap _ => Keyed.has d.table d.ids.take.1 = false
  | _ => True

instance (d : Document) : ∀ edit, Decidable (d.FreshFor edit)
  | .wrap _ => inferInstanceAs (Decidable (_ = _))
  | .rename _ | .setAttribute _ _ | .removeAttribute _ | .setValue _ | .delete => isTrue trivial

/-- Every new annotation gets an id that is not in the document at the time. -/
def FreshAlong : Document → List EditCall → Prop
  | _, [] => True
  | d, c :: rest => d.FreshFor c.edit ∧ FreshAlong (d.after c) rest

instance decidableFreshAlong : ∀ (d : Document) (calls : List EditCall),
    Decidable (d.FreshAlong calls)
  | _, [] => isTrue trivial
  | d, c :: rest =>
    have := decidableFreshAlong (d.after c) rest
    inferInstanceAs (Decidable (_ ∧ _))

/-- An edit that succeeds keeps the links. -/
theorem Edited.linked {d d' : Document} {scope id : AnnotationId} {edit : Edit}
    (h : Edited d scope id edit d') (hfresh : d.FreshFor edit) (hd : d.table.Linked d.root) :
    d'.table.Linked d'.root := by
  cases h with
  | content hin hget hf => exact hd.update hf
  | deletion hin hroot hget hpar => exact hd.deleted hget hpar hroot
  | wrapping hin hroot hget hpar =>
    exact hd.wrapped hget hpar hroot (Keyed.has_eq_false_iff.mp hfresh)

/-- One edit keeps the links, whether it succeeds or not. -/
theorem linked_after {d : Document} {c : EditCall} (hfresh : d.FreshFor c.edit)
    (hd : d.table.Linked d.root) : (d.after c).table.Linked (d.after c).root := by
  unfold after
  cases h : d.apply c.scope c.id c.edit with
  | error err => exact hd
  | ok d' => exact (apply_edited h).linked hfresh hd

/-- Any sequence of edits keeps the links. -/
theorem linked_afterAll {d : Document} {calls : List EditCall} (hfresh : d.FreshAlong calls)
    (hd : d.table.Linked d.root) : (d.afterAll calls).table.Linked (d.afterAll calls).root := by
  induction calls generalizing d with
  | nil => exact hd
  | cons c rest ih => exact ih hfresh.2 (linked_after hfresh.1 hd)

theorem linked_ofNode {node : Node} {ids : IdSupply} {d : Document}
    (h : Document.ofNode node ids = .ok d) : d.table.Linked d.root := by
  unfold ofNode at h
  cases hins : Table.insert [] none node with
  | error err =>
    rw [hins] at h
    cases h
  | ok t =>
    rw [hins] at h
    cases h
    exact Table.linked_of_insert hins

/-- A document that can be met: built from a tree and then edited, by whatever edits. -/
def Reachable (d : Document) : Prop :=
  ∃ node ids start calls, Document.ofNode node ids = .ok start ∧ start.FreshAlong calls ∧
    d = start.afterAll calls

theorem Reachable.linked {d : Document} (h : d.Reachable) : d.table.Linked d.root := by
  obtain ⟨node, ids, start, calls, hnew, hfresh, rfl⟩ := h
  exact linked_afterAll hfresh (linked_ofNode hnew)

/-- A document built from a tree is well-formed after any
sequence of edits, refused ones among them, through any scopes. What an edit needs of
the document is all checked before it changes anything. -/
theorem wellFormed_afterAll {node : Node} {ids : IdSupply} {d : Document}
    {calls : List EditCall} (hnew : Document.ofNode node ids = .ok d)
    (hfresh : d.FreshAlong calls) :
    (d.afterAll calls).WellFormed ∧
      ∀ scope id parent, (d.afterAll calls).editableParent scope id = .ok parent →
        (∃ d', (d.afterAll calls).delete scope id = .ok d') ∧
        ∀ kind, ∃ result, (d.afterAll calls).wrap scope id kind = .ok result := by
  have hlinked := linked_afterAll hfresh (linked_ofNode hnew)
  refine ⟨wellFormed_of_linked hlinked, ?_⟩
  intro scope id parent hpar
  exact ⟨delete_isOk hlinked hpar, wrap_isOk hlinked hpar⟩

/-! ## A small document -/

def smallId (n : Nat) : AnnotationId := ⟨BitVec.ofNat 128 n⟩

/-- A text of one paragraph with two words. -/
def smallNode : Node :=
  { id := smallId 1, kind := "doc"
    children :=
      [{ id := smallId 2, kind := "p"
         children :=
           [{ id := smallId 3, kind := "w", value := some "Hello" },
            { id := smallId 4, kind := "w", value := some "world" }] }] }

/-- New annotations get the ids from 100 on. -/
def smallIds : IdSupply := { sequence := fun n => smallId (100 + n) }

/-- Wraps a word and deletes the paragraph, both in the scope of the paragraph; then goes on
in that scope, where nothing is left, and at last deletes the wrapper. -/
def smallCalls : List EditCall :=
  [⟨smallId 2, smallId 3, .wrap "b"⟩, ⟨smallId 2, smallId 2, .delete⟩,
    ⟨smallId 2, smallId 4, .rename "x"⟩, ⟨smallId 2, smallId 2, .wrap "y"⟩,
    ⟨smallId 1, smallId 1, .delete⟩, ⟨smallId 1, smallId 4, .wrap "i"⟩,
    ⟨smallId 1, smallId 100, .delete⟩]

/-- The document of `smallNode`. -/
def smallDocument : Document :=
  { root := smallId 1, ids := smallIds
    table :=
      [(smallId 1, { kind := "doc", parent := none, children := [smallId 2] }),
        (smallId 2,
          { kind := "p", parent := some (smallId 1), children := [smallId 3, smallId 4] }),
        (smallId 3,
          { kind := "w", value := some "Hello", parent := some (smallId 2), children := [] }),
        (smallId 4,
          { kind := "w", value := some "world", parent := some (smallId 2), children := [] })] }

theorem wellFormed_small :
    Document.ofNode smallNode smallIds = .ok smallDocument ∧
      smallDocument.FreshAlong smallCalls ∧
      Keyed.keys (smallDocument.afterAll smallCalls).table = [1, 3, 4, 101].map smallId ∧
      (smallDocument.afterAll smallCalls).WellFormed := by
  have hnew : Document.ofNode smallNode smallIds = .ok smallDocument := rfl
  have hfresh : smallDocument.FreshAlong smallCalls := by decide
  exact ⟨hnew, hfresh, by decide, (wellFormed_afterAll hnew hfresh).1⟩

theorem smallDocument_reachable : smallDocument.Reachable :=
  ⟨smallNode, smallIds, smallDocument, [], rfl, trivial, rfl⟩

end Document

end MarkupScript
