import MarkupScript.Document.Edit
import Mathlib.Data.List.Nodup

/-!
# What edits do to look-ups

The table of a document is known by what it gives for each id. This file says what
every operation on tables does to that:

* `get?_update`, `get?_adopt`: an entry is changed where it stands.
* `get?_deleted`, `get?_wrapped`: the entries after an annotation was deleted, and
  after one was wrapped.
* `apply_edited`: an edit that succeeds is a change inside one entry, a deletion or a
  wrapping, and the annotation edited is in the scope.
-/

namespace MarkupScript

namespace Keyed

variable {κ α β : Type} [DecidableEq κ]

theorem has_iff {entries : Keyed κ α} {key : κ} :
    has entries key = true ↔ ∃ value, get? entries key = some value := by
  simp [has, Option.isSome_iff_exists]

theorem has_eq_false_iff {entries : Keyed κ α} {key : κ} :
    has entries key = false ↔ get? entries key = none := by
  simp [has]

theorem mem_keys_iff {entries : Keyed κ α} {key : κ} :
    key ∈ keys entries ↔ ∃ value, get? entries key = some value := by
  induction entries with
  | nil => simp [keys]
  | cons entry rest ih =>
    obtain ⟨k, v⟩ := entry
    rw [get?_cons]
    by_cases hk : k = key
    · simp [keys, hk]
    · have hk' : ¬ key = k := fun h => hk h.symm
      have ih' : key ∈ rest.map Prod.fst ↔ ∃ value, get? rest key = some value := ih
      simp [keys, hk, hk', ih']

theorem mem_of_get? {entries : Keyed κ α} {key : κ} {value : α}
    (h : get? entries key = some value) : (key, value) ∈ entries := by
  induction entries with
  | nil => cases h
  | cons entry rest ih =>
    obtain ⟨k, v⟩ := entry
    rw [get?_cons] at h
    by_cases hk : k = key
    · rw [if_pos hk] at h
      obtain rfl := Option.some.inj h
      exact hk ▸ List.mem_cons_self
    · rw [if_neg hk] at h
      exact List.mem_cons_of_mem _ (ih h)

/-- A change of values under their keys goes through look-up. -/
theorem get?_map (entries : Keyed κ α) (f : κ → α → β) (key : κ) :
    get? (entries.map fun row => (row.1, f row.1 row.2)) key =
      (get? entries key).map (f key) := by
  induction entries with
  | nil => rfl
  | cons entry rest ih =>
    obtain ⟨k, v⟩ := entry
    by_cases hk : k = key
    · subst hk
      simp [get?_cons]
    · simpa [get?_cons, hk] using ih

omit [DecidableEq κ] in
theorem keys_map (entries : Keyed κ α) (f : κ → α → β) :
    keys (entries.map fun row => (row.1, f row.1 row.2)) = keys entries := by
  simp [keys, Function.comp_def]

theorem nodup_keys_erase {entries : Keyed κ α} (h : (keys entries).Nodup) (key : κ) :
    (keys (erase entries key)).Nodup :=
  h.sublist (List.filter_sublist.map Prod.fst)

theorem nodup_keys_put {entries : Keyed κ α} (h : (keys entries).Nodup) (key : κ) (value : α) :
    (keys (put entries key value)).Nodup := by
  rw [keys_put]
  by_cases hk : key ∈ keys entries
  · rwa [if_pos hk]
  · rw [if_neg hk, List.nodup_append]
    refine ⟨h, List.nodup_singleton key, ?_⟩
    intro a ha b hb hab
    rw [List.mem_singleton] at hb
    exact hk (hb ▸ hab ▸ ha)

end Keyed

namespace Table

/-! ## Changes of entries -/

theorem update_eq_map (t : Table) (id : AnnotationId) (f : Entry → Entry) :
    t.update id f = t.map fun row => (row.1, if row.1 = id then f row.2 else row.2) := by
  apply List.map_congr_left
  rintro ⟨k, e⟩ _
  by_cases hk : k = id <;> simp [hk]

theorem adopt_eq_map (t : Table) (parent : AnnotationId) (ids : List AnnotationId) :
    t.adopt parent ids = t.map fun row =>
      (row.1, if row.1 ∈ ids then { row.2 with parent := some parent } else row.2) := by
  apply List.map_congr_left
  rintro ⟨k, e⟩ _
  by_cases hk : k ∈ ids <;> simp [hk]

theorem get?_update (t : Table) (id : AnnotationId) (f : Entry → Entry) (k : AnnotationId) :
    Keyed.get? (t.update id f) k =
      (Keyed.get? t k).map fun e => if k = id then f e else e := by
  rw [update_eq_map]
  exact Keyed.get?_map t (fun key e => if key = id then f e else e) k

theorem get?_adopt (t : Table) (parent : AnnotationId) (ids : List AnnotationId)
    (k : AnnotationId) :
    Keyed.get? (t.adopt parent ids) k =
      (Keyed.get? t k).map fun e => if k ∈ ids then { e with parent := some parent } else e := by
  rw [adopt_eq_map]
  exact Keyed.get?_map t
    (fun key e => if key ∈ ids then { e with parent := some parent } else e) k

theorem keys_update (t : Table) (id : AnnotationId) (f : Entry → Entry) :
    Keyed.keys (t.update id f) = Keyed.keys t := by
  rw [update_eq_map]
  exact Keyed.keys_map t fun key e => if key = id then f e else e

theorem keys_adopt (t : Table) (parent : AnnotationId) (ids : List AnnotationId) :
    Keyed.keys (t.adopt parent ids) = Keyed.keys t := by
  rw [adopt_eq_map]
  exact Keyed.keys_map t
    fun key e => if key ∈ ids then { e with parent := some parent } else e

/-! ## Lists of children -/

theorem splice_of_not_mem {id : AnnotationId} {l : List AnnotationId}
    (h : id ∉ l) (new : List AnnotationId) : splice id new l = l := by
  induction l with
  | nil => rfl
  | cons other rest ih =>
    have hne : ¬ other = id := fun he => h (he ▸ List.mem_cons_self)
    have hrest : id ∉ rest := fun hm => h (List.mem_cons_of_mem _ hm)
    simp [splice, hne, ih hrest]

/-- The first `id` of a list gives way to what replaces it. -/
theorem splice_append {id : AnnotationId} {before : List AnnotationId} (h : id ∉ before)
    (new after : List AnnotationId) :
    splice id new (before ++ id :: after) = before ++ new ++ after := by
  induction before with
  | nil => simp [splice]
  | cons other rest ih =>
    have hne : ¬ other = id := fun he => h (he ▸ List.mem_cons_self)
    have hrest : id ∉ rest := fun hm => h (List.mem_cons_of_mem _ hm)
    simpa [splice, hne] using ih hrest

/-- Only the part of a list that has `id` changes. -/
theorem splice_middle {id : AnnotationId} {before after : List AnnotationId}
    (hbefore : id ∉ before) (hafter : id ∉ after) (new middle : List AnnotationId) :
    splice id new (before ++ middle ++ after) = before ++ splice id new middle ++ after := by
  by_cases hid : id ∈ middle
  · obtain ⟨left, right, rfl, hleft⟩ := List.eq_append_cons_of_mem hid
    have hfront : id ∉ before ++ left := by simp [hbefore, hleft]
    have hsplit := splice_append hfront new (right ++ after)
    rw [splice_append hleft]
    simpa using hsplit
  · have hnot : id ∉ before ++ middle ++ after := by simp [hbefore, hid, hafter]
    rw [splice_of_not_mem hnot, splice_of_not_mem hid]

theorem mem_of_mem_splice {id c : AnnotationId} {new l : List AnnotationId}
    (h : c ∈ splice id new l) : c ∈ new ∨ c ∈ l := by
  by_cases hid : id ∈ l
  · obtain ⟨before, after, rfl, hb⟩ := List.eq_append_cons_of_mem hid
    rw [splice_append hb] at h
    simp only [List.mem_append] at h
    rcases h with (hc | hc) | hc
    · exact Or.inr (by simp [hc])
    · exact Or.inl hc
    · exact Or.inr (by simp [hc])
  · rw [splice_of_not_mem hid] at h
    exact Or.inr h

/-- In a list without repetitions `id` is gone, and its replacement is there. -/
theorem mem_splice {id c : AnnotationId} {new l : List AnnotationId} (hl : l.Nodup)
    (hid : id ∈ l) : c ∈ splice id new l ↔ c ∈ new ∨ (c ∈ l ∧ c ≠ id) := by
  obtain ⟨before, after, rfl, hb⟩ := List.eq_append_cons_of_mem hid
  have hafter : id ∉ after := (List.nodup_cons.mp (List.nodup_append.mp hl).2.1).1
  rw [splice_append hb]
  simp only [List.mem_append, List.mem_cons]
  constructor
  · rintro ((hc | hc) | hc)
    · exact Or.inr ⟨Or.inl hc, fun he => hb (he ▸ hc)⟩
    · exact Or.inl hc
    · exact Or.inr ⟨Or.inr (Or.inr hc), fun he => hafter (he ▸ hc)⟩
  · rintro (hc | ⟨hc | hc | hc, hne⟩)
    · exact Or.inl (Or.inr hc)
    · exact Or.inl (Or.inl hc)
    · exact absurd hc hne
    · exact Or.inr hc

theorem nodup_splice {id : AnnotationId} {new l : List AnnotationId} (hl : l.Nodup)
    (hnew : new.Nodup) (hdisj : ∀ c ∈ new, c ∉ l) : (splice id new l).Nodup := by
  by_cases hid : id ∈ l
  · obtain ⟨before, after, rfl, hb⟩ := List.eq_append_cons_of_mem hid
    rw [splice_append hb]
    have hsplit := List.nodup_append.mp hl
    have hafter : after.Nodup := (List.nodup_cons.mp hsplit.2.1).2
    refine List.nodup_append.mpr ⟨List.nodup_append.mpr ⟨hsplit.1, hnew, ?_⟩, hafter, ?_⟩
    · intro a ha b hbn hab
      exact hdisj b hbn (by simp [← hab, ha])
    · intro a ha b hba hab
      rcases List.mem_append.mp ha with ha | ha
      · exact hsplit.2.2 a ha b (List.mem_cons_of_mem _ hba) hab
      · exact hdisj a ha (by simp [hab, hba])
  · rwa [splice_of_not_mem hid]

/-! ## Deleting and wrapping -/

/-- The table without `id`, whose children have gone to `parent`. -/
def deleted (t : Table) (id parent : AnnotationId) (children : List AnnotationId) : Table :=
  (adopt (Keyed.erase t id) parent children).replaceChild parent id children

/-- The table with `wrapper` between `id` and `parent`. -/
def wrapped (t : Table) (id parent wrapper : AnnotationId) (kind : String) : Table :=
  Keyed.put ((t.replaceChild parent id [wrapper]).adopt wrapper [id]) wrapper
    { kind, parent := some parent, children := [id] }

/-- The entry of another annotation after `id` was deleted: its children may have gone
to `parent`, and `parent` has them in its place. -/
def deletedEntry (id parent : AnnotationId) (children : List AnnotationId) (k : AnnotationId)
    (e : Entry) : Entry :=
  { e with
    parent := if k ∈ children then some parent else e.parent
    children := if k = parent then splice id children e.children else e.children }

/-- The entry of another annotation after `id` was wrapped. -/
def wrappedEntry (id parent wrapper k : AnnotationId) (e : Entry) : Entry :=
  { e with
    parent := if k = id then some wrapper else e.parent
    children := if k = parent then splice id [wrapper] e.children else e.children }

theorem mem_children_deletedEntry {id parent k c : AnnotationId} {children : List AnnotationId}
    {e : Entry} (h : c ∈ (deletedEntry id parent children k e).children) :
    c ∈ children ∨ c ∈ e.children := by
  unfold deletedEntry at h
  dsimp only at h
  split at h
  · exact mem_of_mem_splice h
  · exact Or.inr h

theorem parent_deletedEntry {id parent k p : AnnotationId} {children : List AnnotationId}
    {e : Entry} (h : (deletedEntry id parent children k e).parent = some p) :
    p = parent ∨ e.parent = some p := by
  unfold deletedEntry at h
  dsimp only at h
  split at h
  · exact Or.inl (Option.some.inj h).symm
  · exact Or.inr h

theorem mem_children_wrappedEntry {id parent wrapper k c : AnnotationId} {e : Entry}
    (h : c ∈ (wrappedEntry id parent wrapper k e).children) : c = wrapper ∨ c ∈ e.children := by
  unfold wrappedEntry at h
  dsimp only at h
  split at h
  · rcases mem_of_mem_splice h with hc | hc
    · exact Or.inl (List.mem_singleton.mp hc)
    · exact Or.inr hc
  · exact Or.inr h

theorem parent_wrappedEntry {id parent wrapper k p : AnnotationId} {e : Entry}
    (h : (wrappedEntry id parent wrapper k e).parent = some p) :
    p = wrapper ∨ e.parent = some p := by
  unfold wrappedEntry at h
  dsimp only at h
  split at h
  · exact Or.inl (Option.some.inj h).symm
  · exact Or.inr h

theorem get?_deleted (t : Table) (id parent : AnnotationId) (children : List AnnotationId)
    (k : AnnotationId) :
    Keyed.get? (t.deleted id parent children) k =
      if k = id then none else (Keyed.get? t k).map (deletedEntry id parent children k) := by
  rw [deleted, replaceChild, get?_update, get?_adopt, Keyed.get?_erase]
  by_cases hk : k = id
  · simp [hk]
  · have hk' : ¬ id = k := fun h => hk h.symm
    rw [if_neg hk', if_neg hk, Option.map_map]
    congr 1
    funext e
    unfold deletedEntry
    by_cases hc : k ∈ children
    · simp only [Function.comp, if_pos hc]
      split <;> rfl
    · simp only [Function.comp, if_neg hc]
      split <;> rfl

theorem get?_wrapped (t : Table) (id parent wrapper : AnnotationId) (kind : String)
    (k : AnnotationId) :
    Keyed.get? (t.wrapped id parent wrapper kind) k =
      if k = wrapper then some { kind, parent := some parent, children := [id] }
      else (Keyed.get? t k).map (wrappedEntry id parent wrapper k) := by
  rw [wrapped, Keyed.get?_put, get?_adopt, replaceChild, get?_update]
  by_cases hk : k = wrapper
  · simp [hk]
  · have hk' : ¬ wrapper = k := fun h => hk h.symm
    rw [if_neg hk', if_neg hk, Option.map_map]
    congr 1
    funext e
    unfold wrappedEntry
    simp only [Function.comp, List.mem_singleton]
    by_cases hp : k = parent
    · simp only [if_pos hp]
      split <;> rfl
    · simp only [if_neg hp]
      split <;> rfl

theorem nodup_keys_deleted {t : Table} (h : (Keyed.keys t).Nodup) (id parent : AnnotationId)
    (children : List AnnotationId) : (Keyed.keys (t.deleted id parent children)).Nodup := by
  rw [deleted, replaceChild, keys_update, keys_adopt]
  exact Keyed.nodup_keys_erase h id

theorem nodup_keys_wrapped {t : Table} (h : (Keyed.keys t).Nodup)
    (id parent wrapper : AnnotationId) (kind : String) :
    (Keyed.keys (t.wrapped id parent wrapper kind)).Nodup := by
  apply Keyed.nodup_keys_put
  rwa [keys_adopt, replaceChild, keys_update]

end Table

namespace Document

/-! ## Edits that succeed -/

theorem entry?_eq_some {d : Document} {scope id : AnnotationId} {e : Entry} :
    d.entry? scope id = some e ↔
      d.contains scope id = true ∧ Keyed.get? d.table id = some e := by
  unfold entry?
  by_cases h : d.contains scope id = true
  · simp [h]
  · simp [h]

theorem updateEntry_eq_ok {d d' : Document} {scope id : AnnotationId} {f : Entry → Entry}
    (h : d.updateEntry scope id f = .ok d') :
    ∃ e, d.contains scope id = true ∧ Keyed.get? d.table id = some e ∧
      d' = { d with table := d.table.update id f } := by
  unfold updateEntry at h
  cases he : d.entry? scope id with
  | none =>
    rw [he] at h
    cases h
  | some e =>
    rw [he] at h
    cases h
    obtain ⟨hin, hget⟩ := entry?_eq_some.mp he
    exact ⟨e, hin, hget, rfl⟩

theorem editableParent_eq_ok {d : Document} {scope id parent : AnnotationId}
    (h : d.editableParent scope id = .ok parent) :
    d.contains scope id = true ∧ id ≠ d.root ∧
      ∃ e, Keyed.get? d.table id = some e ∧ e.parent = some parent := by
  unfold editableParent at h
  by_cases hin : d.contains scope id = true
  · by_cases hroot : id = d.root
    · rw [hin, if_pos hroot] at h
      cases h
    · simp only [hin, hroot, Bool.not_true, Bool.false_eq_true, if_false] at h
      cases hget : Keyed.get? d.table id with
      | none => simp [hget] at h
      | some e =>
        cases hpar : e.parent with
        | none => simp [hget, hpar] at h
        | some p =>
          simp only [hget, Option.bind_some, hpar, Except.ok.injEq] at h
          exact ⟨hin, hroot, e, rfl, h ▸ hpar⟩
  · simp [hin] at h

theorem delete_eq_ok {d d' : Document} {scope id : AnnotationId}
    (h : d.delete scope id = .ok d') :
    ∃ e parent, d.editableParent scope id = .ok parent ∧ Keyed.get? d.table id = some e ∧
      Keyed.has d.table parent = true ∧ parent ≠ id ∧
      d' = { d with table := d.table.deleted id parent e.children } := by
  unfold delete at h
  cases hpar : d.editableParent scope id with
  | error err =>
    rw [hpar] at h
    cases h
  | ok parent =>
    obtain ⟨-, -, e, hget, -⟩ := editableParent_eq_ok hpar
    simp only [hpar, hget, bind, Except.bind] at h
    by_cases hhas : Keyed.has (Table.adopt (Keyed.erase d.table id) parent e.children) parent = true
    · rw [if_pos hhas] at h
      cases h
      obtain ⟨pe, hpe⟩ := Keyed.has_iff.mp hhas
      rw [Table.get?_adopt, Keyed.get?_erase] at hpe
      by_cases hne : id = parent
      · simp [hne] at hpe
      · rw [if_neg hne] at hpe
        obtain ⟨old, hold, -⟩ := Option.map_eq_some_iff.mp hpe
        exact ⟨e, parent, rfl, hget, Keyed.has_iff.mpr ⟨old, hold⟩, fun he => hne he.symm, rfl⟩
    · rw [if_neg hhas] at h
      cases h

theorem wrap_eq_ok {d d' : Document} {scope id wrapper : AnnotationId} {kind : String}
    (h : d.wrap scope id kind = .ok (wrapper, d')) :
    ∃ parent, d.editableParent scope id = .ok parent ∧ Keyed.has d.table parent = true ∧
      wrapper = d.ids.take.1 ∧
      d' = { d with table := d.table.wrapped id parent d.ids.take.1 kind, ids := d.ids.take.2 } := by
  unfold wrap at h
  cases hpar : d.editableParent scope id with
  | error err =>
    rw [hpar] at h
    cases h
  | ok parent =>
    simp only [hpar, bind, Except.bind] at h
    by_cases hhas : Keyed.has d.table parent = true
    · rw [if_pos hhas] at h
      cases h
      exact ⟨parent, rfl, hhas, rfl, rfl⟩
    · rw [if_neg hhas] at h
      cases h

/-- What an edit of `id` makes of a document. -/
inductive Edited (d : Document) (scope id : AnnotationId) : Edit → Document → Prop
  /-- Something of the annotation is changed that is no link. -/
  | content {edit : Edit} {e : Entry} {f : Entry → Entry} (hin : d.contains scope id = true)
      (hget : Keyed.get? d.table id = some e)
      (hf : ∀ e, (f e).parent = e.parent ∧ (f e).children = e.children) :
      Edited d scope id edit { d with table := d.table.update id f }
  /-- The annotation is gone, and its children are in its place. -/
  | deletion {e : Entry} {parent : AnnotationId} (hin : d.contains scope id = true)
      (hroot : id ≠ d.root) (hget : Keyed.get? d.table id = some e)
      (hpar : e.parent = some parent) :
      Edited d scope id .delete { d with table := d.table.deleted id parent e.children }
  /-- There is a new annotation between this one and its parent. -/
  | wrapping {e : Entry} {parent : AnnotationId} {kind : String}
      (hin : d.contains scope id = true) (hroot : id ≠ d.root)
      (hget : Keyed.get? d.table id = some e) (hpar : e.parent = some parent) :
      Edited d scope id (.wrap kind)
        { d with table := d.table.wrapped id parent d.ids.take.1 kind, ids := d.ids.take.2 }

theorem updateEntry_edited {d d' : Document} {scope id : AnnotationId} {edit : Edit}
    {f : Entry → Entry} (h : d.updateEntry scope id f = .ok d')
    (hf : ∀ e, (f e).parent = e.parent ∧ (f e).children = e.children) :
    Edited d scope id edit d' := by
  obtain ⟨e, hin, hget, rfl⟩ := updateEntry_eq_ok h
  exact .content hin hget hf

theorem delete_edited {d d' : Document} {scope id : AnnotationId}
    (h : d.delete scope id = .ok d') : Edited d scope id .delete d' := by
  obtain ⟨e, parent, hpar, hget, -, -, rfl⟩ := delete_eq_ok h
  obtain ⟨hin, hroot, e', hget', hpar'⟩ := editableParent_eq_ok hpar
  obtain rfl : e = e' := Option.some.inj (hget.symm.trans hget')
  exact .deletion hin hroot hget hpar'

theorem wrap_edited {d d' : Document} {scope id wrapper : AnnotationId} {kind : String}
    (h : d.wrap scope id kind = .ok (wrapper, d')) : Edited d scope id (.wrap kind) d' := by
  obtain ⟨parent, hpar, -, -, rfl⟩ := wrap_eq_ok h
  obtain ⟨hin, hroot, e, hget, hpar'⟩ := editableParent_eq_ok hpar
  exact .wrapping hin hroot hget hpar'

/-- An edit that succeeds is one of the three. -/
theorem apply_edited {d d' : Document} {scope id : AnnotationId} {edit : Edit}
    (h : d.apply scope id edit = .ok d') : Edited d scope id edit d' := by
  cases edit with
  | rename kind => exact updateEntry_edited h fun e => ⟨rfl, rfl⟩
  | setAttribute name value => exact updateEntry_edited h fun e => ⟨rfl, rfl⟩
  | removeAttribute name => exact updateEntry_edited h fun e => ⟨rfl, rfl⟩
  | setValue value => exact updateEntry_edited h fun e => ⟨rfl, rfl⟩
  | delete => exact delete_edited h
  | wrap kind =>
    cases hw : d.wrap scope id kind with
    | error err => simp [apply, hw] at h
    | ok result =>
      obtain ⟨wrapper, after⟩ := result
      simp only [apply, hw, Functor.map, Except.map, Except.ok.injEq] at h
      exact h ▸ wrap_edited hw

end Document

end MarkupScript
