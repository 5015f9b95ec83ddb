import MarkupScript.Proofs.Document.Arrangement
import MarkupScript.Proofs.Document.Subtree

/-!
# The text of annotations

The text of an annotation is its own value, or else the texts of its children one after another.
An annotation without a value of its own adds nothing to a text: its children can stand in its
place, and it can be put around one of them.

* `Table.Spells` says what some annotations spell, without going through a tree.
* `Linked.spells_content`: what is read as the text of an annotation is what it spells.
* `Spells.deleted`, `Spells.wrapped`: deleting an annotation without a value of its own and
  wrapping one leave the text as it is.
* `Document.valueOf_after`, `valueOf_afterAll`: so does every edit, and every sequence of edits,
  that neither sets a value nor deletes an annotation with one.
* `Document.valueOf_wrapper`: a wrapper has the text of what it is put around.
-/

namespace MarkupScript

namespace Table

variable {t t' : Table} {root root' : AnnotationId}

/-- Some annotations, read one after another, spell a text. -/
inductive Spells (t : Table) : List AnnotationId → String → Prop
  | nil : Spells t [] ""
  /-- An annotation with a value of its own hides those below it. -/
  | own {id : AnnotationId} {e : Entry} {rest : List AnnotationId} {value after : String}
      (hget : Keyed.get? t id = some e) (hvalue : e.value = some value)
      (hafter : Spells t rest after) : Spells t (id :: rest) (value ++ after)
  | inner {id : AnnotationId} {e : Entry} {rest : List AnnotationId} {text after : String}
      (hget : Keyed.get? t id = some e) (hvalue : e.value = none)
      (hbelow : Spells t e.children text) (hafter : Spells t rest after) :
      Spells t (id :: rest) (text ++ after)

namespace Spells

theorem append {ids ids' : List AnnotationId} {s s' : String} (h : t.Spells ids s)
    (h' : t.Spells ids' s') : t.Spells (ids ++ ids') (s ++ s') := by
  induction h with
  | nil =>
    rw [String.empty_append]
    exact h'
  | own hget hvalue _ ih =>
    rw [String.append_assoc]
    exact .own hget hvalue ih
  | inner hget hvalue hbelow _ _ ih =>
    rw [String.append_assoc]
    exact .inner hget hvalue hbelow ih

/-- There is one text at most. -/
theorem unique {ids : List AnnotationId} {s s' : String} (h : t.Spells ids s)
    (h' : t.Spells ids s') : s = s' := by
  induction h generalizing s' with
  | nil =>
    cases h'
    rfl
  | own hget hvalue _ ih =>
    cases h' with
    | own hget' hvalue' hafter' =>
      obtain rfl := Option.some.inj (hget.symm.trans hget')
      rw [Option.some.inj (hvalue.symm.trans hvalue'), ih hafter']
    | inner hget' hvalue' _ _ =>
      obtain rfl := Option.some.inj (hget.symm.trans hget')
      simp [hvalue'] at hvalue
  | inner hget hvalue _ _ ihbelow ihafter =>
    cases h' with
    | own hget' hvalue' _ =>
      obtain rfl := Option.some.inj (hget.symm.trans hget')
      simp [hvalue'] at hvalue
    | inner hget' _ hbelow' hafter' =>
      obtain rfl := Option.some.inj (hget.symm.trans hget')
      rw [ihbelow hbelow', ihafter hafter']

/-- A single annotation without a value of its own spells what its children spell. -/
theorem children {id : AnnotationId} {e : Entry} {s : String} (h : t.Spells [id] s)
    (hget : Keyed.get? t id = some e) (hvalue : e.value = none) : t.Spells e.children s := by
  cases h with
  | own hget' hvalue' _ =>
    obtain rfl := Option.some.inj (hget.symm.trans hget')
    simp [hvalue'] at hvalue
  | inner hget' _ hbelow hafter =>
    obtain rfl := Option.some.inj (hget.symm.trans hget')
    cases hafter
    rw [String.append_empty]
    exact hbelow

end Spells

/-! ## What is read -/

mutual

/-- The tree that a table keeps spells its text. -/
theorem Holds.spells : ∀ {parent : Option AnnotationId} {node : Node},
    t.Holds parent node → t.Spells [node.id] node.text
  | _, ⟨id, kind, attributes, some value, children⟩, h => by
    rw [Holds] at h
    have hone := Spells.own h.1 rfl .nil
    rw [String.append_empty] at hone
    rw [Node.text]
    exact hone
  | _, ⟨id, kind, attributes, none, children⟩, h => by
    rw [Holds] at h
    have hone := Spells.inner h.1 rfl h.2.spells .nil
    rw [String.append_empty] at hone
    rw [Node.text]
    exact hone

theorem HoldsAll.spells : ∀ {parent : AnnotationId} {nodes : List Node},
    t.HoldsAll parent nodes → t.Spells (nodes.map (·.id)) (String.join (Node.texts nodes))
  | _, [], _ => by
    rw [Node.texts, String.join_nil]
    exact .nil
  | _, _ :: _, h => by
    rw [HoldsAll] at h
    rw [Node.texts, String.join_cons]
    exact h.1.spells.append h.2.spells

end

/-- What is read as the text of an annotation is what it spells. -/
theorem Linked.spells_content (h : t.Linked root) {x : AnnotationId}
    (hx : Keyed.has t x = true) : t.Spells [x] (t.content x) := by
  obtain ⟨e, he⟩ := Keyed.has_iff.mp hx
  obtain ⟨node, -, rfl, hholds⟩ := h.exportTo_holds he (h.shallow hx)
  rw [h.content_eq hholds]
  exact hholds.spells

/-- Two annotations of two tables have the same text if the one spells what the other spells. -/
theorem Linked.content_eq_of_spells (h : t.Linked root) (h' : t'.Linked root')
    {x x' : AnnotationId} (hx : Keyed.has t x = true) (hx' : Keyed.has t' x' = true)
    (hsame : ∀ {s}, t.Spells [x] s → t'.Spells [x'] s) : t'.content x' = t.content x := by
  have hnew : t'.Spells [x'] (t.content x) := hsame (h.spells_content hx)
  exact (h'.spells_content hx').unique hnew

/-! ## Texts and edits -/

theorem Spells.update {f : Entry → Entry} {x : AnnotationId}
    (hf : ∀ e, (f e).children = e.children ∧ (f e).value = e.value) {ids : List AnnotationId}
    {s : String} (h : t.Spells ids s) : (t.update x f).Spells ids s := by
  have hentry : ∀ {id : AnnotationId} {e : Entry}, Keyed.get? t id = some e →
      ∃ e', Keyed.get? (t.update x f) id = some e' ∧ e'.children = e.children ∧
        e'.value = e.value := by
    intro id e hget
    refine ⟨if id = x then f e else e, by rw [get?_update, hget, Option.map_some], ?_⟩
    split
    · exact hf e
    · exact ⟨rfl, rfl⟩
  induction h with
  | nil => exact .nil
  | own hget hvalue _ ih =>
    obtain ⟨e', hget', -, hvalue'⟩ := hentry hget
    exact .own hget' (hvalue'.trans hvalue) ih
  | inner hget hvalue _ _ ihbelow ihafter =>
    obtain ⟨e', hget', hchildren', hvalue'⟩ := hentry hget
    rw [← hchildren'] at ihbelow
    exact .inner hget' (hvalue'.trans hvalue) ihbelow ihafter

section Deletion

variable {x p : AnnotationId} {e : Entry}

/-- Where an annotation without a value of its own stood, its children spell the same. -/
theorem Spells.deleted (h : t.Linked root) (he : Keyed.get? t x = some e)
    (hp : e.parent = some p) (hplain : e.value = none) {ids : List AnnotationId} {s : String}
    (hs : t.Spells ids s) :
    (t.deleted x p e.children).Spells (substitute x e.children ids) s := by
  have hxp : t.HasParent x p := ⟨e, he, hp⟩
  have hstays : ∀ {id : AnnotationId} {ie : Entry}, id ≠ x → Keyed.get? t id = some ie →
      Keyed.get? (t.deleted x p e.children) id = some (deletedEntry x p e.children id ie) := by
    intro id ie hid hget
    rw [get?_deleted, if_neg hid, hget, Option.map_some]
  -- Along the list: the deleted annotation is a member of it, or stands deeper, or elsewhere.
  induction hs with
  | nil => exact .nil
  | @own id ie rest value after hget hvalue _ ih =>
    have hid : id ≠ x := by
      rintro rfl
      obtain rfl := Option.some.inj (hget.symm.trans he)
      simp [hplain] at hvalue
    rw [substitute_cons, if_neg hid]
    exact .own (hstays hid hget) hvalue ih
  | @inner id ie rest text after hget hvalue _ _ ihbelow ihafter =>
    rw [substitute_cons]
    by_cases hid : id = x
    · subst hid
      obtain rfl := Option.some.inj (hget.symm.trans he)
      have hnot : id ∉ ie.children := by
        rw [h.mem_children_iff he]
        intro hpar
        exact h.acyclic id (.single hpar)
      rw [substitute_of_not_mem hnot] at ihbelow
      rw [if_pos rfl]
      exact ihbelow.append ihafter
    · rw [if_neg hid]
      refine .inner (hstays hid hget) hvalue ?_ ihafter
      have hchildren := h.children_substitute hxp hget e.children
      rw [deletedEntry]
      dsimp only
      rw [hchildren]
      exact ihbelow

theorem Linked.content_deleted (h : t.Linked root) (he : Keyed.get? t x = some e)
    (hp : e.parent = some p) (hx : x ≠ root) (hplain : e.value = none) {y : AnnotationId}
    (hy : Keyed.has t y = true) (hne : y ≠ x) :
    (t.deleted x p e.children).content y = t.content y := by
  have hy' : Keyed.has (t.deleted x p e.children) y = true := by
    rw [Keyed.has, get?_deleted, if_neg hne, Option.isSome_map]
    exact hy
  refine h.content_eq_of_spells (h.deleted he hp hx) hy hy' ?_
  intro s hs
  have hleft := hs.deleted h he hp hplain
  rwa [substitute_of_not_mem (by simpa using hne.symm)] at hleft

end Deletion

section Wrapping

variable {x p w : AnnotationId} {e : Entry} {kind : String}

theorem get?_wrapper : Keyed.get? (t.wrapped x p w kind) w =
    some { kind, parent := some p, children := [x] } := by
  rw [get?_wrapped, if_pos rfl]

/-- Where an annotation was wrapped, the wrapper spells the same. -/
theorem Spells.wrapped (h : t.Linked root) (he : Keyed.get? t x = some e)
    (hp : e.parent = some p) (hw : Keyed.get? t w = none) {ids : List AnnotationId} {s : String}
    (hs : t.Spells ids s) : (t.wrapped x p w kind).Spells (substitute x [w] ids) s := by
  have hxp : t.HasParent x p := ⟨e, he, hp⟩
  have hstays : ∀ {id : AnnotationId} {ie : Entry}, Keyed.get? t id = some ie →
      Keyed.get? (t.wrapped x p w kind) id = some (wrappedEntry x p w id ie) := by
    intro id ie hget
    have hidw : id ≠ w := by
      rintro rfl
      simp [hget] at hw
    rw [get?_wrapped, if_neg hidw, hget, Option.map_some]
  -- What a member spells, alone or through its wrapper.
  have hplace : ∀ {id : AnnotationId} {s : String}, (t.wrapped x p w kind).Spells [id] s →
      (t.wrapped x p w kind).Spells (if id = x then [w] else [id]) s := by
    intro id s hid
    split
    · next heq =>
      subst heq
      have hwrapper := Spells.inner get?_wrapper rfl hid .nil
      rwa [String.append_empty] at hwrapper
    · exact hid
  induction hs with
  | nil => exact .nil
  | @own id ie rest value after hget hvalue _ ih =>
    have hone := Spells.own (hstays hget) hvalue .nil
    rw [String.append_empty] at hone
    rw [substitute_cons]
    exact (hplace hone).append ih
  | @inner id ie rest text after hget hvalue _ _ ihbelow ihafter =>
    have hchildren := h.children_substitute hxp hget [w]
    have hinner : (t.wrapped x p w kind).Spells (wrappedEntry x p w id ie).children text := by
      rw [wrappedEntry]
      dsimp only
      rw [hchildren]
      exact ihbelow
    have hone := Spells.inner (hstays hget) hvalue hinner .nil
    rw [String.append_empty] at hone
    rw [substitute_cons]
    exact (hplace hone).append ihafter

theorem Linked.content_wrapper (h : t.Linked root) (he : Keyed.get? t x = some e)
    (hp : e.parent = some p) (hx : x ≠ root) (hw : Keyed.get? t w = none) :
    (t.wrapped x p w kind).content w = t.content x := by
  have hhas : Keyed.has (t.wrapped x p w kind) w = true := Keyed.has_iff.mpr ⟨_, get?_wrapper⟩
  refine h.content_eq_of_spells (h.wrapped he hp hx hw) (Keyed.has_iff.mpr ⟨e, he⟩) hhas ?_
  intro s hs
  have hwrapper : (t.wrapped x p w kind).Spells (substitute x [w] [x]) s := hs.wrapped h he hp hw
  rwa [substitute, List.flatMap_singleton, if_pos rfl] at hwrapper

theorem Linked.content_wrapped (h : t.Linked root) (he : Keyed.get? t x = some e)
    (hp : e.parent = some p) (hx : x ≠ root) (hw : Keyed.get? t w = none) {y : AnnotationId}
    (hy : Keyed.has t y = true) : (t.wrapped x p w kind).content y = t.content y := by
  have hyw : y ≠ w := by
    rintro rfl
    rw [Keyed.has, hw] at hy
    cases hy
  have hy' : Keyed.has (t.wrapped x p w kind) y = true := by
    rw [Keyed.has, get?_wrapped, if_neg hyw, Option.isSome_map]
    exact hy
  refine h.content_eq_of_spells (h.wrapped he hp hx hw) hy hy' ?_
  intro s hs
  have hplace : (t.wrapped x p w kind).Spells (substitute x [w] [y]) s := hs.wrapped h he hp hw
  by_cases hyx : y = x
  · -- The wrapper spells what it is put around, and nothing else.
    subst hyx
    rw [substitute, List.flatMap_singleton, if_pos rfl] at hplace
    exact hplace.children get?_wrapper rfl
  · rwa [substitute_of_not_mem (by simpa using Ne.symm hyx)] at hplace

end Wrapping

end Table

namespace Document

variable {d : Document} {c : EditCall} {x w : AnnotationId} {calls : List EditCall}

theorem root_after (d : Document) (c : EditCall) : (d.after c).root = d.root := by
  obtain ⟨scope, id, edit⟩ := c
  cases h : d.apply scope id edit with
  | error err => rw [after_of_error h]
  | ok d' =>
    rw [after_of_ok h]
    cases apply_edited h with
    | content _ _ _ => rfl
    | deletion _ _ _ _ => rfl
    | wrapping _ _ _ _ => rfl

theorem root_afterAll (d : Document) (calls : List EditCall) :
    (d.afterAll calls).root = d.root := by
  induction calls generalizing d with
  | nil => rfl
  | cons c rest ih => exact (ih (d.after c)).trans (root_after d c)

/-- In the scope of the root every annotation has a text. -/
theorem valueOf_root (hd : d.table.Linked d.root) (hx : Keyed.has d.table x = true) :
    d.valueOf d.root x = some (d.table.content x) := by
  have hin : d.contains d.root x = true := (contains_iff hd).mpr (hd.climbs hx)
  rw [valueOf, if_pos hin]

/-- The annotation has a value of its own. -/
def OwnsValue (d : Document) (id : AnnotationId) : Prop :=
  ∃ e value, Keyed.get? d.table id = some e ∧ e.value = some value

/-- The call takes an annotation out of the document that has a value of its own. -/
def RemovesValue (d : Document) (c : EditCall) : Prop :=
  ∃ id, d.Removes c id ∧ d.OwnsValue id

instance (d : Document) (id : AnnotationId) : Decidable (d.OwnsValue id) :=
  decidable_of_iff (((Keyed.get? d.table id).bind (·.value)).isSome = true) (by
    unfold OwnsValue
    cases Keyed.get? d.table id with
    | none => simp
    | some e => simp [Option.isSome_iff_exists])

theorem removesValue_iff :
    d.RemovesValue c ↔
      (c.edit = .delete ∧ (d.delete c.scope c.id).isOk = true) ∧ d.OwnsValue c.id := by
  have hok : (∃ d', d.delete c.scope c.id = .ok d') ↔ (d.delete c.scope c.id).isOk = true := by
    cases d.delete c.scope c.id with
    | error err => simp [Except.isOk, Except.toBool]
    | ok d' => simp [Except.isOk, Except.toBool]
  rw [← hok]
  constructor
  · rintro ⟨id, ⟨hedit, rfl, hdelete⟩, hvalue⟩
    exact ⟨⟨hedit, hdelete⟩, hvalue⟩
  · rintro ⟨⟨hedit, hdelete⟩, hvalue⟩
    exact ⟨c.id, ⟨hedit, rfl, hdelete⟩, hvalue⟩

instance (d : Document) (c : EditCall) : Decidable (d.RemovesValue c) :=
  decidable_of_iff' _ removesValue_iff

instance decidableSomeCall {holds : Document → EditCall → Prop}
    [∀ d c, Decidable (holds d c)] : ∀ d calls, Decidable (SomeCall holds d calls)
  | _, [] => isFalse id
  | d, c :: rest =>
    have : Decidable (SomeCall holds (d.after c) rest) := decidableSomeCall (d.after c) rest
    inferInstanceAs (Decidable (holds d c ∨ SomeCall holds (d.after c) rest))

/-! ## One edit -/

theorem content_after_update {scope id : AnnotationId} {edit : Edit} {f : Entry → Entry}
    (hd : d.table.Linked d.root) (happly : d.apply scope id edit = d.updateEntry scope id f)
    (hf : ∀ e, (f e).parent = e.parent ∧ (f e).children = e.children)
    (hvalue : ∀ e, (f e).value = e.value) (hx : Keyed.has d.table x = true) :
    (d.after ⟨scope, id, edit⟩).table.content x = d.table.content x := by
  cases hupdate : d.updateEntry scope id f with
  | error err => rw [after_of_error (happly.trans hupdate)]
  | ok d' =>
    rw [after_of_ok (happly.trans hupdate)]
    obtain ⟨e, -, -, rfl⟩ := updateEntry_eq_ok hupdate
    have hx' : Keyed.has (d.table.update id f) x = true := by
      rw [Keyed.has, Table.get?_update, Option.isSome_map]
      exact hx
    refine hd.content_eq_of_spells (hd.update hf) hx hx' ?_
    intro s hs
    exact hs.update fun e => ⟨(hf e).2, hvalue e⟩

theorem content_after_delete {scope id : AnnotationId} (hd : d.table.Linked d.root)
    (hplain : ¬ d.RemovesValue ⟨scope, id, .delete⟩) (hx : Keyed.has d.table x = true)
    (hx' : Keyed.has (d.after ⟨scope, id, .delete⟩).table x = true) :
    (d.after ⟨scope, id, .delete⟩).table.content x = d.table.content x := by
  cases hdelete : d.delete scope id with
  | error err =>
    have hafter : d.after ⟨scope, id, .delete⟩ = d := after_of_error hdelete
    rw [hafter]
  | ok d' =>
    have hafter : d.after ⟨scope, id, .delete⟩ = d' := after_of_ok hdelete
    have hremoves : d.Removes ⟨scope, id, .delete⟩ id := ⟨rfl, rfl, d', hdelete⟩
    have hne : x ≠ id := by
      rintro rfl
      exact (present_after_delete.mp hx').2 hremoves
    obtain ⟨e, parent, hpar, hget, -, -, rfl⟩ := delete_eq_ok hdelete
    obtain ⟨-, hroot, e', hget', hparent⟩ := editableParent_eq_ok hpar
    obtain rfl := Option.some.inj (hget'.symm.trans hget)
    have hown : e'.value = none := by
      cases hvalue : e'.value with
      | none => rfl
      | some value => exact absurd ⟨id, hremoves, e', value, hget, hvalue⟩ hplain
    rw [hafter]
    exact hd.content_deleted hget hparent hroot hown hx hne

theorem content_after_wrap {scope id : AnnotationId} {kind : String}
    (hd : d.table.Linked d.root)
    (hnew : d.FreshUntil (d.after ⟨scope, id, .wrap kind⟩).ids.used)
    (hx : Keyed.has d.table x = true) :
    (d.after ⟨scope, id, .wrap kind⟩).table.content x = d.table.content x := by
  cases happly : d.apply scope id (.wrap kind) with
  | error err =>
    have hafter : d.after ⟨scope, id, .wrap kind⟩ = d := after_of_error happly
    rw [hafter]
  | ok d' =>
    have hafter : d.after ⟨scope, id, .wrap kind⟩ = d' := after_of_ok happly
    rw [hafter] at hnew ⊢
    have hfresh : d.FreshFor (.wrap kind) := freshFor_of_apply happly hnew
    cases hwrap : d.wrap scope id kind with
    | error err => simp [apply, hwrap] at happly
    | ok result =>
      obtain ⟨wrapper, after⟩ := result
      obtain rfl : after = d' := by simpa [apply, hwrap] using happly
      obtain ⟨parent, hpar, -, -, rfl⟩ := wrap_eq_ok hwrap
      obtain ⟨-, hroot, e, hget, hparent⟩ := editableParent_eq_ok hpar
      exact hd.content_wrapped hget hparent hroot (Keyed.has_eq_false_iff.mp hfresh) hx

/-- An edit that neither sets a value nor removes one leaves every text as it is. -/
theorem valueOf_after (hd : d.table.Linked d.root) (hnew : d.FreshUntil (d.after c).ids.used)
    (hset : ∀ value, c.edit ≠ .setValue value) (hplain : ¬ d.RemovesValue c)
    (hx : Keyed.has d.table x = true) (hx' : Keyed.has (d.after c).table x = true) :
    (d.after c).valueOf d.root x = d.valueOf d.root x := by
  have hd' := (sameArrangement_after hd hnew).1
  have hcontent : (d.after c).table.content x = d.table.content x := by
    obtain ⟨scope, id, edit⟩ := c
    have hlinks : ∀ e : Entry, e.parent = e.parent ∧ e.children = e.children :=
      fun e => ⟨rfl, rfl⟩
    cases edit with
    | rename kind => exact content_after_update hd rfl hlinks (fun e => rfl) hx
    | setAttribute name value => exact content_after_update hd rfl hlinks (fun e => rfl) hx
    | removeAttribute name => exact content_after_update hd rfl hlinks (fun e => rfl) hx
    | setValue value => exact absurd rfl (hset value)
    | delete => exact content_after_delete hd hplain hx hx'
    | wrap kind => exact content_after_wrap hd hnew hx
  have hafter := valueOf_root hd' hx'
  rw [root_after] at hafter
  rw [hafter, valueOf_root hd hx, hcontent]

/-- A wrapper has the text of what it is put around. -/
theorem valueOf_wrapper (hd : d.table.Linked d.root) (hnew : d.FreshUntil (d.after c).ids.used)
    (hadds : d.Adds c w) :
    Keyed.has (d.after c).table w = true ∧
      (d.after c).valueOf d.root w = d.valueOf d.root c.id := by
  have hd' := (sameArrangement_after hd hnew).1
  obtain ⟨kind, d', hedit, hwrap⟩ := hadds
  have happly : d.apply c.scope c.id c.edit = .ok d' := by simp [hedit, apply, hwrap]
  rw [after_of_ok happly] at hnew hd' ⊢
  have hfresh := freshFor_of_apply happly hnew
  rw [hedit] at hfresh
  obtain ⟨parent, hpar, -, rfl, rfl⟩ := wrap_eq_ok hwrap
  obtain ⟨-, hroot, e, hget, hparent⟩ := editableParent_eq_ok hpar
  have hw : Keyed.get? d.table d.ids.take.1 = none := Keyed.has_eq_false_iff.mp hfresh
  have hhas : Keyed.has (d.table.wrapped c.id parent d.ids.take.1 kind) d.ids.take.1 = true :=
    Keyed.has_iff.mpr ⟨_, Table.get?_wrapper⟩
  have hid : Keyed.has d.table c.id = true := Keyed.has_iff.mpr ⟨e, hget⟩
  refine ⟨hhas, ?_⟩
  rw [valueOf_root hd hid, ← hd.content_wrapper hget hparent hroot hw]
  exact valueOf_root hd' hhas

/-! ## Sequences of edits -/

theorem afterAll_append (d : Document) (calls calls' : List EditCall) :
    d.afterAll (calls ++ calls') = (d.afterAll calls).afterAll calls' := by
  rw [afterAll, List.foldl_append, ← afterAll, ← afterAll]

theorem someCall_append {holds : Document → EditCall → Prop} (d : Document)
    (calls calls' : List EditCall) :
    SomeCall holds d (calls ++ calls') ↔
      SomeCall holds d calls ∨ SomeCall holds (d.afterAll calls) calls' := by
  induction calls generalizing d with
  | nil => simp [SomeCall, afterAll]
  | cons c rest ih =>
    rw [List.cons_append, SomeCall, SomeCall, ih, or_assoc]
    rfl

theorem NewUntil.afterAll {used : Nat} (h : d.NewUntil used) (calls : List EditCall) :
    (d.afterAll calls).NewUntil used := by
  induction calls generalizing d with
  | nil => exact h
  | cons c rest ih => exact ih (h.after c)

theorem NewUntil.mono {used used' : Nat} (h : d.NewUntil used') (hle : used ≤ used') :
    d.NewUntil used where
  absent := h.absent.mono hle
  distinct := by
    intro m n hm hmn hn
    exact h.distinct hm hmn (by omega)

/-- Edits that neither set a value nor remove one leave the text of every annotation as it is
that is there before and after. -/
theorem valueOf_afterAll (hd : d.table.Linked d.root)
    (hnew : d.NewUntil (d.afterAll calls).ids.used)
    (hset : ∀ c ∈ calls, ∀ value, c.edit ≠ .setValue value)
    (hplain : ¬ SomeCall RemovesValue d calls) (hx : Keyed.has d.table x = true)
    (hx' : Keyed.has (d.afterAll calls).table x = true) :
    (d.afterAll calls).valueOf d.root x = d.valueOf d.root x := by
  induction calls generalizing d with
  | nil => rfl
  | cons c rest ih =>
    have hused : (d.after c).ids.used ≤ (d.afterAll (c :: rest)).ids.used :=
      (ids_afterAll (d.after c) rest).2
    have hnewFirst : d.FreshUntil (d.after c).ids.used := hnew.absent.mono hused
    obtain ⟨hsetFirst, hsetRest⟩ := List.forall_mem_cons.mp hset
    obtain ⟨hplainFirst, hplainRest⟩ := not_or.mp hplain
    have hbetween := present_between hnew hx hx'
    have hlinked := (sameArrangement_after hd hnewFirst).1
    have hrest := ih hlinked (hnew.after c) hsetRest hplainRest hbetween hx'
    rw [root_after] at hrest
    exact hrest.trans (valueOf_after hd hnewFirst hsetFirst hplainFirst hx hbetween)

/-- A wrapper keeps the text of what it was put around, as long as it is there. -/
theorem valueOf_afterAll_wrapper {before later : List EditCall} (hd : d.table.Linked d.root)
    (hnew : d.NewUntil (d.afterAll (before ++ c :: later)).ids.used)
    (hset : ∀ c' ∈ before ++ c :: later, ∀ value, c'.edit ≠ .setValue value)
    (hplain : ¬ SomeCall RemovesValue d (before ++ c :: later))
    (hadds : (d.afterAll before).Adds c w)
    (hw : Keyed.has (d.afterAll (before ++ c :: later)).table w = true) :
    (d.afterAll (before ++ c :: later)).valueOf d.root w =
      (d.afterAll before).valueOf d.root c.id := by
  have hsplit : d.afterAll (before ++ c :: later) = ((d.afterAll before).after c).afterAll later :=
    afterAll_append d before (c :: later)
  rw [hsplit] at hnew hw ⊢
  obtain ⟨-, hplainLater⟩ := not_or.mp (mt (someCall_append d before (c :: later)).mpr hplain)
  obtain ⟨-, hplainRest⟩ := not_or.mp hplainLater
  have hsetRest : ∀ c ∈ later, ∀ value, c.edit ≠ .setValue value := by
    intro c' hc'
    exact hset c' (by simp [hc'])
  -- The ids that are drawn up to each of the three moments are new before it.
  have hthen := (ids_after (d.afterAll before) c).2
  have hlast := (ids_afterAll ((d.afterAll before).after c) later).2
  have hnewHere := hnew.afterAll before
  have hlinked : (d.afterAll before).table.Linked (d.afterAll before).root :=
    (sameArrangement_afterAll hd (hnew.mono (Nat.le_trans hthen hlast))).1
  have hnewCall : (d.afterAll before).FreshUntil ((d.afterAll before).after c).ids.used :=
    hnewHere.absent.mono hlast
  have hlinked' := (sameArrangement_after hlinked hnewCall).1
  obtain ⟨hthere, hwrapper⟩ := valueOf_wrapper hlinked hnewCall hadds
  have hkept := valueOf_afterAll hlinked' (hnewHere.after c) hsetRest hplainRest hthere hw
  rw [root_after] at hkept
  rw [← root_afterAll d before]
  exact hkept.trans hwrapper

end Document

end MarkupScript
