import MarkupScript.Proofs.Document.Confinement
import MarkupScript.Proofs.Document.Order
import MarkupScript.Proofs.Document.WellFormed

/-!
# Edits keep the arrangement

Whatever is edited, the annotations that stay are neither put into another order nor nested in
another way. This holds as long as the id of a new annotation was not used before, else a new
annotation could pass for one that was deleted.

* `Document.SameArrangement`: what is in both of two documents is arranged in the same way.
* `present_afterAll_iff`: what is in a document after a sequence of edits.
* `sameArrangement_after`, `sameArrangement_afterAll`: one edit keeps the arrangement, and so
  does any sequence of edits.
-/

namespace MarkupScript

open Relation

namespace Document

/-- The annotations of a document in document order. -/
def order (d : Document) : List AnnotationId := d.toNode.preorder

/-- Those that are in both documents stand in the same order, and one of them is above another
in both documents or in neither. -/
structure SameArrangement (d d' : Document) : Prop where
  order : d.order.filter (· ∈ d'.order) = d'.order.filter (· ∈ d.order)
  nesting : ∀ {a b}, a ∈ d.order → a ∈ d'.order → b ∈ d.order → b ∈ d'.order →
    d'.contains a b = d.contains a b

theorem mem_order_iff {d : Document} (h : d.table.Linked d.root) {id : AnnotationId} :
    id ∈ d.order ↔ Keyed.has d.table id = true :=
  mem_preorder_iff h

theorem order_eq {d : Document} (h : d.table.Linked d.root) {l : List AnnotationId}
    (hl : d.table.Ordered [d.root] l) : d.order = l :=
  (ordered_toNode h).unique hl

/-! ## What one edit does -/

section OneEdit

variable {d : Document} (hd : d.table.Linked d.root)
include hd

theorem contains_eq_of_iff {d' : Document} (hd' : d'.table.Linked d'.root) {a b : AnnotationId}
    (h : ReflTransGen d'.table.HasParent b a ↔ ReflTransGen d.table.HasParent b a) :
    d'.contains a b = d.contains a b := by
  rw [Bool.eq_iff_iff, contains_iff hd', contains_iff hd]
  exact h

theorem sameArrangement_update {f : Entry → Entry} {x : AnnotationId}
    (hf : ∀ e, (f e).parent = e.parent ∧ (f e).children = e.children) :
    SameArrangement d { d with table := d.table.update x f } := by
  have hd' : (d.table.update x f).Linked d.root := hd.update hf
  have horder : Document.order { d with table := d.table.update x f } = d.order :=
    order_eq hd' ((ordered_toNode hd).update hf)
  constructor
  · rw [horder]
  · intro a b _ _ _ _
    refine contains_eq_of_iff hd hd' ?_
    have hsame : (d.table.update x f).HasParent = d.table.HasParent := by
      funext c q
      exact propext (Table.Linked.hasParent_update hf c q)
    rw [hsame]

theorem sameArrangement_deleted {x p : AnnotationId} {e : Entry} (hx : x ≠ d.root)
    (he : Keyed.get? d.table x = some e) (hp : e.parent = some p) :
    SameArrangement d { d with table := d.table.deleted x p e.children } := by
  have hd' : (d.table.deleted x p e.children).Linked d.root := hd.deleted he hp hx
  have horder : Document.order { d with table := d.table.deleted x p e.children } =
      d.order.filter (· ≠ x) := by
    refine order_eq hd' ?_
    have hleft := (ordered_toNode hd).deleted hd he hp
    rwa [Table.substitute_of_not_mem (by simpa using hx)] at hleft
  constructor
  · -- What was there and is still there is all but `x`.
    rw [horder, List.filter_filter]
    apply List.filter_congr
    intro id hid
    simp [hid]
  · intro a b _ ha _ hb
    rw [horder, List.mem_filter] at ha hb
    have hax : a ≠ x := by simpa using ha.2
    have hbx : b ≠ x := by simpa using hb.2
    exact contains_eq_of_iff hd hd' (hd.reaches_deleted_iff he hp hbx hax)

theorem sameArrangement_wrapped {x p w : AnnotationId} {e : Entry} {kind : String} {ids : IdSupply}
    (hx : x ≠ d.root) (he : Keyed.get? d.table x = some e) (hp : e.parent = some p)
    (hw : Keyed.get? d.table w = none) :
    SameArrangement d { d with table := d.table.wrapped x p w kind, ids } := by
  have hd' : (d.table.wrapped x p w kind).Linked d.root := hd.wrapped he hp hx hw
  have horder : Document.order { d with table := d.table.wrapped x p w kind, ids } =
      Table.substitute x [w, x] d.order := by
    refine order_eq hd' ?_
    have hmore : (d.table.wrapped x p w kind).Ordered _ _ :=
      (ordered_toNode hd).wrapped hd he hp hw
    rwa [Table.substitute_of_not_mem (by simpa using hx)] at hmore
  have hwnot : w ∉ d.order := by
    rw [mem_order_iff hd, Keyed.has, hw]
    simp
  constructor
  · have hstay : d.order.filter (· ∈ Table.substitute x [w, x] d.order) = d.order := by
      rw [List.filter_eq_self]
      intro id hid
      simpa using Table.subset_substitute x w d.order hid
    rw [horder, Table.filter_substitute hwnot, hstay]
  · intro a b ha _ hb _
    have haw : a ≠ w := ne_of_mem_of_not_mem ha hwnot
    have hbw : b ≠ w := ne_of_mem_of_not_mem hb hwnot
    exact contains_eq_of_iff hd hd' (hd.reaches_wrapped_iff he hp hw hbw haw)

end OneEdit

/-! ## What is there after an edit -/

/-- The call takes an annotation out of the document: it is a deletion of that annotation, and
it succeeds. -/
def Removes (d : Document) (c : EditCall) (id : AnnotationId) : Prop :=
  c.edit = .delete ∧ c.id = id ∧ ∃ d', d.delete c.scope c.id = .ok d'

/-- The call puts an annotation into the document: it is a wrapping that succeeds and gives the
id of that annotation. -/
def Adds (d : Document) (c : EditCall) (id : AnnotationId) : Prop :=
  ∃ kind d', c.edit = .wrap kind ∧ d.wrap c.scope c.id kind = .ok (id, d')

theorem after_of_ok {d d' : Document} {c : EditCall} (h : d.apply c.scope c.id c.edit = .ok d') :
    d.after c = d' := by
  rw [after, h]

theorem after_of_error {d : Document} {c : EditCall} {err : DocumentError}
    (h : d.apply c.scope c.id c.edit = .error err) : d.after c = d := by
  rw [after, h]

section Presence

variable {d : Document} {scope x id : AnnotationId}

theorem present_after_update {edit : Edit} {f : Entry → Entry}
    (happly : d.apply scope x edit = d.updateEntry scope x f) :
    Keyed.has (d.after ⟨scope, x, edit⟩).table id = Keyed.has d.table id := by
  cases hupdate : d.updateEntry scope x f with
  | error err => rw [after_of_error (happly.trans hupdate)]
  | ok d' =>
    rw [after_of_ok (happly.trans hupdate)]
    obtain ⟨e, -, -, rfl⟩ := updateEntry_eq_ok hupdate
    rw [Keyed.has, Table.get?_update, Option.isSome_map, Keyed.has]

theorem present_after_delete :
    Keyed.has (d.after ⟨scope, x, .delete⟩).table id = true ↔
      Keyed.has d.table id = true ∧ ¬ d.Removes ⟨scope, x, .delete⟩ id := by
  cases hdelete : d.delete scope x with
  | error err =>
    have hafter : d.after ⟨scope, x, .delete⟩ = d := after_of_error hdelete
    have hnot : ¬ d.Removes ⟨scope, x, .delete⟩ id := by
      rintro ⟨-, -, d', hok⟩
      rw [hdelete] at hok
      cases hok
    rw [hafter]
    exact ⟨fun hid => ⟨hid, hnot⟩, fun hid => hid.1⟩
  | ok d' =>
    have hafter : d.after ⟨scope, x, .delete⟩ = d' := after_of_ok hdelete
    have hremoves : d.Removes ⟨scope, x, .delete⟩ id ↔ x = id :=
      ⟨fun h => h.2.1, fun h => ⟨rfl, h, d', hdelete⟩⟩
    obtain ⟨e, parent, -, -, -, -, rfl⟩ := delete_eq_ok hdelete
    rw [hafter, hremoves, Keyed.has, Table.get?_deleted]
    by_cases heq : id = x
    · simp [heq]
    · rw [if_neg heq, Option.isSome_map, Keyed.has]
      exact ⟨fun hid => ⟨hid, fun h => heq h.symm⟩, fun hid => hid.1⟩

theorem present_after_wrap {kind : String} :
    Keyed.has (d.after ⟨scope, x, .wrap kind⟩).table id = true ↔
      Keyed.has d.table id = true ∨ d.Adds ⟨scope, x, .wrap kind⟩ id := by
  cases hwrap : d.wrap scope x kind with
  | error err =>
    have happly : d.apply scope x (.wrap kind) = .error err := by simp [apply, hwrap]
    have hafter : d.after ⟨scope, x, .wrap kind⟩ = d := after_of_error happly
    have hnot : ¬ d.Adds ⟨scope, x, .wrap kind⟩ id := by
      rintro ⟨kind', d', hkind, hok⟩
      cases hkind
      rw [hwrap] at hok
      cases hok
    rw [hafter]
    exact ⟨Or.inl, fun h => h.resolve_right hnot⟩
  | ok result =>
    obtain ⟨wrapper, d'⟩ := result
    have hafter : d.after ⟨scope, x, .wrap kind⟩ = d' :=
      after_of_ok (by simp [apply, hwrap])
    have hadds : d.Adds ⟨scope, x, .wrap kind⟩ id ↔ id = wrapper := by
      constructor
      · rintro ⟨kind', d'', hkind, hok⟩
        cases hkind
        have hpair := Except.ok.inj (hok.symm.trans hwrap)
        exact congrArg Prod.fst hpair
      · rintro rfl
        exact ⟨kind, d', rfl, hwrap⟩
    obtain ⟨parent, -, -, rfl, rfl⟩ := wrap_eq_ok hwrap
    rw [hafter, hadds, Keyed.has, Table.get?_wrapped]
    by_cases heq : id = d.ids.take.1
    · simp [heq]
    · rw [if_neg heq, Option.isSome_map, Keyed.has]
      exact ⟨Or.inl, fun h => h.resolve_right heq⟩

end Presence

/-- What is there after an edit was there or was added, and was not removed. -/
theorem present_after_iff (d : Document) (c : EditCall) (id : AnnotationId) :
    Keyed.has (d.after c).table id = true ↔
      (Keyed.has d.table id = true ∨ d.Adds c id) ∧ ¬ d.Removes c id := by
  obtain ⟨scope, x, edit⟩ := c
  have hcontent : ∀ {f : Entry → Entry}, d.apply scope x edit = d.updateEntry scope x f →
      edit ≠ .delete → (∀ kind, edit ≠ .wrap kind) →
      (Keyed.has (d.after ⟨scope, x, edit⟩).table id = true ↔
        (Keyed.has d.table id = true ∨ d.Adds ⟨scope, x, edit⟩ id) ∧
          ¬ d.Removes ⟨scope, x, edit⟩ id) := by
    intro f happly hdelete hwrap
    have hadds : ¬ d.Adds ⟨scope, x, edit⟩ id := by
      rintro ⟨kind, d', hkind, -⟩
      exact hwrap kind hkind
    have hremoves : ¬ d.Removes ⟨scope, x, edit⟩ id := fun h => hdelete h.1
    simp [present_after_update happly, hadds, hremoves]
  cases edit with
  | rename kind => exact hcontent rfl (by simp) (by simp)
  | setAttribute name value => exact hcontent rfl (by simp) (by simp)
  | removeAttribute name => exact hcontent rfl (by simp) (by simp)
  | setValue value => exact hcontent rfl (by simp) (by simp)
  | delete =>
    have hadds : ¬ d.Adds ⟨scope, x, .delete⟩ id := by
      rintro ⟨kind, d', hkind, -⟩
      cases hkind
    rw [present_after_delete]
    simp [hadds]
  | wrap kind =>
    have hremoves : ¬ d.Removes ⟨scope, x, .wrap kind⟩ id := by
      rintro ⟨hdelete, -⟩
      cases hdelete
    rw [present_after_wrap]
    simp [hremoves]

/-! ## New ids -/

theorem ids_after (d : Document) (c : EditCall) :
    (d.after c).ids.sequence = d.ids.sequence ∧ d.ids.used ≤ (d.after c).ids.used := by
  obtain ⟨scope, id, edit⟩ := c
  cases h : d.apply scope id edit with
  | error err =>
    rw [after_of_error h]
    exact ⟨rfl, Nat.le_refl _⟩
  | ok d' =>
    rw [after_of_ok h]
    cases apply_edited h with
    | content _ _ _ => exact ⟨rfl, Nat.le_refl _⟩
    | deletion _ _ _ _ => exact ⟨rfl, Nat.le_refl _⟩
    | wrapping _ _ _ _ => exact ⟨rfl, Nat.le_succ _⟩

/-- What a call adds has the next id of the supply. -/
theorem Adds.drawn {d : Document} {c : EditCall} {id : AnnotationId} (h : d.Adds c id) :
    id = d.ids.sequence d.ids.used ∧ (d.after c).ids.used = d.ids.used + 1 := by
  obtain ⟨kind, d', hedit, hwrap⟩ := h
  have hafter : d.after c = d' := after_of_ok (by simp [hedit, apply, hwrap])
  obtain ⟨parent, -, -, rfl, rfl⟩ := wrap_eq_ok hwrap
  rw [hafter]
  exact ⟨rfl, rfl⟩

/-- The ids that are drawn until `used` were are not in the document, and no two are the
same. -/
structure NewUntil (d : Document) (used : Nat) : Prop where
  absent : d.FreshUntil used
  distinct : ∀ {m n}, d.ids.used ≤ m → m < n → n < used → d.ids.sequence m ≠ d.ids.sequence n

/-- Ids that are new stay new, until they are drawn. -/
theorem NewUntil.after {d : Document} {used : Nat} (h : d.NewUntil used) (c : EditCall) :
    (d.after c).NewUntil used := by
  obtain ⟨hsequence, hused⟩ := ids_after d c
  constructor
  · intro n hn hlt
    rw [hsequence, Bool.eq_false_iff]
    intro hhas
    rcases ((present_after_iff d c _).mp hhas).1 with hold | hadds
    · rw [h.absent n (by omega) hlt] at hold
      cases hold
    · obtain ⟨heq, hnext⟩ := hadds.drawn
      exact h.distinct (Nat.le_refl _) (by omega) hlt heq.symm
  · intro m n hm hmn hn
    rw [hsequence]
    exact h.distinct (by omega) hmn hn

/-- An edit that succeeds draws its id, if it needs one, from the new ones. -/
theorem freshFor_of_apply {d d' : Document} {scope id : AnnotationId} {edit : Edit}
    (h : d.apply scope id edit = .ok d') (hnew : d.FreshUntil d'.ids.used) : d.FreshFor edit := by
  cases edit with
  | wrap kind =>
    cases hwrap : d.wrap scope id kind with
    | error err => simp [apply, hwrap] at h
    | ok result =>
      obtain ⟨wrapper, after⟩ := result
      obtain rfl : after = d' := by simpa [apply, hwrap] using h
      obtain ⟨parent, -, -, -, rfl⟩ := wrap_eq_ok hwrap
      exact hnew d.ids.used (Nat.le_refl _) (Nat.lt_succ_self _)
  | rename kind => trivial
  | setAttribute name value => trivial
  | removeAttribute name => trivial
  | setValue value => trivial
  | delete => trivial

/-- One edit keeps the links and the arrangement. -/
theorem sameArrangement_after {d : Document} (hd : d.table.Linked d.root) {c : EditCall}
    (hnew : d.FreshUntil (d.after c).ids.used) :
    (d.after c).table.Linked (d.after c).root ∧ SameArrangement d (d.after c) := by
  obtain ⟨scope, id, edit⟩ := c
  cases h : d.apply scope id edit with
  | error err =>
    rw [after_of_error h]
    exact ⟨hd, rfl, fun _ _ _ _ => rfl⟩
  | ok d' =>
    rw [after_of_ok h] at hnew ⊢
    have hfresh := freshFor_of_apply h hnew
    have hedited := apply_edited h
    refine ⟨hedited.linked hfresh hd, ?_⟩
    cases hedited with
    | content _ _ hf => exact sameArrangement_update hd hf
    | deletion _ hroot hget hpar => exact sameArrangement_deleted hd hroot hget hpar
    | wrapping _ hroot hget hpar =>
      exact sameArrangement_wrapped hd hroot hget hpar (Keyed.has_eq_false_iff.mp hfresh)

/-! ## Sequences of edits -/

/-- Something holds of one of the calls, with the document as it is when the call comes. -/
def SomeCall (holds : Document → EditCall → Prop) : Document → List EditCall → Prop
  | _, [] => False
  | d, c :: rest => holds d c ∨ SomeCall holds (d.after c) rest

theorem ids_afterAll (d : Document) (calls : List EditCall) :
    (d.afterAll calls).ids.sequence = d.ids.sequence ∧
      d.ids.used ≤ (d.afterAll calls).ids.used := by
  induction calls generalizing d with
  | nil => exact ⟨rfl, Nat.le_refl _⟩
  | cons c rest ih =>
    obtain ⟨hsequence, hused⟩ := ids_after d c
    obtain ⟨hsequence', hused'⟩ := ih (d.after c)
    exact ⟨hsequence'.trans hsequence, Nat.le_trans hused hused'⟩

/-- What one of the calls adds has an id that was drawn on the way. -/
theorem drawn_of_adds {d : Document} {calls : List EditCall} {id : AnnotationId}
    (h : SomeCall (fun d c => d.Adds c id) d calls) :
    ∃ n, d.ids.used ≤ n ∧ n < (d.afterAll calls).ids.used ∧ id = d.ids.sequence n := by
  induction calls generalizing d with
  | nil => cases h
  | cons c rest ih =>
    obtain ⟨hsequence, hused⟩ := ids_after d c
    have hused' : (d.after c).ids.used ≤ ((d.after c).afterAll rest).ids.used :=
      (ids_afterAll (d.after c) rest).2
    rcases h with hfirst | hrest
    · obtain ⟨heq, hnext⟩ := hfirst.drawn
      exact ⟨d.ids.used, Nat.le_refl _, Nat.lt_of_lt_of_le (by omega) hused', heq⟩
    · obtain ⟨n, hn, hlt, heq⟩ := ih hrest
      exact ⟨n, Nat.le_trans hused hn, hlt, hsequence ▸ heq⟩

/-- What is there after a sequence of edits was there before or was added on the way, and was
not removed on the way. -/
theorem present_afterAll_iff {d : Document} {calls : List EditCall}
    (hnew : d.NewUntil (d.afterAll calls).ids.used) (id : AnnotationId) :
    Keyed.has (d.afterAll calls).table id = true ↔
      (Keyed.has d.table id = true ∨ SomeCall (fun d c => d.Adds c id) d calls) ∧
        ¬ SomeCall (fun d c => d.Removes c id) d calls := by
  induction calls generalizing d with
  | nil => simp [afterAll, SomeCall]
  | cons c rest ih =>
    have hrest := ih (hnew.after c)
    have hall : d.afterAll (c :: rest) = (d.after c).afterAll rest := rfl
    -- What is added later was not there to be removed.
    have hlater : SomeCall (fun d c => d.Adds c id) (d.after c) rest → ¬ d.Removes c id := by
      rintro hadds ⟨-, rfl, d', hdelete⟩
      obtain ⟨n, hn, hlt, heq⟩ := drawn_of_adds hadds
      obtain ⟨hsequence, hused⟩ := ids_after d c
      obtain ⟨e, parent, -, hget, -⟩ := delete_eq_ok hdelete
      have habsent := hnew.absent n (Nat.le_trans hused hn) hlt
      rw [← hsequence, ← heq, Keyed.has, hget] at habsent
      cases habsent
    rw [hall, hrest, present_after_iff, SomeCall, SomeCall]
    tauto

/-- What is in a document and in a later one is in those between. -/
theorem present_between {d : Document} {c : EditCall} {rest : List EditCall}
    (hnew : d.NewUntil (d.afterAll (c :: rest)).ids.used) {id : AnnotationId}
    (hfirst : Keyed.has d.table id = true)
    (hlast : Keyed.has (d.afterAll (c :: rest)).table id = true) :
    Keyed.has (d.after c).table id = true := by
  obtain ⟨hsequence, hused⟩ := ids_after d c
  rcases ((present_afterAll_iff (hnew.after c) id).mp hlast).1 with hbetween | hadds
  · exact hbetween
  · obtain ⟨n, hn, hlt, heq⟩ := drawn_of_adds hadds
    have habsent := hnew.absent n (Nat.le_trans hused hn) hlt
    rw [← hsequence, ← heq, hfirst] at habsent
    cases habsent

theorem SameArrangement.trans {d m d' : Document} (h : SameArrangement d m)
    (h' : SameArrangement m d') (hbetween : ∀ id ∈ d.order, id ∈ d'.order → id ∈ m.order) :
    SameArrangement d d' := by
  constructor
  · calc d.order.filter (· ∈ d'.order)
        = (d.order.filter (· ∈ m.order)).filter (· ∈ d'.order) := by
          rw [List.filter_filter]
          apply List.filter_congr
          intro id hid
          by_cases hlast : id ∈ d'.order
          · simp [hlast, hbetween id hid hlast]
          · simp [hlast]
      _ = (m.order.filter (· ∈ d.order)).filter (· ∈ d'.order) := by rw [h.order]
      _ = (m.order.filter (· ∈ d'.order)).filter (· ∈ d.order) := by rw [List.filter_comm]
      _ = (d'.order.filter (· ∈ m.order)).filter (· ∈ d.order) := by rw [h'.order]
      _ = d'.order.filter (· ∈ d.order) := by
          rw [List.filter_filter]
          apply List.filter_congr
          intro id hlast
          by_cases hid : id ∈ d.order
          · simp [hid, hbetween id hid hlast]
          · simp [hid]
  · intro a b ha ha' hb hb'
    have ham := hbetween a ha ha'
    have hbm := hbetween b hb hb'
    rw [h'.nesting ham ha' hbm hb', h.nesting ha ham hb hbm]

/-- Any sequence of edits keeps the links and the arrangement. -/
theorem sameArrangement_afterAll {d : Document} (hd : d.table.Linked d.root)
    {calls : List EditCall} (hnew : d.NewUntil (d.afterAll calls).ids.used) :
    (d.afterAll calls).table.Linked (d.afterAll calls).root ∧
      SameArrangement d (d.afterAll calls) := by
  induction calls generalizing d with
  | nil => exact ⟨hd, rfl, fun _ _ _ _ => rfl⟩
  | cons c rest ih =>
    have hused : (d.after c).ids.used ≤ (d.afterAll (c :: rest)).ids.used :=
      (ids_afterAll (d.after c) rest).2
    obtain ⟨hlinked, hfirst⟩ := sameArrangement_after hd (hnew.absent.mono hused)
    obtain ⟨hlinked', hrest⟩ := ih hlinked (hnew.after c)
    refine ⟨hlinked', hfirst.trans hrest ?_⟩
    intro id hid hid'
    rw [mem_order_iff hlinked]
    exact present_between hnew ((mem_order_iff hd).mp hid) ((mem_order_iff hlinked').mp hid')

theorem smallDocument_newUntil : smallDocument.NewUntil 2 := by
  constructor
  · intro n _ hn
    obtain rfl | rfl : n = 0 ∨ n = 1 := by omega
    · decide
    · decide
  · intro m n _ hmn hn
    obtain ⟨rfl, rfl⟩ : m = 0 ∧ n = 1 := by omega
    decide

end Document

end MarkupScript
