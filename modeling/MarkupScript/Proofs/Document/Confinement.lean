import MarkupScript.Proofs.Document.Scope

/-!
# Edits through a scope stay in it

Edits that are made through a scope, or through scopes narrowed from it, change nothing of the
annotations outside, but that what stands in the place of the scope among the children of its
parent changes. A scope can go on being used when its annotation has been deleted or wrapped.

* `Document.Confined` is the invariant: outside the scope only the one list of children has
  changed (`Kept`), and inside all links stay inside but the one to the parent of the scope
  (`Fits`).
* `Confined.not_outside`: what a scope inside reaches is inside.
* `Confined.edited`: one edit through a scope inside keeps the invariant.
-/

namespace MarkupScript

open Relation

namespace Document

/-- An annotation that is in the document and not in the scope. -/
def Outside (d : Document) (scope id : AnnotationId) : Prop :=
  Keyed.has d.table id = true ∧ d.contains scope id = false

/-- An annotation that was in the scope, or whose id was drawn later and before `used` ids
were. -/
def Inside (d : Document) (scope : AnnotationId) (used : Nat) (id : AnnotationId) : Prop :=
  (Keyed.has d.table id = true ∧ d.contains scope id = true) ∨
    ∃ n, d.ids.used ≤ n ∧ n < used ∧ id = d.ids.sequence n

/-- The ids that are drawn until `used` were are not in the document. -/
def FreshUntil (d : Document) (used : Nat) : Prop :=
  ∀ n, d.ids.used ≤ n → n < used → Keyed.has d.table (d.ids.sequence n) = false

/-- What an entry outside the scope keeps. Only the parent of the scope may have other
children: others in the place of the scope. -/
structure Kept (d : Document) (scope : AnnotationId) (used : Nat) (id : AnnotationId)
    (e e' : Entry) : Prop where
  kind : e'.kind = e.kind
  attributes : e'.attributes = e.attributes
  value : e'.value = e.value
  parent : e'.parent = e.parent
  children : ¬ d.table.HasParent scope id → e'.children = e.children
  place : d.table.HasParent scope id → ∃ before new after, e.children = before ++ scope :: after ∧
    e'.children = before ++ new ++ after ∧ ∀ x ∈ new, d.Inside scope used x

/-- What holds of an entry inside: its children are inside, and so is its parent, but that of
the scope. -/
structure Fits (d : Document) (scope : AnnotationId) (used : Nat) (id : AnnotationId)
    (e : Entry) : Prop where
  inside : d.Inside scope used id
  children : ∀ c ∈ e.children, d.Inside scope used c
  parent : ∀ p, e.parent = some p → d.Outside scope p → d.table.HasParent scope p

/-- The document `d₀` has become `d` through edits in the scope. -/
structure Confined (d₀ : Document) (scope : AnnotationId) (d : Document) : Prop where
  sequence_eq : d.ids.sequence = d₀.ids.sequence
  used_le : d₀.ids.used ≤ d.ids.used
  outside : ∀ {u e}, Keyed.get? d₀.table u = some e → d₀.Outside scope u →
    ∃ e', Keyed.get? d.table u = some e' ∧ d₀.Kept scope d.ids.used u e e'
  inside : ∀ {x e}, Keyed.get? d.table x = some e → ¬ d₀.Outside scope x →
    d₀.Fits scope d.ids.used x e

variable {d₀ d : Document} {r : AnnotationId}

theorem Inside.mono {used used' : Nat} {x : AnnotationId} (h : d₀.Inside r used x)
    (hle : used ≤ used') : d₀.Inside r used' x := by
  rcases h with hold | ⟨n, hn, hlt, rfl⟩
  · exact Or.inl hold
  · exact Or.inr ⟨n, hn, by omega, rfl⟩

theorem Inside.not_outside {used : Nat} {x : AnnotationId} (h : d₀.Inside r used x)
    (hfresh : d₀.FreshUntil used) : ¬ d₀.Outside r x := by
  rintro ⟨hhas, hout⟩
  rcases h with ⟨-, hin⟩ | ⟨n, hn, hlt, rfl⟩
  · rw [hin] at hout
    cases hout
  · rw [hfresh n hn hlt] at hhas
    cases hhas

theorem FreshUntil.mono {used used' : Nat} (h : d₀.FreshUntil used') (hle : used ≤ used') :
    d₀.FreshUntil used :=
  fun n hn hlt => h n hn (by omega)

/-! ## Outside a scope -/

/-- The parent of an annotation outside is outside. -/
theorem outside_parent (h : d₀.table.Linked d₀.root) {u p : AnnotationId} (hu : d₀.Outside r u)
    (hp : d₀.table.HasParent u p) : d₀.Outside r p := by
  refine ⟨h.has_parent hp, ?_⟩
  cases hin : d₀.contains r p with
  | false => rfl
  | true =>
    have hreach : d₀.contains r u = true :=
      (contains_iff h).mpr (ReflTransGen.head hp ((contains_iff h).mp hin))
    rw [hu.2] at hreach
    cases hreach

/-- The siblings of a scope are outside: from one that were below the scope, the way up to
their parent and on would be a cycle. -/
theorem outside_sibling (h : d₀.table.Linked d₀.root) {p s : AnnotationId}
    (hr : d₀.table.HasParent r p) (hs : d₀.table.HasParent s p) (hne : s ≠ r) :
    d₀.Outside r s := by
  refine ⟨hs.has, ?_⟩
  cases hin : d₀.contains r s with
  | false => rfl
  | true =>
    rcases ReflTransGen.cases_head ((contains_iff h).mp hin) with heq | ⟨q, hq, hback⟩
    · exact absurd heq hne
    · obtain rfl := hq.unique hs
      exact absurd (TransGen.head' hr hback) (h.acyclic r)

theorem outside_of_mem_children (h : d₀.table.Linked d₀.root) {p s : AnnotationId} {e : Entry}
    {before after : List AnnotationId} (he : Keyed.get? d₀.table p = some e)
    (hsplit : e.children = before ++ r :: after) (hs : s ∈ before ++ after) :
    d₀.Outside r s := by
  have hnodup := h.children_nodup he
  rw [hsplit, List.nodup_middle, List.nodup_cons] at hnodup
  have hmem : s ∈ e.children := by
    rw [hsplit]
    simp only [List.mem_append, List.mem_cons] at hs ⊢
    rcases hs with hs | hs
    · exact Or.inl hs
    · exact Or.inr (Or.inr hs)
  have hr : r ∈ e.children := by simp [hsplit]
  refine outside_sibling h ((h.mem_children_iff he).mp hr) ((h.mem_children_iff he).mp hmem) ?_
  rintro rfl
  exact hnodup.1 hs

/-! ## Entries outside -/

theorem kept_refl (h : d₀.table.Linked d₀.root) {u : AnnotationId} {e : Entry}
    (he : Keyed.get? d₀.table u = some e) (used : Nat) : d₀.Kept r used u e e where
  kind := rfl
  attributes := rfl
  value := rfl
  parent := rfl
  children := fun _ => rfl
  place := by
    intro hr
    have hmem : r ∈ e.children := (h.mem_children_iff he).mpr hr
    obtain ⟨before, after, hsplit, -⟩ := List.eq_append_cons_of_mem hmem
    refine ⟨before, [r], after, hsplit, by simp [hsplit], ?_⟩
    intro x hx
    rw [List.mem_singleton.mp hx]
    exact Or.inl ⟨hr.has, (contains_iff h).mpr .refl⟩

theorem Kept.mono {used used' : Nat} {u : AnnotationId} {e e' : Entry}
    (h : d₀.Kept r used u e e') (hle : used ≤ used') : d₀.Kept r used' u e e' where
  kind := h.kind
  attributes := h.attributes
  value := h.value
  parent := h.parent
  children := h.children
  place := by
    intro hr
    obtain ⟨before, new, after, hsplit, hchildren, hnew⟩ := h.place hr
    exact ⟨before, new, after, hsplit, hchildren, fun x hx => (hnew x hx).mono hle⟩

/-- An entry outside is kept when an annotation inside gives way to others inside. Its
siblings outside stay, since none of them is the one that gives way. -/
theorem Kept.splice (hd : d₀.table.Linked d₀.root) {used : Nat} {u id p : AnnotationId}
    {e e' : Entry} (h : d₀.Kept r used u e e') (he : Keyed.get? d₀.table u = some e)
    (hid : ¬ d₀.Outside r id) (hp : u = p → d₀.table.HasParent r u) {new : List AnnotationId}
    (hnew : ∀ x ∈ new, d₀.Inside r used x) :
    d₀.Kept r used u e
      { e' with children := if u = p then Table.splice id new e'.children else e'.children } := by
  refine ⟨h.kind, h.attributes, h.value, h.parent, ?_, ?_⟩
  · intro hr
    have hne : u ≠ p := fun heq => hr (hp heq)
    simp only [if_neg hne]
    exact h.children hr
  · intro hr
    obtain ⟨before, middle, after, hsplit, hchildren, hmiddle⟩ := h.place hr
    by_cases heq : u = p
    · have hout : ∀ s ∈ before ++ after, d₀.Outside r s :=
        fun s hs => outside_of_mem_children hd he hsplit hs
      have hbefore : id ∉ before := fun hm => hid (hout id (List.mem_append_left _ hm))
      have hafter : id ∉ after := fun hm => hid (hout id (List.mem_append_right _ hm))
      refine ⟨before, Table.splice id new middle, after, hsplit, ?_, ?_⟩
      · simp only [if_pos heq]
        rw [hchildren, Table.splice_middle hbefore hafter]
      · intro x hx
        rcases Table.mem_of_mem_splice hx with hx | hx
        · exact hnew x hx
        · exact hmiddle x hx
    · simp only [if_neg heq]
      exact ⟨before, middle, after, hsplit, hchildren, hmiddle⟩

/-! ## The invariant -/

theorem Fits.mono {used used' : Nat} {x : AnnotationId} {e : Entry} (h : d₀.Fits r used x e)
    (hle : used ≤ used') : d₀.Fits r used' x e where
  inside := h.inside.mono hle
  children := fun c hc => (h.children c hc).mono hle
  parent := h.parent

/-- In a tree all that is in the scope fits. -/
theorem fits_of_contains (h : d₀.table.Linked d₀.root) {x : AnnotationId} {e : Entry}
    (he : Keyed.get? d₀.table x = some e) (hin : d₀.contains r x = true) (used : Nat) :
    d₀.Fits r used x e := by
  have hpath := (contains_iff h).mp hin
  refine ⟨Or.inl ⟨Keyed.has_iff.mpr ⟨e, he⟩, hin⟩, ?_, ?_⟩
  · intro c hc
    have hpar : d₀.table.HasParent c x := (h.mem_children_iff he).mp hc
    exact Or.inl ⟨hpar.has, (contains_iff h).mpr (ReflTransGen.head hpar hpath)⟩
  · intro p hp hout
    have hpar : d₀.table.HasParent x p := ⟨e, he, hp⟩
    rcases ReflTransGen.cases_head hpath with rfl | ⟨q, hq, hback⟩
    · exact hpar
    · obtain rfl := hq.unique hpar
      have hnot := hout.2
      rw [(contains_iff h).mpr hback] at hnot
      cases hnot

theorem confined_refl (h : d₀.table.Linked d₀.root) (r : AnnotationId) : d₀.Confined r d₀ := by
  refine ⟨rfl, Nat.le_refl _, ?_, ?_⟩
  · intro u e he _
    exact ⟨e, he, kept_refl h he _⟩
  · intro x e he hout
    refine fits_of_contains h he ?_ _
    cases hx : d₀.contains r x with
    | true => rfl
    | false => exact absurd ⟨Keyed.has_iff.mpr ⟨e, he⟩, hx⟩ hout

namespace Confined

/-- From outside, following the parents never leads to a scope inside, so all that such a
scope contains is inside. -/
theorem not_outside (h : d₀.Confined r d) (hd : d₀.table.Linked d₀.root)
    {scope id : AnnotationId} (hscope : ¬ d₀.Outside r scope)
    (hin : d.contains scope id = true) : ¬ d₀.Outside r id := by
  have hpath := reaches_of_contains hin
  clear hin
  induction hpath using ReflTransGen.head_induction_on with
  | refl => exact hscope
  | @head id p hpar _ ih =>
    intro hid
    obtain ⟨e, he⟩ := Keyed.has_iff.mp hid.1
    obtain ⟨e', he', hkept⟩ := h.outside he hid
    obtain ⟨e'', he'', hp⟩ := hpar
    obtain rfl : e' = e'' := Option.some.inj (he'.symm.trans he'')
    have hold : d₀.table.HasParent id p := ⟨e, he, by rw [← hkept.parent]; exact hp⟩
    exact ih (outside_parent hd hid hold)

theorem update (h : d₀.Confined r d) {id : AnnotationId} (hid : ¬ d₀.Outside r id)
    {f : Entry → Entry} (hf : ∀ e, (f e).parent = e.parent ∧ (f e).children = e.children) :
    d₀.Confined r { d with table := d.table.update id f } := by
  refine ⟨h.sequence_eq, h.used_le, ?_, ?_⟩
  · intro u e he hu
    obtain ⟨e', he', hkept⟩ := h.outside he hu
    have hne : u ≠ id := fun heq => hid (heq ▸ hu)
    refine ⟨e', ?_, hkept⟩
    rw [Table.get?_update, he', Option.map_some, if_neg hne]
  · intro x e he hout
    rw [Table.get?_update] at he
    obtain ⟨old, hold, rfl⟩ := Option.map_eq_some_iff.mp he
    obtain ⟨hinside, hchildren, hparent⟩ := h.inside hold hout
    split
    · refine ⟨hinside, ?_, ?_⟩
      · rw [(hf old).2]
        exact hchildren
      · rw [(hf old).1]
        exact hparent
    · exact ⟨hinside, hchildren, hparent⟩

/-- Deleting an annotation inside: its children are inside, and they go to its parent. -/
theorem deleted (h : d₀.Confined r d) (hd : d₀.table.Linked d₀.root)
    (hfresh : d₀.FreshUntil d.ids.used) {id p : AnnotationId} {entry : Entry}
    (hid : ¬ d₀.Outside r id) (hget : Keyed.get? d.table id = some entry)
    (hpar : entry.parent = some p) :
    d₀.Confined r { d with table := d.table.deleted id p entry.children } := by
  obtain ⟨-, hmoved, hparent⟩ := h.inside hget hid
  have hp : d₀.Outside r p → d₀.table.HasParent r p := hparent p hpar
  refine ⟨h.sequence_eq, h.used_le, ?_, ?_⟩
  · -- Outside, nobody is moved, and only the parent of the scope can get the children.
    intro u e he hu
    obtain ⟨e', he', hkept⟩ := h.outside he hu
    have hne : u ≠ id := fun heq => hid (heq ▸ hu)
    have hstay : u ∉ entry.children := fun hc => (hmoved u hc).not_outside hfresh hu
    refine ⟨Table.deletedEntry id p entry.children u e', ?_, ?_⟩
    · rw [Table.get?_deleted, if_neg hne, he', Option.map_some]
    · unfold Table.deletedEntry
      rw [if_neg hstay]
      exact hkept.splice hd he hid (fun heq => heq ▸ hp (heq ▸ hu)) hmoved
  · -- Inside, the only new links are those between the children and the parent.
    intro x e he hout
    rw [Table.get?_deleted] at he
    split at he
    · cases he
    · obtain ⟨old, hold, rfl⟩ := Option.map_eq_some_iff.mp he
      have hfits := h.inside hold hout
      refine ⟨hfits.inside, fun c hc => ?_, fun q hq hq' => ?_⟩
      · rcases Table.mem_children_deletedEntry hc with hc | hc
        · exact hmoved c hc
        · exact hfits.children c hc
      · rcases Table.parent_deletedEntry hq with rfl | hq
        · exact hp hq'
        · exact hfits.parent q hq hq'

/-- Wrapping an annotation inside: the wrapper is new, and takes its place. -/
theorem wrapped (h : d₀.Confined r d) (hd : d₀.table.Linked d₀.root)
    (hfresh : d₀.FreshUntil (d.ids.used + 1)) {id p : AnnotationId} {entry : Entry} {kind : String}
    (hid : ¬ d₀.Outside r id) (hget : Keyed.get? d.table id = some entry)
    (hpar : entry.parent = some p) :
    d₀.Confined r
      { d with table := d.table.wrapped id p d.ids.take.1 kind, ids := d.ids.take.2 } := by
  have hgrow : d.ids.used ≤ d.ids.used + 1 := by omega
  have hnew : d₀.Inside r (d.ids.used + 1) d.ids.take.1 :=
    Or.inr ⟨d.ids.used, h.used_le, by omega, by rw [← h.sequence_eq]; rfl⟩
  have hnewOut := hnew.not_outside hfresh
  obtain ⟨hinside, -, hparent⟩ := h.inside hget hid
  have hp : d₀.Outside r p → d₀.table.HasParent r p := hparent p hpar
  refine ⟨h.sequence_eq, Nat.le_trans h.used_le hgrow, ?_, ?_⟩
  · -- Outside, the wrapper overwrites no entry, since its id is fresh.
    intro u e he hu
    obtain ⟨e', he', hkept⟩ := h.outside he hu
    have hne : u ≠ id := fun heq => hid (heq ▸ hu)
    have hneNew : u ≠ d.ids.take.1 := fun heq => hnewOut (heq ▸ hu)
    refine ⟨Table.wrappedEntry id p d.ids.take.1 u e', ?_, ?_⟩
    · rw [Table.get?_wrapped, if_neg hneNew, he', Option.map_some]
    · unfold Table.wrappedEntry
      rw [if_neg hne]
      refine (hkept.mono hgrow).splice hd he hid (fun heq => heq ▸ hp (heq ▸ hu)) ?_
      intro x hx
      rw [List.mem_singleton.mp hx]
      exact hnew
  · intro x e he hout
    rw [Table.get?_wrapped] at he
    split at he
    · next heq =>
      -- The wrapper itself.
      obtain rfl := Option.some.inj he
      refine ⟨heq ▸ hnew, fun c hc => ?_, fun q hq => ?_⟩
      · rw [List.mem_singleton.mp hc]
        exact hinside.mono hgrow
      · obtain rfl := Option.some.inj hq
        exact hp
    · obtain ⟨old, hold, rfl⟩ := Option.map_eq_some_iff.mp he
      have hfits := (h.inside hold hout).mono hgrow
      refine ⟨hfits.inside, fun c hc => ?_, fun q hq hq' => ?_⟩
      · rcases Table.mem_children_wrappedEntry hc with rfl | hc
        · exact hnew
        · exact hfits.children c hc
      · rcases Table.parent_wrappedEntry hq with rfl | hq
        · exact absurd hq' hnewOut
        · exact hfits.parent q hq hq'

/-- Ids may be drawn without an edit. -/
theorem drawn (h : d₀.Confined r d) {d' : Document} (htable : d'.table = d.table)
    (hsequence : d'.ids.sequence = d.ids.sequence) (hused : d.ids.used ≤ d'.ids.used) :
    d₀.Confined r d' := by
  refine ⟨hsequence.trans h.sequence_eq, Nat.le_trans h.used_le hused, ?_, ?_⟩
  · intro u e he hu
    obtain ⟨e', he', hkept⟩ := h.outside he hu
    exact ⟨e', by rw [htable]; exact he', hkept.mono hused⟩
  · intro x e he hout
    rw [htable] at he
    exact (h.inside he hout).mono hused

/-- One edit through a scope inside keeps the invariant. -/
theorem edited (h : d₀.Confined r d) (hd : d₀.table.Linked d₀.root) {scope id : AnnotationId}
    (hscope : ¬ d₀.Outside r scope) {edit : Edit} {d' : Document}
    (hedit : Edited d scope id edit d') (hfresh : d₀.FreshUntil d'.ids.used) :
    d₀.Confined r d' := by
  cases hedit with
  | content hin hget hf => exact h.update (h.not_outside hd hscope hin) hf
  | deletion hin hroot hget hpar =>
    exact h.deleted hd hfresh (h.not_outside hd hscope hin) hget hpar
  | wrapping hin hroot hget hpar =>
    exact h.wrapped hd hfresh (h.not_outside hd hscope hin) hget hpar

end Confined

end Document

end MarkupScript
