import MarkupScript.Proofs.Document.Lookup
import Mathlib.Logic.Relation

/-!
# The links of a table

The tree of a document is kept twice: every entry names its parent, and every entry
lists its children.

* `Table.Linked` is the invariant: the two ways of keeping the tree say the same, no
  child is listed twice, and whoever follows the parents comes to the root.
* `Linked.acyclic`: no annotation is above itself.
* `reaches_deleted_iff`, `reaches_wrapped_iff`: who is above whom after a deletion or a
  wrapping.
* `Linked.update`, `Linked.deleted`, `Linked.wrapped`: each kind of edit keeps the
  invariant.
-/

namespace MarkupScript

open Relation

namespace Table

/-- The entry of `id` names `parent` as its parent. -/
def HasParent (t : Table) (id parent : AnnotationId) : Prop :=
  ∃ e, Keyed.get? t id = some e ∧ e.parent = some parent

/-- The entry of `id` lists `child` among its children. -/
def HasChild (t : Table) (id child : AnnotationId) : Prop :=
  ∃ e, Keyed.get? t id = some e ∧ child ∈ e.children

theorem HasParent.has {t : Table} {id parent : AnnotationId} (h : t.HasParent id parent) :
    Keyed.has t id = true := by
  obtain ⟨e, he, -⟩ := h
  exact Keyed.has_iff.mpr ⟨e, he⟩

theorem HasChild.has {t : Table} {id child : AnnotationId} (h : t.HasChild id child) :
    Keyed.has t id = true := by
  obtain ⟨e, he, -⟩ := h
  exact Keyed.has_iff.mpr ⟨e, he⟩

/-- An entry names one parent at most. -/
theorem HasParent.unique {t : Table} {id p q : AnnotationId} (hp : t.HasParent id p)
    (hq : t.HasParent id q) : p = q := by
  obtain ⟨e, he, hep⟩ := hp
  obtain ⟨e', he', heq⟩ := hq
  obtain rfl : e = e' := Option.some.inj (he.symm.trans he')
  exact Option.some.inj (hep.symm.trans heq)

/-- The links of a table make it a tree below `root`. -/
structure Linked (t : Table) (root : AnnotationId) : Prop where
  keys_nodup : (Keyed.keys t).Nodup
  root_entry : ∃ e, Keyed.get? t root = some e ∧ e.parent = none
  /-- Both ways of keeping the tree say the same. -/
  link : ∀ {p c}, t.HasChild p c ↔ t.HasParent c p
  children_nodup : ∀ {id e}, Keyed.get? t id = some e → e.children.Nodup
  /-- Whoever follows the parents comes to the root. -/
  climbs : ∀ {id}, Keyed.has t id = true → ReflTransGen t.HasParent id root

namespace Linked

variable {t : Table} {root : AnnotationId}

theorem root_no_parent (h : t.Linked root) (p : AnnotationId) : ¬ t.HasParent root p := by
  rintro ⟨e, he, hp⟩
  obtain ⟨e', he', hnone⟩ := h.root_entry
  obtain rfl : e = e' := Option.some.inj (he.symm.trans he')
  simp [hnone] at hp

theorem has_parent (h : t.Linked root) {id p : AnnotationId} (hp : t.HasParent id p) :
    Keyed.has t p = true :=
  (h.link.mpr hp).has

/-- An annotation that is not there is nobody's parent. -/
theorem no_child_of_absent (h : t.Linked root) {p : AnnotationId} (hp : Keyed.get? t p = none)
    (c : AnnotationId) : ¬ t.HasParent c p := by
  intro hc
  have hhas := h.has_parent hc
  rw [Keyed.has, hp] at hhas
  cases hhas

/-- No annotation is above itself: from one that were, the root is never reached. -/
theorem acyclic (h : t.Linked root) (id : AnnotationId) : ¬ TransGen t.HasParent id id := by
  intro hcyc
  have hhas : Keyed.has t id = true := by
    obtain ⟨p, hp, -⟩ := TransGen.head'_iff.mp hcyc
    exact hp.has
  have hclimb : ReflTransGen t.HasParent id root := h.climbs hhas
  clear hhas
  induction hclimb using ReflTransGen.head_induction_on with
  | refl =>
    obtain ⟨p, hp, -⟩ := TransGen.head'_iff.mp hcyc
    exact h.root_no_parent p hp
  | head hstep _ ih =>
    obtain ⟨p, hp, hback⟩ := TransGen.head'_iff.mp hcyc
    obtain rfl := hp.unique hstep
    exact ih (TransGen.tail' hback hstep)

theorem parent_ne (h : t.Linked root) {id p : AnnotationId} (hp : t.HasParent id p) :
    p ≠ id := by
  rintro rfl
  exact h.acyclic p (TransGen.single hp)

theorem mem_children_iff (h : t.Linked root) {id c : AnnotationId} {e : Entry}
    (he : Keyed.get? t id = some e) : c ∈ e.children ↔ t.HasParent c id := by
  rw [← h.link]
  constructor
  · intro hc
    exact ⟨e, he, hc⟩
  · rintro ⟨e', he', hc⟩
    obtain rfl : e = e' := Option.some.inj (he.symm.trans he')
    exact hc

/-! ## Changes inside an entry -/

theorem hasParent_update {f : Entry → Entry} {x : AnnotationId}
    (hf : ∀ e, (f e).parent = e.parent ∧ (f e).children = e.children) (id p : AnnotationId) :
    (t.update x f).HasParent id p ↔ t.HasParent id p := by
  unfold HasParent
  rw [get?_update]
  cases hget : Keyed.get? t id with
  | none => simp
  | some e => by_cases hx : id = x <;> simp [hx, (hf e).1]

theorem hasChild_update {f : Entry → Entry} {x : AnnotationId}
    (hf : ∀ e, (f e).parent = e.parent ∧ (f e).children = e.children) (id c : AnnotationId) :
    (t.update x f).HasChild id c ↔ t.HasChild id c := by
  unfold HasChild
  rw [get?_update]
  cases hget : Keyed.get? t id with
  | none => simp
  | some e => by_cases hx : id = x <;> simp [hx, (hf e).2]

/-- A change of what is no link keeps the links. -/
theorem update (h : t.Linked root) {f : Entry → Entry} {x : AnnotationId}
    (hf : ∀ e, (f e).parent = e.parent ∧ (f e).children = e.children) :
    (t.update x f).Linked root where
  keys_nodup := by
    rw [keys_update]
    exact h.keys_nodup
  root_entry := by
    obtain ⟨e, he, hnone⟩ := h.root_entry
    refine ⟨_, by rw [get?_update, he]; rfl, ?_⟩
    by_cases hx : root = x
    · simp [hx, (hf e).1, hnone]
    · simp [hx, hnone]
  link := by
    intro p c
    rw [hasChild_update hf, hasParent_update hf]
    exact h.link
  children_nodup := by
    intro id e' he'
    rw [get?_update] at he'
    obtain ⟨e, he, rfl⟩ := Option.map_eq_some_iff.mp he'
    by_cases hx : id = x
    · rw [if_pos hx, (hf e).2]
      exact h.children_nodup he
    · rw [if_neg hx]
      exact h.children_nodup he
  climbs := by
    intro id hid
    have hold : Keyed.has t id = true := by
      rw [Keyed.has, get?_update, Option.isSome_map] at hid
      exact hid
    exact ReflTransGen.mono (fun a b hab => (hasParent_update hf a b).mpr hab) _ _
      (h.climbs hold)

/-! ## Deletion -/

section Deletion

variable {x p : AnnotationId} {e : Entry}

/-- After a deletion, those below the deleted annotation are below its parent. -/
theorem hasParent_deleted (h : t.Linked root) (he : Keyed.get? t x = some e) {c q : AnnotationId} :
    (t.deleted x p e.children).HasParent c q ↔
      c ≠ x ∧ ((t.HasParent c x ∧ q = p) ∨ (t.HasParent c q ∧ q ≠ x)) := by
  unfold HasParent
  rw [get?_deleted]
  by_cases hcx : c = x
  · simp [hcx]
  rw [if_neg hcx]
  cases hc : Keyed.get? t c with
  | none => simp
  | some ce =>
    have hmem : c ∈ e.children ↔ ce.parent = some x := by
      rw [h.mem_children_iff he, HasParent, hc]
      simp
    by_cases hin : c ∈ e.children
    · have hpx := hmem.mp hin
      simp only [Option.map_some, Option.some.injEq, exists_eq_left', deletedEntry, if_pos hin, hpx]
      grind
    · have hpx : ce.parent ≠ some x := fun hh => hin (hmem.mpr hh)
      simp only [Option.map_some, Option.some.injEq, exists_eq_left', deletedEntry, if_neg hin]
      grind

theorem hasChild_deleted (h : t.Linked root) (he : Keyed.get? t x = some e)
    (hp : e.parent = some p) {q c : AnnotationId} :
    (t.deleted x p e.children).HasChild q c ↔
      q ≠ x ∧ ((q = p ∧ t.HasParent c x) ∨ (t.HasParent c q ∧ c ≠ x)) := by
  have hxp : t.HasParent x p := ⟨e, he, hp⟩
  unfold HasChild
  rw [get?_deleted]
  by_cases hqx : q = x
  · simp [hqx]
  rw [if_neg hqx]
  cases hq : Keyed.get? t q with
  | none =>
    have hno := h.no_child_of_absent hq
    have hqp : q ≠ p := fun hh => hno x (hh ▸ hxp)
    simp [hno c, hqp]
  | some qe =>
    have hmem : c ∈ qe.children ↔ t.HasParent c q := h.mem_children_iff hq
    simp only [Option.map_some, Option.some.injEq, exists_eq_left', deletedEntry]
    by_cases hqp : q = p
    · subst hqp
      have hxin : x ∈ qe.children := (h.mem_children_iff hq).mpr hxp
      rw [if_pos rfl, mem_splice (h.children_nodup hq) hxin, hmem, h.mem_children_iff he]
      simp [hqx]
    · have hcx : t.HasParent c q → c ≠ x := by
        rintro hc rfl
        exact hqp (hc.unique hxp)
      rw [if_neg hqp, hmem]
      simp only [hqp, false_and, false_or, ne_eq, hqx, not_false_eq_true, true_and]
      exact ⟨fun hc => ⟨hc, hcx hc⟩, fun hc => hc.1⟩

/-- Along the old way up to an annotation that stays, the deleted one is passed over. -/
theorem reaches_deleted (h : t.Linked root) (he : Keyed.get? t x = some e)
    (hp : e.parent = some p) {a b : AnnotationId} (hb : b ≠ x)
    (hpath : ReflTransGen t.HasParent a b) :
    (a ≠ x → ReflTransGen (t.deleted x p e.children).HasParent a b) ∧
    (a = x → ReflTransGen (t.deleted x p e.children).HasParent p b) := by
  induction hpath using ReflTransGen.head_induction_on with
  | refl => exact ⟨fun _ => .refl, fun hbx => absurd hbx hb⟩
  | @head a c hac _ ih =>
    constructor
    · intro hax
      by_cases hcx : c = x
      · have hstep : (t.deleted x p e.children).HasParent a p :=
          (hasParent_deleted h he).mpr ⟨hax, Or.inl ⟨hcx ▸ hac, rfl⟩⟩
        exact ReflTransGen.head hstep (ih.2 hcx)
      · have hstep : (t.deleted x p e.children).HasParent a c :=
          (hasParent_deleted h he).mpr ⟨hax, Or.inr ⟨hac, hcx⟩⟩
        exact ReflTransGen.head hstep (ih.1 hcx)
    · intro hax
      obtain rfl : c = p := hac.unique (hax ▸ ⟨e, he, hp⟩)
      exact ih.1 (h.parent_ne ⟨e, he, hp⟩)

/-- A deletion keeps what is above what, among those that stay. -/
theorem reaches_deleted_iff (h : t.Linked root) (he : Keyed.get? t x = some e)
    (hp : e.parent = some p) {a b : AnnotationId} (ha : a ≠ x) (hb : b ≠ x) :
    ReflTransGen (t.deleted x p e.children).HasParent a b ↔ ReflTransGen t.HasParent a b := by
  constructor
  · refine reflTransGen_closed ?_ a b
    intro c q hcq
    rcases ((hasParent_deleted h he).mp hcq).2 with ⟨hcx, rfl⟩ | ⟨hcq, -⟩
    · exact ReflTransGen.head hcx (.single ⟨e, he, hp⟩)
    · exact .single hcq
  · intro hpath
    exact (reaches_deleted h he hp hb hpath).1 ha

/-- A deletion keeps the links. -/
theorem deleted (h : t.Linked root) (he : Keyed.get? t x = some e) (hp : e.parent = some p)
    (hx : x ≠ root) : (t.deleted x p e.children).Linked root where
  keys_nodup := nodup_keys_deleted h.keys_nodup x p e.children
  root_entry := by
    obtain ⟨re, hre, hnone⟩ := h.root_entry
    have hnot : root ∉ e.children := by
      rw [h.mem_children_iff he]
      exact h.root_no_parent x
    refine ⟨_, by rw [get?_deleted, if_neg (Ne.symm hx), hre]; rfl, ?_⟩
    simp [deletedEntry, hnot, hnone]
  link := by
    intro q c
    rw [hasChild_deleted h he hp, hasParent_deleted h he]
    have hxp : t.HasParent x p := ⟨e, he, hp⟩
    have hpx : p ≠ x := h.parent_ne hxp
    constructor
    · rintro ⟨hqx, ⟨rfl, hc⟩ | ⟨hc, hcx⟩⟩
      · exact ⟨(h.parent_ne hc).symm, Or.inl ⟨hc, rfl⟩⟩
      · exact ⟨hcx, Or.inr ⟨hc, hqx⟩⟩
    · rintro ⟨hcx, ⟨hc, rfl⟩ | ⟨hc, hqx⟩⟩
      · exact ⟨hpx, Or.inl ⟨rfl, hc⟩⟩
      · exact ⟨hqx, Or.inr ⟨hc, hcx⟩⟩
  children_nodup := by
    intro q qe' hqe'
    rw [get?_deleted] at hqe'
    by_cases hqx : q = x
    · simp [hqx] at hqe'
    rw [if_neg hqx] at hqe'
    obtain ⟨qe, hqe, rfl⟩ := Option.map_eq_some_iff.mp hqe'
    simp only [deletedEntry]
    by_cases hqp : q = p
    · rw [if_pos hqp]
      -- The children of `x` were not children of its parent.
      refine nodup_splice (h.children_nodup hqe) (h.children_nodup he) ?_
      intro c hc hcq
      rw [h.mem_children_iff he] at hc
      rw [h.mem_children_iff hqe] at hcq
      exact hqx (hcq.unique hc)
    · rw [if_neg hqp]
      exact h.children_nodup hqe
  climbs := by
    intro a ha
    obtain ⟨ae', hae'⟩ := Keyed.has_iff.mp ha
    rw [get?_deleted] at hae'
    by_cases hax : a = x
    · simp [hax] at hae'
    rw [if_neg hax] at hae'
    obtain ⟨ae, hae, -⟩ := Option.map_eq_some_iff.mp hae'
    exact (reaches_deleted h he hp hx.symm (h.climbs (Keyed.has_iff.mpr ⟨ae, hae⟩))).1 hax

end Deletion

/-! ## Wrapping -/

section Wrapping

variable {x p w : AnnotationId} {e : Entry} {kind : String}

theorem hasParent_wrapped (he : Keyed.get? t x = some e)
    (hw : Keyed.get? t w = none) {c q : AnnotationId} :
    (t.wrapped x p w kind).HasParent c q ↔
      (c = w ∧ q = p) ∨ (c = x ∧ q = w) ∨ (t.HasParent c q ∧ c ≠ x) := by
  unfold HasParent
  rw [get?_wrapped]
  by_cases hcw : c = w
  · have hxw : w ≠ x := by
      rintro rfl
      simp [he] at hw
    subst hcw
    simp [hw, hxw, eq_comm]
  rw [if_neg hcw]
  by_cases hcx : c = x
  · subst hcx
    simp [he, wrappedEntry, hcw, eq_comm]
  · cases hc : Keyed.get? t c with
    | none => simp [hcw, hcx]
    | some ce => simp [wrappedEntry, hcw, hcx]

theorem hasChild_wrapped (h : t.Linked root) (he : Keyed.get? t x = some e)
    (hp : e.parent = some p) (hw : Keyed.get? t w = none) {q c : AnnotationId} :
    (t.wrapped x p w kind).HasChild q c ↔
      (q = w ∧ c = x) ∨ (q = p ∧ c = w) ∨ (t.HasParent c q ∧ c ≠ x) := by
  have hxp : t.HasParent x p := ⟨e, he, hp⟩
  -- The new id is nobody's parent before.
  have hwpar := h.no_child_of_absent hw
  have hpw : p ≠ w := fun hh => hwpar x (hh ▸ hxp)
  unfold HasChild
  rw [get?_wrapped]
  by_cases hqw : q = w
  · subst hqw
    simp [hwpar c, hpw.symm]
  rw [if_neg hqw]
  cases hq : Keyed.get? t q with
  | none =>
    have hno := h.no_child_of_absent hq
    have hqp : q ≠ p := fun hh => hno x (hh ▸ hxp)
    simp [hqw, hqp, hno c]
  | some qe =>
    have hmem : c ∈ qe.children ↔ t.HasParent c q := h.mem_children_iff hq
    simp only [Option.map_some, Option.some.injEq, exists_eq_left', wrappedEntry]
    by_cases hqp : q = p
    · subst hqp
      have hxin : x ∈ qe.children := (h.mem_children_iff hq).mpr hxp
      rw [if_pos rfl, mem_splice (h.children_nodup hq) hxin, hmem]
      simp [hqw]
    · have hcx : t.HasParent c q → c ≠ x := by
        rintro hc rfl
        exact hqp (hc.unique hxp)
      rw [if_neg hqp, hmem]
      simp only [hqw, hqp, false_and, false_or]
      exact ⟨fun hc => ⟨hc, hcx hc⟩, fun hc => hc.1⟩

/-- The old way up makes one step more at the annotation that was wrapped. -/
theorem reaches_wrapped (he : Keyed.get? t x = some e) (hp : e.parent = some p)
    (hw : Keyed.get? t w = none) {a b : AnnotationId} (hpath : ReflTransGen t.HasParent a b) :
    ReflTransGen (t.wrapped x p w kind).HasParent a b := by
  refine reflTransGen_closed ?_ a b hpath
  intro c q hcq
  by_cases hcx : c = x
  · subst hcx
    obtain rfl : q = p := hcq.unique ⟨e, he, hp⟩
    have hcw : (t.wrapped c q w kind).HasParent c w :=
      (hasParent_wrapped he hw).mpr (Or.inr (Or.inl ⟨rfl, rfl⟩))
    have hwq : (t.wrapped c q w kind).HasParent w q :=
      (hasParent_wrapped he hw).mpr (Or.inl ⟨rfl, rfl⟩)
    exact ReflTransGen.head hcw (.single hwq)
  · exact .single ((hasParent_wrapped he hw).mpr (Or.inr (Or.inr ⟨hcq, hcx⟩)))

/-- Wrapping keeps what is above what, among those that were there. -/
theorem reaches_wrapped_iff (h : t.Linked root) (he : Keyed.get? t x = some e)
    (hp : e.parent = some p) (hw : Keyed.get? t w = none) {a b : AnnotationId} (ha : a ≠ w)
    (hb : b ≠ w) :
    ReflTransGen (t.wrapped x p w kind).HasParent a b ↔ ReflTransGen t.HasParent a b := by
  refine ⟨?_, reaches_wrapped he hp hw⟩
  intro hpath
  -- From the wrapper, the way goes on from the parent of what is wrapped.
  have key : (a ≠ w → ReflTransGen t.HasParent a b) ∧
      (a = w → ReflTransGen t.HasParent p b) := by
    clear ha
    induction hpath using ReflTransGen.head_induction_on with
    | refl => exact ⟨fun _ => .refl, fun hbw => absurd hbw hb⟩
    | @head c q hcq _ ih =>
      rcases (hasParent_wrapped he hw).mp hcq with ⟨rfl, rfl⟩ | ⟨rfl, rfl⟩ | ⟨hold, -⟩
      · have hqc : q ≠ c := fun heq => h.no_child_of_absent hw x (heq ▸ ⟨e, he, hp⟩)
        exact ⟨fun hne => absurd rfl hne, fun _ => ih.1 hqc⟩
      · refine ⟨fun _ => ReflTransGen.head ⟨e, he, hp⟩ (ih.2 rfl), fun hcw => ?_⟩
        subst hcw
        simp [he] at hw
      · have hqw : q ≠ w := fun heq => h.no_child_of_absent hw c (heq ▸ hold)
        refine ⟨fun _ => ReflTransGen.head hold (ih.1 hqw), fun hcw => ?_⟩
        subst hcw
        obtain ⟨ce, hce, -⟩ := hold
        simp [hce] at hw
  exact key.1 ha

/-- Wrapping in an annotation that is new keeps the links. -/
theorem wrapped (h : t.Linked root) (he : Keyed.get? t x = some e) (hp : e.parent = some p)
    (hx : x ≠ root) (hw : Keyed.get? t w = none) : (t.wrapped x p w kind).Linked root where
  keys_nodup := nodup_keys_wrapped h.keys_nodup x p w kind
  root_entry := by
    obtain ⟨re, hre, hnone⟩ := h.root_entry
    have hrw : root ≠ w := by
      rintro rfl
      simp [hre] at hw
    refine ⟨_, by rw [get?_wrapped, if_neg hrw, hre]; rfl, ?_⟩
    simp [wrappedEntry, Ne.symm hx, hnone]
  link := by
    intro q c
    rw [hasChild_wrapped h he hp hw, hasParent_wrapped he hw]
    constructor
    · rintro (⟨hq, hc⟩ | ⟨hq, hc⟩ | hold)
      · exact Or.inr (Or.inl ⟨hc, hq⟩)
      · exact Or.inl ⟨hc, hq⟩
      · exact Or.inr (Or.inr hold)
    · rintro (⟨hc, hq⟩ | ⟨hc, hq⟩ | hold)
      · exact Or.inr (Or.inl ⟨hq, hc⟩)
      · exact Or.inl ⟨hq, hc⟩
      · exact Or.inr (Or.inr hold)
  children_nodup := by
    intro q qe' hqe'
    rw [get?_wrapped] at hqe'
    by_cases hqw : q = w
    · rw [if_pos hqw] at hqe'
      obtain rfl := Option.some.inj hqe'
      exact List.nodup_singleton x
    rw [if_neg hqw] at hqe'
    obtain ⟨qe, hqe, rfl⟩ := Option.map_eq_some_iff.mp hqe'
    simp only [wrappedEntry]
    by_cases hqp : q = p
    · rw [if_pos hqp]
      refine nodup_splice (h.children_nodup hqe) (List.nodup_singleton w) ?_
      intro c hc hcq
      obtain rfl := List.mem_singleton.mp hc
      obtain ⟨ce, hce, -⟩ := (h.mem_children_iff hqe).mp hcq
      simp [hce] at hw
    · rw [if_neg hqp]
      exact h.children_nodup hqe
  climbs := by
    intro a ha
    obtain ⟨ae', hae'⟩ := Keyed.has_iff.mp ha
    rw [get?_wrapped] at hae'
    by_cases haw : a = w
    · subst haw
      have hwp : (t.wrapped x p a kind).HasParent a p :=
        (hasParent_wrapped he hw).mpr (Or.inl ⟨rfl, rfl⟩)
      have hup := h.climbs (h.has_parent ⟨e, he, hp⟩)
      exact ReflTransGen.head hwp (reaches_wrapped he hp hw hup)
    rw [if_neg haw] at hae'
    obtain ⟨ae, hae, -⟩ := Option.map_eq_some_iff.mp hae'
    exact reaches_wrapped he hp hw (h.climbs (Keyed.has_iff.mpr ⟨ae, hae⟩))

end Wrapping

end Linked

end Table

end MarkupScript
