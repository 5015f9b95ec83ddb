import MarkupScript.Proofs.Document.Links
import Mathlib.Data.List.Perm.Subperm

/-!
# Scopes and parents

An annotation is in a scope if following its parents comes to the scope. The walk that decides
this stops after as many steps as there are entries, and that is far enough.

* `climb_reaches`: a walk that finds an annotation has followed parents to it.
* `Linked.isWithin_iff`: in a tree the walk finds every annotation that is above.
* `Document.contains_iff`: so a scope holds what is below it.
-/

namespace MarkupScript

open Relation

namespace Table

variable {t : Table} {root : AnnotationId}

theorem parent?_eq_some {id parent : AnnotationId} :
    (Keyed.get? t id).bind (·.parent) = some parent ↔ t.HasParent id parent := by
  rw [Option.bind_eq_some_iff]
  rfl

/-- What a walk finds is reached through parents. -/
theorem climb_reaches {ancestor id : AnnotationId} {fuel : Nat}
    (h : t.climb ancestor fuel id = true) : ReflTransGen t.HasParent id ancestor := by
  induction fuel generalizing id with
  | zero => cases h
  | succ fuel ih =>
    rw [climb] at h
    by_cases heq : id = ancestor
    · rw [heq]
    · rw [if_neg heq] at h
      cases hpar : (Keyed.get? t id).bind (·.parent) with
      | none =>
        rw [hpar] at h
        cases h
      | some parent =>
        rw [hpar] at h
        exact ReflTransGen.head (parent?_eq_some.mp hpar) (ih h)

theorem length_le_of_nodup {passed : List AnnotationId} (hnodup : passed.Nodup)
    (hknown : passed ⊆ Keyed.keys t) : passed.length ≤ t.length := by
  have hle := (List.Nodup.subperm hnodup hknown).length_le
  simpa [Keyed.keys] using hle

/-- A walk comes to no annotation twice, or there were a cycle. -/
theorem Linked.walk_cons (h : t.Linked root) {id : AnnotationId} (hid : Keyed.has t id = true)
    {passed : List AnnotationId} (hnodup : passed.Nodup) (hknown : passed ⊆ Keyed.keys t)
    (hcycle : id ∈ passed → TransGen t.HasParent id id) :
    (id :: passed).Nodup ∧ id :: passed ⊆ Keyed.keys t := by
  have hnew : id ∉ passed := fun hmem => h.acyclic id (hcycle hmem)
  have hkey : id ∈ Keyed.keys t := Keyed.mem_keys_iff.mpr (Keyed.has_iff.mp hid)
  exact ⟨List.nodup_cons.mpr ⟨hnew, hnodup⟩, List.cons_subset.mpr ⟨hkey, hknown⟩⟩

/-- What is reached through parents is found, if there is a step left for every entry that
the walk has not passed. -/
theorem Linked.climb_finds (h : t.Linked root) {ancestor id : AnnotationId}
    (hpath : ReflTransGen t.HasParent id ancestor) {fuel : Nat} {passed : List AnnotationId}
    (hnodup : passed.Nodup) (hknown : passed ⊆ Keyed.keys t)
    (hbelow : ∀ v ∈ passed, TransGen t.HasParent v id)
    (hfuel : t.length < fuel + passed.length) : t.climb ancestor fuel id = true := by
  induction hpath using ReflTransGen.head_induction_on generalizing fuel passed with
  | refl =>
    have hlen := length_le_of_nodup hnodup hknown
    obtain ⟨n, rfl⟩ : ∃ n, fuel = n + 1 := ⟨fuel - 1, by omega⟩
    rw [climb, if_pos rfl]
  | @head id parent hpar _ ih =>
    have hlen := length_le_of_nodup hnodup hknown
    obtain ⟨n, rfl⟩ : ∃ n, fuel = n + 1 := ⟨fuel - 1, by omega⟩
    rw [climb]
    by_cases heq : id = ancestor
    · rw [if_pos heq]
    · rw [if_neg heq, parent?_eq_some.mpr hpar]
      obtain ⟨hnodup', hknown'⟩ := h.walk_cons hpar.has hnodup hknown (hbelow id)
      refine ih hnodup' hknown' ?_ (by simp only [List.length_cons]; omega)
      intro v hv
      rcases List.mem_cons.mp hv with rfl | hv
      · exact .single hpar
      · exact (hbelow v hv).tail hpar

/-- In a tree the walk finds exactly what is above. -/
theorem Linked.isWithin_iff (h : t.Linked root) {id ancestor : AnnotationId} :
    t.isWithin id ancestor = true ↔ ReflTransGen t.HasParent id ancestor := by
  refine ⟨climb_reaches, ?_⟩
  intro hpath
  exact h.climb_finds hpath .nil (by simp) (by simp) (by simp)

end Table

namespace Document

theorem reaches_of_contains {d : Document} {scope id : AnnotationId}
    (h : d.contains scope id = true) : ReflTransGen d.table.HasParent id scope :=
  Table.climb_reaches h

/-- In a tree the annotations of a scope are those below it. -/
theorem contains_iff {d : Document} (h : d.table.Linked d.root) {scope id : AnnotationId} :
    d.contains scope id = true ↔ ReflTransGen d.table.HasParent id scope :=
  h.isWithin_iff

end Document

end MarkupScript
