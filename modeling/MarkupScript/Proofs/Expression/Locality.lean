import MarkupScript.Proofs.Document.Subtree
import MarkupScript.Proofs.Expression.Agreement

/-!
# Expressions read their scope only

What an expression gives is settled by the subtree of the scope and by the variables. A variable
may hold annotations from anywhere, also deleted ones: outside the scope there is nothing to read
of them.

* `Shares.agrees`: documents that share the subtree of the scope give the same readings.
* `results_eq_of_shared`: so every expression has the same value, selection and truth in them,
  or the same error.
-/

namespace MarkupScript

namespace Document

/-- Every reading through the scope is one of the shared subtree. -/
theorem Shares.agrees {d d' : Document} {scope : AnnotationId} (h : Shares d d' scope)
    (b : Bindings) :
    View.Agrees { document := d, scope, bindings := b }
      { document := d', scope, bindings := b } where
  scope := rfl
  lookup _ := rfl
  kind := h.map_entry?_eq Entry.kind fun _ _ => rfl
  attributes id :=
    congrArg (·.getD []) (h.map_entry?_eq Entry.attributes (fun _ _ => rfl) id)
  content := h.valueOf_eq
  children id :=
    congrArg (·.getD []) (h.map_entry?_eq Entry.children (fun _ _ => rfl) id)
  parent id := by
    show d.parent? scope id = d'.parent? scope id
    unfold parent?
    -- The scope may hang elsewhere in the other document, but its parent is not shown.
    by_cases hid : id = scope
    · rw [if_pos hid, if_pos hid]
    · rw [if_neg hid, if_neg hid]
      rcases h.entry?_cases id with ⟨he, he'⟩ | ⟨e, q, he, he', hparent⟩
      · rw [he, he']
      · rw [he, he', hparent hid]
  descendants := h.descendants_eq

/-! ## Two documents with one paragraph -/

/-- The paragraph of the small document, further down in another one that has a word more. -/
def archiveNode : Node :=
  { id := smallId 9, kind := "archive"
    children :=
      [{ id := smallId 7, kind := "section", attributes := [("n", "1")]
         children := smallNode.children ++ [{ id := smallId 5, kind := "w" }] }] }

/-- The document of `archiveNode`. -/
def archiveDocument : Document :=
  { root := smallId 9, ids := smallIds
    table :=
      [(smallId 9, { kind := "archive", parent := none, children := [smallId 7] }),
        (smallId 7,
          { kind := "section", attributes := [("n", "1")], parent := some (smallId 9)
            children := [smallId 2, smallId 5] }),
        (smallId 2,
          { kind := "p", parent := some (smallId 7), children := [smallId 3, smallId 4] }),
        (smallId 3,
          { kind := "w", value := some "Hello", parent := some (smallId 2), children := [] }),
        (smallId 4,
          { kind := "w", value := some "world", parent := some (smallId 2), children := [] }),
        (smallId 5, { kind := "w", parent := some (smallId 7), children := [] })] }

/-- A variable with the root of each document and an annotation of the shared paragraph. -/
def straying : Bindings :=
  { own := [("$x", .annotations [smallId 1, smallId 4, smallId 9])] }

theorem shares_paragraph : smallDocument.Shares archiveDocument (smallId 2) := by
  have hsmall : Document.ofNode smallNode smallIds = .ok smallDocument := rfl
  have harchive : Document.ofNode archiveNode smallIds = .ok archiveDocument := rfl
  exact ⟨wellFormed_of_linked (linked_ofNode hsmall), wellFormed_of_linked (linked_ofNode harchive),
    by decide, by decide, rfl⟩

end Document

namespace View

/-- In any two well-formed documents that have an annotation with the same exported subtree, an
expression gives the same through the scope of that annotation: its value, the annotations that
it selects, its truth under either rule, or the error. Nothing is asked of the variables. -/
theorem results_eq_of_shared {d d' : Document} {r : AnnotationId} (h : d.Shares d' r)
    (b : Bindings) (text : String) :
    expression { document := d, scope := r, bindings := b } text =
        expression { document := d', scope := r, bindings := b } text ∧
      path { document := d, scope := r, bindings := b } text =
        path { document := d', scope := r, bindings := b } text ∧
      condition { document := d, scope := r, bindings := b } text =
        condition { document := d', scope := r, bindings := b } text ∧
      coercedCondition { document := d, scope := r, bindings := b } text =
        coercedCondition { document := d', scope := r, bindings := b } text := by
  have hagrees := h.agrees b
  exact ⟨hagrees.expression_eq text, hagrees.path_eq text, hagrees.condition_eq text,
    hagrees.coercedCondition_eq text⟩

open Document in
theorem results_eq_paragraph :
    smallDocument.Shares archiveDocument (smallId 2) ∧
      (path { document := archiveDocument, scope := smallId 2, bindings := straying }
        "$x/../w").toOption = some [smallId 3, smallId 4] ∧
      (path { document := smallDocument, scope := smallId 2, bindings := straying }
        "$x/../w").toOption = some [smallId 3, smallId 4] := by
  have harchive : (path { document := archiveDocument, scope := smallId 2, bindings := straying }
      "$x/../w").toOption = some [smallId 3, smallId 4] := by
    decide +kernel
  have hsame := (results_eq_of_shared shares_paragraph straying "$x/../w").2.1
  rw [hsame]
  exact ⟨shares_paragraph, harchive, harchive⟩

end View

end MarkupScript
