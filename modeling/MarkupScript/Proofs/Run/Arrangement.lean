import MarkupScript.Proofs.Document.Arrangement
import MarkupScript.Proofs.Run.Confinement

/-!
# Runs keep the arrangement

With the standard functions, all that a run does to the document is a sequence of edits. So
what is known of edits is known of runs.

* `Policy.byEdits`: the policy of changing the document through edits alone.
* `Program.run_byEdits`: a run keeps to it.
* `Program.arrangement_kept`: edits and runs neither reorder nor nest anew what stays.
-/

namespace MarkupScript

/-- Changing the document through edits alone. -/
def Policy.byEdits : Policy where
  change _ d d' := ∃ calls, d' = d.afterAll calls
  error _ := True
  refl _ _ := ⟨[], rfl⟩
  trans := by
    rintro _ d e f ⟨calls, rfl⟩ ⟨calls', rfl⟩
    refine ⟨calls ++ calls', ?_⟩
    rw [Document.afterAll, Document.afterAll, Document.afterAll, List.foldl_append]
  narrow _ h := h
  reading _ := trivial

theorem Policy.byEdits_change {scope id : AnnotationId} {edit : Edit} {d d' : Document}
    (h : d.apply scope id edit = .ok d') : byEdits.change scope d d' := by
  have hafter : d.after ⟨scope, id, edit⟩ = d' := Document.after_of_ok h
  exact ⟨[⟨scope, id, edit⟩], hafter.symm⟩

namespace Program

open Document (SomeCall SameArrangement)

/-- With the standard functions, a run edits the document and does nothing else to it. -/
theorem run_byEdits {catalogue : Catalogue} (hcatalogue : Catalogue.withStandard [] = .ok catalogue)
    (p : Program) (d : Document) (r : AnnotationId) (bindings : Bindings)
    (conditions : ConditionRule) (depth : Nat) :
    ∃ calls, (p.run catalogue d r bindings conditions depth).document = d.afterAll calls := by
  have hprocess : ∀ desc f, catalogue.implementation desc = some f → ∀ scope params bindings,
      (Policy.byEdits.editing scope desc.name).Holds (f.process { scope, params, bindings }) := by
    intro desc f hf scope params bindings
    have hstandard : f ∈ Standard.functions := by
      rcases Catalogue.mem_of_withStandard hcatalogue hf with hstandard | hother
      · exact hstandard
      · cases hother
    exact Standard.holds_process (fun _ => trivial) (fun _ _ _ _ => Policy.byEdits_change) hstandard
  have hadmits : ∀ owner, p.Owns owner → ∀ pc ∈ owner.commands,
      Policy.byEdits.Admits { catalogue, conditions, units := p.units } owner pc.2 := by
    intro owner _ pc _
    exact Policy.admits_of_process (fun _ => trivial) hprocess owner pc.2
  exact (Policy.run_keeps hadmits d r bindings depth).1

/-- After any sequence of edits, the annotations that are there before and after stand in the
same order and are nested in the same way. Those that are there after are those that were there
before or were put there by a wrapping, but for those that were deleted. What a run with the
standard functions does to a document is such a sequence. -/
theorem arrangement_kept {d : Document} (hd : d.Reachable) :
    (∀ calls, d.NewUntil (d.afterAll calls).ids.used →
      d.order.Nodup ∧ (d.afterAll calls).order.Nodup ∧ SameArrangement d (d.afterAll calls) ∧
        ∀ id, id ∈ (d.afterAll calls).order ↔
          (id ∈ d.order ∨ SomeCall (fun d c => d.Adds c id) d calls) ∧
            ¬ SomeCall (fun d c => d.Removes c id) d calls) ∧
    ∀ catalogue, Catalogue.withStandard [] = .ok catalogue →
      ∀ (p : Program) (r : AnnotationId) (bindings : Bindings) (conditions : ConditionRule)
        (depth : Nat) (d' : Document),
        (p.run catalogue d r bindings conditions depth).document = d' →
        (∃ calls, d' = d.afterAll calls) ∧ (d.NewUntil d'.ids.used → SameArrangement d d') := by
  have hlinked := hd.linked
  constructor
  · intro calls hnew
    obtain ⟨hlinked', hsame⟩ := Document.sameArrangement_afterAll hlinked hnew
    refine ⟨Document.nodup_preorder hlinked, Document.nodup_preorder hlinked', hsame, ?_⟩
    intro id
    rw [Document.mem_order_iff hlinked, Document.mem_order_iff hlinked']
    exact Document.present_afterAll_iff hnew id
  · intro catalogue hcatalogue p r bindings conditions depth d' hrun
    obtain ⟨calls, hcalls⟩ := run_byEdits hcatalogue p d r bindings conditions depth
    rw [hrun] at hcalls
    refine ⟨⟨calls, hcalls⟩, ?_⟩
    intro hnew
    rw [hcalls] at hnew ⊢
    exact (Document.sameArrangement_afterAll hlinked hnew).2

open Document (smallId smallIds smallNode smallDocument smallCalls smallDocument_newUntil)

theorem arrangement_kept_small :
    smallDocument.order = [1, 2, 3, 4].map smallId ∧
    (smallDocument.afterAll smallCalls).order = [1, 3, 101, 4].map smallId ∧
    SameArrangement smallDocument (smallDocument.afterAll smallCalls) ∧
    left.document.order = [1, 100, 3, 4].map smallId ∧
    SameArrangement smallDocument left.document := by
  have hreachable : smallDocument.Reachable :=
    ⟨smallNode, smallIds, smallDocument, [], rfl, trivial, rfl⟩
  obtain ⟨hedits, hruns⟩ := arrangement_kept hreachable
  have hused : (smallDocument.afterAll smallCalls).ids.used = 2 := by decide
  have hleft : left.document.ids.used ≤ 2 := by decide +kernel
  obtain ⟨-, -, hsame, -⟩ := hedits smallCalls (hused ▸ smallDocument_newUntil)
  obtain ⟨-, hrun⟩ := hruns plainCatalogue plainCatalogue_eq leaving (smallId 2)
    { own := [("$w", .annotations [smallId 3]), ("$p", .annotations [smallId 2])] } .selection 1
    left.document rfl
  refine ⟨by decide, by decide, hsame, by decide +kernel, hrun ?_⟩
  exact ⟨smallDocument_newUntil.absent.mono hleft,
    fun hm hmn hn => smallDocument_newUntil.distinct hm hmn (Nat.lt_of_lt_of_le hn hleft)⟩

end Program

end MarkupScript
