import MarkupScript.Proofs.Document.Confinement
import MarkupScript.Proofs.Document.WellFormed
import MarkupScript.Proofs.Function.Catalogue
import MarkupScript.Proofs.Function.Editors
import MarkupScript.Proofs.Run.Policy

/-!
# Runs stay in their scope

The standard functions edit only through the scope that they are given, and the scope of a run
only narrows. So a run changes nothing outside of the annotation it starts at.

* `Policy.holds_standard`: the standard functions keep to every policy that allows edits.
* `Policy.confining`: the policy of staying in a scope.
* `Program.run_confined`: what a run leaves as it was.
-/

namespace MarkupScript

open Contract

/-! ## Standard functions -/

namespace Standard

variable {c : Contract FunctionError Document}

theorem holds_given {α : Type} (herror : ∀ e, c.error e) (parameter : Except ParameterFault α) :
    c.Holds (given parameter) := by
  cases parameter with
  | ok value => exact holds_pure value
  | error fault => exact holds_throw (herror _)

theorem holds_editEach (herror : ∀ e, c.error e)
    {edit : Document → AnnotationId → Except DocumentError (Document × Bool)}
    (hedit : ∀ {d id d' counts}, edit d id = .ok (d', counts) → c.step d d')
    (ids : List AnnotationId) : c.Holds (editEach edit ids) := by
  have hone : ∀ id, c.Holds (editOne edit id) := by
    intro id d
    unfold editOne
    cases he : edit d id with
    | ok result => exact hedit he
    | error e => exact ⟨c.refl d, herror _⟩
  induction ids with
  | nil => exact holds_pure 0
  | cons id rest ih =>
    exact holds_bind (hone id) fun _ => holds_bind ih fun _ => holds_pure _

/-- The standard functions change a document through edits in the scope of the call. -/
theorem holds_process (herror : ∀ e, c.error e) {call : Call}
    (hedit : ∀ edit {d id d'}, d.apply call.scope id edit = .ok d' → c.step d d') {f : Function}
    (hf : f ∈ functions) : c.Holds (f.process call) := by
  have hgiven : ∀ {α : Type} (p : Except ParameterFault α), c.Holds (given p) :=
    fun p => holds_given herror p
  rcases mem_functions hf with ⟨editor, rfl⟩ | rfl
  · rw [process_eq]
    refine holds_bind (hgiven _) fun asked => ?_
    refine holds_bind (holds_editEach herror ?_ asked.1) fun _ => holds_pure _
    intro d id d' counts h
    rcases Work.step_eq_ok h with rfl | ⟨edit, happly⟩
    · exact c.refl _
    · exact hedit edit happly
  · -- `print`
    exact holds_bind (hgiven _) fun text => holds_pure _

end Standard

/-! ## Functions that do not edit -/

/-- Nothing of the document is changed, but ids may be drawn. -/
def Keeping : Contract FunctionError Document where
  step d d' := d'.table = d.table ∧ d'.ids.sequence = d.ids.sequence ∧ d.ids.used ≤ d'.ids.used
  error _ := True
  refl _ := ⟨rfl, rfl, Nat.le_refl _⟩
  trans h₁ h₂ := ⟨h₂.1.trans h₁.1, h₂.2.1.trans h₁.2.1, Nat.le_trans h₁.2.2 h₂.2.2⟩

/-- A function that does not edit the document. -/
def Function.KeepsDocument (f : Function) : Prop :=
  ∀ call, Keeping.Holds (f.process call)

/-! ## Runs -/

/-- Staying in the scope `r` of a document. -/
def Policy.confining {d₀ : Document} (hd : d₀.table.Linked d₀.root) (r : AnnotationId) :
    Policy where
  change scope d d' := d.ids.used ≤ d'.ids.used ∧
    (¬ d₀.Outside r scope → d₀.FreshUntil d'.ids.used → d₀.Confined r d → d₀.Confined r d')
  error _ := True
  refl _ _ := ⟨Nat.le_refl _, fun _ _ h => h⟩
  trans := by
    rintro scope d e f ⟨hde, hfirst⟩ ⟨hef, hrest⟩
    refine ⟨Nat.le_trans hde hef, ?_⟩
    intro hscope hfresh h
    exact hrest hscope hfresh (hfirst hscope (hfresh.mono hef) h)
  narrow := by
    rintro scope inner d e hin ⟨hused, hchange⟩
    refine ⟨hused, ?_⟩
    intro hscope hfresh h
    exact hchange (h.not_outside hd hscope hin) hfresh h
  reading _ := trivial

namespace Policy

variable {d₀ : Document} (hd : d₀.table.Linked d₀.root) {r : AnnotationId}

/-- An edit through a scope stays in it. -/
theorem confining_change {scope id : AnnotationId} {edit : Edit} {d d' : Document}
    (h : d.apply scope id edit = .ok d') : (confining hd r).change scope d d' := by
  have hedited := Document.apply_edited h
  refine ⟨?_, ?_⟩
  · cases hedited with
    | content _ _ _ => exact Nat.le_refl _
    | deletion _ _ _ _ => exact Nat.le_refl _
    | wrapping _ _ _ _ => exact Nat.le_succ _
  · intro hscope hfresh hconfined
    exact hconfined.edited hd hscope hedited hfresh

theorem confining_process {f : Function} (hf : f ∈ Standard.functions ∨ f.KeepsDocument)
    {scope : AnnotationId} {name : String} (params : List Value) (bindings : Bindings) :
    ((confining hd r).editing scope name).Holds (f.process { scope, params, bindings }) := by
  rcases hf with hstandard | hkeeps
  · exact Standard.holds_process (fun _ => trivial) (fun _ _ _ _ => confining_change hd) hstandard
  · refine (hkeeps _).weaken ?_ fun _ => trivial
    rintro d d' ⟨htable, hsequence, hused⟩
    exact ⟨hused, fun _ _ h => h.drawn htable hsequence hused⟩

end Policy

namespace Program

/-- All commands are fit for staying in a scope, if the functions are standard ones or do not
edit. -/
theorem admits_confining {d₀ : Document} (hd : d₀.table.Linked d₀.root) {r : AnnotationId}
    {env : Setting} (hall : ∀ d f, env.catalogue.implementation d = some f →
      f ∈ Standard.functions ∨ f.KeepsDocument) (owner : ScriptUnit) (c : Command) :
    (Policy.confining hd r).Admits env owner c := by
  refine Policy.admits_of_process (fun _ => trivial) ?_ owner c
  intro d f hf scope
  exact Policy.confining_process hd (hall d f hf)

/-- A run, whether it comes to its end or not, leaves every annotation outside of its scope as
it was: the type, the attributes, the value, the parent and the children. Only among the
children of the parent of the scope can others have taken the place of the scope, and these
were in the scope or are new. -/
theorem run_confined {others : List Function} {catalogue : Catalogue}
    (hcatalogue : Catalogue.withStandard others = .ok catalogue)
    (hothers : ∀ f ∈ others, f.KeepsDocument) {d : Document} (hd : d.Reachable) (p : Program)
    (r : AnnotationId) (bindings : Bindings) (conditions : ConditionRule) (depth : Nat)
    {d' : Document} (hrun : (p.run catalogue d r bindings conditions depth).document = d')
    (hfresh : d.FreshUntil d'.ids.used) {u : AnnotationId} {e : Entry}
    (hu : Keyed.get? d.table u = some e) (hout : d.contains r u = false) :
    ∃ e', Keyed.get? d'.table u = some e' ∧ e'.kind = e.kind ∧ e'.attributes = e.attributes ∧
      e'.value = e.value ∧ e'.parent = e.parent ∧
      (e'.children = e.children ∨
        d.table.HasParent r u ∧ ∃ before new after, e.children = before ++ r :: after ∧
          e'.children = before ++ new ++ after ∧
          ∀ x ∈ new, (Keyed.has d.table x = true ∧ d.contains r x = true) ∨
            ∃ n, d.ids.used ≤ n ∧ n < d'.ids.used ∧ x = d.ids.sequence n) := by
  have hlinked := hd.linked
  have hall : ∀ desc f, catalogue.implementation desc = some f →
      f ∈ Standard.functions ∨ f.KeepsDocument := by
    intro desc f hf
    rcases Catalogue.mem_of_withStandard hcatalogue hf with hstandard | hother
    · exact Or.inl hstandard
    · exact Or.inr (hothers f hother)
  have hadmits : ∀ owner, p.Owns owner → ∀ pc ∈ owner.commands,
      (Policy.confining hlinked r).Admits { catalogue, conditions, units := p.units } owner pc.2 :=
    fun owner _ pc _ => admits_confining hlinked hall owner pc.2
  have hkeeps := (Policy.run_keeps hadmits d r bindings depth).1
  rw [hrun] at hkeeps
  have hscope : ¬ d.Outside r r := by
    rintro ⟨-, hself⟩
    rw [(Document.contains_iff hlinked).mpr .refl] at hself
    cases hself
  have hconfined := hkeeps.2 hscope hfresh (Document.confined_refl hlinked r)
  have houtside : d.Outside r u := ⟨Keyed.has_iff.mpr ⟨e, hu⟩, hout⟩
  obtain ⟨e', he', hkept⟩ := hconfined.outside hu houtside
  refine ⟨e', he', hkept.kind, hkept.attributes, hkept.value, hkept.parent, ?_⟩
  by_cases hplace : d.table.HasParent r u
  · exact Or.inr ⟨hplace, hkept.place hplace⟩
  · exact Or.inl (hkept.children hplace)

open Document (smallId smallIds smallNode smallDocument)

/-- The standard functions alone. -/
def plainCatalogue : Catalogue :=
  match Catalogue.withStandard [] with
  | .ok c => c
  | .error _ => .empty

theorem plainCatalogue_eq : Catalogue.withStandard [] = .ok plainCatalogue := by
  have hok : (Catalogue.withStandard []).toBool = true := by decide +kernel
  unfold plainCatalogue
  cases h : Catalogue.withStandard [] with
  | ok c => rfl
  | error e =>
    rw [h] at hok
    cases hok

/-- Wraps a word, deletes the paragraph, and then fails to delete it again. -/
def leaving : Program where
  main :=
    { body :=
        [.command { line := 1, text := "annotate $w b" }
          (.function Standard.annotate.descriptor [.variableRef "$w", .literal "b"]),
         .command { line := 2, text := "delete $p" }
          (.function Standard.delete.descriptor [.variableRef "$p"]),
         .command { line := 3, text := "delete $p" }
          (.function Standard.delete.descriptor [.variableRef "$p"])] }

/-- What is left of a run in the scope of the paragraph. -/
def left : Outcome :=
  leaving.run plainCatalogue smallDocument (smallId 2)
    { own := [("$w", .annotations [smallId 3]), ("$p", .annotations [smallId 2])] } .selection 1

theorem run_leaving_confined :
    left.stop.isSome = true ∧
    (Keyed.get? left.document.table (smallId 1)).map (·.children) =
      some [smallId 100, smallId 4] ∧
    ∃ e, Keyed.get? left.document.table (smallId 1) = some e ∧ e.kind = "doc" ∧
      e.attributes = [] ∧ e.value = none ∧ e.parent = none := by
  have hused : left.document.ids.used = 1 := by decide +kernel
  have hfresh : smallDocument.FreshUntil left.document.ids.used := by
    intro n _ hn
    obtain rfl : n = 0 := by omega
    decide
  have hreachable : smallDocument.Reachable :=
    ⟨smallNode, smallIds, smallDocument, [], rfl, trivial, rfl⟩
  obtain ⟨e, he, hkind, hattributes, hvalue, hparent, -⟩ :=
    run_confined plainCatalogue_eq (by simp) hreachable leaving (smallId 2) _ _ _ rfl hfresh
      (u := smallId 1) rfl (by decide)
  exact ⟨by decide +kernel, by decide +kernel, e, he, hkind, hattributes, hvalue, hparent⟩

end Program

end MarkupScript
