import MarkupScript.Proofs.Function.Catalogue
import MarkupScript.Proofs.Run.Policy

/-!
# What a compiled script refers to is there

A compiled script invokes sub-scripts that its unit has and library scripts that were compiled
with it, and calls functions that are registered with no fewer arguments than they have
parameters. No run of it misses any of these.

* `Command.Resolved`: what a command refers to is there.
* `Program.run_not_missing`: a compiled program is resolved, and its runs never fail because
  something is missing.
-/

namespace MarkupScript

open Contract

/-! ## Programs -/

/-- What a command of a unit refers to is there. -/
def Command.Resolved (catalogue : Catalogue) (p : Program) (owner : ScriptUnit) : Command → Prop
  | .invoke _ name _ external =>
    if external then Keyed.has p.units name = true else Keyed.has owner.subs name = true
  | .function d args => (catalogue.implementation d).isSome = true ∧ d.arity ≤ args.length
  | .define _ _ | .clear _ | .clearAll => True

/-- The errors that say that something is missing which a script refers to. -/
def RuntimeError.Missing : RuntimeError → Prop
  | .missingScript _ | .unregisteredFunction _ | .missingArguments _ _ _ => True
  | .unboundVariable _ | .evaluation _ _ | .notASet _ | .detached _ | .function _ _ => False

/-- Anything may be done to the document, but nothing may be missing. -/
def Policy.resolving : Policy where
  change _ _ _ := True
  error e := ¬ e.Missing
  refl _ _ := trivial
  trans _ _ := trivial
  narrow _ _ := trivial
  reading := by
    intro e he
    cases e <;> first | exact fun h => h | exact he.elim

namespace Program

/-- The commands of a compiled program are resolved. -/
theorem command_resolved {catalogue : Catalogue} (hbuilt : catalogue.Built)
    {find? : String → Option String} {depth : Nat} {source : String} {p : Program}
    (h : compileWith catalogue find? depth source = .ok p) {owner : ScriptUnit}
    (howner : p.Owns owner) {pc : Position × Command} (hpc : pc ∈ owner.commands) :
    pc.2.Resolved catalogue p owner := by
  obtain ⟨⟨text, hcompile⟩, hneeds⟩ := owns_spec h howner
  have href := ScriptUnit.refers_of_compile hcompile pc hpc
  obtain ⟨pos, c⟩ := pc
  cases c with
  | define _ _ => trivial
  | clear _ => trivial
  | clearAll => trivial
  | function d args =>
    obtain ⟨⟨name, hresolve⟩, hargs⟩ := href
    exact ⟨hbuilt.implementation_isSome hresolve, hargs⟩
  | invoke kind name set external =>
    have hext : external = !(Keyed.keys owner.subs).contains name := href
    cases external with
    | true =>
      have hi : (⟨pos.line, kind, name, true⟩ : Invocation) ∈ owner.externals := by
        refine List.mem_filter.mpr ⟨?_, rfl⟩
        rw [ScriptUnit.invocations_eq]
        exact List.mem_filterMap.mpr ⟨_, hpc, rfl⟩
      exact hneeds _ hi
    | false =>
      have hkey : name ∈ Keyed.keys owner.subs := by simpa using hext
      exact Keyed.has_iff.mpr (Keyed.mem_keys_iff.mp hkey)

/-- A resolved command is fit for runs in which nothing is missing. -/
theorem admits_of_resolved {catalogue : Catalogue} {conditions : ConditionRule} {p : Program}
    {owner : ScriptUnit} {c : Command} (h : c.Resolved catalogue p owner) :
    Policy.resolving.Admits { catalogue, conditions, units := p.units } owner c := by
  cases c with
  | define _ _ => trivial
  | clear _ => trivial
  | clearAll => trivial
  | function d args =>
    obtain ⟨himpl, hargs⟩ := h
    intro scope bindings
    refine Policy.holds_call ?_ ?_ ?_ bindings
    · intro hnone
      rw [hnone] at himpl
      cases himpl
    · intro hshort
      omega
    · intro f _ params bindings s
      cases f.process { scope, params, bindings } s with
      | ok status d => trivial
      | error e d => exact ⟨trivial, fun h => h⟩
  | invoke kind name set external =>
    intro htarget
    unfold Setting.target? at htarget
    cases external with
    | true =>
      obtain ⟨u, hu⟩ := Keyed.has_iff.mp h
      simp [hu] at htarget
    | false =>
      obtain ⟨body, hbody⟩ := Keyed.has_iff.mp h
      simp [hbody] at htarget

/-- All that the commands of a compiled program refer to is there, wherever they stand, and no
run of it with the same functions fails because a script, a function or an argument is
missing. -/
theorem run_not_missing {catalogue : Catalogue} (hbuilt : catalogue.Built)
    {find? : String → Option String} {depth : Nat} {source : String} {p : Program}
    (h : compileWith catalogue find? depth source = .ok p) :
    (∀ owner, p.Owns owner → ∀ pc ∈ owner.commands, pc.2.Resolved catalogue p owner) ∧
    ∀ document scope bindings conditions runDepth failure,
      (p.run catalogue document scope bindings conditions runDepth).stop =
        some (.failed failure) → ¬ failure.error.Missing := by
  have hall : ∀ owner, p.Owns owner → ∀ pc ∈ owner.commands, pc.2.Resolved catalogue p owner :=
    fun owner howner pc hpc => command_resolved hbuilt h howner hpc
  refine ⟨hall, ?_⟩
  intro document scope bindings conditions runDepth failure hstop
  have hadmits : ∀ owner, p.Owns owner → ∀ pc ∈ owner.commands,
      Policy.resolving.Admits { catalogue, conditions, units := p.units } owner pc.2 :=
    fun owner howner pc hpc => admits_of_resolved (hall owner howner pc hpc)
  exact (Policy.run_keeps hadmits document scope bindings runDepth).2 failure hstop

/-- A catalogue of one function. -/
def printing : Catalogue where
  functions := [("print", [Standard.print])]

theorem printing_built : printing.Built := by
  have hregister : Catalogue.register Standard.print .empty = .ok () printing := by cbv
  exact .register .empty hregister

/-- A script that calls a function. -/
def note : ScriptUnit where
  body := [.command { line := 1, text := "print x" }
    (.function Standard.print.descriptor [.literal "x"])]

theorem compile_note : ScriptUnit.compile printing "print x" = .ok note := by cbv

/-- A script whose sub-script invokes a library script. -/
def noting : Program where
  main :=
    { body := [.command { line := 4, text := "call s" } (.invoke .call "s" none false)]
      subs := [("s", [.command { line := 2, text := "call n" } (.invoke .call "n" none true)])] }
  units := [("n", note)]

theorem compile_noting :
    ScriptUnit.compile printing "sub s\ncall n\nendSub\ncall s" = .ok noting.main := by cbv

theorem link_noting (find? : String → Option String) (hfind : find? "n" = some "print x") :
    link printing find? 2 [] noting.main [] = .ok noting.units := by
  have hexternals : noting.main.externals = [⟨2, .call, "n", true⟩] := by decide
  have hinner : link printing find? 1 ["n"] note [] = .ok [] := rfl
  have hadd := add_eq_put (i := ⟨2, .call, "n", true⟩) rfl (by simp) hfind compile_note hinner
  rw [link, hexternals, List.foldlM_cons, hadd]
  rfl

theorem run_noting_not_missing :
    compileWith printing (fun _ => some "print x") 2 "sub s\ncall n\nendSub\ncall s" =
      .ok noting ∧
    ∀ document scope bindings conditions runDepth failure,
      (noting.run printing document scope bindings conditions runDepth).stop =
        some (.failed failure) → ¬ failure.error.Missing := by
  have hnoting := compileWith_ok compile_noting (link_noting (fun _ => some "print x") rfl)
  exact ⟨hnoting, (run_not_missing printing_built hnoting).2⟩

end Program

end MarkupScript
