import MarkupScript.Proofs.Run.Contract
import MarkupScript.Proofs.Run.Course

/-!
# The variables after a run

A script binds and removes variables by name, at the level it runs on: with `def`, with `clearDef`
and in the rounds of its loops. What it invokes runs on a level of its own. So all other variables
are after a run what they were before, in the same order, even if the run fails. A loop removes its
variable after each round, also after one that fails.

* `Statement.targets`: the names that statements bind or remove.
* `Bindings.Untouched`: the variables with other names are as before.
* `untouching_block`: statements leave the variables alone that are not among their targets.
* `Program.run_variables`: the same of a run, with the variables of loops that it fails in.
-/

namespace MarkupScript

open Contract
open Document (smallDocument)

/-! ## Names that statements bind or remove -/

namespace Statement

/-- The name that a statement by itself binds or removes. -/
def target? : Statement → Option String
  | .command _ (.define name _) | .command _ (.clear name) | .loop _ name _ _ => some name
  | .command _ .clearAll | .command _ (.function _ _) | .command _ (.invoke _ _ _ _)
  | .choice _ _ => none

/-- The names that statements bind or remove, also those inside others. -/
def targets (body : List Statement) : List String :=
  (partsAll body).filterMap target?

/-- A statement removes all variables of the level it runs on. -/
def ClearsAll (st : Statement) : Prop :=
  ∃ pos, st = .command pos .clearAll

theorem mem_targets {body : List Statement} {part : Statement} {name : String}
    (hpart : part ∈ partsAll body) (h : part.target? = some name) : name ∈ targets body :=
  List.mem_filterMap.mpr ⟨part, hpart, h⟩

end Statement

/-! ## Variables with other names -/

/-- The entries with other keys than these. -/
def Keyed.without (names : List String) (entries : Keyed String Value) : Keyed String Value :=
  entries.filter fun entry => entry.1 ∉ names

namespace Keyed

variable {names : List String} {name : String}

theorem get?_without (entries : Keyed String Value) (h : name ∉ names) :
    get? (without names entries) name = get? entries name := by
  induction entries with
  | nil => rfl
  | cons entry rest ih =>
    rcases entry with ⟨key, value⟩
    by_cases hkey : key ∈ names
    · have hne : key ≠ name := fun heq => h (heq ▸ hkey)
      have hdrop : without names ((key, value) :: rest) = without names rest := by
        simp [without, hkey]
      rw [hdrop, ih, get?_cons, if_neg hne]
    · have hkeep : without names ((key, value) :: rest) = (key, value) :: without names rest := by
        simp [without, hkey]
      rw [hkeep, get?_cons, get?_cons, ih]

theorem without_put (entries : Keyed String Value) (h : name ∈ names) (value : Value) :
    without names (put entries name value) = without names entries := by
  induction entries with
  | nil => simp [put, without, h]
  | cons entry rest ih =>
    rcases entry with ⟨key, old⟩
    unfold put
    by_cases hkey : key = name
    · subst hkey
      simp [without, h]
    · rw [if_neg hkey]
      unfold without at ih ⊢
      rw [List.filter_cons, List.filter_cons, ih]

theorem without_erase (entries : Keyed String Value) (h : name ∈ names) :
    without names (erase entries name) = without names entries := by
  unfold without erase
  rw [List.filter_filter]
  refine List.filter_congr fun entry _ => ?_
  have hne : entry.1 ∉ names → entry.1 ≠ name := fun hout heq => hout (heq ▸ h)
  by_cases hout : entry.1 ∉ names
  · simp [hout, hne hout]
  · simp [hout]

end Keyed

/-- Other variables of the innermost level than these have the values and the order they had, and
so have the levels around it. -/
structure Bindings.Untouched (names : List String) (b c : Bindings) : Prop where
  own : Keyed.without names c.own = Keyed.without names b.own
  outer : c.outer = b.outer

namespace Bindings.Untouched

variable {names : List String} {b c d : Bindings}

theorem refl (b : Bindings) : Untouched names b b where
  own := rfl
  outer := rfl

theorem trans (h : Untouched names b c) (h' : Untouched names c d) : Untouched names b d where
  own := h'.own.trans h.own
  outer := h'.outer.trans h.outer

theorem set {name : String} (h : name ∈ names) (b : Bindings) (value : Value) :
    Untouched names b (b.set name value) where
  own := Keyed.without_put b.own h value
  outer := rfl

theorem remove {name : String} (h : name ∈ names) (b : Bindings) :
    Untouched names b (b.remove name) where
  own := Keyed.without_erase b.own h
  outer := rfl

theorem get?_eq (h : Untouched names b c) {name : String} (hname : name ∉ names) :
    Keyed.get? c.own name = Keyed.get? b.own name := by
  rw [← Keyed.get?_without c.own hname, h.own, Keyed.get?_without b.own hname]

end Bindings.Untouched

/-! ## Parts of a run -/

/-- Other variables than these are left alone. -/
def untouching (ε : Type) (names : List String) : Contract ε RunState where
  step s t := s.bindings.Untouched names t.bindings
  error _ := True
  refl s := .refl s.bindings
  trans := .trans

variable {names : List String}

theorem untouching_evaluates : (untouching RuntimeError names).Evaluates where
  note s _ _ := .refl s.bindings
  fail _ := trivial

theorem untouching_record (e : Event) :
    (untouching RuntimeError names).Holds (Action.record e) :=
  holds_modify fun s => .refl s.bindings

theorem untouching_apply (site : Site) (f : Function) (called : Descriptor)
    (params : List Value) :
    (untouching RuntimeError names).Holds (site.apply f called params) := by
  refine holds_work untouching_record (fun s _ => .refl s.bindings) fun s => ?_
  unfold Site.process
  cases f.process { scope := site.scope, params, bindings := site.bindings } s.document with
  | ok status d => exact .refl s.bindings
  | error e d => exact ⟨.refl s.bindings, trivial⟩

theorem untouching_call (site : Site) (catalogue : Catalogue) (d : Descriptor)
    (args : List Argument) :
    (untouching RuntimeError names).Holds (site.call catalogue d args) := by
  have hevaluates : (untouching RuntimeError names).Evaluates := untouching_evaluates
  refine hevaluates.call (fun _ => trivial) (fun _ => trivial) (fun f _ => ?_) site.bindings
  exact { hevaluates with
    gone := fun _ => trivial
    work := fun params bindings => untouching_apply _ f d params }

theorem untouching_assign (frame : Frame) {name : String} (h : name ∈ names) (a : Argument) :
    (untouching RuntimeError names).Holds (frame.assign name a) := by
  have hvalue : (untouching RuntimeError names).Holds (frame.withSite (·.argument a)) :=
    frame.holds_withSite fun _ => untouching_evaluates.argument _ a
  refine holds_bind hvalue fun value => holds_bind (untouching_record _) fun _ => ?_
  exact holds_modify fun s => .set h s.bindings value

theorem untouching_pinned {α : Type} {x : Action α}
    (h : (untouching RuntimeError names).Holds x) (pos : Position) :
    (untouching Stop names).Holds (x.pinned pos) := by
  intro s
  unfold Action.pinned
  cases hx : x s with
  | ok a t => exact h.of_ok hx
  | error e t => exact ⟨(h.of_error hx).1, trivial⟩

theorem untouching_withBindings (b : Bindings) (run : Running Unit) :
    (untouching Stop names).Holds (Running.withBindings b run) := by
  intro s
  unfold Running.withBindings
  cases run { s with bindings := b } with
  | ok a t => exact .refl s.bindings
  | error e t => exact ⟨.refl s.bindings, trivial⟩

/-- An invoked script has variables of its own, so it may do with them what it will. -/
theorem untouching_enter (kind : InvokeKind) (run : Running Unit) :
    (untouching Stop names).Holds (kind.enter run) := by
  cases kind with
  | call => exact fun s => untouching_withBindings .empty run s
  | inclusion => exact fun s => untouching_withBindings s.bindings.push run s

theorem untouching_round {name : String} (h : name ∈ names) {run : Running Unit}
    (hrun : (untouching Stop names).Holds run) (id : AnnotationId) :
    (untouching Stop names).Holds (Setting.round name id run) := by
  refine holds_bind (holds_modify fun s => .refl s.bindings) fun _ => ?_
  intro s
  have hset := Bindings.Untouched.set h s.bindings (.annotations [id])
  unfold Running.withVariable
  cases hr : run { s with bindings := s.bindings.set name (.annotations [id]) } with
  | ok a t => exact (hset.trans (hrun.of_ok hr)).trans (.remove h t.bindings)
  | error e t => exact ⟨(hset.trans (hrun.of_error hr).1).trans (.remove h t.bindings), trivial⟩

/-! ## Statements -/

/-- A contract is a relation that does not look at the second computation. -/
def Contract.congruence {ε σ : Type} (c : Contract ε σ) : Congruence ε σ where
  rel x _ := c.Holds x
  rel_pure a := holds_pure a
  rel_bind hx hf := holds_bind hx hf

variable {env : Setting} {invoke : Invoker}

theorem untouching_looks (frame : Frame) :
    (untouching Stop names).congruence.Looks env frame where
  annotations a pos :=
    untouching_pinned (frame.holds_withSite fun _ => untouching_evaluates.annotations _ trivial) pos
  narrowed id pos := by
    refine untouching_pinned (fun s => ?_) pos
    unfold Frame.narrowed
    cases s.document.narrow? frame.scope id with
    | some scope => exact .refl s.bindings
    | none => exact ⟨.refl s.bindings, trivial⟩
  test a pos :=
    untouching_pinned
      (frame.holds_withSite fun _ => untouching_evaluates.test _ env.conditions a) pos

theorem untouching_command (frame : Frame) (pos : Position) {c : Command}
    (htarget : ∀ name, (Statement.command pos c).target? = some name → name ∈ names)
    (hclear : c ≠ .clearAll) :
    (untouching Stop names).Holds (env.command invoke frame pos c) := by
  cases c with
  | define name value =>
    exact untouching_pinned (untouching_assign frame (htarget name rfl) value) pos
  | clear name => exact holds_modify fun s => .remove (htarget name rfl) s.bindings
  | clearAll => exact absurd rfl hclear
  | function d args =>
    have hcall : (untouching RuntimeError names).Holds
        (frame.withSite (·.call env.catalogue d args)) :=
      frame.holds_withSite fun _ => untouching_call _ env.catalogue d args
    exact untouching_pinned hcall pos
  | invoke kind name set external =>
    rw [Setting.command]
    cases env.target? frame.owner name external with
    | none => exact holds_throw trivial
    | some target =>
      rcases target with ⟨unit, body⟩
      have hlooks : (untouching Stop names).congruence.Looks env frame := untouching_looks frame
      have henter : ∀ scope, (untouching Stop names).congruence.rel
          (kind.enter (invoke unit body scope)) (kind.enter (invoke unit body scope)) :=
        fun scope => untouching_enter kind _
      exact Congruence.rel_invocation hlooks pos set henter

/-- Statements that do not remove all variables leave those alone that are not among their
targets. -/
theorem untouching_block (frame : Frame) {body : List Statement}
    (hclear : ∀ st ∈ Statement.partsAll body, ¬ st.ClearsAll) :
    (untouching Stop (Statement.targets body)).Holds (env.block invoke frame body) := by
  -- The names are those of the whole body, so one contract serves all of its parts.
  have hfits : ∀ part ∈ Statement.partsAll body,
      (untouching Stop (Statement.targets body)).congruence.Fits env invoke invoke frame part := by
    intro part hpart
    cases part with
    | command pos c =>
      refine untouching_command frame pos (fun name => Statement.mem_targets hpart) ?_
      rintro rfl
      exact hclear _ hpart ⟨pos, rfl⟩
    | loop pos name set inner =>
      intro id x y hx
      exact untouching_round (Statement.mem_targets hpart rfl) hx id
    | choice pos branches => trivial
  exact Congruence.rel_block (untouching_looks frame) body hfits

/-! ## Runs -/

namespace Program

/-- A run of a program stops at a statement of its body, or in a script that this invokes. The
variables of the loops around the statement are listed, the outermost first. -/
def StopsInside (p : Program) (catalogue : Catalogue) (conditions : ConditionRule) (depth : Nat)
    (scope : AnnotationId) (s : RunState) (loops : List String) (stop : Stop) : Prop :=
  ∃ below part t, depth = below + 1 ∧
    (p.setting catalogue conditions).Leads ((p.setting catalogue conditions).invoke below)
      { owner := p.main, scope } part t loops p.main.body s ∧
    (p.setting catalogue conditions).Breaks ((p.setting catalogue conditions).invoke below)
      { owner := p.main, scope } part t stop

variable {p : Program} {catalogue : Catalogue} {document : Document} {scope : AnnotationId}
  {bindings : Bindings} {conditions : ConditionRule} {depth : Nat}

theorem run_untouched (hclear : ∀ st ∈ Statement.partsAll p.main.body, ¬ st.ClearsAll) :
    bindings.Untouched (Statement.targets p.main.body)
      (p.run catalogue document scope bindings conditions depth).bindings := by
  unfold Program.run
  cases depth with
  | zero => exact .refl bindings
  | succ below =>
    have hblock : (untouching Stop (Statement.targets p.main.body)).Holds
        ((p.setting catalogue conditions).block ((p.setting catalogue conditions).invoke below)
          { owner := p.main, scope } p.main.body) := untouching_block _ hclear
    cases hrun : (p.setting catalogue conditions).invoke (below + 1) p.main p.main.body scope
        { document, bindings } with
    | ok a t =>
      rw [setting] at hrun
      simp only [hrun]
      exact hblock.of_ok hrun
    | error stop t =>
      rw [setting] at hrun
      simp only [hrun]
      exact (hblock.of_error hrun).1

theorem stopsInside_of_stop {stop : Stop} (hdepth : depth ≠ 0)
    (h : (p.run catalogue document scope bindings conditions depth).stop = some stop) :
    ∃ loops, p.StopsInside catalogue conditions depth scope { document, bindings } loops stop := by
  rcases run_stop_iff.mp h with ⟨t, ht⟩
  cases depth with
  | zero => exact absurd rfl hdepth
  | succ below =>
    rcases Setting.leads_of_block p.main.body ht with ⟨loops, part, u, hleads, hbreaks⟩
    exact ⟨loops, below, part, u, rfl, hleads, hbreaks⟩

theorem stop_of_stopsInside {loops : List String} {stop : Stop}
    (h : p.StopsInside catalogue conditions depth scope { document, bindings } loops stop) :
    (p.run catalogue document scope bindings conditions depth).stop = some stop ∧
    ∀ name ∈ loops, Keyed.get?
      (p.run catalogue document scope bindings conditions depth).bindings.own name = none := by
  rcases h with ⟨below, part, t, rfl, hleads, hbreaks⟩
  rcases Setting.statement_of_breaks hbreaks with ⟨u, hu⟩
  rcases Setting.block_of_leads hleads hu with ⟨v, hv, hgone⟩
  have hrun : p.run catalogue document scope bindings conditions (below + 1) =
      .ofResult (.error stop v) := congrArg Outcome.ofResult hv
  rw [hrun]
  exact ⟨rfl, hgone⟩

/-- A run leaves the variables alone that are no target of a statement in the body of the program,
if none there removes all variables: they have the same values, in the same order, whether the run
comes to its end or not. A run that stops does so at a statement of the body or in a script that
this invokes, and the variables of the loops around the statement are not bound any more. -/
theorem run_variables (p : Program) (catalogue : Catalogue) (document : Document)
    (scope : AnnotationId) (bindings : Bindings) (conditions : ConditionRule) (depth : Nat) :
    ((∀ st ∈ Statement.partsAll p.main.body, ¬ st.ClearsAll) →
      (∀ name ∉ Statement.targets p.main.body,
        Keyed.get? (p.run catalogue document scope bindings conditions depth).bindings.own name =
          Keyed.get? bindings.own name) ∧
      (p.run catalogue document scope bindings conditions depth).bindings.own.filter
          (fun entry => entry.1 ∉ Statement.targets p.main.body) =
        bindings.own.filter (fun entry => entry.1 ∉ Statement.targets p.main.body) ∧
      (p.run catalogue document scope bindings conditions depth).bindings.outer =
        bindings.outer) ∧
    (∀ stop, (p.run catalogue document scope bindings conditions depth).stop = some stop →
      depth ≠ 0 → ∃ loops,
        p.StopsInside catalogue conditions depth scope { document, bindings } loops stop) ∧
    ∀ loops stop,
      p.StopsInside catalogue conditions depth scope { document, bindings } loops stop →
      (p.run catalogue document scope bindings conditions depth).stop = some stop ∧
      ∀ name ∈ loops, Keyed.get?
        (p.run catalogue document scope bindings conditions depth).bindings.own name = none := by
  refine ⟨?_, ?_, ?_⟩
  · intro hclear
    have huntouched : bindings.Untouched (Statement.targets p.main.body)
        (p.run catalogue document scope bindings conditions depth).bindings := run_untouched hclear
    exact ⟨fun name hname => huntouched.get?_eq hname, huntouched.own, huntouched.outer⟩
  · intro stop hstop hdepth
    exact stopsInside_of_stop hdepth hstop
  · intro loops stop hinside
    exact stop_of_stopsInside hinside

/-- A loop whose second statement reads a variable that nobody binds. -/
def scanning : Program where
  main :=
    { body := [.loop { line := 1, text := "for $x $s" } "$x" (.variableRef "$s")
        [.command { line := 2, text := "def $a 1" } (.define "$a" (.literal "1")),
          .command { line := 3, text := "def $b $u" } (.define "$b" (.variableRef "$u"))]] }

/-- Variables before a run, with that of the loop among them. -/
def scanned : Bindings where
  own :=
    [("$c", .string "2"), ("$x", .string "3"), ("$s", .annotations [smallDocument.root]),
      ("$b", .string "4")]

/-- The loop is left in its first round. Its variable is gone, also the one from before, and the
other targets are bound; the rest is as it was. -/
theorem run_variables_scanning :
    Statement.targets scanning.main.body = ["$x", "$a", "$b"] ∧
    (∃ loops stop,
      scanning.StopsInside .empty .selection 1 smallDocument.root
        { document := smallDocument, bindings := scanned } loops stop) ∧
    (scanning.run .empty smallDocument smallDocument.root scanned .selection 1).bindings.own =
      [("$c", .string "2"), ("$s", .annotations [smallDocument.root]), ("$b", .string "4"),
        ("$a", .string "1")] ∧
    (scanning.run .empty smallDocument smallDocument.root scanned .selection 1).bindings.own.filter
        (fun entry => entry.1 ∉ Statement.targets scanning.main.body) =
      scanned.own.filter (fun entry => entry.1 ∉ Statement.targets scanning.main.body) := by
  have hclear : ∀ st ∈ Statement.partsAll scanning.main.body, ¬ st.ClearsAll := by
    simp [scanning, Statement.partsAll, Statement.parts, Statement.ClearsAll]
  have hrun := run_variables scanning .empty smallDocument smallDocument.root scanned .selection 1
  have hstop : (scanning.run .empty smallDocument smallDocument.root scanned .selection 1).stop =
      some (.failed
        { error := .unboundVariable "$u", pos := { line := 3, text := "def $b $u" } }) := rfl
  rcases hrun.2.1 _ hstop (by decide) with ⟨loops, hinside⟩
  exact ⟨by decide, ⟨loops, _, hinside⟩, rfl, (hrun.1 hclear).2.1⟩

end Program

end MarkupScript
