import MarkupScript.Proofs.Function.Catalogue
import MarkupScript.Proofs.Run.Confinement
import MarkupScript.Proofs.Run.Congruence

/-!
# Including a script

An included script runs on a level of its own above the variables of the caller. It reads them all
and leaves them as they were. But for that, it does what its statements would do in its place, as
long as its functions look variables up by their names. A function is handed the levels themselves,
and one that counts them or lists the names of one can tell where it is.

The two runs have their variables on different levels. They stay in step as long as all look-ups
give the same. Assigning keeps that; removing a variable uncovers what is below it, and so the
outer levels have to agree on what is removed.

* `Bindings.Tied`: variables are looked up alike, and some of them also on the outer levels.
* `parallel`: two computations keep their variables tied, and else do the same.
* `deepening`: with more depth a run does the same, unless it was stopped for the lack of it.
* `Function.ReadsByName`: a function looks variables up and does not ask for their levels.
* `inclusion_eq_in_place`: with such functions, an inclusion does what the statements do in place.
* `inclusion_told_apart`: a function that asks for the names of its level tells them apart.
-/

namespace MarkupScript

/-! ## Variables on different levels -/

/-- Variables are looked up alike, and some of them also if they are removed. -/
structure Bindings.Tied (V : String → Prop) (b c : Bindings) : Prop where
  alike : b.Alike c
  outer : ∀ {name}, V name → find? b.outer name = find? c.outer name

namespace Bindings.Tied

variable {V : String → Prop} {b c : Bindings}

theorem set (h : Tied V b c) (name : String) (value : Value) :
    Tied V (b.set name value) (c.set name value) :=
  ⟨h.alike.set name value, h.outer⟩

theorem remove (h : Tied V b c) {name : String} (hname : V name) :
    Tied V (b.remove name) (c.remove name) := by
  refine ⟨?_, h.outer⟩
  intro other
  have hother := h.alike other
  rw [get?_eq, get?_eq] at hother
  rw [get?_eq, get?_eq, Bindings.remove, Bindings.remove, Keyed.get?_erase, Keyed.get?_erase]
  by_cases heq : name = other
  · -- What was below comes to light.
    subst heq
    simpa using h.outer hname
  · simpa [heq, Ne.symm heq] using hother

theorem clear (h : Tied (fun _ => True) b c) : Tied (fun _ => True) b.clear c.clear := by
  refine ⟨?_, h.outer⟩
  intro name
  rw [get?_eq, get?_eq]
  exact h.outer trivial

/-- On new levels all variables are tied. -/
theorem push (h : b.Alike c) : Tied (fun _ => True) b.push c.push :=
  ⟨h.push, fun {name} _ => h name⟩

/-- A new level is tied to the one below it, in what that one does not bind. -/
theorem push_left (b : Bindings) :
    Tied (fun name => Keyed.get? b.own name = none) b.push b := by
  refine ⟨fun _ => rfl, ?_⟩
  intro name hname
  show b.get? name = find? b.outer name
  rw [get?_eq, hname, Option.none_or]

end Bindings.Tied

/-! ## Computations in step -/

/-- Two results are the same but for their variables, and these are tied. -/
inductive Parallel {ε α : Type} (V : String → Prop) :
    EStateM.Result ε RunState α → EStateM.Result ε RunState α → Prop
  | ok (a : α) {s : RunState} {c : Bindings} (h : s.bindings.Tied V c) :
      Parallel V (.ok a s) (.ok a { s with bindings := c })
  | error (e : ε) {s : RunState} {c : Bindings} (h : s.bindings.Tied V c) :
      Parallel V (.error e s) (.error e { s with bindings := c })

/-- From tied variables, two computations do the same and keep the variables tied. -/
def parallel {ε : Type} (V : String → Prop) : Congruence ε RunState where
  rel x y := ∀ s c, s.bindings.Tied V c → Parallel V (x s) (y { s with bindings := c })
  rel_pure a _ _ h := .ok a h
  rel_bind := by
    intro α β x y f g hx hf s c h
    have hfirst := hx s c h
    generalize hr : x s = r at hfirst
    generalize hr' : y { s with bindings := c } = r' at hfirst
    cases hfirst with
    | ok a hnext =>
      rw [bind_of_ok hr, bind_of_ok hr']
      exact hf a _ _ hnext
    | error e hnext =>
      rw [bind_of_error hr, bind_of_error hr']
      exact .error e hnext

/-- A function looks variables up and does not ask for their levels. -/
def Function.ReadsByName (f : Function) : Prop :=
  ∀ scope params b c, b.Alike c →
    f.process { scope, params, bindings := b } = f.process { scope, params, bindings := c }

theorem Standard.readsByName {f : Function} (h : f ∈ Standard.functions) : f.ReadsByName := by
  simp only [Standard.functions, List.mem_cons, List.not_mem_nil, or_false] at h
  rcases h with rfl | rfl | rfl | rfl | rfl | rfl | rfl <;> exact fun _ _ _ _ _ => rfl

section Parallel

variable {V : String → Prop}

theorem parallel_record (e : Event) :
    (parallel V).rel (Action.record e) (Action.record e) :=
  fun s _ h => .ok () (s := { s with events := s.events.push e }) h

theorem parallel_acts : (parallel (ε := RuntimeError) V).Acts where
  look hf := fun s c h => hf s.document s c h
  record _ := parallel_record _
  fail _ := fun _ _ h => .error _ h
  withSite hf := fun s c h => hf s.bindings c h.alike s c h
  set name value := fun s _ h =>
    .ok () (s := { s with bindings := s.bindings.set name value }) (h.set name value)

theorem parallel_works {f : Function} (hf : f.ReadsByName) (scope : AnnotationId)
    (called : Descriptor) : (parallel V).Works scope f called := by
  intro b c halike params
  refine (parallel V).rel_bind (parallel_record _) fun _ => ?_
  refine (parallel V).rel_bind ?_ fun status =>
    (parallel V).rel_bind (parallel_record _) fun _ => ?_
  · intro s c' h
    unfold Site.process
    dsimp only
    rw [hf scope params b c halike]
    cases f.process { scope, params, bindings := c } s.document with
    | ok status d => exact .ok status (s := { s with document := d }) h
    | error e d => exact .error _ (s := { s with document := d }) h
  · cases status with
    | none => exact (parallel V).rel_pure ()
    | some line => exact fun s _ h => .ok () (s := { s with trace := s.trace.push line }) h

theorem parallel_pinned {α : Type} {x y : Action α} (pos : Position) (h : (parallel V).rel x y) :
    (parallel V).rel (x.pinned pos) (y.pinned pos) := by
  intro s c htied
  have hxy := h s c htied
  unfold Action.pinned
  generalize x s = r at hxy ⊢
  generalize y { s with bindings := c } = r' at hxy ⊢
  cases hxy with
  | ok a hnext => exact .ok a hnext
  | error e hnext => exact .error _ hnext

theorem parallel_steps {env : Setting}
    (hf : ∀ d f, env.catalogue.implementation d = some f → f.ReadsByName) (frame : Frame) :
    (parallel V).Steps env frame :=
  parallel_acts.steps (fun d f himpl => parallel_works (hf d f himpl) frame.scope d)
    parallel_pinned

/-- A round ends with the removal of its variable. -/
theorem parallel_round {name : String} (hname : V name) (id : AnnotationId) {x y : Running Unit}
    (h : (parallel V).rel x y) :
    (parallel V).rel (Setting.round name id x) (Setting.round name id y) := by
  refine (parallel V).rel_bind ?_ fun _ => ?_
  · exact fun s _ htied => .ok () (s := { s with events := s.events.push _ }) htied
  · intro s c htied
    have hxy := h { s with bindings := s.bindings.set name (.annotations [id]) } _
      (htied.set name (.annotations [id]))
    unfold Running.withVariable
    dsimp only at hxy ⊢
    generalize x _ = r at hxy ⊢
    generalize y _ = r' at hxy ⊢
    cases hxy with
    | @ok a t d hnext =>
      exact .ok a (s := { t with bindings := t.bindings.remove name }) (hnext.remove hname)
    | @error e t d hnext =>
      exact .error e (s := { t with bindings := t.bindings.remove name }) (hnext.remove hname)

/-- With other variables for a time, the variables from before stay tied. -/
theorem parallel_withBindings {b c : Bindings} (hstart : b.Tied (fun _ => True) c)
    {x y : Running Unit} (h : (parallel fun _ => True).rel x y) {s : RunState} {d : Bindings}
    (htied : s.bindings.Tied V d) :
    Parallel V (Running.withBindings b x s)
      (Running.withBindings c y { s with bindings := d }) := by
  have hxy := h { s with bindings := b } c hstart
  unfold Running.withBindings
  dsimp only at hxy ⊢
  generalize x _ = r at hxy ⊢
  generalize y _ = r' at hxy ⊢
  cases hxy with
  | @ok a t e _ => exact .ok a (s := { t with bindings := s.bindings }) htied
  | @error stop t e _ => exact .error stop (s := { t with bindings := s.bindings }) htied

/-- An invoked script has all its variables tied, whichever of the caller are. -/
theorem parallel_enter (kind : InvokeKind) {x y : Running Unit}
    (h : (parallel fun _ => True).rel x y) :
    (parallel V).rel (kind.enter x) (kind.enter y) := by
  intro s c htied
  cases kind with
  | call => exact parallel_withBindings ⟨fun _ => rfl, fun _ => rfl⟩ h htied
  | inclusion => exact parallel_withBindings (.push htied.alike) h htied

theorem parallel_uniform {env : Setting}
    (hf : ∀ d f, env.catalogue.implementation d = some f → f.ReadsByName) :
    (parallel fun _ => True).Uniform env where
  steps := parallel_steps hf
  clear name := fun s _ h =>
    .ok () (s := { s with bindings := s.bindings.remove name }) (h.remove trivial)
  clearAll := fun s _ h => .ok () (s := { s with bindings := s.bindings.clear }) h.clear
  round _ id := parallel_round trivial id
  enter := parallel_enter

/-- A statement removes variables from the level it runs on. -/
def Statement.Clears : Statement → Prop
  | .command _ (.clear _) | .command _ .clearAll => True
  | .command _ (.define _ _) | .command _ (.function _ _) | .command _ (.invoke _ _ _ _)
  | .loop _ _ _ _ | .choice _ _ => False

/-- Statements stay in step if they remove nothing but the variables of their loops, and these
are tied. What they invoke may remove what it will. -/
theorem parallel_block {env : Setting}
    (hf : ∀ d f, env.catalogue.implementation d = some f → f.ReadsByName) (frame : Frame)
    {body : List Statement} (hclear : ∀ part ∈ Statement.partsAll body, ¬ part.Clears)
    (hloops : ∀ part ∈ Statement.partsAll body, ∀ name, part.loopName? = some name → V name)
    (depth : Nat) :
    (parallel V).rel (env.block (env.invoke depth) frame body)
      (env.block (env.invoke depth) frame body) := by
  have hinvoke : ∀ unit body scope, (parallel fun _ => True).rel
      (env.invoke depth unit body scope) (env.invoke depth unit body scope) :=
    (parallel_uniform hf).invoke 0 (fun _ _ _ => fun _ _ h => .error _ h) depth
  refine Congruence.rel_block (parallel_steps hf frame).toLooks body ?_
  intro part hpart
  cases part with
  | loop pos name set inner => exact fun id _ _ => parallel_round (hloops _ hpart name rfl) id
  | choice pos branches => trivial
  | command pos c =>
    refine Congruence.rel_command (parallel_steps hf frame) pos ?_ ?_ fun kind unit body scope =>
      parallel_enter kind (hinvoke unit body scope)
    · rintro name rfl
      exact hclear _ hpart trivial
    · rintro rfl
      exact hclear _ hpart trivial

end Parallel

/-! ## Depth -/

/-- The first computation is stopped for lack of depth, or the second does the same. -/
def deepening : Congruence Stop RunState where
  rel x y := ∀ s, x s = y s ∨ ∃ t, x s = .error .tooDeep t
  rel_pure _ _ := .inl rfl
  rel_bind := by
    intro α β x y f g hx hf s
    rcases hx s with heq | ⟨t, ht⟩
    · cases hy : y s with
      | ok a t =>
        rw [bind_of_ok hy, bind_of_ok (heq.trans hy)]
        exact hf a t
      | error e t =>
        rw [bind_of_error hy, bind_of_error (heq.trans hy)]
        exact .inl rfl
    · exact .inr ⟨t, bind_of_error ht⟩

theorem deepening_refl {α : Type} (x : Running α) : deepening.rel x x := fun _ => .inl rfl

theorem deepening_withBindings {x y : Running Unit} (h : deepening.rel x y) (b : Bindings) :
    deepening.rel (Running.withBindings b x) (Running.withBindings b y) := by
  intro s
  unfold Running.withBindings
  rcases h { s with bindings := b } with heq | ⟨t, ht⟩
  · rw [heq]
    exact .inl rfl
  · rw [ht]
    exact .inr ⟨_, rfl⟩

theorem deepening_uniform (env : Setting) : deepening.Uniform env where
  steps _ :=
    { annotations := fun _ _ => deepening_refl _
      narrowed := fun _ _ => deepening_refl _
      test := fun _ _ => deepening_refl _
      assign := fun _ _ _ => deepening_refl _
      call := fun _ _ _ => deepening_refl _
      missing := fun _ _ => deepening_refl _ }
  clear _ := deepening_refl _
  clearAll := deepening_refl _
  round name id {x y} h := by
    refine deepening.rel_bind (deepening_refl _) fun _ => ?_
    intro s
    unfold Running.withVariable
    rcases h { s with bindings := s.bindings.set name (.annotations [id]) } with heq | ⟨t, ht⟩
    · rw [heq]
      exact .inl rfl
    · rw [ht]
      exact .inr ⟨_, rfl⟩
  enter kind {x y} h := by
    intro s
    cases kind with
    | call => exact deepening_withBindings h .empty s
    | inclusion => exact deepening_withBindings h s.bindings.push s

/-- One more level of depth changes nothing, unless it was missing. -/
theorem deepening_block (env : Setting) (frame : Frame) (body : List Statement) (depth : Nat) :
    deepening.rel (env.block (env.invoke depth) frame body)
      (env.block (env.invoke (depth + 1)) frame body) :=
  (deepening_uniform env).invoke 1 (fun _ _ _ s => .inr ⟨s, rfl⟩) (depth + 1) frame.owner body
    frame.scope

/-! ## Inclusions -/

namespace Setting

variable {env : Setting} {owner : ScriptUnit} {name : String} {body : List Statement}

/-- The statement that includes a sub-script in the scope it stands in. -/
def including (pos : Position) (name : String) : Statement :=
  .command pos (.invoke .inclusion name none false)

theorem statement_including (inv : Invoker) (hsub : Keyed.get? owner.subs name = some body)
    (scope : AnnotationId) (pos : Position) (s : RunState) :
    env.statement inv { owner, scope } (including pos name) s =
      Running.withBindings s.bindings.push (inv owner body scope) s := by
  have htarget : env.target? owner name false = some (owner, body) := by
    simp [target?, hsub]
  rw [including, statement, command, htarget]
  rfl

theorem ofResult_withBindings {V : String → Prop} {b : Bindings} {x : Running Unit} {s : RunState}
    {result : EStateM.Result Stop RunState Unit}
    (h : Parallel V (x { s with bindings := b }) result) :
    Outcome.ofResult (Running.withBindings b x s) =
      { Outcome.ofResult result with bindings := s.bindings } := by
  unfold Running.withBindings
  generalize x { s with bindings := b } = r at h ⊢
  cases h with
  | ok a _ => rfl
  | error e _ => rfl

/-- An inclusion with one more level of depth leaves what the statements in its place leave,
but for the variables. -/
theorem ofResult_including
    (hf : ∀ d f, env.catalogue.implementation d = some f → f.ReadsByName)
    (hsub : Keyed.get? owner.subs name = some body)
    (hclear : ∀ part ∈ Statement.partsAll body, ¬ part.Clears) {s : RunState}
    (hloops : ∀ part ∈ Statement.partsAll body, ∀ x, part.loopName? = some x →
      Keyed.get? s.bindings.own x = none)
    (scope : AnnotationId) (pos : Position) (depth : Nat) :
    Outcome.ofResult (env.statement (env.invoke (depth + 1)) { owner, scope }
        (including pos name) s) =
      { Outcome.ofResult (env.block (env.invoke depth) { owner, scope } body s) with
        bindings := s.bindings } := by
  rw [statement_including _ hsub]
  exact ofResult_withBindings
    (parallel_block hf { owner, scope } hclear hloops depth { s with bindings := s.bindings.push }
      s.bindings (.push_left s.bindings))

/-! ### A sub-script to include -/

open Document (smallId smallDocument)

/-- The statements of a sub-script: it prints the words and gives another value to a variable. -/
def listing : List Statement :=
  [.loop { line := 4, text := "for $w \x7b//w\x7d" } "$w" (.annotationSet "\x7b//w\x7d")
     [.command { line := 5, text := "print $w" }
       (.function Standard.print.descriptor [.variableRef "$w"])],
   .command { line := 7, text := "def $x inner" } (.define "$x" (.literal "inner")),
   .command { line := 8, text := "print $x" }
     (.function Standard.print.descriptor [.variableRef "$x"])]

def lister : ScriptUnit := { body := [], subs := [("list", listing)] }

def plainSetting : Setting := { catalogue := Program.plainCatalogue }

/-- The caller has a variable of the name that the sub-script assigns. -/
def callerState : RunState :=
  { document := smallDocument, bindings := { own := [("$x", .string "outer")] } }

def callerPosition : Position := { line := 1, text := "include list" }

theorem plainSetting_readsByName {d : Descriptor} {f : Function}
    (h : plainSetting.catalogue.implementation d = some f) : f.ReadsByName := by
  rcases Catalogue.mem_of_withStandard Program.plainCatalogue_eq h with hstandard | hother
  · exact Standard.readsByName hstandard
  · cases hother

/-! ### The main theorem -/

/-- Including a sub-script that removes no variables but those of its loops, where the caller
binds none of these on its own level, gives the same trace, events and document and the same
failure as the statements of the sub-script in place, and leaves the variables of the caller as
they were. The functions have to look variables up by name, as the standard ones do
(`Standard.readsByName`), and not to ask for levels. One level of depth goes to the inclusion
itself; it makes no difference unless the run is stopped for the lack of it. -/
theorem inclusion_eq_in_place
    (hf : ∀ d f, env.catalogue.implementation d = some f → f.ReadsByName)
    (hsub : Keyed.get? owner.subs name = some body)
    (hclear : ∀ part ∈ Statement.partsAll body, ¬ part.Clears) {s : RunState}
    (hloops : ∀ part ∈ Statement.partsAll body, ∀ x, part.loopName? = some x →
      Keyed.get? s.bindings.own x = none)
    (scope : AnnotationId) (pos : Position) (depth : Nat) :
    Outcome.ofResult (env.statement (env.invoke (depth + 1)) { owner, scope }
          (including pos name) s) =
        { Outcome.ofResult (env.block (env.invoke depth) { owner, scope } body s) with
          bindings := s.bindings } ∧
      ((Outcome.ofResult (env.statement (env.invoke depth) { owner, scope }
          (including pos name) s)).stop ≠ some .tooDeep →
        Outcome.ofResult (env.statement (env.invoke depth) { owner, scope }
            (including pos name) s) =
          { Outcome.ofResult (env.block (env.invoke depth) { owner, scope } body s) with
            bindings := s.bindings }) := by
  refine ⟨ofResult_including hf hsub hclear hloops scope pos depth, ?_⟩
  intro hstop
  cases depth with
  | zero =>
    rw [statement_including _ hsub] at hstop
    exact absurd rfl hstop
  | succ depth =>
    have hshallow := ofResult_including hf hsub hclear hloops scope pos depth
    rw [hshallow] at hstop ⊢
    rcases deepening_block env { owner, scope } body depth s with heq | ⟨t, ht⟩
    · rw [heq]
    · rw [ht] at hstop
      exact absurd rfl hstop

theorem inclusion_of_listing :
    Keyed.get? lister.subs "list" = some listing ∧
      (∀ part ∈ Statement.partsAll listing, ¬ part.Clears) ∧
      (Outcome.ofResult (plainSetting.statement (plainSetting.invoke 1)
        { owner := lister, scope := smallId 1 } (including callerPosition "list")
        callerState)).trace = ["Hello", "world", "inner"] ∧
      ((Outcome.ofResult (plainSetting.statement (plainSetting.invoke 1)
        { owner := lister, scope := smallId 1 } (including callerPosition "list")
        callerState)).bindings.get? "$x").map Value.text = some "outer" := by
  have hsub : Keyed.get? lister.subs "list" = some listing := rfl
  have hclear : ∀ part ∈ Statement.partsAll listing, ¬ part.Clears := by
    simp [listing, Statement.partsAll, Statement.parts, Statement.Clears]
  have hfree : Keyed.get? callerState.bindings.own "$w" = none := rfl
  have hloops : ∀ part ∈ Statement.partsAll listing, ∀ x, part.loopName? = some x →
      Keyed.get? callerState.bindings.own x = none := by
    simpa [listing, Statement.partsAll, Statement.parts] using hfree
  have hin := (inclusion_eq_in_place (fun _ _ => plainSetting_readsByName) hsub hclear hloops
    (smallId 1) callerPosition 0).1
  rw [hin]
  exact ⟨hsub, hclear, by decide +kernel, rfl⟩

/-! ### A function that looks at levels -/

/-- Gives back the names of the level that it is called on. -/
def ownNames : Function where
  descriptor := { name := "ownNames", params := [] }
  process call := pure (some (" ".intercalate call.bindings.names))

def namesSetting : Setting := { catalogue := { functions := [("ownNames", [ownNames])] } }

/-- The statements of a sub-script that does nothing but call this function. -/
def asking : List Statement :=
  [.command { line := 3, text := "ownNames" } (.function ownNames.descriptor [])]

def asker : ScriptUnit := { body := [], subs := [("ask", asking)] }

/-- The condition on functions cannot be dropped. In place this function sees the variable of the
caller, and in an included script the empty level that was opened for it. -/
theorem inclusion_told_apart :
    Keyed.get? asker.subs "ask" = some asking ∧
      (∀ part ∈ Statement.partsAll asking, ¬ part.Clears ∧ part.loopName? = none) ∧
      ¬ ownNames.ReadsByName ∧
      (Outcome.ofResult (namesSetting.block (namesSetting.invoke 1)
        { owner := asker, scope := smallId 1 } asking callerState)).trace = ["$x"] ∧
      (Outcome.ofResult (namesSetting.statement (namesSetting.invoke 1)
        { owner := asker, scope := smallId 1 } (including callerPosition "ask")
        callerState)).trace = [""] := by
  refine ⟨rfl, ?_, ?_, by decide +kernel, by decide +kernel⟩
  · simp [asking, Statement.partsAll, Statement.parts, Statement.Clears, Statement.loopName?]
  · intro hreads
    have hsame := hreads (smallId 1) [] callerState.bindings.push callerState.bindings
      fun _ => rfl
    have hline := congrFun hsame smallDocument
    have htext : some (" ".intercalate callerState.bindings.push.names) =
        some (" ".intercalate callerState.bindings.names) := by
      injection hline
    exact absurd htext (by decide)

end Setting

end MarkupScript
