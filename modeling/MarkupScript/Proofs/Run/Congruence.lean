import MarkupScript.Proofs.Expression.Agreement
import MarkupScript.Proofs.Script.Grammar
import MarkupScript.Run.Program

/-!
# Relations between runs

Two runs of the same statements may start with other variables, or with other means of invoking
scripts. What is to be said of both at once is a relation between computations that sequencing
keeps. It is enough to check it where a run reads, where it calls a function and where it changes
the variables; the rest follows the statements.

* `Congruence`: a relation that `pure` and sequencing keep.
* `Congruence.Acts`: it holds of reading and assigning. Then it holds of every call of a
  function, for variables that are looked up alike (`rel_call`).
* `Congruence.Looks`: it holds of what a statement looks at in a frame. Then it holds of
  statements (`rel_block`), if it holds of their commands and loops.
* `Congruence.Steps`: it holds of all parts of a statement. Then it holds of commands
  (`rel_command`).
* `Congruence.Uniform`: it holds in every frame. Then it holds of invoked scripts
  (`Uniform.invoke`), at any depth.

A property of single runs is a relation that does not look at the second computation.
-/

namespace MarkupScript

section Sequencing

variable {ε σ α β : Type} {x : EStateM ε σ α} {f : α → EStateM ε σ β} {s t : σ}

theorem bind_of_ok {a : α} (h : x s = .ok a t) : (x >>= f) s = f a t := by
  show EStateM.bind x f s = f a t
  rw [EStateM.bind, h]

theorem bind_of_error {e : ε} (h : x s = .error e t) : (x >>= f) s = .error e t := by
  show EStateM.bind x f s = .error e t
  rw [EStateM.bind, h]

end Sequencing

/-- A relation between computations that sequencing keeps. -/
structure Congruence (ε σ : Type) where
  rel : {α : Type} → EStateM ε σ α → EStateM ε σ α → Prop
  rel_pure : ∀ {α : Type} (a : α), rel (pure a) (pure a)
  rel_bind : ∀ {α β : Type} {x y : EStateM ε σ α} {f g : α → EStateM ε σ β},
    rel x y → (∀ a, rel (f a) (g a)) → rel (x >>= f) (y >>= g)

namespace Congruence

variable {ε σ α β : Type} {A : Congruence ε σ}

theorem rel_forM {f g : α → EStateM ε σ PUnit} (h : ∀ a, A.rel (f a) (g a)) (items : List α) :
    A.rel (items.forM f) (items.forM g) := by
  induction items with
  | nil => exact A.rel_pure _
  | cons a rest ih => exact A.rel_bind (h a) fun _ => ih

theorem rel_mapM {f g : α → EStateM ε σ β} (h : ∀ a, A.rel (f a) (g a)) (items : List α) :
    A.rel (items.mapM f) (items.mapM g) := by
  induction items with
  | nil => exact A.rel_pure _
  | cons a rest ih =>
    rw [List.mapM_cons, List.mapM_cons]
    refine A.rel_bind (h a) fun b => ?_
    exact A.rel_bind ih fun bs => A.rel_pure _

end Congruence

/-! ## Variables that are looked up alike -/

/-- Every variable is looked up alike, on whatever level it is bound. -/
def Bindings.Alike (b c : Bindings) : Prop :=
  ∀ name, b.get? name = c.get? name

theorem Bindings.Alike.set {b c : Bindings} (h : b.Alike c) (name : String) (value : Value) :
    (b.set name value).Alike (c.set name value) := by
  intro other
  rw [get?_set, get?_set, h other]

theorem Bindings.Alike.push {b c : Bindings} (h : b.Alike c) : b.push.Alike c.push := h

/-! ## What is read of the document -/

/-- An event is not of a function at work. -/
def Event.IsPlain : Event → Prop
  | .assigned _ _ | .iterated _ _ | .evaluated _ _ => True
  | .invoking _ _ | .invoked _ _ => False

/-- Takes what was found, or fails. -/
def Action.require {α : Type} (e : RuntimeError) : Option α → Action α
  | some a => pure a
  | none => throw e

/-- Notes what an expression gave, or fails. -/
def Action.settle {α : Type} (text : String) (value : α → Value) : Except EvalError α → Action α
  | .ok a => do
    Action.record (.evaluated text (value a))
    return a
  | .error e => throw (.ofEval text e)

theorem Site.evaluate_eq {α : Type} (site : Site) (text : String)
    (read : View → Except EvalError α) (value : α → Value) :
    site.evaluate text read value =
      fun s => Action.settle text value (read (site.view s.document)) s := by
  funext s
  unfold evaluate
  cases read (site.view s.document) with
  | ok a => rfl
  | error e => rfl

theorem Site.member_eq (site : Site) (id : AnnotationId) :
    site.member id = fun s =>
      Action.require (.detached id) ((s.document.valueOf site.scope id).map .string) s := by
  funext s
  have hget : (get : Action RunState) s = .ok s s := rfl
  unfold member
  rw [bind_of_ok hget]
  cases s.document.valueOf site.scope id with
  | some text => rfl
  | none => rfl

theorem Frame.narrowed_eq (frame : Frame) (id : AnnotationId) :
    frame.narrowed id = fun s =>
      Action.require (.detached id) (s.document.narrow? frame.scope id) s := by
  funext s
  unfold narrowed
  cases s.document.narrow? frame.scope id with
  | some scope => rfl
  | none => rfl

namespace Congruence

/-! ## Parts of one statement -/

/-- A relation holds of what a statement reads and assigns. Where a frame hands its variables
on, it is enough to look at variables that are looked up alike. -/
structure Acts (A : Congruence RuntimeError RunState) : Prop where
  look : ∀ {α : Type} {f g : Document → Action α}, (∀ d, A.rel (f d) (g d)) →
    A.rel (fun s => f s.document s) (fun s => g s.document s)
  record : ∀ {e : Event}, e.IsPlain → A.rel (Action.record e) (Action.record e)
  fail : ∀ {α : Type} {e : RuntimeError}, (∀ name cause, e ≠ .function name cause) →
    A.rel (throw e : Action α) (throw e)
  withSite : ∀ {α : Type} {frame : Frame} {action : Site → Action α},
    (∀ b c, b.Alike c → A.rel (action { scope := frame.scope, bindings := b })
      (action { scope := frame.scope, bindings := c })) →
    A.rel (frame.withSite action) (frame.withSite action)
  set : ∀ name value,
    A.rel (modify fun s => { s with bindings := s.bindings.set name value } : Action Unit)
      (modify fun s => { s with bindings := s.bindings.set name value })

section Documents

variable {A : Congruence RuntimeError RunState} (hA : A.Acts)

include hA

theorem rel_require {α : Type} {e : RuntimeError} (he : ∀ name cause, e ≠ .function name cause)
    (found : Option α) : A.rel (Action.require e found) (Action.require e found) := by
  cases found with
  | some a => exact A.rel_pure a
  | none => exact hA.fail he

theorem rel_settle {α : Type} (text : String) (value : α → Value) (result : Except EvalError α) :
    A.rel (Action.settle text value result) (Action.settle text value result) := by
  cases result with
  | ok a => exact A.rel_bind (hA.record trivial) fun _ => A.rel_pure a
  | error e =>
    refine hA.fail ?_
    cases e <;> simp [RuntimeError.ofEval]

theorem rel_member {site site' : Site} (h : site.scope = site'.scope) (id : AnnotationId) :
    A.rel (site.member id) (site'.member id) := by
  rw [Site.member_eq, Site.member_eq, h]
  exact hA.look
    (f := fun d => Action.require (.detached id) ((d.valueOf site'.scope id).map Value.string))
    fun d => rel_require hA (by simp) _

theorem rel_narrowed (frame : Frame) (id : AnnotationId) :
    A.rel (frame.narrowed id) (frame.narrowed id) := by
  rw [Frame.narrowed_eq]
  exact hA.look (f := fun d => Action.require (.detached id) (d.narrow? frame.scope id))
    fun d => rel_require hA (by simp) _

end Documents

section Reading

variable {A : Congruence RuntimeError RunState} (hA : A.Acts) {scope : AnnotationId}
  {b c : Bindings} (h : b.Alike c)

include hA h

theorem rel_evaluate {α : Type} {read : View → Except EvalError α}
    (hread : ∀ {v w : View}, v.Agrees w → read v = read w) (text : String) (value : α → Value) :
    A.rel (Site.evaluate { scope, bindings := b } text read value)
      (Site.evaluate { scope, bindings := c } text read value) := by
  rw [Site.evaluate_eq, Site.evaluate_eq]
  refine hA.look (f := fun d => Action.settle text value (read (Site.view { scope, bindings := b } d)))
    (g := fun d => Action.settle text value (read (Site.view { scope, bindings := c } d))) ?_
  intro d
  have hview : read (Site.view { scope, bindings := b } d) =
      read (Site.view { scope, bindings := c } d) :=
    hread (View.agrees_of_bindings h d scope)
  rw [hview]
  exact rel_settle hA text value _

theorem rel_path (text : String) :
    A.rel (Site.path { scope, bindings := b } text) (Site.path { scope, bindings := c } text) :=
  rel_evaluate hA h (fun hv => hv.path_eq text) text .annotations

theorem rel_lookup (name : String) :
    A.rel (Site.lookup { scope, bindings := b } name)
      (Site.lookup { scope, bindings := c } name) := by
  unfold Site.lookup
  rw [show c.get? name = b.get? name from (h name).symm]
  cases b.get? name with
  | some value => exact A.rel_pure value
  | none => exact hA.fail (by simp)

theorem rel_argument (a : Argument) :
    A.rel (Site.argument { scope, bindings := b } a)
      (Site.argument { scope, bindings := c } a) := by
  cases a with
  | literal text => exact A.rel_pure _
  | expression text => exact rel_evaluate hA h (fun hv => hv.expression_eq _) _ id
  | annotationSet text => exact A.rel_bind (rel_path hA h _) fun ids => A.rel_pure _
  | variableRef name => exact rel_lookup hA h name

theorem rel_annotations (a : Argument) :
    A.rel (Site.annotations { scope, bindings := b } a)
      (Site.annotations { scope, bindings := c } a) := by
  refine A.rel_bind (rel_argument hA h a) fun value => ?_
  cases value with
  | annotations ids => exact A.rel_pure ids
  | _ => exact hA.fail (by simp)

theorem rel_test (rule : ConditionRule) (a : Argument) :
    A.rel (Site.test { scope, bindings := b } rule a)
      (Site.test { scope, bindings := c } rule a) := by
  have hvalue : A.rel
      (do let value ← Site.argument { scope, bindings := b } a; return value.truth)
      (do let value ← Site.argument { scope, bindings := c } a; return value.truth) :=
    A.rel_bind (rel_argument hA h a) fun value => A.rel_pure value.truth
  cases a with
  | expression text =>
    cases rule with
    | selection => exact rel_evaluate hA h (fun hv => hv.condition_eq _) _ .boolean
    | coerced => exact rel_evaluate hA h (fun hv => hv.coercedCondition_eq _) _ .boolean
  | literal text => exact hvalue
  | annotationSet text => exact hvalue
  | variableRef name => exact hvalue

theorem rel_slot (arity : Nat) (a : Argument) :
    A.rel (Site.slot { scope, bindings := b } arity a)
      (Site.slot { scope, bindings := c } arity a) := by
  cases a with
  | variableRef name =>
    rw [Site.slot, Site.slot, show c.get? name = b.get? name from (h name).symm]
    cases b.get? name with
    | some value => exact A.rel_pure _
    | none =>
      dsimp only
      split
      · exact A.rel_pure _
      · exact hA.fail (by simp)
  | literal text => exact A.rel_pure _
  | expression text => exact A.rel_pure _
  | annotationSet text => exact A.rel_pure _

theorem rel_toAnnotations (value : Value) :
    A.rel (Site.toAnnotations { scope, bindings := b } value)
      (Site.toAnnotations { scope, bindings := c } value) := by
  cases value with
  | annotations ids => exact A.rel_pure ids
  | boolean x => exact rel_path hA h (Value.boolean x).text
  | number x => exact rel_path hA h (Value.number x).text
  | string text => exact rel_path hA h (Value.string text).text

theorem rel_setFor (slot : Slot) :
    A.rel (Site.setFor { scope, bindings := b } slot)
      (Site.setFor { scope, bindings := c } slot) := by
  cases slot with
  | read value => exact rel_toAnnotations hA h value
  | deferred a =>
    cases a with
    | variableRef name => exact A.rel_bind (rel_lookup hA h name) (rel_toAnnotations hA h)
    | literal text => exact rel_path hA h (Argument.literal text).inner
    | expression text => exact rel_path hA h (Argument.expression text).inner
    | annotationSet text => exact rel_path hA h (Argument.annotationSet text).inner

theorem rel_valueFor (slot : Slot) :
    A.rel (Site.valueFor { scope, bindings := b } slot)
      (Site.valueFor { scope, bindings := c } slot) := by
  cases slot with
  | read value => exact A.rel_pure value
  | deferred a => exact rel_argument hA h a

end Reading

section Calls

variable {A : Congruence RuntimeError RunState}

/-- A relation holds of a function at work in a scope, on any values. -/
def Works (A : Congruence RuntimeError RunState) (scope : AnnotationId) (f : Function)
    (called : Descriptor) : Prop :=
  ∀ b c, b.Alike c → ∀ params, A.rel (Site.apply { scope, bindings := b } f called params)
    (Site.apply { scope, bindings := c } f called params)

theorem rel_bindFrom (hA : A.Acts) {scope : AnnotationId} {f : Function} {called : Descriptor}
    (hf : A.Works scope f called) (slots : List (Slot × ParameterType)) {b c : Bindings}
    (h : b.Alike c) (params : List Value) :
    A.rel (Site.bindFrom f called slots { scope, bindings := b } params)
      (Site.bindFrom f called slots { scope, bindings := c } params) := by
  induction slots generalizing b c params with
  | nil => exact hf b c h params
  | cons first rest ih =>
    obtain ⟨slot, type⟩ := first
    -- One more position is bound, on a level of its own and to the same value.
    have hnext : ∀ value, A.rel
        (Site.bindFrom f called rest (Site.bound { scope, bindings := b } (params.length + 1) value)
          (params ++ [value]))
        (Site.bindFrom f called rest (Site.bound { scope, bindings := c } (params.length + 1) value)
          (params ++ [value])) := by
      intro value
      exact ih (h.push.set _ value) _
    cases type with
    | annotationSet =>
      rw [Site.bindFrom, Site.bindFrom]
      exact A.rel_bind (rel_setFor hA h slot) fun ids => hnext (.annotations ids)
    | scalar =>
      rw [Site.bindFrom, Site.bindFrom]
      refine A.rel_bind (rel_valueFor hA h slot) fun value => ?_
      cases value with
      | annotations ids =>
        refine rel_forM (fun id => ?_) ids
        exact A.rel_bind (rel_member hA rfl id) hnext
      | boolean x => exact hnext (.boolean x)
      | number x => exact hnext (.number x)
      | string text => exact hnext (.string text)

theorem rel_call (hA : A.Acts) {scope : AnnotationId} {catalogue : Catalogue} {d : Descriptor}
    (hf : ∀ f, catalogue.implementation d = some f → A.Works scope f d)
    (args : List Argument) {b c : Bindings} (h : b.Alike c) :
    A.rel (Site.call { scope, bindings := b } catalogue d args)
      (Site.call { scope, bindings := c } catalogue d args) := by
  unfold Site.call
  cases himpl : catalogue.implementation d with
  | none => exact hA.fail (by simp)
  | some f =>
    by_cases hlen : args.length < d.arity
    · simp only [if_pos hlen]
      exact hA.fail (by simp)
    · simp only [if_neg hlen]
      refine A.rel_bind (rel_mapM (fun a => rel_slot hA h d.arity a) _) fun slots => ?_
      exact rel_bindFrom hA (hf f himpl) _ h []

end Calls

/-! ## Statements -/

/-- A relation holds of what statements of a frame look at: the sets of loops and invocations, and
conditions. -/
structure Looks (K : Congruence Stop RunState) (env : Setting) (frame : Frame) : Prop where
  annotations : ∀ a pos,
    K.rel ((frame.annotations a).pinned pos) ((frame.annotations a).pinned pos)
  narrowed : ∀ id pos, K.rel ((frame.narrowed id).pinned pos) ((frame.narrowed id).pinned pos)
  test : ∀ a pos, K.rel ((frame.withSite (·.test env.conditions a)).pinned pos)
    ((frame.withSite (·.test env.conditions a)).pinned pos)

/-- A relation holds of the parts of the statements of a frame. -/
structure Steps (K : Congruence Stop RunState) (env : Setting) (frame : Frame) : Prop
    extends K.Looks env frame where
  assign : ∀ name a pos,
    K.rel ((frame.assign name a).pinned pos) ((frame.assign name a).pinned pos)
  call : ∀ d args pos, K.rel ((frame.withSite (·.call env.catalogue d args)).pinned pos)
    ((frame.withSite (·.call env.catalogue d args)).pinned pos)
  missing : ∀ name pos,
    K.rel (throw (.failed { error := .missingScript name, pos }) : Running Unit)
      (throw (.failed { error := .missingScript name, pos }))

/-- What holds of the parts of one statement holds of them with their errors pinned. -/
theorem Acts.steps {A : Congruence RuntimeError RunState} {K : Congruence Stop RunState}
    (hA : A.Acts) {env : Setting} {frame : Frame}
    (hf : ∀ d f, env.catalogue.implementation d = some f → A.Works frame.scope f d)
    (hpin : ∀ {α : Type} {x y : Action α} (pos : Position), A.rel x y →
      K.rel (x.pinned pos) (y.pinned pos)) : K.Steps env frame where
  annotations a pos := hpin pos (hA.withSite fun _ _ h => rel_annotations hA h a)
  narrowed id pos := hpin pos (rel_narrowed hA frame id)
  test a pos := hpin pos (hA.withSite fun _ _ h => rel_test hA h env.conditions a)
  assign name a pos := by
    refine hpin pos (A.rel_bind (hA.withSite fun _ _ h => rel_argument hA h a) fun value => ?_)
    exact A.rel_bind (hA.record trivial) fun _ => hA.set name value
  call d args pos := hpin pos (hA.withSite fun _ _ h => rel_call hA (hf d) args h)
  missing name pos := by
    have hfail : A.rel (throw (.missingScript name) : Action Unit) (throw (.missingScript name)) :=
      hA.fail (by simp)
    exact hpin pos hfail

section Statements

variable {K : Congruence Stop RunState} {env : Setting} {frame : Frame} {inv inv' : Invoker}

theorem rel_invocation (hK : K.Looks env frame) (pos : Position) (set : Option Argument)
    {run run' : AnnotationId → Running Unit} (h : ∀ scope, K.rel (run scope) (run' scope)) :
    K.rel (Setting.invocation frame pos set run) (Setting.invocation frame pos set run') := by
  cases set with
  | none => exact h frame.scope
  | some a =>
    refine K.rel_bind (hK.annotations a pos) fun ids => rel_forM (fun id => ?_) ids
    exact K.rel_bind (hK.narrowed id pos) h

/-- A relation holds of a command that removes no variables, if it holds of the scripts that
the command invokes. -/
theorem rel_command (hK : K.Steps env frame) (pos : Position) {c : Command}
    (hclear : ∀ name, c ≠ .clear name) (hclearAll : c ≠ .clearAll)
    (hinv : ∀ (kind : InvokeKind) unit body scope,
      K.rel (kind.enter (inv unit body scope)) (kind.enter (inv' unit body scope))) :
    K.rel (env.command inv frame pos c) (env.command inv' frame pos c) := by
  cases c with
  | define name value => exact hK.assign name value pos
  | clear name => exact absurd rfl (hclear name)
  | clearAll => exact absurd rfl hclearAll
  | function d args => exact hK.call d args pos
  | invoke kind name set external =>
    rw [Setting.command, Setting.command]
    cases env.target? frame.owner name external with
    | none => exact hK.missing name pos
    | some target => exact rel_invocation hK.toLooks pos set fun scope => hinv kind _ _ scope

/-- A relation holds of a command, or passes from the body of a loop to its rounds. A choice
consists of other statements. -/
def Fits (K : Congruence Stop RunState) (env : Setting) (inv inv' : Invoker) (frame : Frame) :
    Statement → Prop
  | .command pos c => K.rel (env.command inv frame pos c) (env.command inv' frame pos c)
  | .loop _ name _ _ => ∀ id x y, K.rel x y →
    K.rel (Setting.round name id x) (Setting.round name id y)
  | .choice _ _ => True

theorem rel_taken (hK : K.Looks env frame) (pos : Position) (condition : Option Argument) :
    K.rel (env.taken frame pos condition) (env.taken frame pos condition) := by
  cases condition with
  | none => exact K.rel_pure true
  | some a => exact hK.test a pos

mutual

/-- A relation holds of a statement if it fits the statements inside. -/
theorem rel_statement (hK : K.Looks env frame) (s : Statement)
    (h : ∀ part ∈ s.parts, K.Fits env inv inv' frame part) :
    K.rel (env.statement inv frame s) (env.statement inv' frame s) := by
  cases s with
  | command pos c =>
    rw [Setting.statement, Setting.statement]
    exact h (.command pos c) (by simp [Statement.parts])
  | loop pos name set body =>
    rw [Setting.statement, Setting.statement]
    rw [Statement.parts] at h
    obtain ⟨hround, hbody⟩ := List.forall_mem_cons.mp h
    refine K.rel_bind (hK.annotations set pos) fun ids => rel_forM (fun id => ?_) ids
    exact hround id _ _ (rel_block hK body hbody)
  | choice pos branches =>
    rw [Setting.statement, Setting.statement]
    rw [Statement.parts] at h
    exact rel_choose hK pos branches (List.forall_mem_cons.mp h).2

theorem rel_block (hK : K.Looks env frame) (body : List Statement)
    (h : ∀ part ∈ Statement.partsAll body, K.Fits env inv inv' frame part) :
    K.rel (env.block inv frame body) (env.block inv' frame body) := by
  cases body with
  | nil =>
    rw [Setting.block, Setting.block]
    exact K.rel_pure _
  | cons s rest =>
    rw [Setting.block, Setting.block]
    rw [Statement.partsAll] at h
    obtain ⟨hfirst, hrest⟩ := List.forall_mem_append.mp h
    exact K.rel_bind (rel_statement hK s hfirst) fun _ => rel_block hK rest hrest

theorem rel_choose (hK : K.Looks env frame) (pos : Position)
    (branches : List (Option Argument × Statement))
    (h : ∀ part ∈ Statement.partsBranches branches, K.Fits env inv inv' frame part) :
    K.rel (env.choose inv frame pos branches) (env.choose inv' frame pos branches) := by
  match branches with
  | [] =>
    rw [Setting.choose, Setting.choose]
    exact K.rel_pure _
  | (condition, s) :: rest =>
    rw [Setting.choose, Setting.choose]
    rw [Statement.partsBranches] at h
    obtain ⟨hfirst, hrest⟩ := List.forall_mem_append.mp h
    refine K.rel_bind (rel_taken hK pos condition) fun taken => ?_
    cases taken with
    | true => exact rel_statement hK s hfirst
    | false => exact rel_choose hK pos rest hrest

end

end Statements

/-! ## Scripts -/

/-- A relation holds of the parts of all statements, in every frame. -/
structure Uniform (K : Congruence Stop RunState) (env : Setting) : Prop where
  steps : ∀ frame, K.Steps env frame
  clear : ∀ name,
    K.rel (modify fun s => { s with bindings := s.bindings.remove name } : Running Unit)
      (modify fun s => { s with bindings := s.bindings.remove name })
  clearAll : K.rel (modify fun s => { s with bindings := s.bindings.clear } : Running Unit)
    (modify fun s => { s with bindings := s.bindings.clear })
  round : ∀ name id {x y : Running Unit}, K.rel x y →
    K.rel (Setting.round name id x) (Setting.round name id y)
  enter : ∀ (kind : InvokeKind) {x y : Running Unit}, K.rel x y →
    K.rel (kind.enter x) (kind.enter y)

variable {K : Congruence Stop RunState} {env : Setting}

theorem Uniform.fits (hK : K.Uniform env) {inv inv' : Invoker}
    (hinv : ∀ unit body scope, K.rel (inv unit body scope) (inv' unit body scope))
    (frame : Frame) (s : Statement) : K.Fits env inv inv' frame s := by
  cases s with
  | loop pos name set body => exact fun id x y hxy => hK.round name id hxy
  | choice pos branches => trivial
  | command pos c =>
    have hother : (∀ name, c ≠ .clear name) → c ≠ .clearAll →
        K.Fits env inv inv' frame (.command pos c) := by
      intro hclear hclearAll
      exact rel_command (hK.steps frame) pos hclear hclearAll fun kind unit body scope =>
        hK.enter kind (hinv unit body scope)
    cases c with
    | clear name => exact hK.clear name
    | clearAll => exact hK.clearAll
    | define name value => exact hother (by simp) (by simp)
    | function d args => exact hother (by simp) (by simp)
    | invoke kind name set external => exact hother (by simp) (by simp)

/-- A relation holds of statements at two depths of invocation, if it holds where the smaller
depth ends. -/
theorem Uniform.invoke (hK : K.Uniform env) (extra : Nat)
    (hbottom : ∀ unit body scope,
      K.rel (throw .tooDeep : Running Unit) (env.invoke extra unit body scope))
    (depth : Nat) (unit : ScriptUnit) (body : List Statement) (scope : AnnotationId) :
    K.rel (env.invoke depth unit body scope) (env.invoke (depth + extra) unit body scope) := by
  induction depth generalizing unit body scope with
  | zero =>
    rw [Nat.zero_add]
    exact hbottom unit body scope
  | succ depth ih =>
    rw [Nat.add_right_comm]
    exact rel_block (hK.steps _).toLooks body fun part _ => hK.fits ih _ part

end Congruence

end MarkupScript
