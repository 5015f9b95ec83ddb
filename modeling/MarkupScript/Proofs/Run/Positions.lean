import MarkupScript.Proofs.Document.WellFormed
import MarkupScript.Proofs.Run.Congruence

/-!
# What a function is given

The positions of a call are bound one after another, each on a level of its own. So in the end the
variable of each position has the value that the function is given there, and every other variable
is that of the caller.

* `Site.Binds`: the site inside a call, after some positions; `Binds.bound` is one step.
* `Slot.Allows`: what a position can be given, after the positions before it.
* `Site.bindFrom_congr`: what a function does with other calls does not matter.
* `Site.invokes_proper`: the calls that a function is given.
-/

namespace MarkupScript

theorem positionVariable_inj {k l : Nat} (h : positionVariable k = positionVariable l) : k = l := by
  have htext : "$" ++ toString k = "$" ++ toString l := h
  rw [String.append_right_inj, Nat.toString_eq_ofList_toDigits, Nat.toString_eq_ofList_toDigits,
    String.ofList_inj] at htext
  calc k = Nat.ofDigitChars 10 (Nat.toDigits 10 k) 0 := Nat.ofDigitChars_ten_toDigits.symm
    _ = Nat.ofDigitChars 10 (Nat.toDigits 10 l) 0 := by rw [htext]
    _ = l := Nat.ofDigitChars_ten_toDigits

/-- In a sequence the second part is only run with what the first part gives. -/
theorem bind_congr_of_ok {ε σ α β : Type} {x : EStateM ε σ α} {f g : α → EStateM ε σ β}
    (h : ∀ s a t, x s = .ok a t → f a = g a) : (x >>= f) = (x >>= g) := by
  funext s
  cases hx : x s with
  | ok a t => rw [bind_of_ok hx, bind_of_ok hx, h s a t hx]
  | error e t => rw [bind_of_error hx, bind_of_error hx]

namespace Site

variable {site inner : Site} {params : List Value}

/-! ## Positions -/

/-- The site inside a call, after positions were bound to values. -/
structure Binds (site : Site) (params : List Value) (inner : Site) : Prop where
  scope : inner.scope = site.scope
  position : ∀ k, 1 ≤ k → k ≤ params.length →
    inner.bindings.get? (positionVariable k) = params[k - 1]?
  other : ∀ name, (∀ k, 1 ≤ k → k ≤ params.length → name ≠ positionVariable k) →
    inner.bindings.get? name = site.bindings.get? name

theorem binds_nil (site : Site) : site.Binds [] site where
  scope := rfl
  position k h h' := by
    rw [List.length_nil] at h'
    omega
  other _ _ := rfl

/-- One more position is bound. -/
theorem Binds.bound (h : site.Binds params inner) (value : Value) :
    site.Binds (params ++ [value]) (inner.bound (params.length + 1) value) where
  scope := h.scope
  position k hk hk' := by
    rw [List.length_append, List.length_singleton] at hk'
    unfold Site.bound
    rw [Bindings.get?_set, Bindings.get?_push]
    -- The new level hides the caller's variable of this position and no other.
    by_cases hlast : k = params.length + 1
    · subst hlast
      simp
    · have hbefore : k ≤ params.length := by omega
      have hne : positionVariable (params.length + 1) ≠ positionVariable k := by
        intro heq
        exact hlast (positionVariable_inj heq).symm
      rw [if_neg hne, h.position k hk hbefore, List.getElem?_append_left (by omega)]
  other name hname := by
    rw [List.length_append, List.length_singleton] at hname
    have hne : positionVariable (params.length + 1) ≠ name :=
      (hname (params.length + 1) (by omega) (by omega)).symm
    unfold Site.bound
    rw [Bindings.get?_set, Bindings.get?_push, if_neg hne]
    apply h.other
    intro k hk hk'
    exact hname k hk (by omega)

/-! ## Slots -/

/-- What becomes of an argument before positions are bound. -/
def slotOf (site : Site) : Argument → Slot
  | .variableRef name =>
    match site.bindings.get? name with
    | some value => .read value
    | none => .deferred (.variableRef name)
  | a => .deferred a

theorem slot_eq_ok {arity : Nat} {a : Argument} {slot : Slot} {s t : RunState}
    (h : site.slot arity a s = .ok slot t) : slot = site.slotOf a ∧ t = s := by
  cases a with
  | variableRef name =>
    unfold Site.slot at h
    cases hget : site.bindings.get? name with
    | some value =>
      simp only [hget] at h
      cases h
      simp only [slotOf, hget, and_self]
    | none =>
      simp only [hget] at h
      split at h
      · cases h
        simp only [slotOf, hget, and_self]
      · cases h
  | _ =>
    cases h
    exact ⟨rfl, rfl⟩

theorem slots_eq_ok {arity : Nat} {args : List Argument} {slots : List Slot} {s t : RunState}
    (h : args.mapM (site.slot arity) s = .ok slots t) : slots = args.map site.slotOf ∧ t = s := by
  induction args generalizing slots s t with
  | nil =>
    cases h
    exact ⟨rfl, rfl⟩
  | cons a rest ih =>
    rw [List.mapM_cons] at h
    cases ha : site.slot arity a s with
    | error e u =>
      rw [bind_of_error ha] at h
      cases h
    | ok slot u =>
      rw [bind_of_ok ha] at h
      cases hrest : rest.mapM (site.slot arity) u with
      | error e w =>
        rw [bind_of_error hrest] at h
        cases h
      | ok others w =>
        rw [bind_of_ok hrest] at h
        cases h
        rcases slot_eq_ok ha with ⟨rfl, rfl⟩
        rcases ih hrest with ⟨rfl, rfl⟩
        exact ⟨rfl, rfl⟩

end Site

/-- What a position can be given for its slot, after some values. A variable of a position before
it has the value there, if that is none of a set. -/
def Slot.Allows (slot : Slot) (type : ParameterType) (before : List Value) (value : Value) : Prop :=
  (type = .annotationSet ↔ value.isAnnotations = true) ∧
    ∀ k first, slot = .deferred (.variableRef (positionVariable k)) → type = .scalar → 1 ≤ k →
      before[k - 1]? = some first → first.isAnnotations = false → value = first

/-- Values that can be given for slots, one after another. -/
inductive Received : List (Slot × ParameterType) → List Value → Prop
  | nil : Received [] []
  | snoc {slots : List (Slot × ParameterType)} {slot : Slot} {type : ParameterType}
      {params : List Value} {value : Value} (hbefore : Received slots params)
      (hvalue : slot.Allows type params value) :
      Received (slots ++ [(slot, type)]) (params ++ [value])

namespace Received

variable {slots : List (Slot × ParameterType)} {params : List Value}

theorem length_eq (h : Received slots params) : params.length = slots.length := by
  induction h with
  | nil => rfl
  | snoc _ _ ih => rw [List.length_append, List.length_append, ih]; rfl

theorem allows (h : Received slots params) {i : Nat} {slot : Slot} {type : ParameterType}
    {value : Value} (hslot : slots[i]? = some (slot, type)) (hvalue : params[i]? = some value) :
    slot.Allows type (params.take i) value := by
  induction h with
  | nil => cases hslot
  | @snoc slots last lastType params lastValue hbefore hlast ih =>
    have hlength := hbefore.length_eq
    -- A position before the last was looked at when it was the last.
    by_cases hi : i < params.length
    · rw [List.getElem?_append_left (by omega)] at hslot hvalue
      rw [List.take_append_of_le_length (by omega)]
      exact ih hslot hvalue
    · have hbound : i < (slots ++ [(last, lastType)]).length :=
        (List.getElem?_eq_some_iff.mp hslot).1
      rw [List.length_append, List.length_singleton] at hbound
      obtain rfl : i = params.length := by omega
      rw [List.getElem?_append_right (by omega)] at hslot hvalue
      rw [hlength, Nat.sub_self] at hslot
      rw [Nat.sub_self] at hvalue
      cases hslot
      cases hvalue
      rw [List.take_left]
      exact hlast

end Received

/-! ## One position -/

namespace Site

variable {site inner : Site} {params : List Value} {slot : Slot} {s t : RunState}

theorem allows_set (slot : Slot) (before : List Value) (ids : List AnnotationId) :
    slot.Allows .annotationSet before (.annotations ids) := by
  constructor
  · exact ⟨fun _ => rfl, fun _ => rfl⟩
  · intro k first _ htype
    cases htype

/-- The variable of a position that was bound in the call is read there. -/
theorem Binds.valueFor_eq (h : site.Binds params inner) {k : Nat} {value first : Value}
    (hk : 1 ≤ k) (hslot : slot = .deferred (.variableRef (positionVariable k)))
    (hfirst : params[k - 1]? = some first) (hvalue : inner.valueFor slot s = .ok value t) :
    value = first := by
  have hbound : k - 1 < params.length := (List.getElem?_eq_some_iff.mp hfirst).1
  have hget : inner.bindings.get? (positionVariable k) = some first := by
    rw [h.position k hk (by omega), hfirst]
  subst hslot
  simp only [valueFor, argument, lookup, hget] at hvalue
  cases hvalue
  rfl

theorem Binds.allows_scalar (h : site.Binds params inner) {value : Value}
    (hvalue : inner.valueFor slot s = .ok value t) (hscalar : value.isAnnotations = false) :
    slot.Allows .scalar params value := by
  constructor
  · simp [hscalar]
  · intro k first hslot _ hk hfirst _
    exact h.valueFor_eq hk hslot hfirst hvalue

/-- The members of a set are texts. No variable of a position before is meant: it is known not to
have a set. -/
theorem Binds.allows_member (h : site.Binds params inner) {ids : List AnnotationId}
    (hset : inner.valueFor slot s = .ok (.annotations ids) t) (text : String) :
    slot.Allows .scalar params (.string text) := by
  constructor
  · simp [Value.isAnnotations, Value.annotations?]
  · intro k first hslot _ hk hfirst hscalar
    rw [← h.valueFor_eq hk hslot hfirst hset] at hscalar
    cases hscalar

theorem member_eq_ok {id : AnnotationId} {value : Value} (h : inner.member id s = .ok value t) :
    ∃ text, value = .string text := by
  rw [member_eq] at h
  cases htext : s.document.valueOf inner.scope id with
  | none =>
    simp only [htext, Option.map_none, Action.require] at h
    cases h
  | some text =>
    simp only [htext, Option.map_some, Action.require] at h
    cases h
    exact ⟨text, rfl⟩

/-! ## All positions -/

theorem apply_congr {f f' : Function} {called : Descriptor}
    (h : f.process { scope := site.scope, params, bindings := site.bindings } =
      f'.process { scope := site.scope, params, bindings := site.bindings }) :
    site.apply f called params = site.apply f' called params := by
  have hprocess : site.process f called.name params = site.process f' called.name params := by
    funext s
    simp only [process, h]
  rw [apply, apply, hprocess]

/-- A function is only given values that its slots can receive, with the positions bound to them.
On any other call it may do what it likes. -/
theorem bindFrom_congr {f f' : Function} {called : Descriptor} {all : List (Slot × ParameterType)}
    (hf : ∀ params inner, Received all params → site.Binds params inner →
      f.process { scope := inner.scope, params, bindings := inner.bindings } =
        f'.process { scope := inner.scope, params, bindings := inner.bindings })
    {done rest : List (Slot × ParameterType)} (hall : all = done ++ rest)
    (hreceived : Received done params) (hbinds : site.Binds params inner) :
    bindFrom f called rest inner params = bindFrom f' called rest inner params := by
  -- On the positions that are left: those before them have received their values.
  induction rest generalizing done inner params with
  | nil =>
    rw [List.append_nil] at hall
    subst hall
    exact apply_congr (hf params inner hreceived hbinds)
  | cons first rest ih =>
    rcases first with ⟨slot, type⟩
    have hnext : ∀ value, slot.Allows type params value →
        bindFrom f called rest (inner.bound (params.length + 1) value) (params ++ [value]) =
          bindFrom f' called rest (inner.bound (params.length + 1) value) (params ++ [value]) := by
      intro value hvalue
      have hall' : all = (done ++ [(slot, type)]) ++ rest := by simp [hall]
      exact ih hall' (.snoc hreceived hvalue) (hbinds.bound value)
    cases type with
    | annotationSet =>
      rw [bindFrom, bindFrom]
      apply bind_congr_of_ok
      intro s ids t _
      exact hnext _ (allows_set slot params ids)
    | scalar =>
      rw [bindFrom, bindFrom]
      apply bind_congr_of_ok
      intro s value t hvalue
      cases value with
      | annotations ids =>
        refine congrArg (List.forM ids) (funext fun id => ?_)
        apply bind_congr_of_ok
        intro u member w hmember
        rcases member_eq_ok hmember with ⟨text, rfl⟩
        exact hnext _ (hbinds.allows_member hvalue text)
      | _ => exact hnext _ (hbinds.allows_scalar hvalue rfl)

/-! ## Calls -/

/-- What a function can rely on: it is given one value for each parameter, a set where a set is
asked for and only there. The variable of each position has the value of that position, and other
variables are those of the caller. A variable of a position that the caller does not have, given
for a later scalar parameter, repeats the value of its position. -/
structure Proper (site : Site) (d : Descriptor) (args : List Argument) (call : Call) : Prop where
  scope : call.scope = site.scope
  length : call.params.length = d.arity
  fits : ∀ (i : Nat) (p : Parameter) (value : Value), d.params[i]? = some p →
    call.params[i]? = some value → (p.type = .annotationSet ↔ value.isAnnotations = true)
  position : ∀ k, 1 ≤ k → k ≤ d.arity →
    call.bindings.get? (positionVariable k) = call.params[k - 1]?
  other : ∀ name, (∀ k, 1 ≤ k → k ≤ d.arity → name ≠ positionVariable k) →
    call.bindings.get? name = site.bindings.get? name
  repeated : ∀ (i k : Nat) (p first : Parameter), 1 ≤ k → k ≤ i →
    args[i]? = some (.variableRef (positionVariable k)) →
    site.bindings.get? (positionVariable k) = none → d.params[i]? = some p → p.type = .scalar →
    d.params[k - 1]? = some first → first.type = .scalar → call.params[i]? = call.params[k - 1]?

/-- A call of a function leads to calls with a property only: functions that agree on those can
stand for each other, whatever they do on others. -/
def InvokesOnly (site : Site) (d : Descriptor) (args : List Argument) (P : Call → Prop) : Prop :=
  ∀ (c c' : Catalogue) (f f' : Function), c.implementation d = some f →
    c'.implementation d = some f' → (∀ call, P call → f.process call = f'.process call) →
    site.call c d args = site.call c' d args

/-- The slots of a call with the types of its parameters. -/
def typedSlots (site : Site) (d : Descriptor) (args : List Argument) :
    List (Slot × ParameterType) :=
  ((args.take d.arity).map site.slotOf).zip (d.params.map (·.type))

section

variable {d : Descriptor} {args : List Argument} {i : Nat} {p : Parameter}

theorem typedSlots_getElem? {a : Argument} (ha : args[i]? = some a) (hp : d.params[i]? = some p) :
    (site.typedSlots d args)[i]? = some (site.slotOf a, p.type) := by
  have hi : i < d.arity := (List.getElem?_eq_some_iff.mp hp).1
  unfold typedSlots
  rw [List.getElem?_zip_eq_some]
  constructor
  · rw [List.getElem?_map, List.getElem?_take_of_lt hi, ha]
    rfl
  · rw [List.getElem?_map, hp]
    rfl

theorem length_typedSlots (h : d.arity ≤ args.length) :
    (site.typedSlots d args).length = d.arity := by
  unfold typedSlots
  rw [List.length_zip, List.length_map, List.length_map, List.length_take]
  unfold Descriptor.arity at h ⊢
  omega

theorem fits_of_received (hargs : d.arity ≤ args.length)
    (h : Received (site.typedSlots d args) params) {value : Value} (hp : d.params[i]? = some p)
    (hvalue : params[i]? = some value) :
    p.type = .annotationSet ↔ value.isAnnotations = true := by
  have hi : i < d.arity := (List.getElem?_eq_some_iff.mp hp).1
  have ha : args[i]? = some args[i] := List.getElem?_eq_getElem (by omega)
  exact (h.allows (typedSlots_getElem? ha hp) hvalue).1

theorem proper_of_received (hargs : d.arity ≤ args.length)
    (hreceived : Received (site.typedSlots d args) params) (hbinds : site.Binds params inner) :
    site.Proper d args { scope := inner.scope, params, bindings := inner.bindings } := by
  have hlength : params.length = d.arity := by
    rw [hreceived.length_eq, length_typedSlots hargs]
  refine ⟨hbinds.scope, hlength, ?_, ?_, ?_, ?_⟩
  · intro i p value hp hvalue
    exact fits_of_received hargs hreceived hp hvalue
  · rw [← hlength]
    exact hbinds.position
  · rw [← hlength]
    exact hbinds.other
  · intro i k p q hk hki ha hunbound hp hscalar hq hscalar'
    have hi : i < d.arity := (List.getElem?_eq_some_iff.mp hp).1
    have hvalue : params[i]? = some params[i] := List.getElem?_eq_getElem (by omega)
    have hfirst : params[k - 1]? = some params[k - 1] := List.getElem?_eq_getElem (by omega)
    have hslot : site.slotOf (.variableRef (positionVariable k)) =
        .deferred (.variableRef (positionVariable k)) := by
      simp only [slotOf, hunbound]
    -- Position `k` is scalar, so it has no set.
    have hset : params[k - 1].isAnnotations = false := by
      have hfits := fits_of_received hargs hreceived hq hfirst
      rw [hscalar'] at hfits
      simpa using hfits
    have hallows := hreceived.allows (typedSlots_getElem? ha hp) hvalue
    have hbefore : (params.take i)[k - 1]? = some params[k - 1] := by
      rw [List.getElem?_take_of_lt (by omega), hfirst]
    rw [hvalue, hfirst, hallows.2 k _ hslot hscalar hk hbefore hset]

end

/-- Whatever the caller's variables are, also those with the names of positions, a call of a
function leads to proper calls only. -/
theorem invokes_proper (site : Site) (d : Descriptor) (args : List Argument) :
    site.InvokesOnly d args (site.Proper d args) := by
  intro c c' f f' hc hc' hf
  unfold call
  rw [hc, hc']
  by_cases hargs : args.length < d.arity
  · simp only [hargs, if_true]
  · simp only [hargs, if_false]
    apply bind_congr_of_ok
    intro s slots t hslots
    rcases slots_eq_ok hslots with ⟨rfl, -⟩
    refine bindFrom_congr ?_ (List.nil_append _).symm .nil (binds_nil site)
    intro params inner hreceived hbinds
    exact hf _ (proper_of_received (by omega) hreceived hbinds)

/-! ## Reading values from the variables of positions -/

/-- Two scalar parameters. -/
def pairDescriptor : Descriptor :=
  { name := "pair"
    params := [{ name := "left", type := .scalar }, { name := "right", type := .scalar }] }

/-- Puts the texts of its values side by side. -/
def pairing : Function where
  descriptor := pairDescriptor
  process call := pure (some (" ".intercalate (call.params.map Value.text)))

/-- Puts the texts of the variables of its positions side by side. -/
def pairingByName : Function where
  descriptor := pairDescriptor
  process call :=
    pure (some (" ".intercalate
      (([1, 2].filterMap fun k => call.bindings.get? (positionVariable k)).map Value.text)))

/-- The lines that an action adds to an empty trace. -/
def linesOf (action : Action Unit) (d : Document) : List String :=
  match action { document := d, bindings := .empty } with
  | .ok _ t => t.trace.toList
  | .error _ t => t.trace.toList

/-- A function can read its values from the variables of its positions. -/
theorem pairing_process_eq {args : List Argument} {call : Call}
    (h : site.Proper pairDescriptor args call) :
    pairing.process call = pairingByName.process call := by
  have hleft : call.bindings.get? (positionVariable 1) = call.params[0]? :=
    h.position 1 (by decide) (by decide)
  have hright : call.bindings.get? (positionVariable 2) = call.params[1]? :=
    h.position 2 (by decide) (by decide)
  rcases List.length_eq_two.mp h.length with ⟨left, right, hparams⟩
  rw [hparams] at hleft hright
  simp only [pairing, pairingByName, hparams, List.filterMap_cons, hleft, hright,
    List.getElem?_cons_zero, List.getElem?_cons_succ, List.filterMap_nil]

open Document (smallId smallDocument)

/-- The caller has a variable with the name of the second position. -/
def pairSite : Site :=
  { scope := smallId 1, bindings := { own := [("$2", .string "mine")] } }

/-- The words of the document, and the variable of the first position. -/
def pairArgs : List Argument := [.annotationSet "\x7b//w\x7d", .variableRef "$1"]

/-- Each word is given twice, and the function that reads variables sees it twice too. -/
theorem invokes_proper_pair :
    linesOf (pairSite.call { functions := [("pair", [pairing])] } pairDescriptor pairArgs)
        smallDocument = ["Hello Hello", "world world"] ∧
    linesOf (pairSite.call { functions := [("pair", [pairingByName])] } pairDescriptor pairArgs)
        smallDocument = ["Hello Hello", "world world"] := by
  have hlines : linesOf
      (pairSite.call { functions := [("pair", [pairing])] } pairDescriptor pairArgs)
      smallDocument = ["Hello Hello", "world world"] := by decide +kernel
  have hsame := invokes_proper pairSite pairDescriptor pairArgs
    { functions := [("pair", [pairing])] } { functions := [("pair", [pairingByName])] }
    pairing pairingByName rfl rfl fun _ h => pairing_process_eq h
  exact ⟨hlines, hsame ▸ hlines⟩

end Site

end MarkupScript
