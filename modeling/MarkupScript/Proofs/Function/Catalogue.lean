import MarkupScript.Function.Standard
import MarkupScript.Proofs.Document.Lookup

/-!
# Catalogues of registered functions

A catalogue comes about by registering functions one after another. The entry of a name is made
before its functions are looked through, so a registration that fails has already written to the
catalogue. It has written what was there.

* `register_cases`: all that a registration can do.
* `Built.implementation_isSome`: what a call was resolved to can be called.
* `mem_of_withStandard`: the functions of a catalogue are the standard ones and those that
  were added.
-/

namespace MarkupScript

/-! ## Writing entries -/

namespace Keyed

variable {κ α : Type} [DecidableEq κ]

/-- Writing what is there changes nothing. -/
theorem put_of_get? {entries : Keyed κ α} {key : κ} {value : α}
    (h : get? entries key = some value) : put entries key value = entries := by
  induction entries with
  | nil => cases h
  | cons entry rest ih =>
    obtain ⟨k, v⟩ := entry
    rw [get?_cons] at h
    by_cases hk : k = key
    · rw [if_pos hk] at h
      obtain rfl := Option.some.inj h
      rw [put, if_pos hk, hk]
    · rw [if_neg hk] at h
      rw [put, if_neg hk, ih h]

/-- Of two values the last one stays. -/
theorem put_put (entries : Keyed κ α) (key : κ) (first second : α) :
    put (put entries key first) key second = put entries key second := by
  induction entries with
  | nil => simp [put]
  | cons entry rest ih =>
    obtain ⟨k, v⟩ := entry
    by_cases hk : k = key
    · simp [put, hk]
    · simp [put, hk, ih]

theorem mem_put {entries : Keyed κ α} {key : κ} {value : α} {entry : κ × α}
    (h : entry ∈ put entries key value) : entry = (key, value) ∨ entry ∈ entries := by
  induction entries with
  | nil => exact .inl (List.mem_singleton.mp h)
  | cons first rest ih =>
    obtain ⟨k, v⟩ := first
    by_cases hk : k = key
    · rw [put, if_pos hk] at h
      rcases List.mem_cons.mp h with h | h
      · exact .inl h
      · exact .inr (List.mem_cons_of_mem _ h)
    · rw [put, if_neg hk] at h
      rcases List.mem_cons.mp h with h | h
      · exact .inr (h ▸ List.mem_cons_self)
      · exact (ih h).imp_right (List.mem_cons_of_mem _)

end Keyed

namespace Catalogue

variable {c c' : Catalogue} {f g : Function} {name : String} {d : Descriptor}

/-! ## Registration -/

theorem overloads_withEntry (c : Catalogue) (name : String) :
    (c.withEntry name).overloads name = c.overloads name := by
  rw [overloads, withEntry, Keyed.get?_put, if_pos rfl]
  rfl

theorem ofArity?_withEntry (c : Catalogue) (name : String) (arity : Nat) :
    (c.withEntry name).ofArity? name arity = c.ofArity? name arity := by
  rw [ofArity?, overloads_withEntry, ofArity?]

/-- A name with functions has its entry, with all of them. -/
theorem get?_of_mem_overloads (h : f ∈ c.overloads name) :
    Keyed.get? c.functions name = some (c.overloads name) := by
  unfold overloads at h ⊢
  cases hget : Keyed.get? c.functions name with
  | none =>
    rw [hget] at h
    cases h
  | some functions => rfl

/-- Such a name gets no other entry. -/
theorem withEntry_of_mem (h : f ∈ c.overloads name) : c.withEntry name = c := by
  rw [withEntry, Keyed.put_of_get? (get?_of_mem_overloads h)]

/-- The catalogue with one more function under its name. -/
def adding (c : Catalogue) (f : Function) : Catalogue :=
  { functions := Keyed.put c.functions f.descriptor.name (c.overloads f.descriptor.name ++ [f]) }

theorem overloads_adding (c : Catalogue) (f : Function) (name : String) :
    (c.adding f).overloads name =
      if f.descriptor.name = name then c.overloads name ++ [f] else c.overloads name := by
  unfold overloads adding
  rw [Keyed.get?_put]
  split
  · next heq =>
    rw [overloads, heq]
    rfl
  · rfl

/-- A registration is refused for the name, or for a function of the name with as many parameters,
and leaves the catalogue as it was; or the function is added. -/
theorem register_cases (f : Function) (c : Catalogue) :
    isKeyword f.descriptor.name = true ∧
        register f c = .error (.reservedName f.descriptor.name) c ∨
      isKeyword f.descriptor.name = false ∧
        (∃ found, c.ofArity? f.descriptor.name f.descriptor.arity = some found) ∧
        register f c = .error (.duplicateArity f.descriptor.name f.descriptor.arity) c ∨
      isKeyword f.descriptor.name = false ∧
        c.ofArity? f.descriptor.name f.descriptor.arity = none ∧
        register f c = .ok () (c.adding f) := by
  unfold register
  dsimp only
  rw [ofArity?_withEntry, overloads_withEntry]
  cases hkeyword : isKeyword f.descriptor.name with
  | true => exact .inl ⟨rfl, rfl⟩
  | false =>
    right
    rw [if_neg Bool.false_ne_true]
    cases harity : c.ofArity? f.descriptor.name f.descriptor.arity with
    | some found =>
      -- A name that is looked through in vain has functions, so it had its entry.
      have hmem : found ∈ c.overloads f.descriptor.name := List.mem_of_find?_eq_some harity
      rw [withEntry_of_mem hmem]
      exact .inl ⟨rfl, ⟨found, rfl⟩, rfl⟩
    | none =>
      rw [withEntry, Keyed.put_put]
      exact .inr ⟨rfl, rfl, rfl⟩

/-- What a registration that succeeds has found and done. -/
theorem register_eq_ok (h : register f c = .ok () c') :
    isKeyword f.descriptor.name = false ∧
      c.ofArity? f.descriptor.name f.descriptor.arity = none ∧ c' = c.adding f := by
  rcases register_cases f c with ⟨-, heq⟩ | ⟨-, -, heq⟩ | ⟨hkeyword, harity, heq⟩
  · rw [heq] at h
    cases h
  · rw [heq] at h
    cases h
  · rw [heq] at h
    cases h
    exact ⟨hkeyword, harity, rfl⟩

/-- A registration that fails leaves the catalogue as it was. -/
theorem eq_of_register_eq_error {e : RegistryError} (h : register f c = .error e c') : c' = c := by
  rcases register_cases f c with ⟨-, heq⟩ | ⟨-, -, heq⟩ | ⟨-, -, heq⟩
  · rw [heq] at h
    cases h
    rfl
  · rw [heq] at h
    cases h
    rfl
  · rw [heq] at h
    cases h

theorem overloads_register (h : register f c = .ok () c') (name : String) :
    c'.overloads name =
      if f.descriptor.name = name then c.overloads name ++ [f] else c.overloads name := by
  obtain ⟨-, -, rfl⟩ := register_eq_ok h
  exact overloads_adding c f name

/-! ## Catalogues that were built -/

/-- A catalogue to which functions were added one by one. -/
inductive Built : Catalogue → Prop
  | empty : Built .empty
  | register {c c' : Catalogue} {f : Function} : Built c → register f c = .ok () c' → Built c'

/-- Functions are found under their own names. -/
theorem Built.name_eq (h : c.Built) (hf : f ∈ c.overloads name) : f.descriptor.name = name := by
  induction h with
  | empty => cases hf
  | @register c c' g _ hreg ih =>
    rw [overloads_register hreg] at hf
    split at hf
    · next heq =>
      rcases List.mem_append.mp hf with hold | hnew
      · exact ih hold
      · rw [List.mem_singleton.mp hnew, heq]
    · exact ih hf

theorem mem_overloads_of_lookup {count : Nat} (h : c.lookup name count = some f) :
    f ∈ c.overloads name := by
  rcases Option.or_eq_some_iff.mp h with hexact | ⟨-, honly⟩
  · exact List.mem_of_find?_eq_some hexact
  · split at honly
    · next only heq =>
      cases honly
      rw [heq]
      simp
    · cases honly

/-- A descriptor that a call was resolved to stands for a function. -/
theorem Built.implementation_isSome (h : c.Built) {count : Nat}
    (hd : c.resolve name count = some d) : (c.implementation d).isSome = true := by
  obtain ⟨f, hlookup, rfl⟩ := Option.map_eq_some_iff.mp hd
  have hmem := mem_overloads_of_lookup hlookup
  unfold implementation ofArity?
  rw [h.name_eq hmem, List.find?_isSome]
  exact ⟨f, hmem, by simp⟩

theorem mem_overloads_of_implementation (h : c.implementation d = some f) :
    f ∈ c.overloads d.name :=
  List.mem_of_find?_eq_some h

/-! ## Registering several functions -/

theorem registerAll_of_ok (h : register f c = .ok () c') (rest : List Function) :
    registerAll (f :: rest) c = registerAll rest c' := by
  simp [registerAll, bind, EStateM.bind, h]

/-- The first function that is refused ends it. -/
theorem registerAll_of_error {e : RegistryError} (h : register f c = .error e c')
    (rest : List Function) : registerAll (f :: rest) c = .error e c' := by
  simp [registerAll, bind, EStateM.bind, h]

/-- Registering adds no function but those registered. -/
theorem mem_of_registerAll {functions : List Function} (h : registerAll functions c = .ok () c')
    (hf : f ∈ c'.overloads name) : f ∈ c.overloads name ∨ f ∈ functions := by
  induction functions generalizing c with
  | nil =>
    cases h
    exact Or.inl hf
  | cons g rest ih =>
    cases hreg : register g c with
    | error e mid =>
      rw [registerAll_of_error hreg] at h
      cases h
    | ok u mid =>
      rw [registerAll_of_ok hreg] at h
      rcases ih h with hmid | hrest
      · rw [overloads_register hreg] at hmid
        split at hmid
        · rcases List.mem_append.mp hmid with hold | hnew
          · exact Or.inl hold
          · exact Or.inr (List.mem_cons.mpr (Or.inl (List.mem_singleton.mp hnew)))
        · exact Or.inl hmid
      · exact Or.inr (List.mem_cons_of_mem _ hrest)

/-- A function of a catalogue is a standard one or one of those added. -/
theorem mem_of_withStandard {others : List Function} (h : withStandard others = .ok c)
    (hf : c.implementation d = some f) : f ∈ Standard.functions ∨ f ∈ others := by
  unfold withStandard at h
  cases hreg : registerAll (Standard.functions ++ others) .empty with
  | error e c' =>
    rw [hreg] at h
    cases h
  | ok u c' =>
    rw [hreg] at h
    cases h
    rcases mem_of_registerAll hreg (mem_overloads_of_implementation hf) with hempty | hmem
    · cases hempty
    · exact List.mem_append.mp hmem

end Catalogue

end MarkupScript
