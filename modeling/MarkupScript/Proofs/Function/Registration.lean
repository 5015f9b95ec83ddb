import MarkupScript.Proofs.Function.Catalogue
import Mathlib.Data.List.Induction

/-!
# Registrations one after another

Functions are registered one after another, and some of them cannot be.

* `Catalogue.afterEach`: what registrations leave, those that fail included.
* `registerAll_cases`: registering several functions does the same, up to the first that fails.
* `register_afterEach_iff`: which functions can be registered, told by those that were tried before.
* `Catalogue.Sound`: no keyword, no empty entry, no two functions of one name and arity.
* `Built.sound`: registrations keep that.
* `Catalogue.Means`: what a call means, told by the descriptors alone.
* `implementation_afterEach`, `registered_of_mem`: the functions that were registered are there, and
  no others.
* `afterEach_registered`: what any sequence of registrations leaves.
-/

namespace MarkupScript

namespace Catalogue

variable {c c' : Catalogue} {f g : Function} {name : String} {d : Descriptor}

/-! ## Registrations in turn -/

/-- The catalogue that a registration leaves, whether it succeeds or fails. -/
def left (c : Catalogue) (f : Function) : Catalogue :=
  match register f c with
  | .ok _ c' => c'
  | .error _ c' => c'

/-- The catalogue after registrations one after another, from no functions. -/
def afterEach (functions : List Function) : Catalogue :=
  functions.foldl left .empty

theorem left_of_ok (h : register f c = .ok () c') : c.left f = c' := by
  rw [left, h]

theorem left_of_error {e : RegistryError} (h : register f c = .error e c') : c.left f = c := by
  rw [left, h]
  exact eq_of_register_eq_error h

theorem afterEach_concat (functions : List Function) (f : Function) :
    afterEach (functions ++ [f]) = (afterEach functions).left f :=
  List.foldl_concat left .empty f functions

theorem built_afterEach (functions : List Function) : (afterEach functions).Built := by
  induction functions using List.reverseRecOn with
  | nil => exact .empty
  | append_singleton functions f ih =>
    rw [afterEach_concat]
    cases hreg : register f (afterEach functions) with
    | ok u c =>
      rw [left_of_ok hreg]
      exact .register ih hreg
    | error e c =>
      rw [left_of_error hreg]
      exact ih

/-- Registering several functions does what registering each in turn does, up to the first that is
refused. -/
theorem registerAll_cases (functions : List Function) (c : Catalogue) :
    registerAll functions c = .ok () (functions.foldl left c) ∨
      ∃ before f after e, functions = before ++ f :: after ∧
        register f (before.foldl left c) = .error e (before.foldl left c) ∧
        registerAll functions c = .error e (before.foldl left c) := by
  induction functions generalizing c with
  | nil => exact .inl rfl
  | cons g rest ih =>
    cases hreg : register g c with
    | error e c' =>
      obtain rfl := eq_of_register_eq_error hreg
      exact .inr ⟨[], g, rest, e, rfl, hreg, registerAll_of_error hreg rest⟩
    | ok u mid =>
      have hfold : ∀ fs, (g :: fs).foldl left c = fs.foldl left mid := by
        intro fs
        rw [List.foldl_cons, left_of_ok hreg]
      rw [registerAll_of_ok hreg, hfold]
      rcases ih mid with hok | ⟨before, f, after, e, rfl, href, herror⟩
      · exact .inl hok
      · refine .inr ⟨g :: before, f, after, e, rfl, ?_, ?_⟩
        · rw [hfold, href]
        · rw [hfold, herror]

theorem ofArity?_eq_none_iff {arity : Nat} :
    c.ofArity? name arity = none ↔ ∀ f ∈ c.overloads name, f.descriptor.arity ≠ arity := by
  simp [ofArity?]

/-- A name and a number of parameters are free if no function with them was tried. One that was
tried in vain was so because they were taken. -/
theorem ofArity?_afterEach_eq_none_iff (hname : isKeyword name = false) {arity : Nat}
    (functions : List Function) :
    (afterEach functions).ofArity? name arity = none ↔
      ∀ g ∈ functions, g.descriptor.name = name → g.descriptor.arity ≠ arity := by
  induction functions using List.reverseRecOn with
  | nil => exact iff_of_true rfl (List.forall_mem_nil _)
  | append_singleton functions f ih =>
    rw [afterEach_concat, List.forall_mem_append, List.forall_mem_singleton, ← ih]
    rcases register_cases f (afterEach functions) with
      ⟨hkeyword, heq⟩ | ⟨-, ⟨found, hfound⟩, heq⟩ | ⟨-, -, heq⟩
    · -- The name is that of no keyword, so it is another one.
      rw [left_of_error heq, and_iff_left]
      rintro rfl
      rw [hkeyword] at hname
      cases hname
    · rw [left_of_error heq, and_iff_left_of_imp]
      rintro hnone rfl rfl
      rw [hfound] at hnone
      cases hnone
    · rw [left_of_ok heq, ofArity?_eq_none_iff, ofArity?_eq_none_iff, overloads_adding]
      by_cases heq : f.descriptor.name = name
      · rw [if_pos heq, List.forall_mem_append, List.forall_mem_singleton]
        simp [heq]
      · simp [heq]

/-- A function can be registered if its name is no keyword and no function of its name and number
of parameters was tried before. -/
theorem register_afterEach_iff (functions : List Function) (f : Function) :
    (∃ c, register f (afterEach functions) = .ok () c) ↔
      isKeyword f.descriptor.name = false ∧
        ∀ g ∈ functions, g.descriptor.name = f.descriptor.name →
          g.descriptor.arity ≠ f.descriptor.arity := by
  constructor
  · rintro ⟨c, hreg⟩
    obtain ⟨hkeyword, harity, -⟩ := register_eq_ok hreg
    exact ⟨hkeyword, (ofArity?_afterEach_eq_none_iff hkeyword functions).mp harity⟩
  · rintro ⟨hkeyword, hfree⟩
    have hnone := (ofArity?_afterEach_eq_none_iff hkeyword functions).mpr hfree
    rcases register_cases f (afterEach functions) with ⟨h, -⟩ | ⟨-, ⟨found, h⟩, -⟩ | ⟨-, -, heq⟩
    · rw [hkeyword] at h
      cases h
    · rw [hnone] at h
      cases h
    · exact ⟨_, heq⟩

/-! ## What registrations keep -/

/-- No name is a keyword and none is without functions. Functions stand under their own names, and
those of one name differ in their numbers of parameters. -/
structure Sound (c : Catalogue) : Prop where
  nodup_names : (Keyed.keys c.functions).Nodup
  ne_nil : ∀ entry ∈ c.functions, entry.2 ≠ []
  named : ∀ entry ∈ c.functions, ∀ f ∈ entry.2, f.descriptor.name = entry.1
  not_keyword : ∀ entry ∈ c.functions, isKeyword entry.1 = false
  nodup_arities : ∀ entry ∈ c.functions, (entry.2.map (·.descriptor.arity)).Nodup

theorem sound_empty : Sound .empty := by
  constructor <;> simp [empty, Keyed.keys]

/-- The functions of a name are those of its entry, if it has any. -/
theorem mem_functions_of_mem (h : f ∈ c.overloads name) :
    (name, c.overloads name) ∈ c.functions :=
  Keyed.mem_of_get? (get?_of_mem_overloads h)

theorem Sound.nodup_overloads (hc : c.Sound) (name : String) :
    ((c.overloads name).map (·.descriptor.arity)).Nodup := by
  cases hoverloads : c.overloads name with
  | nil => exact List.nodup_nil
  | cons f rest =>
    rw [← hoverloads]
    have hf : f ∈ c.overloads name := by simp [hoverloads]
    exact hc.nodup_arities _ (mem_functions_of_mem hf)

theorem Sound.register (hc : c.Sound) (h : register f c = .ok () c') : c'.Sound := by
  obtain ⟨hkeyword, harity, rfl⟩ := register_eq_ok h
  -- Every entry is one from before, or that of the name with one function more.
  have hentries : ∀ {P : String × List Function → Prop}, (∀ entry ∈ c.functions, P entry) →
      P (f.descriptor.name, c.overloads f.descriptor.name ++ [f]) →
      ∀ entry ∈ Keyed.put c.functions f.descriptor.name (c.overloads f.descriptor.name ++ [f]),
        P entry := by
    intro P hold hnew entry hmem
    rcases Keyed.mem_put hmem with rfl | hmem
    · exact hnew
    · exact hold entry hmem
  constructor
  · exact Keyed.nodup_keys_put hc.nodup_names _ _
  · exact hentries hc.ne_nil (by simp)
  · refine hentries hc.named ?_
    intro g hg
    rcases List.mem_append.mp hg with hold | hnew
    · exact hc.named _ (mem_functions_of_mem hold) g hold
    · rw [List.mem_singleton.mp hnew]
  · exact hentries hc.not_keyword hkeyword
  · refine hentries hc.nodup_arities ?_
    rw [List.map_append, List.nodup_append]
    refine ⟨hc.nodup_overloads _, List.nodup_singleton _, ?_⟩
    intro arity hold arity' hnew heq
    obtain ⟨g, hg, rfl⟩ := List.mem_map.mp hold
    rw [List.map_singleton, List.mem_singleton] at hnew
    exact ofArity?_eq_none_iff.mp harity g hg (heq.trans hnew)

theorem Built.sound (h : c.Built) : c.Sound := by
  induction h with
  | empty => exact sound_empty
  | register _ hreg ih => exact ih.register hreg

/-! ## The descriptors of a catalogue -/

theorem filter_flatMap_descriptor {functions : Keyed String (List Function)}
    (hnodup : (Keyed.keys functions).Nodup)
    (hnamed : ∀ entry ∈ functions, ∀ f ∈ entry.2, f.descriptor.name = entry.1) (name : String) :
    (functions.flatMap fun entry => entry.2.map (·.descriptor)).filter (·.name = name) =
      ((Keyed.get? functions name).getD []).map (·.descriptor) := by
  induction functions with
  | nil => rfl
  | cons entry rest ih =>
    obtain ⟨key, fs⟩ := entry
    obtain ⟨hkey, hnodup⟩ := List.nodup_cons.mp hnodup
    obtain ⟨hfs, hnamed⟩ := List.forall_mem_cons.mp hnamed
    rw [List.flatMap_cons, List.filter_append, ih hnodup hnamed, Keyed.get?_cons]
    by_cases hk : key = name
    · subst hk
      -- The entry has all the functions of the name, for the name has no other entry.
      have hrest : Keyed.get? rest key = none := by
        cases hget : Keyed.get? rest key with
        | none => rfl
        | some fs' => exact absurd (Keyed.mem_keys_iff.mpr ⟨fs', hget⟩) hkey
      have hall : (fs.map (·.descriptor)).filter (·.name = key) = fs.map (·.descriptor) := by
        rw [List.filter_eq_self]
        intro d hd
        obtain ⟨f, hf, rfl⟩ := List.mem_map.mp hd
        simpa using hfs f hf
      rw [if_pos rfl, hrest, hall, Option.getD_none, List.map_nil, List.append_nil,
        Option.getD_some]
    · have hnone : (fs.map (·.descriptor)).filter (·.name = name) = [] := by
        rw [List.filter_eq_nil_iff]
        intro d hd
        obtain ⟨f, hf, rfl⟩ := List.mem_map.mp hd
        simpa [hfs f hf] using hk
      rw [if_neg hk, hnone, List.nil_append]

/-- The descriptors of a name are those of its functions, in their order. -/
theorem Sound.filter_descriptors (hc : c.Sound) (name : String) :
    c.descriptors.filter (·.name = name) = (c.overloads name).map (·.descriptor) :=
  filter_flatMap_descriptor hc.nodup_names hc.named name

theorem Sound.mem_descriptors (hc : c.Sound) :
    d ∈ c.descriptors ↔ ∃ f ∈ c.overloads d.name, f.descriptor = d := by
  have hfilter : d ∈ c.descriptors.filter (·.name = d.name) ↔ d ∈ c.descriptors := by simp
  rw [← hfilter, hc.filter_descriptors, List.mem_map]

theorem Sound.descriptor_not_keyword (hc : c.Sound) (hd : d ∈ c.descriptors) :
    isKeyword d.name = false := by
  obtain ⟨f, hf, -⟩ := hc.mem_descriptors.mp hd
  exact hc.not_keyword _ (mem_functions_of_mem hf)

/-- No two functions have the same name and number of parameters. -/
theorem Sound.nodup_descriptors (hc : c.Sound) :
    (c.descriptors.map fun d => (d.name, d.arity)).Nodup := by
  rw [descriptors, List.map_flatMap, List.nodup_flatMap]
  constructor
  · -- Under one name they differ in their numbers of parameters,
    intro entry hentry
    apply List.Nodup.of_map Prod.snd
    simpa [Function.comp_def] using hc.nodup_arities entry hentry
  · -- and under two names they differ in their names.
    have hkeys : c.functions.Pairwise fun entry entry' => entry.1 ≠ entry'.1 :=
      List.pairwise_map.mp hc.nodup_names
    refine hkeys.imp_of_mem ?_
    intro entry entry' hentry hentry' hne pair hpair hpair'
    simp only [List.map_map, List.mem_map, Function.comp_apply] at hpair hpair'
    obtain ⟨f, hf, rfl⟩ := hpair
    obtain ⟨g, hg, heq⟩ := hpair'
    apply hne
    rw [← hc.named entry hentry f hf, ← hc.named entry' hentry' g hg]
    exact (congrArg Prod.fst heq).symm

theorem Sound.isEmpty_iff (hc : c.Sound) : c.isEmpty = true ↔ c.size = 0 := by
  rw [isEmpty, List.isEmpty_iff, size, List.length_eq_zero_iff, descriptors,
    List.flatMap_eq_nil_iff]
  constructor
  · intro hnil
    rw [hnil]
    exact List.forall_mem_nil _
  · intro hnone
    -- An entry would have a function.
    apply List.eq_nil_iff_forall_not_mem.mpr
    intro entry hentry
    exact hc.ne_nil entry hentry (List.map_eq_nil_iff.mp (hnone entry hentry))

/-! ## What a call means -/

/-- What a call of a name with some number of arguments means among the descriptors. -/
inductive Means (descriptors : List Descriptor) (name : String) (count : Nat) :
    Option Descriptor → Prop
  /-- The one with as many parameters. -/
  | exact {d : Descriptor} (hmem : d ∈ descriptors) (hname : d.name = name)
      (harity : d.arity = count) : Means descriptors name count (some d)
  /-- If there is none, the only one of the name. -/
  | sole {d : Descriptor} (hnone : ∀ d ∈ descriptors, d.name = name → d.arity ≠ count)
      (honly : descriptors.filter (·.name = name) = [d]) : Means descriptors name count (some d)
  /-- If there are others of the name or none at all, nothing. -/
  | nothing (hnone : ∀ d ∈ descriptors, d.name = name → d.arity ≠ count)
      (hmany : ∀ d, descriptors.filter (·.name = name) ≠ [d]) : Means descriptors name count none

theorem Sound.resolve_means (hc : c.Sound) (name : String) (count : Nat) :
    Means c.descriptors name count (c.resolve name count) := by
  unfold resolve lookup
  cases harity : c.ofArity? name count with
  | some f =>
    rw [Option.some_or, Option.map_some]
    have hf : f ∈ c.overloads name := List.mem_of_find?_eq_some harity
    have hname := hc.named _ (mem_functions_of_mem hf) f hf
    refine .exact (hc.mem_descriptors.mpr ⟨f, ?_, rfl⟩) hname ?_
    · rwa [hname]
    · simpa using List.find?_some harity
  | none =>
    rw [Option.none_or]
    have hnone : ∀ d ∈ c.descriptors, d.name = name → d.arity ≠ count := by
      intro d hd hname
      obtain ⟨f, hf, rfl⟩ := hc.mem_descriptors.mp hd
      rw [hname] at hf
      exact ofArity?_eq_none_iff.mp harity f hf
    split
    · next only honly =>
      rw [Option.map_some]
      refine .sole hnone ?_
      rw [hc.filter_descriptors, honly]
      rfl
    · next hmany =>
      rw [Option.map_none]
      refine .nothing hnone ?_
      intro d hd
      rw [hc.filter_descriptors] at hd
      obtain ⟨f, hf, -⟩ := List.map_eq_singleton_iff.mp hd
      exact hmany f hf

/-! ## The functions behind the descriptors -/

theorem implementation_register (h : register f c = .ok () c') :
    c'.implementation f.descriptor = some f := by
  obtain ⟨-, harity, -⟩ := register_eq_ok h
  rw [ofArity?] at harity
  rw [implementation, ofArity?, overloads_register h, if_pos rfl, List.find?_append, harity]
  simp

/-- Later registrations do not change what a descriptor stands for. -/
theorem implementation_of_register (h : register g c = .ok () c')
    (hd : c.implementation d = some f) : c'.implementation d = some f := by
  rw [implementation, ofArity?] at hd ⊢
  rw [overloads_register h]
  split
  · rw [List.find?_append, hd]
    rfl
  · exact hd

theorem implementation_left (g : Function) (hd : c.implementation d = some f) :
    (c.left g).implementation d = some f := by
  cases hreg : register g c with
  | ok u c' =>
    rw [left_of_ok hreg]
    exact implementation_of_register hreg hd
  | error e c' => rwa [left_of_error hreg]

/-- A function that was registered stays the one that its descriptor stands for. -/
theorem implementation_afterEach {before : List Function}
    (h : register f (afterEach before) = .ok () c) (after : List Function) :
    (afterEach (before ++ f :: after)).implementation f.descriptor = some f := by
  induction after using List.reverseRecOn with
  | nil =>
    rw [afterEach_concat, left_of_ok h]
    exact implementation_register h
  | append_singleton after g ih =>
    rw [← List.cons_append, ← List.append_assoc, afterEach_concat]
    exact implementation_left g ih

/-- Every function of a catalogue was registered at some time. -/
theorem registered_of_mem {functions : List Function}
    (h : f ∈ (afterEach functions).overloads name) :
    ∃ before after c, functions = before ++ f :: after ∧
      register f (afterEach before) = .ok () c := by
  induction functions using List.reverseRecOn with
  | nil => cases h
  | append_singleton functions g ih =>
    -- It was there before the last registration, or it is the last.
    have hearlier : f ∈ (afterEach functions).overloads name → ∃ before after c,
        functions ++ [g] = before ++ f :: after ∧ register f (afterEach before) = .ok () c := by
      intro hmem
      obtain ⟨before, after, c, rfl, hreg⟩ := ih hmem
      exact ⟨before, after ++ [g], c, by simp, hreg⟩
    rw [afterEach_concat] at h
    cases hreg : register g (afterEach functions) with
    | error e c =>
      rw [left_of_error hreg] at h
      exact hearlier h
    | ok u c =>
      rw [left_of_ok hreg, overloads_register hreg] at h
      split at h
      · rcases List.mem_append.mp h with hold | hnew
        · exact hearlier hold
        · rw [List.mem_singleton.mp hnew]
          exact ⟨functions, [], c, rfl, hreg⟩
      · exact hearlier h

/-- The descriptors are those of the functions that were registered. -/
theorem mem_descriptors_afterEach {functions : List Function} :
    d ∈ (afterEach functions).descriptors ↔
      ∃ before f after c, functions = before ++ f :: after ∧
        register f (afterEach before) = .ok () c ∧ f.descriptor = d := by
  have hsound := (built_afterEach functions).sound
  rw [hsound.mem_descriptors]
  constructor
  · rintro ⟨f, hf, hd⟩
    obtain ⟨before, after, c, hsplit, hreg⟩ := registered_of_mem hf
    exact ⟨before, f, after, c, hsplit, hreg, hd⟩
  · rintro ⟨before, f, after, c, rfl, hreg, rfl⟩
    exact ⟨f, mem_overloads_of_implementation (implementation_afterEach hreg after), rfl⟩

/-! ## What is left in the end -/

/-- What a catalogue has to be after registrations of some functions in turn. -/
structure Records (functions : List Function) (c : Catalogue) : Prop where
  not_keyword : ∀ d ∈ c.descriptors, isKeyword d.name = false
  nodup : (c.descriptors.map fun d => (d.name, d.arity)).Nodup
  isEmpty_iff : c.isEmpty = true ↔ c.size = 0
  /-- One more function can be registered if its name is no keyword and none of its name and number
  of parameters was tried. -/
  accepts_iff : ∀ f, (∃ c', register f c = .ok () c') ↔
    isKeyword f.descriptor.name = false ∧
      ∀ g ∈ functions, g.descriptor.name = f.descriptor.name →
        g.descriptor.arity ≠ f.descriptor.arity
  /-- A registration that fails leaves the catalogue as it is. -/
  refuses : ∀ f e c', register f c = .error e c' → c' = c
  /-- The descriptors are those of the functions that were registered. -/
  mem_iff : ∀ d, d ∈ c.descriptors ↔
    ∃ before f after c', functions = before ++ f :: after ∧
      register f (afterEach before) = .ok () c' ∧ f.descriptor = d
  /-- Behind the descriptor of a function that was registered is that function. -/
  implementation : ∀ before f after c', functions = before ++ f :: after →
    register f (afterEach before) = .ok () c' → c.implementation f.descriptor = some f
  /-- A call means what the descriptors say. -/
  means : ∀ name count, Means c.descriptors name count (c.resolve name count)
  /-- Behind the descriptor that a call means is the function that was registered with it. -/
  resolved : ∀ name count d, c.resolve name count = some d →
    ∃ before f after c', functions = before ++ f :: after ∧
      register f (afterEach before) = .ok () c' ∧ f.descriptor = d ∧ c.implementation d = some f

/-- Whatever functions are registered one after another, and whichever of them cannot be, the
catalogue is what it has to be: it has the functions that could be registered and no others, each
behind its descriptor, and a call means what the descriptors say. Registering all of them at once
leaves the same catalogue, or that of the functions before the first that is refused. -/
theorem afterEach_registered (functions : List Function) :
    Records functions (afterEach functions) ∧
      (registerAll functions .empty = .ok () (afterEach functions) ∨
        ∃ before f after e, functions = before ++ f :: after ∧
          register f (afterEach before) = .error e (afterEach before) ∧
          registerAll functions .empty = .error e (afterEach before)) := by
  have hsound := (built_afterEach functions).sound
  refine ⟨?_, registerAll_cases functions .empty⟩
  constructor
  case not_keyword => exact fun d => hsound.descriptor_not_keyword
  case nodup => exact hsound.nodup_descriptors
  case isEmpty_iff => exact hsound.isEmpty_iff
  case accepts_iff => exact register_afterEach_iff functions
  case refuses => exact fun f e c' => eq_of_register_eq_error
  case mem_iff => exact fun d => mem_descriptors_afterEach
  case implementation =>
    rintro before f after c' rfl hreg
    exact implementation_afterEach hreg after
  case means => exact hsound.resolve_means
  case resolved =>
    intro name count d hd
    obtain ⟨f, hlookup, rfl⟩ := Option.map_eq_some_iff.mp hd
    obtain ⟨before, after, c, rfl, hreg⟩ := registered_of_mem (mem_overloads_of_lookup hlookup)
    exact ⟨before, f, after, c, rfl, hreg, rfl, implementation_afterEach hreg after⟩

/-- A function that gives back a line. -/
def saying (name : String) (arity : Nat) (line : String) : Function where
  descriptor := { name, params := List.replicate arity (Standard.scalar "value" "") }
  process _ := pure (some line)

/-- Two functions of one name, another with the name and arity of the first, one with the name of a
keyword, and one of another name. -/
def mixed : List Function :=
  [saying "show" 1 "a", saying "show" 2 "b", saying "show" 1 "c", saying "for" 0 "d",
    saying "mark" 3 "e"]

/-- The third and the fourth function are refused. The first stays behind its descriptor, which is
that of the third too. -/
theorem afterEach_registered_mixed :
    (afterEach mixed).descriptors =
        [saying "show" 1 "a", saying "show" 2 "b", saying "mark" 3 "e"].map (·.descriptor) ∧
      (afterEach mixed).implementation (saying "show" 1 "c").descriptor =
        some (saying "show" 1 "a") ∧
      (¬ ∃ c, register (saying "show" 1 "c") (afterEach (mixed.take 2)) = .ok () c) ∧
      (¬ ∃ c, register (saying "for" 0 "d") (afterEach (mixed.take 3)) = .ok () c) ∧
      (afterEach mixed).resolve "show" 2 = some (saying "show" 2 "b").descriptor ∧
      (afterEach mixed).resolve "show" 3 = none ∧
      (afterEach mixed).resolve "mark" 0 = some (saying "mark" 3 "e").descriptor := by
  have hfirst : ∃ c, register (saying "show" 1 "a") (afterEach []) = .ok () c :=
    ((afterEach_registered []).1.accepts_iff _).mpr ⟨by decide, List.forall_mem_nil _⟩
  obtain ⟨c, hfirst⟩ := hfirst
  refine ⟨by decide, ?_, ?_, ?_, by decide, by decide, by decide⟩
  · exact (afterEach_registered mixed).1.implementation [] _ _ c rfl hfirst
  · intro hthird
    have hfree := (((afterEach_registered (mixed.take 2)).1.accepts_iff _).mp hthird).2
    exact hfree (saying "show" 1 "a") List.mem_cons_self rfl rfl
  · intro hfourth
    have hname := (((afterEach_registered (mixed.take 3)).1.accepts_iff _).mp hfourth).1
    exact absurd hname (by decide)

end Catalogue

end MarkupScript
