import MarkupScript.Proofs.Script.Units
import Mathlib.Data.List.Perm.Subperm
import Mathlib.Logic.Relation

/-!
# Linking a program

Scripts need each other: a script needs the library scripts that it invokes and that are
none of its own sub-scripts. Linking follows this graph, compiles every script it comes to
once, and keeps the compiled ones.

* `Program.Linked` says what linking makes of the scripts compiled so far; it is put
  together step by step (`link_linked`).
* `link_ok`: linking succeeds if all that is needed can be compiled and nothing needs
  itself.
* `link_depth`: linking never goes deeper than there are names.
* `compile_eq_ok_iff`: when a text compiles with a library, and what its invocations
  stand for then.
-/

namespace MarkupScript

open Relation

/-! ## The graph -/

/-- A unit invokes a script that is not one of its sub-scripts. -/
def ScriptUnit.Calls (u : ScriptUnit) (name : String) : Prop :=
  name ∉ Keyed.keys u.subs ∧ ∃ i ∈ u.invocations, i.name = name

theorem ScriptUnit.external_iff {catalogue : Catalogue} {source : String} {u : ScriptUnit}
    (h : ScriptUnit.compile catalogue source = .ok u) {i : Invocation} (hi : i ∈ u.invocations) :
    i.external = true ↔ i.name ∉ Keyed.keys u.subs := by
  rw [ScriptUnit.invocations_eq] at hi
  obtain ⟨⟨pos, c⟩, hpc, hc⟩ := List.mem_filterMap.mp hi
  have href := refers_of_compile h _ hpc
  cases c with
  | invoke kind target scope external =>
    cases hc
    have hext : external = !(Keyed.keys u.subs).contains target := href
    simp [hext]
  | define _ _ => cases hc
  | clear _ => cases hc
  | clearAll => cases hc
  | function _ _ => cases hc

theorem ScriptUnit.calls_iff {catalogue : Catalogue} {source : String} {u : ScriptUnit}
    (h : ScriptUnit.compile catalogue source = .ok u) {name : String} :
    u.Calls name ↔ ∃ i ∈ u.externals, i.name = name := by
  constructor
  · rintro ⟨hsub, i, hi, rfl⟩
    exact ⟨i, List.mem_filter.mpr ⟨hi, (external_iff h hi).mpr hsub⟩, rfl⟩
  · rintro ⟨i, hi, rfl⟩
    obtain ⟨hi, hext⟩ := List.mem_filter.mp hi
    exact ⟨(external_iff h hi).mp hext, i, hi, rfl⟩

namespace Program

section

variable (catalogue : Catalogue) (find? : String → Option String)

/-- The unit of a library script, compiled by itself. -/
def unitOf? (name : String) : Option ScriptUnit :=
  (find? name).bind fun text => (ScriptUnit.compile catalogue text).toOption

/-- One library script needs another. -/
def Needs (name other : String) : Prop :=
  ∃ u, unitOf? catalogue find? name = some u ∧ u.Calls other

/-- A unit needs a library script, directly or not. -/
def Reaches (u : ScriptUnit) (name : String) : Prop :=
  ∃ first, u.Calls first ∧ ReflTransGen (Needs catalogue find?) first name

end

variable {catalogue : Catalogue} {find? : String → Option String}

theorem unitOf?_eq_some {name : String} {u : ScriptUnit} :
    unitOf? catalogue find? name = some u ↔
      ∃ text, find? name = some text ∧ ScriptUnit.compile catalogue text = .ok u := by
  unfold unitOf?
  cases htext : find? name with
  | none => simp
  | some text =>
    cases hu : ScriptUnit.compile catalogue text with
    | error e => simp [hu, Except.toOption]
    | ok v => simp [hu, Except.toOption]

theorem needs_of_external {name : String} {u : ScriptUnit} {i : Invocation}
    (hu : unitOf? catalogue find? name = some u) (hi : i ∈ u.externals) :
    Needs catalogue find? name i.name := by
  obtain ⟨text, -, hcompile⟩ := unitOf?_eq_some.mp hu
  exact ⟨u, hu, (ScriptUnit.calls_iff hcompile).mpr ⟨i, hi, rfl⟩⟩

/-- Where all ways through a graph end, there is no cycle. -/
theorem not_cycle_of_acc {α : Type} {r : α → α → Prop} {a : α}
    (h : Acc (fun b a => r a b) a) : ¬ TransGen r a a := by
  induction h with
  | intro a _ ih =>
    intro hcyc
    obtain ⟨b, hab, hback⟩ := TransGen.head'_iff.mp hcyc
    exact ih b hab (TransGen.tail' hback hab)

/-! ## What linking makes -/

/-- Something that adds all that a unit needs to the scripts compiled so far. -/
abbrev Linker :=
  List String → ScriptUnit → Keyed String ScriptUnit →
    Except CompileError (Keyed String ScriptUnit)

/-- The scripts compiled so far: each is what its name stands for, all that it needs is
there, and it does not need itself. -/
def Closed (catalogue : Catalogue) (find? : String → Option String)
    (units : Keyed String ScriptUnit) : Prop :=
  ∀ name u, Keyed.get? units name = some u →
    unitOf? catalogue find? name = some u ∧ (∀ i ∈ u.externals, Keyed.has units i.name = true) ∧
      Acc (fun b a => Needs catalogue find? a b) name

/-- What linking some invocations makes of the scripts compiled so far. -/
structure Linked (catalogue : Catalogue) (find? : String → Option String)
    (invocations : List Invocation) (units units' : Keyed String ScriptUnit) : Prop where
  closed : Closed catalogue find? units'
  keeps : ∀ name u, Keyed.get? units name = some u → Keyed.get? units' name = some u
  adds : ∀ i ∈ invocations, Keyed.has units' i.name = true
  reached : ∀ name, Keyed.has units' name = true → Keyed.has units name = true ∨
    ∃ i ∈ invocations, ReflTransGen (Needs catalogue find?) i.name name

namespace Linked

theorem nil {units : Keyed String ScriptUnit} (h : Closed catalogue find? units) :
    Linked catalogue find? [] units units where
  closed := h
  keeps := fun _ _ hu => hu
  adds := by simp
  reached := fun _ hname => Or.inl hname

theorem cons {i : Invocation} {rest : List Invocation} {units mid units' : Keyed String ScriptUnit}
    (h₁ : Linked catalogue find? [i] units mid) (h₂ : Linked catalogue find? rest mid units') :
    Linked catalogue find? (i :: rest) units units' where
  closed := h₂.closed
  keeps := fun name u hu => h₂.keeps name u (h₁.keeps name u hu)
  adds := by
    intro j hj
    rcases List.mem_cons.mp hj with rfl | hj
    · obtain ⟨u, hu⟩ := Keyed.has_iff.mp (h₁.adds j (by simp))
      exact Keyed.has_iff.mpr ⟨u, h₂.keeps _ _ hu⟩
    · exact h₂.adds j hj
  reached := by
    intro name hname
    rcases h₂.reached name hname with hmid | ⟨j, hj, hreach⟩
    · rcases h₁.reached name hmid with hold | ⟨j, hj, hreach⟩
      · exact Or.inl hold
      · exact Or.inr ⟨j, by simp_all, hreach⟩
    · exact Or.inr ⟨j, List.mem_cons_of_mem _ hj, hreach⟩

/-- A script that is there need not be added. -/
theorem present {i : Invocation} {units : Keyed String ScriptUnit}
    (h : Closed catalogue find? units) (hi : Keyed.has units i.name = true) :
    Linked catalogue find? [i] units units where
  closed := h
  keeps := fun _ _ hu => hu
  adds := by simpa using hi
  reached := fun _ hname => Or.inl hname

/-- A script can be added when all that it needs has been. -/
theorem put {i : Invocation} {inner : ScriptUnit} {units mid : Keyed String ScriptUnit}
    (hinner : unitOf? catalogue find? i.name = some inner)
    (h : Linked catalogue find? inner.externals units mid) :
    Linked catalogue find? [i] units (Keyed.put mid i.name inner) := by
  have hgrow : ∀ name, Keyed.has mid name = true →
      Keyed.has (Keyed.put mid i.name inner) name = true := by
    intro name hname
    unfold Keyed.has
    rw [Keyed.get?_put]
    by_cases he : i.name = name
    · simp [he]
    · simpa [he, Keyed.has] using hname
  refine ⟨?_, ?_, ?_, ?_⟩
  · intro name u hu
    rw [Keyed.get?_put] at hu
    by_cases he : i.name = name
    · rw [if_pos he] at hu
      obtain rfl := Option.some.inj hu
      subst he
      refine ⟨hinner, fun j hj => hgrow _ (h.adds j hj), ?_⟩
      -- All ways on from here lead through scripts that are there.
      refine Acc.intro _ ?_
      rintro other ⟨v, hv, hcalls⟩
      obtain rfl := Option.some.inj (hinner.symm.trans hv)
      obtain ⟨text, -, hcompile⟩ := unitOf?_eq_some.mp hinner
      obtain ⟨j, hj, rfl⟩ := (ScriptUnit.calls_iff hcompile).mp hcalls
      obtain ⟨w, hw⟩ := Keyed.has_iff.mp (h.adds j hj)
      exact (h.closed _ _ hw).2.2
    · rw [if_neg he] at hu
      obtain ⟨hunit, hneeds, hacc⟩ := h.closed name u hu
      exact ⟨hunit, fun j hj => hgrow _ (hneeds j hj), hacc⟩
  · intro name u hu
    rw [Keyed.get?_put]
    have hmid := h.keeps name u hu
    by_cases he : i.name = name
    · subst he
      rw [if_pos rfl, ← hinner, (h.closed _ _ hmid).1]
    · rw [if_neg he]
      exact hmid
  · intro j hj
    rw [List.mem_singleton.mp hj, Keyed.has, Keyed.get?_put, if_pos rfl]
    rfl
  · intro name hname
    unfold Keyed.has at hname
    rw [Keyed.get?_put] at hname
    by_cases he : i.name = name
    · exact Or.inr ⟨i, by simp, he ▸ .refl⟩
    · rw [if_neg he] at hname
      rcases h.reached name hname with hold | ⟨j, hj, hreach⟩
      · exact Or.inl hold
      · exact Or.inr ⟨i, by simp, ReflTransGen.head (needs_of_external hinner hj) hreach⟩

end Linked

theorem add_linked {link : Linker}
    (hlink : ∀ {active unit units units'}, link active unit units = .ok units' →
      Closed catalogue find? units → Linked catalogue find? unit.externals units units')
    {active : List String} {units units' : Keyed String ScriptUnit} {i : Invocation}
    (h : add catalogue find? link active units i = .ok units')
    (hclosed : Closed catalogue find? units) : Linked catalogue find? [i] units units' := by
  unfold add at h
  by_cases hhas : Keyed.has units i.name = true
  · rw [if_pos hhas] at h
    cases h
    exact .present hclosed hhas
  rw [if_neg hhas] at h
  by_cases hactive : active.contains i.name = true
  · rw [if_pos hactive] at h
    cases h
  rw [if_neg hactive] at h
  cases htext : find? i.name with
  | none =>
    rw [htext] at h
    cases h
  | some text =>
    simp only [htext] at h
    cases hinner : ScriptUnit.compile catalogue text with
    | error e =>
      rw [hinner] at h
      cases h
    | ok inner =>
      cases hmid : link (i.name :: active) inner units with
      | error e =>
        simp only [hinner, hmid, bind, Except.bind] at h
        cases h
      | ok mid =>
        simp only [hinner, hmid, bind, Except.bind] at h
        cases h
        exact .put (unitOf?_eq_some.mpr ⟨text, htext, hinner⟩) (hlink hmid hclosed)

theorem foldlM_add_linked {link : Linker}
    (hlink : ∀ {active unit units units'}, link active unit units = .ok units' →
      Closed catalogue find? units → Linked catalogue find? unit.externals units units')
    {active : List String} {invocations : List Invocation} {units units' : Keyed String ScriptUnit}
    (h : invocations.foldlM (add catalogue find? link active) units = .ok units')
    (hclosed : Closed catalogue find? units) :
    Linked catalogue find? invocations units units' := by
  induction invocations generalizing units with
  | nil =>
    cases h
    exact .nil hclosed
  | cons i rest ih =>
    rw [List.foldlM_cons] at h
    obtain ⟨mid, hmid, h⟩ := bind_eq_ok h
    have hfirst := add_linked hlink hmid hclosed
    exact hfirst.cons (ih h hfirst.closed)

/-- What has been linked is linked. -/
theorem link_linked {depth : Nat} {active : List String} {unit : ScriptUnit}
    {units units' : Keyed String ScriptUnit}
    (h : link catalogue find? depth active unit units = .ok units')
    (hclosed : Closed catalogue find? units) :
    Linked catalogue find? unit.externals units units' := by
  induction depth generalizing active unit units units' with
  | zero =>
    unfold link at h
    cases hext : unit.externals with
    | nil =>
      rw [hext] at h
      cases h
      exact .nil hclosed
    | cons i rest =>
      rw [hext] at h
      cases h
  | succ depth ih => exact foldlM_add_linked ih h hclosed

theorem Closed.nil : Closed catalogue find? [] := by
  intro name u hu
  cases hu

/-! ## When linking succeeds -/

/-- A name stands for a script that can be compiled and does not need itself. -/
def Sound (catalogue : Catalogue) (find? : String → Option String) (name : String) : Prop :=
  (∃ u, unitOf? catalogue find? name = some u) ∧ ¬ TransGen (Needs catalogue find?) name name

/-- All that a compiled script needs is compiled, and sound. -/
theorem Closed.sound {units : Keyed String ScriptUnit} (h : Closed catalogue find? units)
    {name other : String} (hname : Keyed.has units name = true)
    (hreach : ReflTransGen (Needs catalogue find?) name other) :
    Keyed.has units other = true ∧ Sound catalogue find? other := by
  have hother : Keyed.has units other = true := by
    induction hreach with
    | refl => exact hname
    | tail _ hneeds ih =>
      obtain ⟨v, hv, hcalls⟩ := hneeds
      obtain ⟨u, hu⟩ := Keyed.has_iff.mp ih
      obtain ⟨hunit, hexternals, -⟩ := h _ _ hu
      obtain rfl := Option.some.inj (hunit.symm.trans hv)
      obtain ⟨text, -, hcompile⟩ := unitOf?_eq_some.mp hunit
      obtain ⟨i, hi, rfl⟩ := (ScriptUnit.calls_iff hcompile).mp hcalls
      exact hexternals i hi
  obtain ⟨u, hu⟩ := Keyed.has_iff.mp hother
  obtain ⟨hunit, -, hacc⟩ := h _ _ hu
  exact ⟨hother, ⟨u, hunit⟩, not_cycle_of_acc hacc⟩

theorem add_eq_put {link : Linker} {active : List String}
    {units mid : Keyed String ScriptUnit} {i : Invocation} {text : String}
    {inner : ScriptUnit} (hhas : Keyed.has units i.name = false) (hactive : i.name ∉ active)
    (htext : find? i.name = some text) (hinner : ScriptUnit.compile catalogue text = .ok inner)
    (hmid : link (i.name :: active) inner units = .ok mid) :
    add catalogue find? link active units i = .ok (Keyed.put mid i.name inner) := by
  have hcontains : ¬ active.contains i.name = true := by simpa using hactive
  unfold add
  rw [if_neg (by simp [hhas]), if_neg hcontains]
  simp only [htext, hinner, hmid, bind, Except.bind]
  rfl

/-- Adding succeeds for a name that stands for a script and is not active, if linking does
below it. -/
theorem add_ok {link : Linker} {active : List String} {i : Invocation} {inner : ScriptUnit}
    (hinner : unitOf? catalogue find? i.name = some inner) (hactive : i.name ∉ active)
    (hlink : ∀ units, ∃ units', link (i.name :: active) inner units = .ok units')
    (units : Keyed String ScriptUnit) :
    ∃ units', add catalogue find? link active units i = .ok units' := by
  obtain ⟨text, htext, hcompile⟩ := unitOf?_eq_some.mp hinner
  cases hhas : Keyed.has units i.name with
  | true =>
    refine ⟨units, ?_⟩
    unfold add
    rw [if_pos hhas]
  | false =>
    obtain ⟨mid, hmid⟩ := hlink units
    exact ⟨_, add_eq_put hhas hactive htext hcompile hmid⟩

theorem foldlM_ok {α β ε : Type} {f : β → α → Except ε β} {items : List α}
    (h : ∀ a ∈ items, ∀ b, ∃ b', f b a = .ok b') (b : β) :
    ∃ b', items.foldlM f b = .ok b' := by
  induction items generalizing b with
  | nil => exact ⟨b, rfl⟩
  | cons a rest ih =>
    obtain ⟨mid, hmid⟩ := h a (by simp) b
    obtain ⟨last, hlast⟩ := ih (fun c hc => h c (List.mem_cons_of_mem _ hc)) mid
    exact ⟨last, by rw [List.foldlM_cons, hmid]; exact hlast⟩

/-- Where linking stands: the active names are different names, and the depth left is
enough for all the others. -/
structure Room (names : List String) (depth : Nat) (active : List String) : Prop where
  nodup : active.Nodup
  known : active ⊆ names
  enough : names.length < depth + active.length

namespace Room

variable {names active : List String} {depth : Nat}

theorem not_zero (h : Room names 0 active) : False := by
  have hlen := (List.Nodup.subperm h.nodup h.known).length_le
  have := h.enough
  omega

theorem enter (h : Room names (depth + 1) active) {name : String} (hnew : name ∉ active)
    (hname : name ∈ names) : Room names depth (name :: active) where
  nodup := List.nodup_cons.mpr ⟨hnew, h.nodup⟩
  known := List.cons_subset.mpr ⟨hname, h.known⟩
  enough := by
    have := h.enough
    simp only [List.length_cons]
    omega

end Room

/-- Linking succeeds if all that is needed is sound. An active name is not met again,
since it needs all that is linked below it. -/
theorem link_ok {names : List String} (hnames : ∀ name text, find? name = some text → name ∈ names)
    {depth : Nat} {active : List String} (hroom : Room names depth active) {unit : ScriptUnit}
    (hsound : ∀ i ∈ unit.externals, ∀ name, ReflTransGen (Needs catalogue find?) i.name name →
      Sound catalogue find? name)
    (hactive : ∀ a ∈ active, ∀ i ∈ unit.externals, TransGen (Needs catalogue find?) a i.name)
    (units : Keyed String ScriptUnit) :
    ∃ units', link catalogue find? depth active unit units = .ok units' := by
  induction depth generalizing active unit units with
  | zero => exact hroom.not_zero.elim
  | succ depth ih =>
    refine foldlM_ok (fun i hi units => ?_) units
    obtain ⟨⟨inner, hinner⟩, hcycle⟩ := hsound i hi i.name .refl
    obtain ⟨text, htext, -⟩ := unitOf?_eq_some.mp hinner
    -- Were the name active, it would need itself.
    have hnew : i.name ∉ active := fun hmem => hcycle (hactive _ hmem i hi)
    refine add_ok hinner hnew (fun units => ?_) units
    refine ih (hroom.enter hnew (hnames _ _ htext)) ?_ ?_ units
    · intro j hj name hreach
      exact hsound i hi name (ReflTransGen.head (needs_of_external hinner hj) hreach)
    · intro a ha j hj
      have hneeds := needs_of_external hinner hj
      rcases List.mem_cons.mp ha with rfl | ha
      · exact .single hneeds
      · exact (hactive a ha i hi).tail hneeds

/-- More depth than there are names changes nothing. -/
theorem link_depth {names : List String}
    (hnames : ∀ name text, find? name = some text → name ∈ names) {depth : Nat}
    {active : List String} (hroom : Room names depth active) (more : Nat) (unit : ScriptUnit)
    (units : Keyed String ScriptUnit) :
    link catalogue find? (depth + more) active unit units =
      link catalogue find? depth active unit units := by
  induction depth generalizing active unit units with
  | zero => exact hroom.not_zero.elim
  | succ depth ih =>
    rw [Nat.add_right_comm]
    unfold link
    congr 1
    funext units i
    unfold add
    -- The depth counts only where linking goes on, below a name that is not active yet.
    by_cases hactive : active.contains i.name = true
    · simp only [if_pos hactive]
    · cases htext : find? i.name with
      | none => rfl
      | some text =>
        have hnew : i.name ∉ active := by simpa using hactive
        have hdeeper := ih (hroom.enter hnew (hnames _ _ htext))
        simp only [hdeeper]

end Program

/-! ## Libraries -/

namespace Library

/-- The first shelf that has a name gives it a text. -/
def Holds (library : Library) (name text : String) : Prop :=
  ∃ before shelf after, library = before ++ shelf :: after ∧
    (∀ other ∈ before, Keyed.get? other name = none) ∧ Keyed.get? shelf name = some text

theorem find?_eq_some_iff {library : Library} {name text : String} :
    library.find? name = some text ↔ library.Holds name text := by
  induction library with
  | nil => simp [find?, Holds]
  | cons shelf rest ih =>
    unfold find?
    cases hget : Keyed.get? shelf name with
    | some found =>
      constructor
      · intro h
        exact ⟨[], shelf, rest, rfl, by simp, hget.trans h⟩
      · rintro ⟨before, other, after, heq, hbefore, hother⟩
        cases before with
        | nil =>
          cases heq
          exact hget.symm.trans hother
        | cons first before =>
          cases heq
          have hnone := hbefore shelf (by simp)
          rw [hget] at hnone
          cases hnone
    | none =>
      refine ih.trans ⟨?_, ?_⟩
      · rintro ⟨before, other, after, rfl, hbefore, hother⟩
        refine ⟨shelf :: before, other, after, rfl, ?_, hother⟩
        intro s hs
        rcases List.mem_cons.mp hs with rfl | hs
        · exact hget
        · exact hbefore s hs
      · rintro ⟨before, other, after, heq, hbefore, hother⟩
        cases before with
        | nil =>
          cases heq
          rw [hget] at hother
          cases hother
        | cons first before =>
          cases heq
          exact ⟨before, other, after, rfl, fun s hs => hbefore s (by simp [hs]), hother⟩

theorem mem_names {library : Library} {name text : String}
    (h : library.find? name = some text) : name ∈ library.names := by
  obtain ⟨before, shelf, after, rfl, -, hget⟩ := find?_eq_some_iff.mp h
  have hkey : name ∈ Keyed.keys shelf := Keyed.mem_keys_iff.mpr ⟨text, hget⟩
  exact List.mem_flatMap.mpr ⟨shelf, by simp, hkey⟩

end Library

namespace Program

variable {catalogue : Catalogue} {find? : String → Option String}

/-- A unit belongs to a program. -/
def Owns (p : Program) (u : ScriptUnit) : Prop :=
  u = p.main ∨ ∃ name, Keyed.get? p.units name = some u

theorem compileWith_eq_ok {depth : Nat} {source : String} {p : Program}
    (h : compileWith catalogue find? depth source = .ok p) :
    ScriptUnit.compile catalogue source = .ok p.main ∧
      link catalogue find? depth [] p.main [] = .ok p.units := by
  unfold compileWith at h
  obtain ⟨main, hmain, h⟩ := bind_eq_ok h
  obtain ⟨units, hunits, h⟩ := bind_eq_ok h
  cases h
  exact ⟨hmain, hunits⟩

theorem compileWith_ok {depth : Nat} {source : String} {main : ScriptUnit}
    {units : Keyed String ScriptUnit} (hmain : ScriptUnit.compile catalogue source = .ok main)
    (hunits : link catalogue find? depth [] main [] = .ok units) :
    compileWith catalogue find? depth source = .ok { main, units } := by
  unfold compileWith
  simp only [hmain, hunits, bind, Except.bind]
  rfl

theorem compileWith_linked {depth : Nat} {source : String} {p : Program}
    (h : compileWith catalogue find? depth source = .ok p) :
    Linked catalogue find? p.main.externals [] p.units :=
  link_linked (compileWith_eq_ok h).2 .nil

/-- Every unit of a program is compiled from some text, and all that it needs is there. -/
theorem owns_spec {depth : Nat} {source : String} {p : Program}
    (h : compileWith catalogue find? depth source = .ok p) {u : ScriptUnit} (hu : p.Owns u) :
    (∃ text, ScriptUnit.compile catalogue text = .ok u) ∧
      ∀ i ∈ u.externals, Keyed.has p.units i.name = true := by
  have hlinked := compileWith_linked h
  rcases hu with rfl | ⟨name, hget⟩
  · exact ⟨⟨source, (compileWith_eq_ok h).1⟩, hlinked.adds⟩
  · obtain ⟨hunit, hneeds, -⟩ := hlinked.closed name u hget
    obtain ⟨text, -, hcompile⟩ := unitOf?_eq_some.mp hunit
    exact ⟨⟨text, hcompile⟩, hneeds⟩

/-- All that a compiled program needs is sound. -/
theorem sound_of_compileWith {depth : Nat} {source : String} {p : Program}
    (h : compileWith catalogue find? depth source = .ok p) {name : String}
    (hreach : Reaches catalogue find? p.main name) : Sound catalogue find? name := by
  obtain ⟨first, hcalls, hpath⟩ := hreach
  obtain ⟨i, hi, rfl⟩ := (ScriptUnit.calls_iff (compileWith_eq_ok h).1).mp hcalls
  have hlinked := compileWith_linked h
  exact (hlinked.closed.sound (hlinked.adds i hi) hpath).2

/-- A text compiles if its unit does and all that this needs is sound. -/
theorem compile_of_sound {library : Library} {source : String} {main : ScriptUnit}
    (hmain : ScriptUnit.compile catalogue source = .ok main)
    (hsound : ∀ i ∈ main.externals, ∀ name,
      ReflTransGen (Needs catalogue library.find?) i.name name →
        Sound catalogue library.find? name) :
    ∃ p, compile catalogue library source = .ok p ∧ p.main = main := by
  have hroom : Room library.names (library.names.length + 1) [] := ⟨.nil, by simp, by simp⟩
  obtain ⟨units, hunits⟩ := link_ok (fun _ _ => Library.mem_names) hroom hsound (by simp) []
  exact ⟨{ main, units }, compileWith_ok hmain hunits, rfl⟩

/-- A library script that was compiled for another is what it is when compiled by itself. -/
theorem compile_of_needed {library : Library} {source : String} {p : Program}
    (h : compile catalogue library source = .ok p) {owner : ScriptUnit} (howner : p.Owns owner)
    {i : Invocation} (hi : i ∈ owner.externals) :
    ∃ text q, library.find? i.name = some text ∧ compile catalogue library text = .ok q ∧
      Keyed.get? p.units i.name = some q.main ∧
      ∀ name u, Keyed.get? q.units name = some u → Keyed.get? p.units name = some u := by
  have hclosed := (compileWith_linked h).closed
  have hhas := (owns_spec h howner).2 i hi
  obtain ⟨u, hu⟩ := Keyed.has_iff.mp hhas
  have hunit := (hclosed _ _ hu).1
  obtain ⟨text, htext, hcompile⟩ := unitOf?_eq_some.mp hunit
  have hbelow : ∀ j ∈ u.externals, ∀ name,
      ReflTransGen (Needs catalogue library.find?) j.name name →
        Keyed.has p.units name = true ∧ Sound catalogue library.find? name := by
    intro j hj name hpath
    exact hclosed.sound hhas (ReflTransGen.head (needs_of_external hunit hj) hpath)
  obtain ⟨q, hq, rfl⟩ := compile_of_sound hcompile fun j hj name hpath => (hbelow j hj name hpath).2
  refine ⟨text, q, htext, hq, hu, ?_⟩
  intro name v hv
  -- What is there under a name is always the unit of that name.
  have hlinked := compileWith_linked hq
  rcases hlinked.reached name (Keyed.has_iff.mpr ⟨v, hv⟩) with hnil | ⟨j, hj, hpath⟩
  · cases hnil
  · obtain ⟨w, hw⟩ := Keyed.has_iff.mp (hbelow j hj name hpath).1
    rw [hw, ← (hclosed _ _ hw).1, (hlinked.closed _ _ hv).1]

/-- Compiling a text with a library never goes deeper than there are names. It succeeds
exactly if the text compiles by itself, every name it reaches is on a shelf, with a text that
compiles by itself on the first such shelf, and none of these needs itself. Then every
invocation of a script that is not a sub-script stands for what its text on the first shelf
compiles to. -/
theorem compile_eq_ok_iff (catalogue : Catalogue) (library : Library) (source : String) :
    (∀ more, compileWith catalogue library.find? (library.names.length + 1 + more) source =
      compile catalogue library source) ∧
    ((∃ p, compile catalogue library source = .ok p) ↔
      ∃ main, ScriptUnit.compile catalogue source = .ok main ∧
        ∀ name, Reaches catalogue library.find? main name →
          (∃ text u, library.Holds name text ∧ ScriptUnit.compile catalogue text = .ok u) ∧
          ¬ TransGen (Needs catalogue library.find?) name name) ∧
    ∀ p, compile catalogue library source = .ok p →
      ScriptUnit.compile catalogue source = .ok p.main ∧
      ∀ owner, p.Owns owner → ∀ i ∈ owner.invocations, i.name ∉ Keyed.keys owner.subs →
        i.external = true ∧
        ∃ text q, library.Holds i.name text ∧ compile catalogue library text = .ok q ∧
          Keyed.get? p.units i.name = some q.main ∧
          ∀ name u, Keyed.get? q.units name = some u → Keyed.get? p.units name = some u := by
  refine ⟨?_, ⟨?_, ?_⟩, ?_⟩
  · -- more depth
    intro more
    have hroom : Room library.names (library.names.length + 1) [] := ⟨.nil, by simp, by simp⟩
    unfold compile compileWith
    simp only [link_depth (fun _ _ => Library.mem_names) hroom more]
  · -- a program: all it reaches is there and sound
    rintro ⟨p, hp⟩
    refine ⟨p.main, (compileWith_eq_ok hp).1, ?_⟩
    intro name hreach
    obtain ⟨⟨u, hu⟩, hcycle⟩ := sound_of_compileWith hp hreach
    obtain ⟨text, htext, hcompile⟩ := unitOf?_eq_some.mp hu
    exact ⟨⟨text, u, Library.find?_eq_some_iff.mp htext, hcompile⟩, hcycle⟩
  · -- all is there and sound: a program
    rintro ⟨main, hmain, hsound⟩
    have hall : ∀ i ∈ main.externals, ∀ name,
        ReflTransGen (Needs catalogue library.find?) i.name name →
          Sound catalogue library.find? name := by
      intro i hi name hpath
      have hcalls := (ScriptUnit.calls_iff hmain).mpr ⟨i, hi, rfl⟩
      obtain ⟨⟨text, u, htext, hu⟩, hcycle⟩ := hsound name ⟨i.name, hcalls, hpath⟩
      exact ⟨⟨u, unitOf?_eq_some.mpr ⟨text, Library.find?_eq_some_iff.mpr htext, hu⟩⟩, hcycle⟩
    obtain ⟨p, hp, -⟩ := compile_of_sound hmain hall
    exact ⟨p, hp⟩
  · -- what the invocations stand for
    intro p hp
    refine ⟨(compileWith_eq_ok hp).1, ?_⟩
    intro owner howner i hi hsub
    obtain ⟨own, hown⟩ := (owns_spec hp howner).1
    have hext : i.external = true := (ScriptUnit.external_iff hown hi).mpr hsub
    obtain ⟨text, q, htext, hq, hget, hunits⟩ :=
      compile_of_needed hp howner (List.mem_filter.mpr ⟨hi, hext⟩)
    exact ⟨hext, text, q, Library.find?_eq_some_iff.mp htext, hq, hget, hunits⟩

/-- Two scripts that need a third, of which the second shelf has another text. -/
def diamond : Library :=
  [[("a", "call c"), ("c", "")], [("b", "call c"), ("c", "call c")]]

def diamondProgram : Program where
  main := { body := [callLine 1 "call a" "a", callLine 2 "call b" "b"] }
  units :=
    [("c", { body := [] }), ("a", { body := [callLine 1 "call c" "c"] }),
      ("b", { body := [callLine 1 "call c" "c"] })]
where
  callLine (line : Nat) (text name : String) : Statement :=
    .command { line, text } (.invoke .call name none true)

theorem compile_diamond :
    compile .empty diamond "call a\ncall b" = .ok diamondProgram ∧
      ∃ text q, diamond.Holds "b" text ∧ compile .empty diamond text = .ok q ∧
        Keyed.get? diamondProgram.units "b" = some q.main := by
  have hp : compile .empty diamond "call a\ncall b" = .ok diamondProgram := by cbv
  have hall := ((compile_eq_ok_iff .empty diamond "call a\ncall b").2.2 _ hp).2 _ (Or.inl rfl)
  have hi : (⟨2, .call, "b", true⟩ : Invocation) ∈ diamondProgram.main.invocations := by decide
  obtain ⟨-, text, q, htext, hq, hget, -⟩ := hall _ hi (by decide)
  exact ⟨hp, text, q, htext, hq, hget⟩

end Program

end MarkupScript
