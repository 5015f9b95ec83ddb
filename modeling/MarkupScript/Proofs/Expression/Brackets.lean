import MarkupScript.Proofs.Expression.Spelling

/-!
# The brackets in the text of a path

The brackets of predicates are looked for again and again: when a path is taken from the text of an
expression, when a step is taken from a path, and when the predicates are taken from a step. Each
time the search starts anew, at another place.

* `Nesting`: what is open at a place of a text, counted from its front.
* `closePredicate_cons`: a search for the closing bracket counts just this.
* `closesAll_of_takeBracketed`, `exists_takeBracketed`: what is taken leaves nothing open, and from
  a text that leaves nothing open something can be taken.
* `closesAll_of_mem_lex`: every path among the tokens of an expression leaves nothing open.
* `Step.parse_ne_unclosed`: a step that leaves nothing open is not refused for a bracket.
-/

namespace MarkupScript

/-! ## What is open -/

/-- The number of open brackets, and the quote that is open in them. -/
structure Nesting where
  depth : Nat
  quote : Option Char
deriving DecidableEq

namespace Nesting

/-- Nothing is open. -/
def outside : Nesting := ⟨0, none⟩

/-- What is open after one more character. Quotes and closing brackets count in brackets only. -/
def next (n : Nesting) (c : Char) : Nesting :=
  match n.quote with
  | some q => if c = q then { n with quote := none } else n
  | none =>
    if c = '[' then { n with depth := n.depth + 1 }
    else if n.depth = 0 then n
    else if c = '\'' || c = '"' then { n with quote := some c }
    else if c = ']' then { n with depth := n.depth - 1 }
    else n

/-- What is open after some more characters. -/
def after (n : Nesting) (cs : List Char) : Nesting := cs.foldl next n

@[simp]
theorem after_cons (n : Nesting) (c : Char) (cs : List Char) :
    n.after (c :: cs) = (n.next c).after cs := rfl

@[simp]
theorem after_append (n : Nesting) (cs rest : List Char) :
    n.after (cs ++ rest) = (n.after cs).after rest :=
  List.foldl_append

theorem next_of_ne {c : Char} (h : c ≠ '[') : outside.next c = outside := by
  simp [next, outside, h]

/-- Without brackets nothing is opened. -/
theorem after_of_no_bracket {cs : List Char} (h : ∀ c ∈ cs, c ≠ '[') :
    outside.after cs = outside := by
  induction cs with
  | nil => rfl
  | cons c cs ih =>
    obtain ⟨hc, hcs⟩ := List.forall_mem_cons.mp h
    rw [after_cons, next_of_ne hc, ih hcs]

/-- The last bracket is closed by a bracket, and then no quote is open. -/
theorem closing_of_next {n : Nesting} {c : Char} (hn : 1 ≤ n.depth)
    (h : (n.next c).depth = 0) : c = ']' ∧ n.next c = outside := by
  obtain ⟨depth, quote⟩ := n
  unfold next at h ⊢
  grind [outside]

end Nesting

/-- Nothing is open after the text. -/
def ClosesAll (cs : List Char) : Prop := Nesting.outside.after cs = Nesting.outside

instance (cs : List Char) : Decidable (ClosesAll cs) := inferInstanceAs (Decidable (_ = _))

/-- Behind a text that leaves nothing open, brackets are counted as from the front. -/
theorem ClosesAll.append_iff {cs : List Char} (h : ClosesAll cs) (rest : List Char) :
    ClosesAll (cs ++ rest) ↔ ClosesAll rest := by
  rw [ClosesAll, Nesting.after_append, h, ClosesAll]

theorem closesAll_of_no_bracket {cs : List Char} (h : ∀ c ∈ cs, c ≠ '[') : ClosesAll cs :=
  Nesting.after_of_no_bracket h

theorem closesAll_cons_iff {c : Char} (hc : c ≠ '[') (cs : List Char) :
    ClosesAll (c :: cs) ↔ ClosesAll cs := by
  rw [ClosesAll, Nesting.after_cons, Nesting.next_of_ne hc, ClosesAll]

namespace ExprToken

/-! ## The search for the closing bracket -/

/-- A search for the closing bracket goes on as long as a bracket is open. -/
theorem closePredicate_cons {n : Nesting} (hn : 1 ≤ n.depth) (c : Char) (cs : List Char) :
    closePredicate n.depth n.quote (c :: cs) =
      if (n.next c).depth = 0 then some ([c], cs)
      else (closePredicate (n.next c).depth (n.next c).quote cs).map fun p => (c :: p.1, p.2) := by
  obtain ⟨depth, quote⟩ := n
  dsimp only at hn
  have hdepth : depth ≠ 0 := Nat.ne_of_gt hn
  cases quote with
  | some q =>
    rw [closePredicate]
    by_cases hc : c = q <;> simp [Nesting.next, hc, hdepth]
  | none =>
    rw [closePredicate]
    -- The search asks for quotes first, `next` for brackets: no character is both.
    by_cases hquote : c = '\'' ∨ c = '"'
    · have hopen : c ≠ '[' := by
        rintro rfl
        exact absurd hquote (by decide)
      simp [Nesting.next, hquote, hopen, hdepth]
    by_cases hopen : c = '['
    · simp [Nesting.next, hopen]
    by_cases hclose : c = ']'
    · by_cases hone : depth = 1
      · simp [Nesting.next, hclose, hone]
      · have hmore : depth - 1 ≠ 0 := by omega
        simp [Nesting.next, hclose, hone, hdepth, hmore]
    · simp [Nesting.next, hquote, hopen, hclose, hdepth]

/-- What is taken ends where the last bracket is closed, with that bracket. -/
theorem closePredicate_eq_some {n : Nesting} (hn : 1 ≤ n.depth) {cs inside rest : List Char}
    (h : closePredicate n.depth n.quote cs = some (inside, rest)) :
    cs = inside ++ rest ∧ n.after inside = .outside ∧ ∃ within, inside = within ++ [']'] := by
  induction cs generalizing n inside with
  | nil => cases h
  | cons c cs ih =>
    rw [closePredicate_cons hn] at h
    split at h
    · next hzero =>
      obtain ⟨rfl, hnext⟩ := Nesting.closing_of_next hn hzero
      cases h
      exact ⟨rfl, hnext, [], rfl⟩
    · next hopen =>
      obtain ⟨⟨inner, after⟩, hinner, heq⟩ := Option.map_eq_some_iff.mp h
      cases heq
      obtain ⟨rfl, hafter, within, rfl⟩ := ih (Nat.one_le_iff_ne_zero.mpr hopen) hinner
      exact ⟨rfl, hafter, c :: within, rfl⟩

/-- A search that comes to the end finds a bracket open there. -/
theorem closePredicate_eq_none {n : Nesting} (hn : 1 ≤ n.depth) {cs : List Char}
    (h : closePredicate n.depth n.quote cs = none) : 1 ≤ (n.after cs).depth := by
  induction cs generalizing n with
  | nil => exact hn
  | cons c cs ih =>
    rw [closePredicate_cons hn] at h
    split at h
    · cases h
    · next hopen => exact ih (Nat.one_le_iff_ne_zero.mpr hopen) (Option.map_eq_none_iff.mp h)

/-- A predicate is the front of the text up to its closing bracket, and leaves nothing open. -/
theorem closesAll_of_closePredicate {cs inside rest : List Char}
    (h : closePredicate 1 none cs = some (inside, rest)) :
    cs = inside ++ rest ∧ ClosesAll ('[' :: inside) ∧ ∃ within, inside = within ++ [']'] :=
  closePredicate_eq_some (n := ⟨1, none⟩) (Nat.le_refl 1) h

/-- From a text that leaves nothing open, a predicate at its front can be taken. -/
theorem closePredicate_ne_none {cs : List Char} (h : ClosesAll ('[' :: cs)) :
    closePredicate 1 none cs ≠ none := by
  intro hnone
  have hopen := closePredicate_eq_none (n := ⟨1, none⟩) (Nat.le_refl 1) hnone
  have hclosed : (⟨1, none⟩ : Nesting).after cs = .outside := h
  rw [hclosed] at hopen
  cases hopen

/-! ## Taking characters and predicates -/

/-- What is taken is the front of the text and leaves nothing open. -/
theorem closesAll_of_takeBracketed {continues : Char → Bool} {cs taken rest : List Char}
    (h : takeBracketed continues cs = some (taken, rest)) :
    cs = taken ++ rest ∧ ClosesAll taken := by
  fun_induction takeBracketed continues cs generalizing taken rest with
  | case1 =>
    cases h
    exact ⟨rfl, rfl⟩
  | case2 => cases h
  | case3 front inside after hclose ih =>
    obtain ⟨⟨more, left⟩, hmore, heq⟩ := Option.map_eq_some_iff.mp h
    cases heq
    obtain ⟨rfl, hinside, -⟩ := closesAll_of_closePredicate hclose
    obtain ⟨rfl, hclosed⟩ := ih hmore
    exact ⟨by simp, (hinside.append_iff more).mpr hclosed⟩
  | case4 c front hbracket hgo ih =>
    obtain ⟨⟨more, left⟩, hmore, heq⟩ := Option.map_eq_some_iff.mp h
    cases heq
    obtain ⟨rfl, hclosed⟩ := ih hmore
    exact ⟨rfl, (closesAll_cons_iff hbracket more).mpr hclosed⟩
  | case5 c front hbracket hstop =>
    cases h
    exact ⟨rfl, rfl⟩

/-- What is left starts with a character that does not go on. -/
theorem head?_of_takeBracketed {continues : Char → Bool} {cs taken rest : List Char}
    (h : takeBracketed continues cs = some (taken, rest)) :
    ∀ c ∈ rest.head?, continues c = false := by
  fun_induction takeBracketed continues cs generalizing taken rest with
  | case1 =>
    cases h
    simp
  | case2 => cases h
  | case3 front inside after hclose ih =>
    obtain ⟨⟨more, left⟩, hmore, heq⟩ := Option.map_eq_some_iff.mp h
    cases heq
    exact ih hmore
  | case4 c front hbracket hgo ih =>
    obtain ⟨⟨more, left⟩, hmore, heq⟩ := Option.map_eq_some_iff.mp h
    cases heq
    exact ih hmore
  | case5 c front hbracket hstop =>
    cases h
    simpa using hstop

/-- From a text that leaves nothing open something can be taken, whatever it is that goes on. -/
theorem exists_takeBracketed (continues : Char → Bool) {cs : List Char} (h : ClosesAll cs) :
    ∃ taken rest, takeBracketed continues cs = some (taken, rest) := by
  fun_induction takeBracketed continues cs with
  | case1 => exact ⟨[], [], rfl⟩
  | case2 rest hclose => exact absurd hclose (closePredicate_ne_none h)
  | case3 rest inside after hclose ih =>
    -- The search behind the predicate starts with nothing open, as at the front.
    obtain ⟨rfl, hinside, -⟩ := closesAll_of_closePredicate hclose
    obtain ⟨taken, left, htake⟩ := ih ((hinside.append_iff after).mp h)
    exact ⟨_, _, by rw [htake]; rfl⟩
  | case4 c rest hbracket hgo ih =>
    obtain ⟨taken, left, htake⟩ := ih ((closesAll_cons_iff hbracket rest).mp h)
    exact ⟨_, _, by rw [htake]; rfl⟩
  | case5 c rest hbracket hstop => exact ⟨_, _, rfl⟩

/-! ## The tokens of an expression -/

section Tokens

variable {input text : String} {c : Char} {rest : List Char} {taken : Taken}

/-- A path is taken from its first character on, also if that is the dollar sign of a variable. -/
theorem takePath_of_take {operand : Bool} (h : take input operand c rest = .ok taken)
    (htoken : taken.token = path text) : takePath (c :: rest) = .ok taken := by
  rcases take_cases h with hnone | ⟨rfl, hvariable⟩ | ⟨-, -, htake⟩
  · rw [htoken] at hnone
    cases hnone
  · -- A variable that is followed by a slash is taken again, as a path.
    rw [takeVariable] at hvariable
    split at hvariable
    · cases hvariable
    split at hvariable
    · exact hvariable
    · cases hvariable
      cases htoken
  · exact htake

theorem closesAll_of_takePath (h : takePath rest = .ok taken) (htoken : taken.token = path text) :
    ClosesAll text.toList := by
  rw [takePath] at h
  split at h
  · next source after htake =>
    cases h
    cases htoken
    rw [String.toList_ofList]
    exact (closesAll_of_takeBracketed htake).2
  · cases h

/-- Every path among the tokens of an expression leaves nothing open. -/
theorem closesAll_of_mem_lex {tokens : List ExprToken} (h : lex input = .ok tokens)
    (hmem : path text ∈ tokens) : ClosesAll text.toList := by
  obtain ⟨operand, c, rest, taken, htake, htoken⟩ := taken_of_mem_lex h hmem
  exact closesAll_of_takePath (takePath_of_take htake htoken) htoken

end Tokens

end ExprToken

/-! ## The predicates of a step -/

theorem Predicate.parse_ne_unclosed (cs : List Char) :
    Predicate.parse cs ≠ .error .unclosedPredicate := by
  intro h
  unfold Predicate.parse at h
  dsimp only at h
  split at h
  · cases h
  · cases h
  split at h
  · split at h
    · cases h
    split at h
    · cases h
    · cases h
  · cases h

namespace Step

theorem parsePredicates_ne_unclosed {step : String} {cs : List Char} (hcs : ClosesAll cs) :
    parsePredicates step cs ≠ .error .unclosedPredicate := by
  fun_induction parsePredicates step cs with
  | case1 =>
    intro h
    cases h
  | case2 rest hclose => exact absurd hclose (ExprToken.closePredicate_ne_none hcs)
  | case3 rest inside after hclose ih =>
    obtain ⟨rfl, hinside, -⟩ := ExprToken.closesAll_of_closePredicate hclose
    have hafter := (hinside.append_iff after).mp hcs
    intro h
    rcases bind_eq_error h with hpredicate | ⟨predicate, -, h⟩
    · exact Predicate.parse_ne_unclosed _ hpredicate
    rcases bind_eq_error h with hpredicates | ⟨predicates, -, h⟩
    · exact ih hafter hpredicates
    · cases h
  | case4 c rest hne =>
    intro h
    cases h

/-- A step that leaves nothing open is not refused for a bracket. -/
theorem parse_ne_unclosed {axis : Axis} {cs : List Char} (hcs : ClosesAll cs) :
    Step.parse axis cs ≠ .error .unclosedPredicate := by
  have hname : ∀ c ∈ cs.takeWhile (· ≠ '['), c ≠ '[' := by
    intro c hc
    simpa using List.all_eq_true.mp List.all_takeWhile c hc
  -- Nothing is open behind the name, since it has no bracket.
  have hclosed : ClosesAll (cs.dropWhile (· ≠ '[')) := by
    rw [← List.takeWhile_append_dropWhile (p := (· ≠ '[')) (l := cs)] at hcs
    exact ((closesAll_of_no_bracket hname).append_iff _).mp hcs
  intro h
  rw [Step.parse] at h
  rcases bind_eq_error h with hpredicates | ⟨predicates, -, h⟩
  · exact parsePredicates_ne_unclosed hclosed hpredicates
  split at h
  · split at h <;> cases h
  · cases h
  · split at h <;> cases h
  · split at h <;> cases h
  · cases h

end Step

end MarkupScript
