import MarkupScript.Proofs.Json.Text

/-!
# How deep JSON text nests

The nesting of a text is the largest number of objects and arrays that are open at one time. It
is counted on the characters alone, where brackets in strings do not count.

* `Json.nesting`: the nesting of a text, found by one scan.
* `Json.depth`: how deep a value has objects and arrays in one another.
* `nesting_pretty`: the text of a value nests as deep as the value.
-/

namespace MarkupScript.Json

/-! ## Scanning a text -/

/-- Where in a text a scan is. -/
inductive Place where
  | outside
  | quoted
  /-- After a backslash in a string. -/
  | escaped

/-- A scan of a text: how many brackets are open, and how many have been at most. -/
structure BracketScan where
  place : Place := .outside
  opened : Nat := 0
  deepest : Nat := 0

/-- Goes on by one character. -/
def BracketScan.step (s : BracketScan) (c : Char) : BracketScan :=
  match s.place with
  | .escaped => { s with place := .quoted }
  | .quoted =>
    if c = '\\' then { s with place := .escaped }
    else if c = '"' then { s with place := .outside }
    else s
  | .outside =>
    if c = '"' then { s with place := .quoted }
    else if c = '[' ∨ c = '{' then
      { s with opened := s.opened + 1, deepest := max s.deepest (s.opened + 1) }
    else if c = ']' ∨ c = '}' then { s with opened := s.opened - 1 }
    else s

def BracketScan.run (s : BracketScan) (cs : List Char) : BracketScan :=
  cs.foldl step s

/-- The largest number of objects and arrays that are open at one time in a text. -/
def nesting (text : String) : Nat :=
  (BracketScan.run {} text.toList).deepest

namespace BracketScan

theorem run_append (s : BracketScan) (cs cs' : List Char) :
    s.run (cs ++ cs') = (s.run cs).run cs' :=
  List.foldl_append

theorem run_cons (s : BracketScan) (c : Char) (cs : List Char) :
    s.run (c :: cs) = (s.step c).run cs := rfl

variable (opened deepest : Nat)

theorem step_quoted {c : Char} (hslash : c ≠ '\\') (hquote : c ≠ '"') :
    step ⟨.quoted, opened, deepest⟩ c = ⟨.quoted, opened, deepest⟩ := by
  simp [step, hslash, hquote]

/-- A written character of a string leaves the scan in the string. -/
theorem run_escapeChar (c : Char) :
    run ⟨.quoted, opened, deepest⟩ (escapeChar c) = ⟨.quoted, opened, deepest⟩ := by
  unfold escapeChar
  split
  · rfl
  · rfl
  · rfl
  · rfl
  · rfl
  · rfl
  · rfl
  · next hquote hslash _ _ _ _ _ =>
    by_cases hcontrol : c.toNat < 0x20
    · have hdigit : ∀ n : Fin 32, Nat.digitChar n.val ≠ '\\' ∧ Nat.digitChar n.val ≠ '"' := by
        decide
      have hhigh := hdigit ⟨c.toNat / 16, by omega⟩
      have hlow := hdigit ⟨c.toNat % 16, by omega⟩
      rw [if_pos hcontrol]
      show step (step ⟨.quoted, opened, deepest⟩ _) _ = _
      rw [step_quoted _ _ hhigh.1 hhigh.2, step_quoted _ _ hlow.1 hlow.2]
    · rw [if_neg hcontrol]
      exact step_quoted opened deepest hslash hquote

theorem run_flatMap (cs : List Char) :
    run ⟨.quoted, opened, deepest⟩ (cs.flatMap escapeChar) = ⟨.quoted, opened, deepest⟩ := by
  induction cs with
  | nil => rfl
  | cons c cs ih => rw [List.flatMap_cons, run_append, run_escapeChar, ih]

theorem run_quote (s : String) :
    run ⟨.outside, opened, deepest⟩ (quote s).toList = ⟨.outside, opened, deepest⟩ := by
  rw [toList_quote, run_cons, run_append]
  show run (run ⟨.quoted, opened, deepest⟩ _) _ = _
  rw [run_flatMap]
  rfl

theorem run_newline (level : Nat) :
    run ⟨.outside, opened, deepest⟩ (newline level).toList = ⟨.outside, opened, deepest⟩ := by
  rw [toList_newline, run_cons]
  show run ⟨.outside, opened, deepest⟩ (List.replicate (2 * level) ' ') = _
  induction 2 * level with
  | zero => rfl
  | succ n ih => exact ih

/-- A bracket that opens. -/
theorem run_open {c : Char} (hc : c = '[' ∨ c = '{') :
    run ⟨.outside, opened, deepest⟩ [c] =
      ⟨.outside, opened + 1, max deepest (opened + 1)⟩ := by
  rcases hc with rfl | rfl <;> rfl

/-- A bracket that closes. -/
theorem run_close {c : Char} (hc : c = ']' ∨ c = '}') :
    run ⟨.outside, opened + 1, deepest⟩ [c] = ⟨.outside, opened, deepest⟩ := by
  rcases hc with rfl | rfl <;> rfl

theorem run_comma : run ⟨.outside, opened, deepest⟩ [','] = ⟨.outside, opened, deepest⟩ := rfl

theorem run_colon :
    run ⟨.outside, opened, deepest⟩ [':', ' '] = ⟨.outside, opened, deepest⟩ := rfl

end BracketScan

/-! ## The depth of a value -/

mutual

/-- How deep a value has objects and arrays in one another. -/
def depth : Json → Nat
  | null | bool _ | number _ | string _ | unreadable => 0
  | array items => depthAll items + 1
  | object fields => depthFields fields + 1

def depthAll : List Json → Nat
  | [] => 0
  | item :: items => max (depth item) (depthAll items)

def depthFields : List (String × Json) → Nat
  | [] => 0
  | (_, value) :: fields => max (depth value) (depthFields fields)

end

-- The scan comes out of a value with as many brackets open as it went in with. So the deepest
-- place is the deepest so far or that of the value, from where the scan stood.
mutual

theorem run_prettyAt : ∀ {j : Json} {level opened deepest : Nat}, j.Textual →
    opened ≤ deepest → BracketScan.run ⟨.outside, opened, deepest⟩ (prettyAt level j).toList =
      ⟨.outside, opened, max deepest (opened + j.depth)⟩
  | .null, _, opened, deepest, _, hle => by
    rw [prettyAt, depth, Nat.add_zero, Nat.max_eq_left hle]
    rfl
  | .bool b, _, opened, deepest, _, hle => by
    rw [prettyAt, depth, Nat.add_zero, Nat.max_eq_left hle]
    cases b <;> rfl
  | .string s, _, opened, deepest, _, hle => by
    rw [prettyAt, depth, Nat.add_zero, Nat.max_eq_left hle, BracketScan.run_quote]
  | .number _, _, _, _, h, _ => by simp [Textual] at h
  | .unreadable, _, _, _, h, _ => by simp [Textual] at h
  | .array [], _, opened, deepest, _, _ => by
    rw [prettyAt, depth, depthAll]
    rfl
  | .object [], _, opened, deepest, _, _ => by
    rw [prettyAt, depth, depthFields]
    rfl
  | .array (item :: items), level, opened, deepest, h, hle => by
    rw [Textual, TextualAll] at h
    have htext : (prettyAt level (array (item :: items))).toList =
        ['['] ++ (newline (level + 1)).toList ++ (prettyAt (level + 1) item).toList ++
          (prettyItems (level + 1) items).toList ++ (newline level).toList ++ [']'] := by
      simp [prettyAt]
    simp only [htext, BracketScan.run_append]
    rw [BracketScan.run_open _ _ (Or.inl rfl), BracketScan.run_newline,
      run_prettyAt h.1 (by omega), run_prettyItems h.2 (by omega), BracketScan.run_newline,
      BracketScan.run_close _ _ (Or.inl rfl), depth, depthAll]
    exact congrArg (BracketScan.mk .outside opened) (by omega)
  | .object ((key, value) :: fields), level, opened, deepest, h, hle => by
    rw [Textual, TextualFields] at h
    have htext : (prettyAt level (object ((key, value) :: fields))).toList =
        ['{'] ++ (newline (level + 1)).toList ++ (quote key).toList ++ [':', ' '] ++
          (prettyAt (level + 1) value).toList ++ (prettyFields (level + 1) fields).toList ++
          (newline level).toList ++ ['}'] := by
      simp [prettyAt]
    simp only [htext, BracketScan.run_append]
    rw [BracketScan.run_open _ _ (Or.inr rfl), BracketScan.run_newline, BracketScan.run_quote,
      BracketScan.run_colon, run_prettyAt h.1 (by omega), run_prettyFields h.2 (by omega),
      BracketScan.run_newline, BracketScan.run_close _ _ (Or.inr rfl), depth, depthFields]
    exact congrArg (BracketScan.mk .outside opened) (by omega)

theorem run_prettyItems : ∀ {items : List Json} {level opened deepest : Nat}, TextualAll items →
    opened ≤ deepest →
    BracketScan.run ⟨.outside, opened, deepest⟩ (prettyItems level items).toList =
      ⟨.outside, opened, max deepest (opened + depthAll items)⟩
  | [], _, opened, deepest, _, hle => by
    rw [prettyItems, depthAll, Nat.add_zero, Nat.max_eq_left hle]
    rfl
  | item :: items, level, opened, deepest, h, hle => by
    rw [TextualAll] at h
    have htext : (prettyItems level (item :: items)).toList =
        [','] ++ (newline level).toList ++ (prettyAt level item).toList ++
          (prettyItems level items).toList := by
      simp [prettyItems]
    simp only [htext, BracketScan.run_append]
    rw [BracketScan.run_comma, BracketScan.run_newline, run_prettyAt h.1 hle,
      run_prettyItems h.2 (by omega), depthAll]
    exact congrArg (BracketScan.mk .outside opened) (by omega)

theorem run_prettyFields : ∀ {fields : List (String × Json)} {level opened deepest : Nat},
    TextualFields fields → opened ≤ deepest →
    BracketScan.run ⟨.outside, opened, deepest⟩ (prettyFields level fields).toList =
      ⟨.outside, opened, max deepest (opened + depthFields fields)⟩
  | [], _, opened, deepest, _, hle => by
    rw [prettyFields, depthFields, Nat.add_zero, Nat.max_eq_left hle]
    rfl
  | (key, value) :: fields, level, opened, deepest, h, hle => by
    rw [TextualFields] at h
    have htext : (prettyFields level ((key, value) :: fields)).toList =
        [','] ++ (newline level).toList ++ (quote key).toList ++ [':', ' '] ++
          (prettyAt level value).toList ++ (prettyFields level fields).toList := by
      simp [prettyFields]
    simp only [htext, BracketScan.run_append]
    rw [BracketScan.run_comma, BracketScan.run_newline, BracketScan.run_quote,
      BracketScan.run_colon, run_prettyAt h.1 hle, run_prettyFields h.2 (by omega), depthFields]
    exact congrArg (BracketScan.mk .outside opened) (by omega)

end

/-- The text of a value nests as deep as the value. -/
theorem nesting_pretty {j : Json} (h : j.Textual) : nesting j.pretty = j.depth := by
  have hrun : BracketScan.run {} (prettyAt 0 j).toList =
      ⟨.outside, 0, max 0 (0 + j.depth)⟩ :=
    run_prettyAt h (Nat.le_refl 0)
  rw [nesting, pretty, hrun]
  exact (Nat.zero_max _).trans (Nat.zero_add _)

end MarkupScript.Json
