import MarkupScript.Proofs.Line.Quoting

/-!
# Words with every character escaped

A word can be given without quotes, with a backslash in front of each of its characters. It may have
blanks, quotes and brackets in it, but a bracket in front could open a verbatim group.

* `Text.escapeLine`: words written so, with single spaces between them.
* `Text.IsWord`: the words that can be written so.
* `Token.scan_escapeLine`: the scan of such a line gives the words as they were.
* `trimChars_escapeLine`: a blank at the end of the last word is trimmed with the line, and leaves
  its backslash behind.
* `tokenize_escapeLine_iff`: so the words are read back exactly if the last one does not end with
  a blank.
-/

namespace MarkupScript

namespace Text

/-- Characters with a backslash in front of each. -/
def escapeAll (cs : List Char) : List Char :=
  cs.flatMap fun c => ['\\', c]

/-- The words one after another, every character escaped. -/
def escapeLine (words : List String) : String :=
  " ".intercalate (words.map fun w => String.ofList (escapeAll w.toList))

/-- A text that is not blank and does not begin with a bracket that could open a group. -/
structure IsWord (s : String) : Prop where
  not_blank : ∃ c ∈ s.toList, isBlank c = false
  no_bracket : ∀ b : Bracket, s.toList.head? ≠ some b.opener

theorem IsWord.ne_nil {s : String} (h : IsWord s) : s.toList ≠ [] := by
  obtain ⟨c, hc, -⟩ := h.not_blank
  exact List.ne_nil_of_mem hc

/-- A word is one also without a blank at its end. -/
theorem IsWord.dropBlank {cs : List Char} {b : Char} (h : IsWord (String.ofList (cs ++ [b])))
    (hb : isBlank b = true) : IsWord (String.ofList cs) := by
  obtain ⟨c, hc, hnot⟩ := h.not_blank
  have hmem : c ∈ cs := by
    rw [String.toList_ofList, List.mem_append, List.mem_singleton] at hc
    rcases hc with hc | rfl
    · exact hc
    · rw [hb] at hnot
      cases hnot
  constructor
  · exact ⟨c, by rwa [String.toList_ofList], hnot⟩
  · intro bracket hhead
    apply h.no_bracket bracket
    rw [String.toList_ofList] at hhead ⊢
    rw [List.head?_append, hhead]
    rfl

theorem escapeAll_concat (cs : List Char) (c : Char) :
    escapeAll (cs ++ [c]) = escapeAll cs ++ ['\\', c] := by
  simp [escapeAll]

theorem toList_escapeLine_single (s : String) :
    (escapeLine [s]).toList = escapeAll s.toList := by
  simp [escapeLine]

theorem toList_escapeLine_cons (s : String) {words : List String} (hne : words ≠ []) :
    (escapeLine (s :: words)).toList =
      escapeAll s.toList ++ ' ' :: (escapeLine words).toList := by
  cases words with
  | nil => exact absurd rfl hne
  | cons t words => simp [escapeLine]

/-- The last character of the last word is the last of the line. -/
theorem toList_escapeLine_concat (words : List String) (cs : List Char) (c : Char) :
    (escapeLine (words ++ [String.ofList (cs ++ [c])])).toList =
      (escapeLine (words ++ [String.ofList cs])).toList ++ ['\\', c] := by
  induction words with
  | nil => simp [toList_escapeLine_single, escapeAll_concat]
  | cons w words ih =>
    rw [List.cons_append, toList_escapeLine_cons w (by simp), ih, List.cons_append,
      toList_escapeLine_cons w (by simp)]
    simp

/-- The line begins with the backslash of its first character, whichever word that is in. -/
theorem head?_escapeLine {words : List String} (hwords : ∀ w ∈ words, IsWord w)
    (cs rest : List Char) :
    ((escapeLine (words ++ [String.ofList cs])).toList ++ '\\' :: rest).head? = some '\\' := by
  cases words with
  | nil =>
    rw [List.nil_append, toList_escapeLine_single, String.toList_ofList]
    cases cs <;> rfl
  | cons w words =>
    obtain ⟨c, more, hw⟩ := List.exists_cons_of_ne_nil (hwords w List.mem_cons_self).ne_nil
    rw [List.cons_append, toList_escapeLine_cons w (by simp), hw]
    rfl

/-- A blank at the end is trimmed. -/
theorem trimChars_concat_blank {b : Char} (hb : isBlank b = true) (cs : List Char) :
    trimChars (cs ++ [b]) = trimChars cs := by
  unfold trimChars trimStart
  rw [List.dropWhile_append]
  split
  · next hnil =>
    rw [List.isEmpty_iff.mp hnil]
    simp [hb]
  · rw [List.reverse_append, List.reverse_singleton, List.singleton_append,
      List.dropWhile_cons_of_pos hb]

end Text

open Text

namespace Token

/-- A word as a token. -/
def ofWord (s : String) : Token :=
  { kind := .literal, text := s }

/-! ## The scan of a word -/

/-- Inside a word an escaped pair is its second character, whatever that is. -/
theorem escaped_inWord {p : Partial} (hopen : p.openings = []) (htext : p.text ≠ "") (c : Char)
    (rest : List Char) : p.escaped c rest = p.push c := by
  have hstart : p.atStart = false := by simp [Partial.atStart, htext]
  simp [Partial.escaped, Partial.push, hopen, hstart]

theorem scan_escapeAll {p : Partial} (hopen : p.openings = []) (htext : p.text ≠ "")
    (cs rest : List Char) :
    scan p (escapeAll cs ++ rest) = scan { p with text := p.text ++ String.ofList cs } rest := by
  induction cs generalizing p with
  | nil => simp [escapeAll]
  | cons c cs ih =>
    have hjoin : (p.push c).text ++ String.ofList cs = p.text ++ String.ofList (c :: cs) := by
      apply String.toList_injective
      simp [Partial.push]
    have hclosed : (p.push c).openings = [] := hopen
    have hnext : (p.push c).text ≠ "" := by simp [Partial.push]
    show scan p ('\\' :: c :: (escapeAll cs ++ rest)) = _
    rw [scan_escape, escaped_inWord hopen htext, ih hclosed hnext, hjoin]
    rfl

/-- The scan reads a word, and the token is literal. -/
theorem scan_word {s : String} (hs : IsWord s) (rest : List Char) :
    scan {} (escapeAll s.toList ++ rest) = scan { text := s, literal := true } rest := by
  obtain ⟨c, cs, hcs⟩ := List.exists_cons_of_ne_nil hs.ne_nil
  -- The first character opens nothing, since it is no bracket.
  have hverbatim : ∀ after, verbatimBracket? c after = none := by
    intro after
    have hround : c ≠ '(' := by simpa [hcs, Bracket.opener] using hs.no_bracket .round
    have hcurly : c ≠ '{' := by simpa [hcs, Bracket.opener] using hs.no_bracket .curly
    simp [verbatimBracket?, hround, hcurly]
  have hfirst : ∀ after, Partial.escaped {} c after = { text := "".push c, literal := true } := by
    intro after
    simp [Partial.escaped, Partial.atStart, hverbatim]
  have htext : "".push c ++ String.ofList cs = s := by
    apply String.toList_injective
    simp [hcs]
  rw [hcs]
  show scan {} ('\\' :: c :: (escapeAll cs ++ rest)) = _
  rw [scan_escape, hfirst, scan_escapeAll rfl (by simp), htext]

theorem finish_word {s : String} (hs : IsWord s) :
    Partial.finish { text := s, literal := true } = [ofWord s] := by
  have hblank : isBlankText s = false := by
    obtain ⟨c, hc, hnot⟩ := hs.not_blank
    rw [isBlankText, List.all_eq_false]
    exact ⟨c, hc, by simp [hnot]⟩
  simp [Partial.finish, hblank, ofWord]

/-! ## The scan of a line -/

/-- The scan gives the words before the last and goes on behind the last. -/
theorem scan_escapeLine {words : List String} (hwords : ∀ w ∈ words, IsWord w) {s : String}
    (hs : IsWord s) (rest : List Char) :
    scan {} ((escapeLine (words ++ [s])).toList ++ rest) =
      (words.map ofWord ++ ·) <$> scan { text := s, literal := true } rest := by
  induction words with
  | nil =>
    rw [List.nil_append, toList_escapeLine_single, scan_word hs]
    simp
  | cons w words ih =>
    obtain ⟨hw, hwords⟩ := List.forall_mem_cons.mp hwords
    rw [List.cons_append, toList_escapeLine_cons w (by simp), List.append_assoc, scan_word hw,
      List.cons_append, scan_cut _ (by decide) rfl, ih hwords, finish_word hw]
    simp

/-- At the end of the line the last word is finished. -/
theorem scan_escapeLine_end {words : List String} (hwords : ∀ w ∈ words, IsWord w) {s : String}
    (hs : IsWord s) :
    scan {} (escapeLine (words ++ [s])).toList = .ok ((words ++ [s]).map ofWord) := by
  rw [← List.append_nil (String.toList _), scan_escapeLine hwords hs, scan_end_closed rfl,
    finish_word hs, List.map_append]
  rfl

/-- A lone backslash behind the last word belongs to the word. -/
theorem scan_escapeLine_backslash {words : List String} (hwords : ∀ w ∈ words, IsWord w)
    {cs : List Char} (hcs : IsWord (String.ofList cs)) :
    scan {} ((escapeLine (words ++ [String.ofList cs])).toList ++ ['\\']) =
      .ok ((words ++ [String.ofList (cs ++ ['\\'])]).map ofWord) := by
  have hpush : ({ text := String.ofList cs, literal := true } : Partial).push '\\' =
      { text := String.ofList (cs ++ ['\\']), literal := true } := by
    rw [Partial.push]
    congr 1
    apply String.toList_injective
    simp
  have hword : IsWord (String.ofList (cs ++ ['\\'])) := by
    constructor
    · exact ⟨'\\', by simp, by decide⟩
    · intro b
      have hopener := hcs.no_bracket b
      obtain ⟨c, more, hmore⟩ := List.exists_cons_of_ne_nil hcs.ne_nil
      rw [String.toList_ofList] at hmore hopener ⊢
      rwa [hmore] at hopener ⊢
  rw [scan_escapeLine hwords hcs, scan_last, hpush, scan_end_closed rfl, finish_word hword,
    List.map_append]
  rfl

/-- What is left of the line without the blanks around it: all of it, or all but a last blank. -/
theorem trimChars_escapeLine {words : List String} (hwords : ∀ w ∈ words, IsWord w)
    (cs : List Char) (c : Char) :
    trimChars (escapeLine (words ++ [String.ofList (cs ++ [c])])).toList =
      (escapeLine (words ++ [String.ofList cs])).toList ++
        '\\' :: (if isBlank c = true then [] else [c]) := by
  have hstart : ∀ rest, ∀ d ∈ ((escapeLine (words ++ [String.ofList cs])).toList ++
      '\\' :: rest).head?, isBlank d = false := by
    intro rest d hd
    rw [head?_escapeLine hwords] at hd
    cases hd
    decide
  rw [toList_escapeLine_concat]
  by_cases hc : isBlank c = true
  · rw [if_pos hc, List.append_cons, trimChars_concat_blank hc]
    refine trimChars_of_ends (hstart []) ?_
    intro d hd
    rw [List.getLast?_concat] at hd
    cases hd
    decide
  · rw [if_neg hc]
    refine trimChars_of_ends (hstart [c]) ?_
    intro d hd
    have hd' : d = c := by simpa using hd.symm
    rw [hd']
    exact Bool.eq_false_iff.mpr hc

/-- The words are read as they were, but a last blank of the line becomes a backslash. -/
theorem tokenize_escapeLine {words : List String} (hwords : ∀ w ∈ words, IsWord w)
    {cs : List Char} {c : Char} (hlast : IsWord (String.ofList (cs ++ [c]))) :
    tokenize (escapeLine (words ++ [String.ofList (cs ++ [c])])) =
      .ok ((words ++ [String.ofList
        (cs ++ [if isBlank c = true then '\\' else c])]).map ofWord) := by
  have htrim := trimChars_escapeLine hwords cs c
  have hhead := head?_escapeLine hwords cs (if isBlank c = true then [] else [c])
  rw [← htrim] at hhead
  have hblank : trimChars (escapeLine (words ++ [String.ofList (cs ++ [c])])).toList ≠ [] := by
    intro hnil
    rw [hnil] at hhead
    cases hhead
  have hcomment : (trimChars (escapeLine (words ++ [String.ofList (cs ++ [c])])).toList).head? ≠
      some '#' := by
    rw [hhead]
    decide
  rw [tokenize_eq_scan hblank hcomment, htrim]
  by_cases hc : isBlank c = true
  · rw [if_pos hc, if_pos hc]
    exact scan_escapeLine_backslash hwords (hlast.dropBlank hc)
  · rw [if_neg hc, if_neg hc, ← toList_escapeLine_concat]
    exact scan_escapeLine_end hwords hlast

/-- Words with every character escaped are read back as they were, in order and all literal, exactly
if the last character of the line is no blank. A blank there is trimmed with the line before its
backslash is read, and the backslash stays in its place. -/
theorem tokenize_escapeLine_iff {words : List String} (hne : words ≠ [])
    (hwords : ∀ w ∈ words, IsWord w) :
    (tokenize (escapeLine words) = .ok (words.map ofWord) ↔
        ∀ c ∈ (words.getLast hne).toList.getLast?, isBlank c = false) ∧
      ∀ cs b, words.getLast hne = String.ofList (cs ++ [b]) → isBlank b = true →
        tokenize (escapeLine words) =
          .ok ((words.dropLast ++ [String.ofList (cs ++ ['\\'])]).map ofWord) := by
  have hsplit : words.dropLast ++ [words.getLast hne] = words := List.dropLast_concat_getLast hne
  have hfront : ∀ w ∈ words.dropLast, IsWord w := fun w hw => hwords w (List.dropLast_subset _ hw)
  have hlast : IsWord (words.getLast hne) := hwords _ (List.getLast_mem hne)
  -- What is read for the last character of the line, blank or not.
  have hread : ∀ cs c, words.getLast hne = String.ofList (cs ++ [c]) →
      tokenize (escapeLine words) = .ok ((words.dropLast ++
        [String.ofList (cs ++ [if isBlank c = true then '\\' else c])]).map ofWord) := by
    intro cs c heq
    rw [heq] at hlast
    rw [← tokenize_escapeLine hfront hlast, ← heq, hsplit]
  constructor
  · obtain ⟨cs, c, hchars⟩ : ∃ cs c, (words.getLast hne).toList = cs ++ [c] :=
      ⟨_, _, (List.dropLast_concat_getLast hlast.ne_nil).symm⟩
    have heq : words.getLast hne = String.ofList (cs ++ [c]) := by
      rw [← hchars, String.ofList_toList]
    rw [hread cs c heq, hchars, List.getLast?_concat]
    constructor
    · intro hwhole d hd
      cases hd
      by_cases hc : isBlank c = true
      · -- The last token would end with a backslash, and the last word ends with a blank.
        have htokens := congrArg List.getLast? (Except.ok.inj hwhole)
        rw [if_pos hc, ← hsplit, heq, List.map_append, List.map_append, List.map_singleton,
          List.map_singleton, List.getLast?_concat, List.getLast?_concat] at htokens
        have htexts := congrArg Token.text (Option.some.inj htokens)
        have hends : cs ++ ['\\'] = cs ++ [c] := String.ofList_injective htexts
        obtain rfl : '\\' = c := List.singleton_inj.mp (List.append_cancel_left hends)
        exact absurd hc (by decide)
      · exact Bool.eq_false_iff.mpr hc
    · intro hblank
      rw [hblank c rfl, if_neg Bool.false_ne_true, ← heq, hsplit]
  · intro cs b heq hb
    rw [hread cs b heq, if_pos hb]

/-- Blanks before a word and after it, a closing bracket, a quote and the sign of a comment. -/
theorem tokenize_escapeLine_signs :
    (∀ w ∈ [" a", ") ", "#'"], IsWord w) ∧
      escapeLine [" a", ") ", "#'"] = "\\ \\a \\)\\  \\#\\'" ∧
      tokenize (escapeLine [" a", ") ", "#'"]) =
        .ok [⟨.literal, " a"⟩, ⟨.literal, ") "⟩, ⟨.literal, "#'"⟩] := by
  have hwords : ∀ w ∈ [" a", ") ", "#'"], IsWord w := by
    intro w hw
    simp only [List.mem_cons, List.not_mem_nil, or_false] at hw
    rcases hw with rfl | rfl | rfl
    · exact ⟨⟨'a', by decide, by decide⟩, by intro b; cases b <;> decide⟩
    · exact ⟨⟨')', by decide, by decide⟩, by intro b; cases b <;> decide⟩
    · exact ⟨⟨'#', by decide, by decide⟩, by intro b; cases b <;> decide⟩
  refine ⟨hwords, by decide +kernel, ?_⟩
  refine (tokenize_escapeLine_iff (by decide) hwords).1.mpr ?_
  intro c hc
  obtain rfl : c = '\'' := by simpa using hc.symm
  decide

/-- An escaped blank at the end of the line is not read. -/
theorem tokenize_escaped_blank :
    IsWord "a " ∧ escapeLine ["a "] = "\\a\\ " ∧
      tokenize (escapeLine ["a "]) = .ok [⟨.literal, "a\\"⟩] ∧
      tokenize (escapeLine ["a "]) ≠ .ok [⟨.literal, "a "⟩] := by
  have hword : IsWord "a " := ⟨⟨'a', by decide, by decide⟩, by intro b; cases b <;> decide⟩
  have hread : tokenize (escapeLine ["a "]) = .ok [⟨.literal, "a\\"⟩] :=
    @tokenize_escapeLine [] (List.forall_mem_nil IsWord) ['a'] ' ' hword
  refine ⟨hword, by decide +kernel, hread, ?_⟩
  rw [hread]
  simp

end Token

end MarkupScript
