import MarkupScript.Proofs.Line.Scan
import MarkupScript.Script.Source
import Mathlib.Data.List.Forall2

/-!
# The lines that a script text is compiled from

Lines are numbered from one. Those that are blank and those whose first character that is no
blank is `#` are passed over, but they keep their numbers.

* `SourceLine.codeLines`: the lines that count, with their numbers, told by their characters.
* `isCode_iff`: the tokens of a line tell the same.
* `forall₂_read`: each line that counts is read once, in order.
* `increasing_read`: the numbers of the lines that are read increase.
-/

namespace MarkupScript

open Text

/-! ## Tokens of a line that is not blank -/

theorem Text.not_isBlank_last {cs : List Char} {c : Char} (h : c ∈ (trimChars cs).getLast?) :
    isBlank c = false := by
  rw [trimChars, List.getLast?_reverse] at h
  have hhead := List.head?_dropWhile_not isBlank (trimStart cs).reverse
  rw [trimStart, Option.mem_def] at h
  rw [h] at hhead
  simpa using hhead

theorem Text.isBlankText_push (s : String) (c : Char) :
    isBlankText (s.push c) = (isBlankText s && isBlank c) := by
  simp [isBlankText]

namespace Token

/-- A character that is read becomes the last of the text, and only what is open may change. -/
theorem step_eq_push {p p' : Partial} {c : Char} (h : p.step c = .ok p') :
    p' = { p.push c with openings := p'.openings } := by
  have hclose : ∀ b : Bracket, p.close b = .ok p' →
      p' = { p.push b.closer with openings := p'.openings } := by
    intro b hb
    unfold Partial.close at hb
    split at hb
    · split at hb
      · cases hb
        rfl
      · cases hb
    · cases hb
  have hordinary : p.ordinary c = .ok p' → p' = { p.push c with openings := p'.openings } := by
    intro ho
    unfold Partial.ordinary at ho
    split at ho
    case h_5 => exact hclose .round ho
    case h_6 => exact hclose .curly ho
    case h_4 =>
      split at ho
      · cases ho
      · cases ho
        rfl
    all_goals
      cases ho
      rfl
  unfold Partial.step at h
  split at h
  · split at h <;> cases h <;> rfl
  · cases h
    rfl
  · exact hordinary h

theorem text_step {p p' : Partial} {c : Char} (h : p.step c = .ok p') :
    p'.text = p.text.push c := by
  rw [step_eq_push h]
  rfl

theorem literal_step {p p' : Partial} {c : Char} (h : p.step c = .ok p') :
    p'.literal = p.literal := by
  rw [step_eq_push h]
  rfl

theorem finish_kind {p : Partial} {t : Token} (h : t ∈ p.finish) : t.kind ≠ .comment := by
  unfold Partial.finish at h
  split at h
  · cases h
  · rw [List.mem_singleton] at h
    subst h
    cases p.literal <;> simp

/-- The scan gives no comments. -/
theorem kind_of_scan {p : Partial} {cs : List Char} {tokens : List Token}
    (h : scan p cs = .ok tokens) : ∀ t ∈ tokens, t.kind ≠ .comment := by
  fun_induction scan p cs generalizing tokens with
  | case1 p o outer hopen => cases h
  | case2 p hopen =>
    cases h
    intro t
    exact finish_kind
  | case3 p o outer hopen => cases h
  | case4 p hopen =>
    cases h
    intro t
    exact finish_kind
  | case5 p c rest ih => exact ih h
  | case6 p c rest _ _ hend ih =>
    cases hrest : scan {} rest with
    | error e =>
      rw [hrest] at h
      cases h
    | ok others =>
      rw [hrest] at h
      cases h
      intro t ht
      rcases List.mem_append.mp ht with hfirst | hother
      · exact finish_kind hfirst
      · exact ih hrest t hother
  | case7 p c rest _ _ hend p' hstep ih => exact ih h
  | case8 p c rest _ _ hend e hstep => cases h

/-- A line whose last character is no blank has a token, since that character is in one. -/
theorem scan_ne_nil {p : Partial} {cs : List Char} {tokens : List Token}
    (h : scan p cs = .ok tokens) (hlast : ∀ c ∈ cs.getLast?, isBlank c = false)
    (hempty : cs = [] → isBlankText p.text = false) : tokens ≠ [] := by
  fun_induction scan p cs generalizing tokens with
  | case1 p o outer hopen => cases h
  | case2 p hopen =>
    cases h
    simp [Partial.finish, hempty]
  | case3 p o outer hopen => cases h
  | case4 p hopen =>
    cases h
    have hbackslash : isBlank '\\' = false := by decide
    simp [Partial.finish, Partial.push, isBlankText_push, hbackslash]
  | case5 p c rest ih =>
    refine ih h ?_ ?_
    · intro d hd
      exact hlast d (by cases rest <;> simp_all)
    · intro hrest
      have hc := hlast c (by simp [hrest])
      simp [Partial.escaped, isBlankText_push, hc]
  | case6 p c rest _ _ hend ih =>
    cases hrest : scan {} rest with
    | error e =>
      rw [hrest] at h
      cases h
    | ok others =>
      rw [hrest] at h
      cases h
      -- A separator is a blank, so the line goes on after it.
      have hblank : isBlank c = true := by
        have hc : c = ' ' ∨ c = '\t' := by simp_all [Partial.endsAt]
        rcases hc with rfl | rfl <;> decide
      have hmore : rest ≠ [] := by
        intro hnil
        have hc := hlast c (by simp [hnil])
        rw [hblank] at hc
        cases hc
      have hothers : others ≠ [] := by
        refine ih hrest ?_ (fun hnil => absurd hnil hmore)
        intro d hd
        exact hlast d (by cases rest <;> simp_all)
      simp [hothers]
  | case7 p c rest _ _ hend p' hstep ih =>
    refine ih h ?_ ?_
    · intro d hd
      exact hlast d (by cases rest <;> simp_all)
    · intro hrest
      have hc := hlast c (by simp [hrest])
      simp [text_step hstep, isBlankText_push, hc]
  | case8 p c rest _ _ hend e hstep => cases h

end Token

/-! ## Lines that count -/

namespace SourceLine

/-- The line is neither blank nor a comment. -/
def Counts (cs : List Char) : Prop :=
  trimChars cs ≠ [] ∧ (trimChars cs).head? ≠ some '#'

instance (cs : List Char) : Decidable (Counts cs) :=
  inferInstanceAs (Decidable (_ ∧ _))

/-- The lines of a text that are neither blank nor comments, with their numbers. -/
def codeLines (source : String) : List (List Char × Nat) :=
  ((splitLines source.toList).zipIdx 1).filter fun row => Counts row.1

/-- What is read of a line: its number, its text without the blanks around it, and its tokens. -/
def Reads (row : List Char × Nat) (l : SourceLine) : Prop :=
  l.pos = { line := row.2, text := String.ofList (trimChars row.1) } ∧
    Token.tokenize (String.ofList row.1) = .ok l.tokens

/-- The tokens of a line tell whether it is passed over. -/
theorem isCode_iff {cs : List Char} {tokens : List Token}
    (h : Token.tokenize (String.ofList cs) = .ok tokens) : isCode tokens = true ↔ Counts cs := by
  unfold Token.tokenize at h
  rw [String.toList_ofList] at h
  unfold Counts
  split at h
  · next hblank =>
    cases h
    simp [isCode, hblank]
  · next rest hcomment =>
    cases h
    simp [isCode, hcomment]
  · next trimmed hblank hcomment =>
    have htokens : tokens ≠ [] := by
      refine Token.scan_ne_nil h (fun c hc => not_isBlank_last hc) ?_
      intro hnil
      exact absurd hnil hblank
    have hhead : (trimChars cs).head? ≠ some '#' := by
      intro hhash
      rcases hcs : trimChars cs with _ | ⟨c, rest⟩
      · exact hblank hcs
      · rw [hcs, List.head?_cons, Option.some.injEq] at hhash
        exact hcomment rest (by rw [hcs, hhash])
    rcases tokens with _ | ⟨t, others⟩
    · exact absurd rfl htokens
    · have hkind := Token.kind_of_scan h t List.mem_cons_self
      constructor
      · intro _
        exact ⟨hblank, hhead⟩
      · intro _
        simp [isCode, hkind]

theorem forall₂_readFrom {number : Nat} {texts : List (List Char)} {lines : List SourceLine}
    (h : readFrom number texts = .ok lines) :
    List.Forall₂ Reads ((texts.zipIdx number).filter fun row => Counts row.1) lines := by
  induction texts generalizing number lines with
  | nil =>
    cases h
    exact .nil
  | cons cs rest ih =>
    rw [readFrom] at h
    cases htokens : Token.tokenize (String.ofList cs) with
    | error e => simp [htokens] at h
    | ok tokens =>
      cases hrest : readFrom (number + 1) rest with
      | error e => simp [htokens, hrest, bind, Except.bind] at h
      | ok others =>
        simp only [htokens, hrest, bind, Except.bind, pure, Except.pure, Except.ok.injEq] at h
        subst h
        rw [List.zipIdx_cons]
        by_cases hcode : isCode tokens = true
        · have hcounts : Counts cs := (isCode_iff htokens).mp hcode
          rw [List.filter_cons_of_pos (by simpa using hcounts), if_pos hcode]
          exact .cons ⟨rfl, htokens⟩ (ih hrest)
        · have hcounts : ¬ Counts cs := fun hc => hcode ((isCode_iff htokens).mpr hc)
          rw [List.filter_cons_of_neg (by simpa using hcounts), if_neg hcode]
          exact ih hrest

/-- Each line that counts is read once, in the order of the text, and no other line is. -/
theorem forall₂_read {source : String} {lines : List SourceLine} (h : read source = .ok lines) :
    List.Forall₂ Reads (codeLines source) lines :=
  forall₂_readFrom h

/-- A line that is read has a token. -/
theorem tokens_ne_nil_of_read {source : String} {lines : List SourceLine}
    (h : read source = .ok lines) : ∀ l ∈ lines, l.tokens ≠ [] := by
  have hcounts : ∀ row ∈ codeLines source, Counts row.1 := by
    intro row hrow
    simpa using (List.mem_filter.mp hrow).2
  have hall := forall₂_read h
  clear h
  generalize codeLines source = rows at hcounts hall
  induction hall with
  | nil => simp
  | @cons row l rows others hreads _ ih =>
    intro l' hl'
    rcases List.mem_cons.mp hl' with rfl | hother
    · intro hnil
      have hcode := (isCode_iff hreads.2).mpr (hcounts row List.mem_cons_self)
      rw [hnil] at hcode
      cases hcode
    · exact ih (fun r hr => hcounts r (List.mem_cons_of_mem row hr)) l' hother

/-- The numbers of the lines that are read increase. -/
theorem increasing_read {source : String} {lines : List SourceLine} (h : read source = .ok lines) :
    (lines.map (·.pos.line)).Pairwise (· < ·) := by
  have hnumbers : List.Forall₂ (· = ·) ((codeLines source).map Prod.snd)
      (lines.map (·.pos.line)) := by
    rw [List.forall₂_map_left_iff, List.forall₂_map_right_iff]
    refine (forall₂_read h).imp ?_
    intro row l hreads
    rw [hreads.1]
  rw [List.forall₂_eq_eq_eq] at hnumbers
  rw [← hnumbers]
  have hall : (((splitLines source.toList).zipIdx 1).map Prod.snd).Pairwise (· < ·) := by
    rw [List.zipIdx_map_snd]
    exact List.pairwise_lt_range'
  exact hall.sublist (List.filter_sublist.map Prod.snd)

end SourceLine

end MarkupScript
