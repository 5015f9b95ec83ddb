import MarkupScript.Proofs.Script.Lines

/-!
# Where the tokens of a line stand

A backslash escapes the character after it, unless it is escaped itself. Without the backslashes
that escape, a line is its tokens in order, with nothing but blanks in front of them, between them
and after them.

* `Glyph.ofChars`: the characters of a line without those backslashes, and which were escaped.
* `Token.IsBlock`: a token is a piece of such a line.
* `Token.Covers`: tokens are pieces one after another, and the rest is blank.
* `covers_scan`: what the scan gives covers the token it began with and what it reads.
* `tokenize_covers`: the tokens of a line cover it.
-/

namespace MarkupScript

open Text

/-- A character of a line, and whether it is escaped. -/
structure Glyph where
  char : Char
  escaped : Bool := false
deriving Repr, DecidableEq

namespace Glyph

/-- The characters of a line without the backslashes that escape. One that ends the line has
nothing to escape and stays. -/
def ofChars : List Char → List Glyph
  | [] => []
  | ['\\'] => [{ char := '\\' }]
  | '\\' :: c :: rest => { char := c, escaped := true } :: ofChars rest
  | c :: rest => { char := c } :: ofChars rest

/-- A glyph as it stands on the line. -/
def write (g : Glyph) : List Char :=
  if g.escaped then ['\\', g.char] else [g.char]

/-- No glyph but blanks. -/
def Blank (glyphs : List Glyph) : Prop :=
  ∀ g ∈ glyphs, isBlank g.char = true

/-- Any other character stands for itself. -/
theorem ofChars_cons {c : Char} {rest : List Char} (hlast : c = '\\' → rest = [] → False)
    (hpair : ∀ d more, c = '\\' → rest = d :: more → False) :
    ofChars (c :: rest) = { char := c } :: ofChars rest := by
  rw [ofChars]
  · exact hlast
  · exact hpair

/-- The glyphs of a line are all of the line. -/
theorem flatMap_write_ofChars (cs : List Char) : (ofChars cs).flatMap write = cs := by
  fun_induction ofChars cs with
  | case1 => rfl
  | case2 => rfl
  | case3 c rest ih => simp [write, ih]
  | case4 c rest _ _ ih => simp [write, ih]

end Glyph

namespace Token

/-! ## Blocks -/

/-- The token is a piece of the line: its text is there, is not all blank, and the token is
literal exactly if its first character is escaped. -/
structure IsBlock (token : Token) (block : List Glyph) : Prop where
  text : token.text.toList = block.map Glyph.char
  not_blank : ∃ g ∈ block, isBlank g.char = false
  literal_iff : token.kind = .literal ↔ ∃ g ∈ block.head?, g.escaped = true
  not_comment : token.kind ≠ .comment

/-- The tokens are pieces of the line one after another, and what is in none of them is blank. -/
inductive Covers : List Token → List Glyph → Prop
  | nil {gap : List Glyph} (hgap : Glyph.Blank gap) : Covers [] gap
  | cons {token : Token} {tokens : List Token} {gap block rest : List Glyph}
      (hgap : Glyph.Blank gap) (hblock : token.IsBlock block) :
      Covers tokens rest → Covers (token :: tokens) (gap ++ (block ++ rest))

variable {tokens : List Token} {read rest : List Glyph} {p : Partial}

/-- More blanks in front change nothing. -/
theorem Covers.pad (h : Covers tokens rest) {gap : List Glyph} (hgap : Glyph.Blank gap) :
    Covers tokens (gap ++ rest) := by
  have hjoin : ∀ {more : List Glyph}, Glyph.Blank more → Glyph.Blank (gap ++ more) := by
    intro more hmore g hg
    rcases List.mem_append.mp hg with hg | hg
    · exact hgap g hg
    · exact hmore g hg
  cases h with
  | nil hmore => exact .nil (hjoin hmore)
  | cons hmore hblock hrest =>
    rw [← List.append_assoc]
    exact .cons (hjoin hmore) hblock hrest

/-! ## The token that is being read -/

/-- The glyphs that a partial token was read from. -/
structure Partial.ReadFrom (p : Partial) (read : List Glyph) : Prop where
  text : p.text.toList = read.map Glyph.char
  literal_iff : p.literal = true ↔ ∃ g ∈ read.head?, g.escaped = true
  /-- Whatever is open was opened by a character of the token. -/
  closed : read = [] → p.openings = []

theorem readFrom_empty : Partial.ReadFrom {} [] where
  text := rfl
  literal_iff := by simp
  closed _ := rfl

/-- One more character that is not escaped. -/
theorem Partial.ReadFrom.push (h : p.ReadFrom read) {p' : Partial} {c : Char}
    (htext : p'.text = p.text.push c) (hliteral : p'.literal = p.literal) :
    p'.ReadFrom (read ++ [{ char := c }]) where
  text := by simp [htext, h.text]
  literal_iff := by
    rw [hliteral, h.literal_iff]
    cases read <;> simp
  closed hnil := by simp at hnil

/-- One more character that is escaped. It makes the token literal if it is the first. -/
theorem Partial.ReadFrom.escape (h : p.ReadFrom read) (c : Char) (after : List Char) :
    (p.escaped c after).ReadFrom (read ++ [{ char := c, escaped := true }]) where
  text := by simp [Partial.escaped, h.text]
  literal_iff := by
    have hliteral : (p.escaped c after).literal = (p.literal || p.atStart) := rfl
    have hempty : p.text.isEmpty = read.isEmpty := by
      rw [Bool.eq_iff_iff, String.isEmpty_iff, List.isEmpty_iff, ← String.toList_inj, h.text]
      simp
    rw [hliteral, Partial.atStart, hempty]
    cases read with
    | nil => simp [h.closed rfl]
    | cons g read => simp [h.literal_iff]
  closed hnil := by simp at hnil

/-- A finished token is a piece of the line, and one that is dropped was blank. -/
theorem Partial.ReadFrom.finish (h : p.ReadFrom read) (hrest : Covers tokens rest) :
    Covers (p.finish ++ tokens) (read ++ rest) := by
  unfold Partial.finish
  by_cases hblank : isBlankText p.text = true
  · rw [if_pos hblank]
    refine hrest.pad ?_
    intro g hg
    have hall : ∀ c ∈ p.text.toList, isBlank c = true := List.all_eq_true.mp hblank
    rw [h.text] at hall
    exact hall g.char (List.mem_map_of_mem hg)
  · rw [if_neg hblank]
    rw [List.singleton_append, ← List.nil_append (read ++ rest)]
    refine .cons (by simp [Glyph.Blank]) ?_ hrest
    constructor
    · exact h.text
    · rw [isBlankText, h.text, List.all_map, List.all_eq_true] at hblank
      push Not at hblank
      simpa using hblank
    · rw [← h.literal_iff]
      cases p.literal <;> simp
    · cases p.literal <;> simp

/-! ## The whole line -/

theorem isBlank_of_endsAt {c : Char} (h : p.endsAt c = true) : isBlank c = true := by
  rw [Partial.endsAt, Bool.and_eq_true, Bool.or_eq_true, decide_eq_true_eq, decide_eq_true_eq] at h
  rcases h.2 with rfl | rfl <;> decide

/-- The scan loses nothing and adds nothing. -/
theorem covers_scan {cs : List Char} (hp : p.ReadFrom read) (h : scan p cs = .ok tokens) :
    Covers tokens (read ++ Glyph.ofChars cs) := by
  -- Along the scan: a token is given when it is finished, and then the next is read from nothing.
  fun_induction scan p cs generalizing read tokens with
  | case1 p o outer hopen => cases h
  | case2 p hopen =>
    cases h
    have hend : Covers [] (Glyph.ofChars []) := .nil (by simp [Glyph.Blank, Glyph.ofChars])
    simpa using hp.finish hend
  | case3 p o outer hopen => cases h
  | case4 p hopen =>
    cases h
    have hlast : (p.push '\\').ReadFrom (read ++ [{ char := '\\' }]) := hp.push rfl rfl
    have hend : Covers [] [] := .nil (by simp [Glyph.Blank])
    simpa [Glyph.ofChars] using hlast.finish hend
  | case5 p c after ih =>
    have hcovers := ih (hp.escape c after) h
    rw [List.append_assoc] at hcovers
    exact hcovers
  | case6 p c after hlast hpair hend ih =>
    -- The token ends here. The character that ends it is in no token, and is blank.
    have hc : Glyph.Blank [{ char := c }] := by
      intro g hg
      rw [List.mem_singleton.mp hg]
      exact isBlank_of_endsAt hend
    cases hlater : scan {} after with
    | error e =>
      rw [hlater] at h
      cases h
    | ok later =>
      rw [hlater] at h
      cases h
      rw [Glyph.ofChars_cons hlast hpair]
      exact hp.finish ((ih readFrom_empty hlater).pad hc)
  | case7 p c after hlast hpair hend p' hstep ih =>
    have hread := hp.push (text_step hstep) (literal_step hstep)
    have hcovers := ih hread h
    rw [Glyph.ofChars_cons hlast hpair]
    rwa [List.append_assoc] at hcovers
  | case8 p c after _ _ hend e hstep => cases h

/-- Every line that can be cut into tokens, comments apart, is its tokens: without the blanks around
it and the backslashes that escape, the line is the texts of the tokens in order, with blanks alone
in front of them, between them and after them. No token is blank, and a token is literal exactly if
its first character was escaped. -/
theorem tokenize_covers {line : String} (hcomment : (trimChars line.toList).head? ≠ some '#')
    (h : tokenize line = .ok tokens) :
    (Glyph.ofChars (trimChars line.toList)).flatMap Glyph.write = trimChars line.toList ∧
      Covers tokens (Glyph.ofChars (trimChars line.toList)) := by
  refine ⟨Glyph.flatMap_write_ofChars _, ?_⟩
  by_cases hblank : trimChars line.toList = []
  · rw [tokenize, hblank] at h
    cases h
    rw [hblank]
    exact .nil (by simp [Glyph.Blank, Glyph.ofChars])
  · rw [tokenize_eq_scan hblank hcomment] at h
    exact covers_scan readFrom_empty h

/-- Blanks that are escaped make no token of their own. A bracket in front of a token keeps what is
between verbatim, and a backslash at the end stays. -/
theorem tokenize_covers_escapes :
    tokenize " \\ \\  a\\ b \\(c 'd\\)\te\\ " =
        .ok [⟨.plain, "a b"⟩, ⟨.literal, "(c 'd)"⟩, ⟨.plain, "e\\"⟩] ∧
      Covers [⟨.plain, "a b"⟩, ⟨.literal, "(c 'd)"⟩, ⟨.plain, "e\\"⟩]
        (Glyph.ofChars "\\ \\  a\\ b \\(c 'd\\)\te\\".toList) := by
  have htokens : tokenize " \\ \\  a\\ b \\(c 'd\\)\te\\ " =
      .ok [⟨.plain, "a b"⟩, ⟨.literal, "(c 'd)"⟩, ⟨.plain, "e\\"⟩] := by
    decide +kernel
  have htrim : trimChars " \\ \\  a\\ b \\(c 'd\\)\te\\ ".toList =
      "\\ \\  a\\ b \\(c 'd\\)\te\\".toList := by
    decide +kernel
  have hcovers := (tokenize_covers (by rw [htrim]; decide +kernel) htokens).2
  rw [htrim] at hcovers
  exact ⟨htokens, hcovers⟩

end Token

end MarkupScript
