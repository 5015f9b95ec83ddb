import MarkupScript.Line.Argument
import MarkupScript.Proofs.Line.Scan

/-!
# Quoted text

Any text can be given as an argument: between single quotes, with a backslash in front of
every backslash and single quote.

* `Text.quote` and `Text.quoteLine` write texts as the words of a line.
* `scan_quoteLine`: the scan of such a line gives one token for each text.
* `Argument.ofToken_quoted`: such a token is the text itself.
-/

namespace MarkupScript

namespace Text

/-- A character as it is written between single quotes. -/
def escapeChar (c : Char) : List Char :=
  if c = '\\' ∨ c = '\'' then ['\\', c] else [c]

/-- The text between single quotes. -/
def quote (s : String) : String :=
  String.ofList ('\'' :: (s.toList.flatMap escapeChar ++ ['\'']))

/-- The texts one after another, each between quotes. -/
def quoteLine (texts : List String) : String :=
  " ".intercalate (texts.map quote)

theorem toList_quoteLine_single (s : String) :
    (quoteLine [s]).toList = '\'' :: (s.toList.flatMap escapeChar ++ ['\'']) := by
  simp [quoteLine, quote]

theorem toList_quoteLine_cons (s t : String) (texts : List String) :
    (quoteLine (s :: t :: texts)).toList =
      '\'' :: (s.toList.flatMap escapeChar ++ '\'' :: ' ' :: (quoteLine (t :: texts)).toList) := by
  simp [quoteLine, quote]

/-- A line of quoted texts has a quote at each end. -/
theorem quoteLine_ends (s : String) (texts : List String) :
    ∃ middle, (quoteLine (s :: texts)).toList = '\'' :: (middle ++ ['\'']) := by
  induction texts generalizing s with
  | nil => exact ⟨s.toList.flatMap escapeChar, toList_quoteLine_single s⟩
  | cons t texts ih =>
    obtain ⟨middle, hmiddle⟩ := ih t
    refine ⟨s.toList.flatMap escapeChar ++ '\'' :: ' ' :: '\'' :: middle, ?_⟩
    rw [toList_quoteLine_cons, hmiddle]
    simp

/-- Nothing is trimmed if there is no blank at either end. -/
theorem trimChars_of_ends {cs : List Char} (hfirst : ∀ c ∈ cs.head?, isBlank c = false)
    (hlast : ∀ c ∈ cs.getLast?, isBlank c = false) : trimChars cs = cs := by
  have hstay : ∀ {l : List Char}, (∀ c ∈ l.head?, isBlank c = false) → trimStart l = l := by
    intro l hl
    cases l with
    | nil => rfl
    | cons c l => rw [trimStart, List.dropWhile_cons, hl c rfl, if_neg Bool.false_ne_true]
  have hend : ∀ c ∈ cs.reverse.head?, isBlank c = false := by
    rw [List.head?_reverse]
    exact hlast
  rw [trimChars, hstay hfirst, hstay hend, List.reverse_reverse]

theorem trimChars_between {first last : Char} (middle : List Char) (hfirst : isBlank first = false)
    (hlast : isBlank last = false) :
    trimChars (first :: (middle ++ [last])) = first :: (middle ++ [last]) := by
  refine trimChars_of_ends ?_ ?_
  · intro c hc
    cases hc
    exact hfirst
  · intro c hc
    rw [← List.cons_append, List.getLast?_concat] at hc
    cases hc
    exact hlast

end Text

open Text

namespace Token

/-- The token of a quoted text. It has its quotes, and no backslash of the line. -/
def ofQuoted (s : String) : Token :=
  { kind := .plain, text := String.ofList ('\'' :: (s.toList ++ ['\''])) }

/-- Between quotes an escaped pair is its second character, whatever that is. -/
theorem escaped_inQuotes {p : Partial} {m : QuoteMark} {outer : List Opening} (c : Char)
    (rest : List Char) (hp : p.openings = .quoted m :: outer) :
    p.escaped c rest = p.push c := by
  have hstart : p.atStart = false := by simp [Partial.atStart, hp]
  simp [Partial.escaped, Partial.push, hp, hstart]

/-- The scan takes an escaped character between single quotes as it was. -/
theorem scan_escapeChar {p : Partial} {outer : List Opening} (c : Char) (rest : List Char)
    (hp : p.openings = .quoted .single :: outer) :
    scan p (escapeChar c ++ rest) = scan (p.push c) rest := by
  unfold escapeChar
  by_cases hspecial : c = '\\' ∨ c = '\''
  · rw [if_pos hspecial]
    show scan p ('\\' :: c :: rest) = scan (p.push c) rest
    rw [scan_escape, escaped_inQuotes c rest hp]
  · rw [if_neg hspecial]
    have hc : c ≠ '\\' := fun h => hspecial (.inl h)
    have hquote : c ≠ '\'' := fun h => hspecial (.inr h)
    have hend : p.endsAt c = false := by simp [Partial.endsAt, hp]
    have hstep : p.step c = .ok (p.push c) := by
      rw [Partial.step, hp]
      exact if_neg hquote
    exact scan_char rest hc hend hstep

theorem scan_escapeChars {p : Partial} {outer : List Opening} (cs rest : List Char)
    (hp : p.openings = .quoted .single :: outer) :
    scan p (cs.flatMap escapeChar ++ rest) =
      scan { p with text := p.text ++ String.ofList cs } rest := by
  induction cs generalizing p with
  | nil => simp
  | cons c cs ih =>
    have htext : (p.push c).text ++ String.ofList cs = p.text ++ String.ofList (c :: cs) := by
      apply String.toList_injective
      simp [Partial.push]
    have hnext : (p.push c).openings = .quoted .single :: outer := hp
    rw [List.flatMap_cons, List.append_assoc, scan_escapeChar c _ hp, ih hnext, htext]
    rfl

/-- From quote to quote the scan reads the text. -/
theorem scan_quoted (s : String) (rest : List Char) :
    scan {} ('\'' :: (s.toList.flatMap escapeChar ++ '\'' :: rest)) =
      scan { text := (ofQuoted s).text } rest := by
  have hopen : scan {} ('\'' :: (s.toList.flatMap escapeChar ++ '\'' :: rest)) =
      scan { text := "'", openings := [.quoted .single] }
        (s.toList.flatMap escapeChar ++ '\'' :: rest) :=
    scan_char _ (by decide) rfl rfl
  have hclose : ∀ text, scan { text, openings := [.quoted .single] } ('\'' :: rest) =
      scan { text := text.push '\'' } rest :=
    fun text => scan_char rest (by decide) rfl rfl
  have htext : ("'" ++ String.ofList s.toList).push '\'' = (ofQuoted s).text := by
    apply String.toList_injective
    simp [ofQuoted]
  rw [hopen, scan_escapeChars _ _ rfl, hclose, htext]

/-- A quoted text is a token, also if it is empty or blank. -/
theorem finish_quoted (s : String) :
    Partial.finish { text := (ofQuoted s).text } = [ofQuoted s] := by
  have hblank : isBlankText (ofQuoted s).text = false := by
    simp [isBlankText, ofQuoted, show isBlank '\'' = false by decide]
  rw [Partial.finish, hblank]
  rfl

/-- The scan of a line of quoted texts gives one token for each text. -/
theorem scan_quoteLine (s : String) (texts : List String) :
    scan {} (quoteLine (s :: texts)).toList = .ok ((s :: texts).map ofQuoted) := by
  induction texts generalizing s with
  | nil =>
    rw [toList_quoteLine_single, scan_quoted, scan_end_closed rfl, finish_quoted]
    rfl
  | cons t texts ih =>
    rw [toList_quoteLine_cons, scan_quoted, scan_cut _ (by decide) rfl, ih t, finish_quoted]
    rfl

theorem tokenize_quoteLine (texts : List String) :
    tokenize (quoteLine texts) = .ok (texts.map ofQuoted) := by
  cases texts with
  | nil => rfl
  | cons s texts =>
    obtain ⟨middle, hends⟩ := quoteLine_ends s texts
    have htrim : trimChars (quoteLine (s :: texts)).toList = '\'' :: (middle ++ ['\'']) := by
      rw [hends]
      exact trimChars_between middle (by decide) (by decide)
    have hblank : trimChars (quoteLine (s :: texts)).toList ≠ [] := by
      rw [htrim]
      exact List.cons_ne_nil _ _
    have hcomment : (trimChars (quoteLine (s :: texts)).toList).head? ≠ some '#' := by
      rw [htrim, List.head?_cons]
      decide
    rw [tokenize_eq_scan hblank hcomment, htrim, ← hends]
    exact scan_quoteLine s texts

end Token

namespace Argument

open Token

/-- Unquoting takes off the two quotes around the text, whatever quotes the text has. -/
theorem ofToken_quoted (s : String) : ofToken (ofQuoted s) = .literal s := by
  have hunquote : unquote (ofQuoted s).text = s := by
    simp [unquote, unquoteChars, enclosed?, beforeLast?, ofQuoted]
  have htext : (ofQuoted s).text.toList = '\'' :: (s.toList ++ ['\'']) := by
    rw [ofQuoted, String.toList_ofList]
  rw [ofToken, htext, hunquote]
  rfl

/-- Texts that are written between quotes, with single spaces between, are read back as they
were, in order and number. -/
theorem read_quoteLine (texts : List String) :
    (tokenize (quoteLine texts)).map (List.map ofToken) = .ok (texts.map .literal) := by
  have hread : (texts.map ofQuoted).map ofToken = texts.map .literal := by
    rw [List.map_map]
    exact List.map_congr_left fun s _ => ofToken_quoted s
  rw [tokenize_quoteLine, ← hread]
  rfl

end Argument

end MarkupScript
