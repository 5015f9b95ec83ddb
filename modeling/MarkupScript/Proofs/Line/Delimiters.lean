import MarkupScript.Line.Argument
import MarkupScript.Proofs.Line.Recognition
import MarkupScript.Proofs.Script.Lines

/-!
# The brackets around an argument

An expression and a set of annotations are kept with their brackets, which are removed when the
argument is evaluated. Then only the first and the last character are looked at. They need not
belong together: a token may be several groups without a blank between them.

* `Token.openAtEnd`: what is open after a text without escapes.
* `derivable_iff_openAtEnd`: a line is a sequence of items if that is nothing.
* `shut_of_mem`: so every token of a line is a sequence of items.
* `Reads.openAtEnd_eq`: what the grammar leaves open is what is open.
* `Grammar.ClosedBehind`: where the first bracket of a text is closed.
* `Argument.inner_derivable_iff`: what is left without the brackets is a sequence of items exactly
  if they belong together.
-/

namespace MarkupScript

open Grammar

theorem Text.mem_of_mem_trimChars {c : Char} {cs : List Char} (h : c ∈ trimChars cs) : c ∈ cs := by
  have hstart : ∀ {l : List Char}, c ∈ trimStart l → c ∈ l := (List.dropWhile_sublist _).mem
  rw [trimChars, List.mem_reverse] at h
  exact hstart (List.mem_reverse.mp (hstart h))

namespace Token

/-! ## What is open -/

/-- What is open after an unescaped character. There is no answer if it fits nowhere. -/
def openAfter (openings : List Opening) (c : Char) : Option (List Opening) :=
  (Partial.step { openings } c).toOption.map (·.openings)

/-- What is open after a text without escapes. -/
def openAtEnd (openings : List Opening) (cs : List Char) : Option (List Opening) :=
  cs.foldlM openAfter openings

theorem openAtEnd_cons (openings : List Opening) (c : Char) (cs : List Char) :
    openAtEnd openings (c :: cs) = (openAfter openings c).bind (openAtEnd · cs) :=
  List.foldlM_cons

theorem openAtEnd_append (openings : List Opening) (cs rest : List Char) :
    openAtEnd openings (cs ++ rest) = (openAtEnd openings cs).bind (openAtEnd · rest) :=
  List.foldlM_append

/-- Marks count: nothing is open, or a group. -/
def Grouped (openings : List Opening) : Prop :=
  ∀ q ∈ openings.head?, ∃ b, q = .group b

theorem grouped_nil : Grouped [] := nofun

theorem grouped_cons (b : Bracket) (outer : List Opening) : Grouped (.group b :: outer) := by
  intro q hq
  exact ⟨b, (Option.some.inj hq).symm⟩

section Steps

variable {openings outer : List Opening} {c : Char}

theorem openAfter_grouped (h : Grouped openings) :
    openAfter openings c = (Partial.ordinary { openings } c).toOption.map (·.openings) := by
  cases openings with
  | nil => rfl
  | cons q outer =>
    obtain ⟨b, rfl⟩ := h q rfl
    rfl

theorem openAfter_plain (h : Grouped openings) (hc : c ∉ marks) :
    openAfter openings c = some openings := by
  simp only [marks, List.mem_cons, List.not_mem_nil, or_false, not_or] at hc
  obtain ⟨h1, h2, h3, h4, h5, h6⟩ := hc
  rw [openAfter_grouped h, Partial.ordinary]
  · rfl
  all_goals assumption

theorem openAfter_quote (h : Grouped openings) (m : QuoteMark) :
    openAfter openings m.char = some (.quoted m :: openings) := by
  rw [openAfter_grouped h]
  cases m <;> rfl

theorem openAfter_opener (h : Grouped openings) {b : Bracket}
    (hb : b = .curly → .group .round ∉ openings) :
    openAfter openings b.opener = some (.group b :: openings) := by
  rw [openAfter_grouped h]
  cases b with
  | round => rfl
  | curly =>
    have hnot : .group .round ∉ openings := hb rfl
    simp [Bracket.opener, Partial.ordinary, hnot, Except.toOption]

theorem openAfter_closer (b : Bracket) (outer : List Opening) :
    openAfter (.group b :: outer) b.closer = some outer := by
  cases b <;> rfl

theorem openAfter_closer_nil (b : Bracket) : openAfter [] b.closer = none := by
  cases b <;> rfl

theorem openAfter_quoted (m : QuoteMark) (outer : List Opening) (c : Char) :
    openAfter (.quoted m :: outer) c =
      some (if c = m.char then outer else .quoted m :: outer) := by
  by_cases hc : c = m.char
  · simp [openAfter, Partial.step, hc, Except.toOption]
  · simp [openAfter, Partial.step, hc, Except.toOption, Partial.push]

/-- A character that fits nowhere. -/
theorem openAfter_stops {q : Opening} (h : Stops (some q) c) : openAfter (q :: outer) c = none := by
  obtain ⟨hstructured, hc⟩ := h
  cases q with
  | quoted m => exact hstructured.elim
  | verbatim b => exact hstructured.elim
  | group b =>
    rcases hc with ⟨b', rfl, hne⟩ | ⟨rfl, hround⟩
    · cases b with
      | round =>
        cases b' with
        | round => exact absurd rfl hne
        | curly => rfl
      | curly =>
        cases b' with
        | round => rfl
        | curly => exact absurd rfl hne
    · cases hround
      simp [openAfter, Partial.step, Partial.ordinary, Except.toOption]

theorem openAfter_blank (hc : Text.isBlank c = true) (openings : List Opening) :
    openAfter openings c = some openings := by
  have hmark : c ∉ marks := by
    intro hmem
    simp only [marks, List.mem_cons, List.not_mem_nil, or_false] at hmem
    rcases hmem with rfl | rfl | rfl | rfl | rfl | rfl <;> exact absurd hc (by decide)
  cases openings with
  | nil => exact openAfter_plain grouped_nil hmark
  | cons q outer =>
    cases q with
    | group b => exact openAfter_plain (grouped_cons b outer) hmark
    | verbatim b => rfl
    | quoted m =>
      have hne : c ≠ m.char := by
        rintro rfl
        cases m <;> exact absurd hc (by decide)
      rw [openAfter_quoted, if_neg hne]

end Steps

/-! ## The scan of a line without escapes -/

/-- What is open after a step depends on what was open only. -/
theorem step_openings (p : Partial) (c : Char) :
    (p.step c).toOption.map (·.openings) = openAfter p.openings c := by
  have hclose : ∀ b, (p.close b).toOption.map (·.openings) =
      (Partial.close { openings := p.openings } b).toOption.map (·.openings) := by
    intro b
    unfold Partial.close
    dsimp only
    split
    · split <;> rfl
    · rfl
  have hordinary : (p.ordinary c).toOption.map (·.openings) =
      (Partial.ordinary { openings := p.openings } c).toOption.map (·.openings) := by
    unfold Partial.ordinary
    dsimp only
    split
    case h_4 => split <;> rfl
    case h_5 => exact hclose .round
    case h_6 => exact hclose .curly
    all_goals rfl
  unfold openAfter Partial.step
  dsimp only
  split
  · split <;> rfl
  · rfl
  · exact hordinary

theorem step_eq_ok {p p' : Partial} {c : Char} (h : p.step c = .ok p') :
    openAfter p.openings c = some p'.openings := by
  rw [← step_openings, h]
  rfl

theorem step_eq_error {p : Partial} {c : Char} {e : SyntaxError} (h : p.step c = .error e) :
    openAfter p.openings c = none := by
  rw [← step_openings, h]
  rfl

/-- Where a token ends nothing is open. -/
theorem openAfter_endsAt {p : Partial} {c : Char} (h : p.endsAt c = true) :
    p.openings = [] ∧ openAfter p.openings c = some [] := by
  simp only [Partial.endsAt, Bool.and_eq_true, List.isEmpty_iff, Bool.or_eq_true,
    decide_eq_true_eq] at h
  obtain ⟨hnone, hc⟩ := h
  rw [hnone]
  exact ⟨rfl, by rcases hc with rfl | rfl <;> rfl⟩

theorem scan_isOk_iff_openAtEnd {cs : List Char} (hcs : '\\' ∉ cs) (p : Partial) :
    (∃ tokens, scan p cs = .ok tokens) ↔ openAtEnd p.openings cs = some [] := by
  -- On the characters, for every partial token: the scan goes on with a new one at a blank.
  induction cs generalizing p with
  | nil =>
    show _ ↔ some p.openings = some []
    rw [scan_end]
    cases p.openings <;> simp
  | cons c cs ih =>
    rw [List.mem_cons, not_or] at hcs
    obtain ⟨hc, hcs⟩ := hcs
    rw [openAtEnd_cons]
    cases hend : p.endsAt c with
    | true =>
      have hnext := ih hcs {}
      rw [scan_cut cs (Ne.symm hc) hend, (openAfter_endsAt hend).2, Option.bind_some, ← hnext]
      cases scan {} cs with
      | error e => exact ⟨nofun, nofun⟩
      | ok tokens => exact ⟨fun _ => ⟨_, rfl⟩, fun _ => ⟨_, rfl⟩⟩
    | false =>
      cases hstep : p.step c with
      | error e =>
        rw [scan_error cs (Ne.symm hc) hend hstep, step_eq_error hstep]
        exact ⟨nofun, nofun⟩
      | ok p' =>
        rw [scan_char cs (Ne.symm hc) hend hstep, step_eq_ok hstep]
        exact ih hcs p'

/-- A line without escapes is a sequence of items if nothing is open at its end. -/
theorem derivable_iff_openAtEnd {cs : List Char} (hcs : '\\' ∉ cs) :
    Derivable cs ↔ openAtEnd [] cs = some [] :=
  scan_isOk_iff.symm.trans (scan_isOk_iff_openAtEnd hcs {})

/-- A partial token of a line without escapes: what is open is what its text leaves open. -/
structure Partial.Traced (p : Partial) : Prop where
  unescaped : '\\' ∉ p.text.toList
  opened : openAtEnd [] p.text.toList = some p.openings

theorem traced_empty : Partial.Traced {} :=
  ⟨List.not_mem_nil, rfl⟩

theorem Partial.Traced.step {p p' : Partial} {c : Char} (h : p.Traced) (hc : c ≠ '\\')
    (hstep : p.step c = .ok p') : p'.Traced := by
  constructor
  · rw [text_step hstep, String.toList_push, List.mem_append, List.mem_singleton, not_or]
    exact ⟨h.unescaped, hc.symm⟩
  · rw [text_step hstep, String.toList_push, openAtEnd_append, h.opened, Option.bind_some,
      openAtEnd_cons, step_eq_ok hstep]
    rfl

theorem text_of_mem_finish {p : Partial} {token : Token} (h : token ∈ p.finish) :
    token.text = p.text := by
  unfold Partial.finish at h
  split at h
  · cases h
  · rw [List.mem_singleton.mp h]

/-- The text is without escapes and leaves nothing open. -/
def Shut (cs : List Char) : Prop :=
  '\\' ∉ cs ∧ openAtEnd [] cs = some []

theorem Partial.Traced.finish {p : Partial} (h : p.Traced) (hnone : p.openings = []) {token : Token}
    (hmem : token ∈ p.finish) : Shut token.text.toList := by
  rw [text_of_mem_finish hmem]
  exact ⟨h.unescaped, hnone ▸ h.opened⟩

theorem shut_of_mem_scan {p : Partial} {cs : List Char} {tokens : List Token} {token : Token}
    (hp : p.Traced) (hcs : '\\' ∉ cs) (h : scan p cs = .ok tokens) (hmem : token ∈ tokens) :
    Shut token.text.toList := by
  -- The token that is being read is traced. It is finished at a blank or at the end, and there
  -- nothing is open.
  induction cs generalizing p tokens with
  | nil =>
    cases hopen : p.openings with
    | nil =>
      rw [scan_end_closed hopen] at h
      cases h
      exact hp.finish hopen hmem
    | cons q outer =>
      rw [scan_end_open hopen] at h
      cases h
  | cons c cs ih =>
    rw [List.mem_cons, not_or] at hcs
    obtain ⟨hc, hcs⟩ := hcs
    cases hend : p.endsAt c with
    | true =>
      rw [scan_cut cs (Ne.symm hc) hend] at h
      cases hrest : scan {} cs with
      | error e =>
        rw [hrest] at h
        cases h
      | ok later =>
        rw [hrest] at h
        cases h
        rcases List.mem_append.mp hmem with hfirst | hlater
        · exact hp.finish (openAfter_endsAt hend).1 hfirst
        · exact ih traced_empty hcs hrest hlater
    | false =>
      cases hstep : p.step c with
      | error e =>
        rw [scan_error cs (Ne.symm hc) hend hstep] at h
        cases h
      | ok p' =>
        rw [scan_char cs (Ne.symm hc) hend hstep] at h
        exact ih (hp.step (Ne.symm hc) hstep) hcs h hmem

/-- Every token of a line without escapes, comments apart, leaves nothing open. -/
theorem shut_of_mem {line : String} (hline : '\\' ∉ line.toList) {tokens : List Token}
    (h : tokenize line = .ok tokens) {token : Token} (hmem : token ∈ tokens)
    (hkind : token.text.toList.head? ≠ some '#') : Shut token.text.toList := by
  have htrim : '\\' ∉ Text.trimChars line.toList := fun hin => hline (Text.mem_of_mem_trimChars hin)
  by_cases hblank : Text.trimChars line.toList = []
  · rw [tokenize, hblank] at h
    cases h
    cases hmem
  · by_cases hcomment : (Text.trimChars line.toList).head? = some '#'
    · obtain ⟨rest, hrest⟩ := List.head?_eq_some_iff.mp hcomment
      rw [tokenize, hrest] at h
      cases h
      rw [List.mem_singleton.mp hmem] at hkind
      simp at hkind
    · rw [tokenize_eq_scan hblank hcomment] at h
      exact shut_of_mem_scan traced_empty htrim h hmem

/-! ## Blanks around a text -/

theorem openAtEnd_of_blanks {cs : List Char} (h : ∀ c ∈ cs, Text.isBlank c = true)
    (openings : List Opening) : openAtEnd openings cs = some openings := by
  induction cs with
  | nil => rfl
  | cons c cs ih =>
    obtain ⟨hc, hcs⟩ := List.forall_mem_cons.mp h
    rw [openAtEnd_cons, openAfter_blank hc, Option.bind_some, ih hcs]

theorem openAtEnd_trimChars (openings : List Opening) (cs : List Char) :
    openAtEnd openings (Text.trimChars cs) = openAtEnd openings cs := by
  have hblanks : ∀ l : List Char, ∀ c ∈ l.takeWhile Text.isBlank, Text.isBlank c = true :=
    fun l => List.all_eq_true.mp List.all_takeWhile
  have hstart : ∀ l : List Char, openAtEnd openings (Text.trimStart l) = openAtEnd openings l := by
    intro l
    conv_rhs => rw [← List.takeWhile_append_dropWhile (p := Text.isBlank) (l := l)]
    rw [openAtEnd_append, openAtEnd_of_blanks (hblanks l), Option.bind_some, Text.trimStart]
  -- At the end the blanks are read after all the rest.
  have hend : ∀ l : List Char,
      openAtEnd openings (Text.trimStart l.reverse).reverse = openAtEnd openings l := by
    intro l
    have hsplit : l =
        (Text.trimStart l.reverse).reverse ++ (l.reverse.takeWhile Text.isBlank).reverse := by
      rw [← List.reverse_append, Text.trimStart, List.takeWhile_append_dropWhile,
        List.reverse_reverse]
    conv_rhs => rw [hsplit]
    rw [openAtEnd_append]
    cases openAtEnd openings (Text.trimStart l.reverse).reverse with
    | none => rfl
    | some o =>
      refine (openAtEnd_of_blanks ?_ o).symm
      intro c hc
      exact hblanks _ c (List.mem_reverse.mp hc)
  rw [Text.trimChars, hend, hstart]

end Token

open Token

/-! ## Where a bracket is closed -/

namespace Grammar

/-- Text that stands in `k` may be read where this is open. For text in a group that includes the
place where nothing is open. -/
inductive Fits : Option Opening → List Opening → Prop
  | structured {k : Option Opening} {openings : List Opening} (hk : Structured k)
      (hgrouped : Grouped openings)
      (hround : .group .round ∈ openings → k = some (.group .round)) : Fits k openings
  | quoted (m : QuoteMark) (outer : List Opening) : Fits (some (.quoted m)) (.quoted m :: outer)

theorem fits_group (b : Bracket) : Fits (some (.group b)) [.group b] := by
  refine .structured trivial (grouped_cons b []) ?_
  intro hround
  rw [List.mem_singleton] at hround
  rw [hround]

theorem fits_group_nil (b : Bracket) : Fits (some (.group b)) [] :=
  .structured trivial grouped_nil nofun

theorem Fits.opens {k : Option Opening} {start : Bool} {q : Opening} {outer : List Opening}
    {later : List Char} (h : Fits k outer) (hopen : Opens k start later q)
    (hq : '\\' ∉ q.starting) :
    openAtEnd outer q.starting = some (q :: outer) ∧ Fits (some q) (q :: outer) := by
  cases h with
  | quoted m outer =>
    cases q with
    | group b => exact hopen.1.elim
    | quoted m' => exact hopen.elim
    | verbatim b => exact absurd List.mem_cons_self hq
  | structured hk hgrouped hround =>
    cases q with
    | verbatim b => exact absurd List.mem_cons_self hq
    | quoted m =>
      refine ⟨?_, .quoted m outer⟩
      rw [Opening.starting, openAtEnd_cons, openAfter_quote hgrouped]
      rfl
    | group b =>
      -- A set does not open in an expression, so no expression is open around it.
      have hcurly : b = .curly → .group .round ∉ outer := fun hb hmem =>
        hopen.2 hb (hround hmem)
      refine ⟨?_, .structured trivial (grouped_cons b outer) ?_⟩
      · rw [Opening.starting, openAtEnd_cons, openAfter_opener hgrouped hcurly]
        rfl
      · intro hmem
        cases b with
        | round => rfl
        | curly =>
          rcases List.mem_cons.mp hmem with heq | hmem
          · cases heq
          · exact absurd hmem (hcurly rfl)

theorem openAtEnd_ending {q : Opening} (hq : '\\' ∉ q.starting) (outer : List Opening) :
    openAtEnd (q :: outer) q.ending = some outer := by
  cases q with
  | group b =>
    rw [Opening.ending, openAtEnd_cons, openAfter_closer]
    rfl
  | quoted m =>
    rw [Opening.ending, openAtEnd_cons, openAfter_quoted, if_pos rfl]
    rfl
  | verbatim b => exact absurd List.mem_cons_self hq

theorem Fits.plain {k : Option Opening} {outer : List Opening} {c : Char} (h : Fits k outer)
    (hplain : Plain k c) : openAfter outer c = some outer := by
  cases h with
  | quoted m outer => rw [openAfter_quoted, if_neg hplain.2]
  | structured hk hgrouped hround =>
    rcases hk.cases with rfl | ⟨b, rfl⟩
    · exact openAfter_plain hgrouped hplain.2
    · exact openAfter_plain hgrouped hplain.2

/-- What the grammar leaves open is what is open. -/
theorem Reads.openAtEnd_eq {k : Option Opening} {start : Bool} {o outer : List Opening}
    {cs rest : List Char} (h : Reads k start o cs rest) (hcs : '\\' ∉ cs) (hfits : Fits k outer) :
    openAtEnd outer cs = some (o ++ outer) := by
  -- On the reading, for all that may be open around it.
  induction h generalizing outer with
  | nil => rfl
  | escape => exact absurd List.mem_cons_self hcs
  | backslash => exact absurd List.mem_cons_self hcs
  | plain hplain _ ih =>
    rw [List.mem_cons, not_or] at hcs
    rw [openAtEnd_cons, hfits.plain hplain, Option.bind_some, ih hcs.2 hfits]
  | enclosed hopen _ _ ihinner ihafter =>
    simp only [List.mem_append, not_or] at hcs
    obtain ⟨hstarting, hinner, -, hafter⟩ := hcs
    obtain ⟨hopened, hfits'⟩ := hfits.opens hopen hstarting
    rw [openAtEnd_append, hopened, Option.bind_some, openAtEnd_append, ihinner hinner hfits',
      Option.bind_some, List.nil_append, openAtEnd_append, openAtEnd_ending hstarting,
      Option.bind_some, ihafter hafter hfits]
  | unclosed hopen _ ih =>
    rw [List.mem_append, not_or] at hcs
    obtain ⟨hopened, hfits'⟩ := hfits.opens hopen hcs.1
    rw [openAtEnd_append, hopened, Option.bind_some, ih hcs.2 hfits']
    simp

/-- The bracket `b` at the front of the text is closed behind `inside`, and `after` follows. -/
structure ClosedBehind (b : Bracket) (text inside after : List Char) : Prop where
  text_eq : text = b.opener :: (inside ++ b.closer :: after)
  reads : Reads (some (.group b)) false [] inside (b.closer :: after)

section

variable {b : Bracket} {text inside after : List Char}

/-- A bracket at the front of a text that leaves nothing open is closed somewhere. -/
theorem exists_closedBehind {tail : List Char} (h : Shut (b.opener :: tail)) :
    ∃ inside after, ClosedBehind b (b.opener :: tail) inside after := by
  obtain ⟨hescape, hopen⟩ := h
  rw [List.mem_cons, not_or] at hescape
  have hopener : openAfter [] b.opener = some [.group b] := openAfter_opener grouped_nil nofun
  rw [openAtEnd_cons, hopener, Option.bind_some] at hopen
  obtain ⟨o, read, rest, rfl, hreads, hends⟩ := munched (some (.group b)) false tail
  rw [List.mem_append, not_or] at hescape
  rw [openAtEnd_append, hreads.openAtEnd_eq hescape.2.1 (fits_group b), Option.bind_some] at hopen
  rcases hends with rfl | ⟨rfl, q, after, hq, rfl⟩ | ⟨c, after, rfl, hstops⟩
  · -- The bracket would be open at the end.
    have hnil : o ++ [Opening.group b] = [] := Option.some.inj hopen
    simp at hnil
  · obtain rfl := Option.some.inj hq
    exact ⟨read, after, rfl, hreads⟩
  · -- A character would fit nowhere.
    have hnone : openAfter (o ++ [.group b]) c = none := by
      cases o with
      | nil => exact openAfter_stops hstops
      | cons q outer => exact openAfter_stops hstops
    rw [openAtEnd_cons, hnone] at hopen
    cases hopen

/-- On its own the text behind the bracket is read up to where the bracket is closed, and no
further. -/
theorem ClosedBehind.inside_shut (h : ClosedBehind b text inside after) (htext : '\\' ∉ text) :
    Shut inside := by
  have hinside : '\\' ∉ inside := by
    intro hmem
    exact htext (by simp [h.text_eq, hmem])
  refine ⟨hinside, ?_⟩
  rw [h.reads.openAtEnd_eq hinside (fits_group_nil b)]
  rfl

theorem ClosedBehind.no_further (h : ClosedBehind b text inside after) (htext : '\\' ∉ text)
    (more : List Char) : openAtEnd [] (inside ++ b.closer :: more) = none := by
  rw [openAtEnd_append, (h.inside_shut htext).2, Option.bind_some, openAtEnd_cons,
    openAfter_closer_nil]
  rfl

theorem ClosedBehind.length_le {inside' after' : List Char} (htext : '\\' ∉ text)
    (h : ClosedBehind b text inside after) (h' : ClosedBehind b text inside' after') :
    inside'.length ≤ inside.length := by
  -- The longer text would have the closing bracket of the shorter one in it, where it fits nowhere.
  by_contra hlonger
  have hsame : inside ++ b.closer :: after = inside' ++ b.closer :: after' :=
    (List.cons.inj (h.text_eq.symm.trans h'.text_eq)).2
  have hfront : inside ++ [b.closer] <+: inside ++ b.closer :: after := ⟨after, by simp⟩
  have hlong : inside' <+: inside ++ b.closer :: after := hsame ▸ List.prefix_append _ _
  have hlength : (inside ++ [b.closer]).length ≤ inside'.length := by
    rw [List.length_append, List.length_singleton]
    omega
  obtain ⟨more, rfl⟩ := List.prefix_of_prefix_length_le hfront hlong hlength
  have hshut := (h'.inside_shut htext).2
  rw [List.append_assoc, List.singleton_append, h.no_further htext] at hshut
  cases hshut

/-- It is closed in one place only. -/
theorem ClosedBehind.unique {inside' after' : List Char} (htext : '\\' ∉ text)
    (h : ClosedBehind b text inside after) (h' : ClosedBehind b text inside' after') :
    inside' = inside ∧ after' = after := by
  have hsame : inside' ++ b.closer :: after' = inside ++ b.closer :: after :=
    (List.cons.inj (h'.text_eq.symm.trans h.text_eq)).2
  have hlength := Nat.le_antisymm (h.length_le htext h') (h'.length_le htext h)
  obtain ⟨hinside, hafter⟩ := List.append_inj hsame hlength
  exact ⟨hinside, (List.cons.inj hafter).2⟩

end

end Grammar

/-! ## The brackets of an argument -/

namespace Argument

/-- The bracket that an argument is written in. -/
def bracket? : Argument → Option Bracket
  | expression _ => some .round
  | annotationSet _ => some .curly
  | literal _ | variableRef _ => none

theorem bracket?_ofToken {token : Token} {b : Bracket} (h : (ofToken token).bracket? = some b) :
    (∃ tail, token.text.toList = b.opener :: tail) ∧
      (ofToken token).inner = stripBracket b token.text := by
  unfold ofToken at h ⊢
  split at h
  · cases h
  · next hkind =>
    rw [if_neg hkind]
    split at h
    · next tail htext =>
      cases h
      exact ⟨⟨tail, htext⟩, rfl⟩
    · next tail htext =>
      cases h
      exact ⟨⟨tail, htext⟩, rfl⟩
    · cases h
    · cases h

/-- Brackets that are removed stand at both ends. -/
theorem stripBracket_cases (b : Bracket) (text : String) :
    stripBracket b text = text ∨ ∃ core, text.toList = b.opener :: (core ++ [b.closer]) ∧
      stripBracket b text = String.ofList (Text.trimChars core) := by
  unfold stripBracket
  split
  · next core hcore =>
    refine .inr ⟨core, ?_, rfl⟩
    cases htext : text.toList with
    | nil =>
      rw [htext] at hcore
      cases hcore
    | cons c rest =>
      rw [htext, Text.enclosed?] at hcore
      split at hcore
      · next hc =>
        unfold Text.beforeLast? at hcore
        split at hcore
        · next last hlast =>
          split at hcore
          · next heq =>
            obtain rfl := Option.some.inj hcore
            rw [hc, ← heq, List.dropLast_append_getLast? last hlast]
          · cases hcore
        · cases hcore
      · cases hcore
  · exact .inl rfl

/-- The brackets that are removed from an argument are its first and its last character. The first
bracket is closed in one place, and if that is the last character, what is left is a sequence of
items. Else the argument is several groups, and what is left is none: it has the end of the first
group without its beginning. -/
theorem inner_derivable_iff {line : String} (hline : '\\' ∉ line.toList) {tokens : List Token}
    (h : Token.tokenize line = .ok tokens) {token : Token} (hmem : token ∈ tokens) {b : Bracket}
    (hb : (ofToken token).bracket? = some b) (hinner : (ofToken token).inner ≠ token.text) :
    ∃ core inside after, token.text.toList = b.opener :: (core ++ [b.closer]) ∧
      (ofToken token).inner = String.ofList (Text.trimChars core) ∧
      ClosedBehind b token.text.toList inside after ∧
      (∀ inside' after', ClosedBehind b token.text.toList inside' after' →
        inside' = inside ∧ after' = after) ∧
      (Derivable (ofToken token).inner.toList ↔ after = []) ∧
      (after = [] → core = inside) := by
  obtain ⟨⟨tail, htail⟩, hstrip⟩ := bracket?_ofToken hb
  have hshut : Shut token.text.toList := by
    refine shut_of_mem hline h hmem ?_
    rw [htail]
    cases b <;> simp [Bracket.opener]
  rw [hstrip] at hinner ⊢
  rcases stripBracket_cases b token.text with hsame | ⟨core, hcore, hstripped⟩
  · exact absurd hsame hinner
  obtain ⟨inside, after, hclosed⟩ : ∃ inside after,
      ClosedBehind b token.text.toList inside after := by
    rw [htail] at hshut ⊢
    exact exists_closedBehind hshut
  have hsplit : core ++ [b.closer] = inside ++ b.closer :: after :=
    (List.cons.inj (hcore.symm.trans hclosed.text_eq)).2
  have hlast : after = [] → core = inside := by
    rintro rfl
    exact List.append_cancel_right hsplit
  have hbalanced : Derivable (Text.trimChars core) ↔ openAtEnd [] core = some [] := by
    have hescape : '\\' ∉ Text.trimChars core := by
      intro hin
      exact hshut.1 (by simp [hcore, Text.mem_of_mem_trimChars hin])
    rw [derivable_iff_openAtEnd hescape, openAtEnd_trimChars]
  refine ⟨core, inside, after, hcore, hstripped, hclosed, ?_, ?_, hlast⟩
  · intro inside' after' hclosed'
    exact hclosed.unique hshut.1 hclosed'
  · rw [hstripped, String.toList_ofList, hbalanced]
    constructor
    · intro hopen
      -- With more behind the place where it is closed, that place is inside what is left.
      rcases List.eq_nil_or_concat after with hnil | ⟨more, c, hmore⟩
      · exact hnil
      · have hcoremore : core = inside ++ b.closer :: more := by
          have hends : core ++ [b.closer] = (inside ++ b.closer :: more) ++ [c] := by
            rw [hsplit, hmore, List.concat_eq_append]
            simp
          exact (List.append_inj' hends rfl).1
        rw [hcoremore, hclosed.no_further hshut.1] at hopen
        cases hopen
    · intro hnil
      rw [hlast hnil]
      exact (hclosed.inside_shut hshut.1).2

/-- A quoted bracket and a group in the expression do not close it. -/
theorem inner_derivable_nested :
    Token.tokenize "f (a ')' (b))" = .ok [⟨.plain, "f"⟩, ⟨.plain, "(a ')' (b))"⟩] ∧
      (ofToken ⟨.plain, "(a ')' (b))"⟩).inner = "a ')' (b)" ∧
      ClosedBehind .round "(a ')' (b))".toList "a ')' (b)".toList [] := by
  have htokens : Token.tokenize "f (a ')' (b))" =
      .ok [⟨.plain, "f"⟩, ⟨.plain, "(a ')' (b))"⟩] := by decide +kernel
  have hstripped : (ofToken ⟨.plain, "(a ')' (b))"⟩).inner = "a ')' (b)" := by decide +kernel
  have hderivable : Derivable "a ')' (b)".toList :=
    (derivable_iff_openAtEnd (by decide)).mpr (by decide)
  obtain ⟨core, inside, after, hcore, -, hclosed, -, hiff, hlast⟩ :=
    inner_derivable_iff (by decide) htokens (List.mem_cons_of_mem _ List.mem_cons_self) rfl
      (by rw [hstripped]; decide)
  rw [hstripped] at hiff
  obtain rfl := hiff.mp hderivable
  obtain rfl := hlast rfl
  have htext : "(a ')' (b))".toList = '(' :: ("a ')' (b)".toList ++ [')']) := by decide
  have hinside : core = "a ')' (b)".toList :=
    List.append_cancel_right (List.cons.inj (hcore.symm.trans htext)).2
  exact ⟨htokens, hstripped, hinside ▸ hclosed⟩

/-- Two groups lose the first bracket of the one and the last of the other. -/
theorem inner_of_two_groups :
    Token.tokenize "(a)(b)" = .ok [⟨.plain, "(a)(b)"⟩] ∧
      ofToken ⟨.plain, "(a)(b)"⟩ = .expression "(a)(b)" ∧
      (ofToken ⟨.plain, "(a)(b)"⟩).inner = "a)(b" ∧ ¬ Derivable "a)(b".toList := by
  refine ⟨by decide +kernel, by decide +kernel, by decide +kernel, ?_⟩
  rw [derivable_iff_openAtEnd (by decide)]
  decide

end Argument

end MarkupScript
