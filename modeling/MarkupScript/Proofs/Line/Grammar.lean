import MarkupScript.Line.Token

/-!
# The grammar of a script line

A line is a sequence of items: escaped pairs, quoted runs, groups in brackets, verbatim
groups and ordinary characters. Whether an item may stand somewhere depends on what it
stands in, and for a verbatim group also on the rest of the line.

* `Grammar.Reads` derives a piece of a line, with what the piece leaves open.
* `Grammar.Derivable` holds of the lines that leave nothing open.
* `Grammar.Fault` says what is wrong with any other line.
* `Grammar.munched`: every text can be read up to its end, to the end of what it stands in,
  or to a character that fits nowhere.
* `Reads.no_verbatim_open`: a verbatim group is never left open at the end of a line.
-/

namespace MarkupScript

namespace Opening

/-- What stands in front of the text between. -/
def starting : Opening → List Char
  | group b => [b.opener]
  | quoted m => [m.char]
  | verbatim b => ['\\', b.opener]

/-- What stands behind the text between. -/
def ending : Opening → List Char
  | group b => [b.closer]
  | quoted m => [m.char]
  | verbatim b => ['\\', b.closer]

theorem ending_ne_nil (q : Opening) : q.ending ≠ [] := by
  cases q <;> exact List.cons_ne_nil _ _

end Opening

namespace Grammar

/-! ## Items and where they may stand -/

/-- Text without the escaped closer of `b`. -/
inductive Verbatim (b : Bracket) : List Char → Prop
  | nil : Verbatim b []
  | pair {c : Char} {cs : List Char} (hc : c ≠ b.closer) :
      Verbatim b cs → Verbatim b ('\\' :: c :: cs)
  | char {c : Char} {cs : List Char} (hc : c ≠ '\\') : Verbatim b cs → Verbatim b (c :: cs)

/-- The escaped closer of `b` follows. -/
def ClosesVerbatim (b : Bracket) (cs : List Char) : Prop :=
  ∃ inner after, Verbatim b inner ∧ cs = inner ++ '\\' :: b.closer :: after

/-- Quotes and brackets. -/
def marks : List Char :=
  ['\'', '"', '(', ')', '{', '}']

/-- Marks count outside of everything and in a group; between quotes and in a verbatim group
they do not. -/
def Structured : Option Opening → Prop
  | none | some (.group _) => True
  | some (.quoted _) | some (.verbatim _) => False

/-- Whether `q` may open inside `k`. The flag says whether a token starts here; `later` is
the line after the opening. -/
def Opens (k : Option Opening) (start : Bool) (later : List Char) : Opening → Prop
  | .group b => Structured k ∧ (b = .curly → k ≠ some (.group .round))
  | .quoted _ => Structured k
  | .verbatim b => k = none ∧ start = true ∧ ClosesVerbatim b later

/-- Characters that stand for themselves inside `k`. -/
def Plain : Option Opening → Char → Prop
  | none, c | some (.group _), c => c ≠ '\\' ∧ c ∉ marks
  | some (.quoted m), c => c ≠ '\\' ∧ c ≠ m.char
  | some (.verbatim _), c => c ≠ '\\'

/-- Escaped characters that neither open nor close a verbatim group. -/
def PlainPair (k : Option Opening) (start : Bool) (c : Char) (later : List Char) : Prop :=
  (∀ b, Opens k start later (.verbatim b) → c ≠ b.opener) ∧
    ∀ b, k = some (.verbatim b) → c ≠ b.closer

/-- Blanks between tokens. -/
def Separator (c : Char) : Bool :=
  c = ' ' || c = '\t'

/-- `Reads k start o cs rest`: inside `k`, the text `cs` is a sequence of items when `rest`
follows on the line. The last items of `cs` may be open at its end: `o` is what is
left open, innermost first. -/
inductive Reads : Option Opening → Bool → List Opening → List Char → List Char → Prop
  | nil (k : Option Opening) (start : Bool) (rest : List Char) : Reads k start [] [] rest
  /-- An escaped pair. -/
  | escape {k : Option Opening} {start : Bool} {o : List Opening} {c : Char}
      {cs rest : List Char} (hpair : PlainPair k start c (cs ++ rest)) :
      Reads k false o cs rest → Reads k start o ('\\' :: c :: cs) rest
  /-- A backslash at the end of the line. -/
  | backslash (k : Option Opening) (start : Bool) : Reads k start [] ['\\'] []
  /-- An ordinary character. A blank outside of everything starts a token. -/
  | plain {k : Option Opening} {start : Bool} {o : List Opening} {c : Char}
      {cs rest : List Char} (hplain : Plain k c) :
      Reads k (k.isNone && Separator c) o cs rest → Reads k start o (c :: cs) rest
  /-- A quoted run or a group, from its start to its end. -/
  | enclosed {k : Option Opening} {start : Bool} {o : List Opening} {q : Opening}
      {inner cs rest : List Char} (hopen : Opens k start (inner ++ (q.ending ++ (cs ++ rest))) q) :
      Reads (some q) false [] inner (q.ending ++ (cs ++ rest)) → Reads k false o cs rest →
      Reads k start o (q.starting ++ (inner ++ (q.ending ++ cs))) rest
  /-- A quoted run or a group that is open at the end of the text. -/
  | unclosed {k : Option Opening} {start : Bool} {o : List Opening} {q : Opening}
      {inner rest : List Char} (hopen : Opens k start (inner ++ rest) q) :
      Reads (some q) false o inner rest → Reads k start (o ++ [q]) (q.starting ++ inner) rest

/-- The line is a sequence of items. -/
def Derivable (line : List Char) : Prop :=
  Reads none true [] line []

/-- The text `before` is the beginning of a sequence of items, and no more of the line is:
`c` fits nowhere. -/
structure StuckAt (before : List Char) (c : Char) (after : List Char) : Prop where
  before_reads : ∃ o, Reads none true o before (c :: after)
  no_more : ∀ more rest o, after = more ++ rest → ¬ Reads none true o (before ++ c :: more) rest

/-- What is wrong with a line. -/
inductive Fault (line : List Char) : SyntaxError → Prop
  /-- A closing bracket fits nowhere. -/
  | closer {before after : List Char} {b : Bracket} (hline : line = before ++ b.closer :: after)
      (hstuck : StuckAt before b.closer after) : Fault line (.unmatchedCloser b.closer)
  /-- A set of annotations fits nowhere, since an expression is open. -/
  | nesting {before after : List Char} {o : List Opening} (hline : line = before ++ '{' :: after)
      (hstuck : StuckAt before '{' after) (hreads : Reads none true o before ('{' :: after))
      (hround : .group .round ∈ o) : Fault line .illegalNesting
  /-- The whole line can be read, and leaves something open. -/
  | unclosed {q : Opening} {outer : List Opening} (hreads : Reads none true (q :: outer) line []) :
      Fault line (.unclosed q.char)

theorem Structured.cases {k : Option Opening} (h : Structured k) :
    k = none ∨ ∃ b, k = some (.group b) := by
  cases k with
  | none => exact .inl rfl
  | some q =>
    cases q with
    | group b => exact .inr ⟨b, rfl⟩
    | quoted m => exact h.elim
    | verbatim b => exact h.elim

/-- Nothing opens in a verbatim group. -/
theorem not_opens_verbatim {b : Bracket} {start : Bool} {later : List Char} (q : Opening) :
    ¬ Opens (some (.verbatim b)) start later q := by
  intro h
  cases q with
  | group b' => exact h.1.elim
  | quoted m => exact h.elim
  | verbatim b' => exact absurd h.1 (Option.some_ne_none _)

/-! ## The look-ahead of verbatim groups -/

theorem closesVerbatim_pair {b : Bracket} {c : Char} {cs : List Char} :
    ClosesVerbatim b ('\\' :: c :: cs) ↔ c = b.closer ∨ ClosesVerbatim b cs := by
  constructor
  · rintro ⟨inner, after, hinner, heq⟩
    cases hinner with
    | nil =>
      simp only [List.nil_append, List.cons.injEq, true_and] at heq
      exact .inl heq.1
    | pair hc hrest =>
      simp only [List.cons_append, List.cons.injEq, true_and] at heq
      exact .inr ⟨_, after, hrest, heq.2⟩
    | char hc hrest =>
      simp only [List.cons_append, List.cons.injEq] at heq
      exact absurd heq.1.symm hc
  · rintro (rfl | ⟨inner, after, hinner, rfl⟩)
    · exact ⟨[], cs, .nil, rfl⟩
    · by_cases hc : c = b.closer
      · exact ⟨[], _, .nil, by rw [hc]; rfl⟩
      · exact ⟨'\\' :: c :: inner, after, .pair hc hinner, rfl⟩

theorem closesVerbatim_char {b : Bracket} {c : Char} {cs : List Char} (hc : c ≠ '\\') :
    ClosesVerbatim b (c :: cs) ↔ ClosesVerbatim b cs := by
  constructor
  · rintro ⟨inner, after, hinner, heq⟩
    cases hinner with
    | nil =>
      simp only [List.nil_append, List.cons.injEq] at heq
      exact absurd heq.1 hc
    | pair _ _ =>
      simp only [List.cons_append, List.cons.injEq] at heq
      exact absurd heq.1 hc
    | char _ hrest =>
      simp only [List.cons_append, List.cons.injEq] at heq
      exact ⟨_, after, hrest, heq.2⟩
  · rintro ⟨inner, after, hinner, rfl⟩
    exact ⟨c :: inner, after, .char hc hinner, rfl⟩

theorem not_closesVerbatim_short {b : Bracket} {cs : List Char} (h : cs.length ≤ 1) :
    ¬ ClosesVerbatim b cs := by
  rintro ⟨inner, after, -, rfl⟩
  simp only [List.length_append, List.length_cons] at h
  omega

/-- A verbatim group that is read to the end of the line has no escaped closer. -/
theorem Reads.not_closesVerbatim {b : Bracket} {start : Bool} {o : List Opening}
    {cs rest : List Char} (h : Reads (some (.verbatim b)) start o cs rest) (hrest : rest = []) :
    ¬ ClosesVerbatim b cs := by
  generalize hk : some (Opening.verbatim b) = k at h
  induction h with
  | nil => exact not_closesVerbatim_short (Nat.zero_le 1)
  | backslash => exact not_closesVerbatim_short (Nat.le_refl 1)
  | escape hpair _ ih =>
    rw [closesVerbatim_pair, not_or]
    exact ⟨hpair.2 b hk.symm, ih hrest hk⟩
  | plain hplain _ ih =>
    subst hk
    rw [closesVerbatim_char hplain]
    exact ih hrest rfl
  | enclosed hopen _ _ _ _ =>
    subst hk
    exact absurd hopen (not_opens_verbatim _)
  | unclosed hopen _ _ =>
    subst hk
    exact absurd hopen (not_opens_verbatim _)

/-- A verbatim group opens only if it closes, so none is open at the end of a line. -/
theorem Reads.no_verbatim_open {k : Option Opening} {start : Bool} {o : List Opening}
    {cs rest : List Char} (h : Reads k start o cs rest) (hrest : rest = []) (b : Bracket) :
    Opening.verbatim b ∉ o := by
  induction h with
  | nil => exact List.not_mem_nil
  | backslash => exact List.not_mem_nil
  | escape _ _ ih => exact ih hrest
  | plain _ _ ih => exact ih hrest
  | enclosed _ _ _ _ ih => exact ih hrest
  | @unclosed _ _ _ q inner rest hopen hreads ih =>
    rw [List.mem_append, List.mem_singleton, not_or]
    refine ⟨ih hrest, ?_⟩
    -- It opened because its closer follows, and no closer was read.
    rintro rfl
    have hlater := hopen.2.2
    rw [hrest, List.append_nil] at hlater
    exact hreads.not_closesVerbatim hrest hlater

/-! ## How far a text can be read -/

/-- The character `c` fits nowhere inside `k`: it closes another bracket, or opens a set
inside an expression. -/
def Stops (k : Option Opening) (c : Char) : Prop :=
  Structured k ∧
    ((∃ b : Bracket, c = b.closer ∧ k ≠ some (.group b)) ∨ c = '{' ∧ k = some (.group .round))

/-- Where a reading inside `k` that leaves `o` open has to end: at the end of the line, at
the end of `k`, or where a character does not fit. -/
def EndsAt (k : Option Opening) (o : List Opening) (rest : List Char) : Prop :=
  rest = [] ∨ (o = [] ∧ ∃ q after, k = some q ∧ rest = q.ending ++ after) ∨
    ∃ c after, rest = c :: after ∧ Stops (o.head?.or k) c

/-- The text can be read as far as that. -/
def Munched (k : Option Opening) (start : Bool) (cs : List Char) : Prop :=
  ∃ o read rest, cs = read ++ rest ∧ Reads k start o read rest ∧ EndsAt k o rest

theorem munched_closing (q : Opening) (start : Bool) (after : List Char) :
    Munched (some q) start (q.ending ++ after) :=
  ⟨[], [], q.ending ++ after, rfl, .nil _ _ _, .inr (.inl ⟨rfl, q, after, rfl, rfl⟩)⟩

theorem munched_stops {k : Option Opening} {c : Char} (start : Bool) (after : List Char)
    (h : Stops k c) : Munched k start (c :: after) :=
  ⟨[], [], c :: after, rfl, .nil _ _ _, .inr (.inr ⟨c, after, rfl, h⟩)⟩

theorem munched_escape {k : Option Opening} {start : Bool} {c : Char} {cs : List Char}
    (hpair : PlainPair k start c cs) (h : Munched k false cs) :
    Munched k start ('\\' :: c :: cs) := by
  obtain ⟨o, read, rest, rfl, hreads, hends⟩ := h
  exact ⟨o, '\\' :: c :: read, rest, rfl, .escape hpair hreads, hends⟩

theorem munched_plain {k : Option Opening} {start : Bool} {c : Char} {cs : List Char}
    (hplain : Plain k c) (h : Munched k (k.isNone && Separator c) cs) :
    Munched k start (c :: cs) := by
  obtain ⟨o, read, rest, rfl, hreads, hends⟩ := h
  exact ⟨o, c :: read, rest, rfl, .plain hplain hreads, hends⟩

/-- After an opening the text between is read first, and what follows it only if it ends. -/
theorem munched_opening {k : Option Opening} {start : Bool} {q : Opening} {later : List Char}
    (hopen : Opens k start later q) (hinner : Munched (some q) false later)
    (hafter : ∀ cs, cs.length < later.length → Munched k false cs) :
    Munched k start (q.starting ++ later) := by
  obtain ⟨o, inner, rest, rfl, hreads, hends⟩ := hinner
  have hleft : Reads k start (o ++ [q]) (q.starting ++ inner) rest := .unclosed hopen hreads
  have hline : q.starting ++ (inner ++ rest) = (q.starting ++ inner) ++ rest :=
    (List.append_assoc _ _ _).symm
  rcases hends with hend | ⟨rfl, q', after, hq, rfl⟩ | ⟨c, after, hrest, hstops⟩
  · -- The line ends, and `q` is left open.
    exact ⟨o ++ [q], q.starting ++ inner, rest, hline, hleft, .inl hend⟩
  · -- `q` ends, and the reading goes on behind it.
    obtain rfl := Option.some.inj hq
    have hshort : after.length < (inner ++ (q.ending ++ after)).length := by
      have := List.length_pos_iff.mpr q.ending_ne_nil
      simp only [List.length_append]
      omega
    obtain ⟨o, cs, rest, rfl, hmore, hends⟩ := hafter after hshort
    refine ⟨o, q.starting ++ (inner ++ (q.ending ++ cs)), rest, ?_, ?_, hends⟩
    · simp only [List.append_assoc]
    · exact .enclosed hopen hreads hmore
  · -- A character inside `q` fits nowhere.
    refine ⟨o ++ [q], q.starting ++ inner, rest, hline, hleft, .inr (.inr ⟨c, after, hrest, ?_⟩)⟩
    rw [List.head?_append]
    cases hhead : o.head? with
    | none => simpa [hhead] using hstops
    | some o' => simpa [hhead] using hstops

/-- An escaped pair opens a verbatim group, ends one, or stands for itself. -/
theorem munched_pair {k : Option Opening} {start : Bool} {c : Char} {cs : List Char}
    (ih : ∀ k start cs', cs'.length ≤ cs.length → Munched k start cs') :
    Munched k start ('\\' :: c :: cs) := by
  by_cases hopens : ∃ b, Opens k start cs (.verbatim b) ∧ c = b.opener
  · obtain ⟨b, hopen, rfl⟩ := hopens
    exact munched_opening hopen (ih _ _ _ (Nat.le_refl _)) fun _ h => ih _ _ _ (Nat.le_of_lt h)
  by_cases hcloses : ∃ b, k = some (.verbatim b) ∧ c = b.closer
  · obtain ⟨b, rfl, rfl⟩ := hcloses
    exact munched_closing (.verbatim b) start cs
  · refine munched_escape ⟨?_, ?_⟩ (ih _ _ _ (Nat.le_refl _))
    · exact fun b hopen hc => hopens ⟨b, hopen, hc⟩
    · exact fun b hk hc => hcloses ⟨b, hk, hc⟩

/-- Where marks count, every character opens something, closes something, fits nowhere or
stands for itself. -/
theorem munched_structured {k : Option Opening} {start : Bool} {c : Char} {cs : List Char}
    (hk : Structured k) (hc : c ≠ '\\')
    (ih : ∀ k start cs', cs'.length ≤ cs.length → Munched k start cs') :
    Munched k start (c :: cs) := by
  have hopening : ∀ q : Opening, Opens k start cs q → Munched k start (q.starting ++ cs) :=
    fun q hopen =>
      munched_opening hopen (ih _ _ _ (Nat.le_refl _)) fun _ h => ih _ _ _ (Nat.le_of_lt h)
  have hcloser : ∀ b : Bracket, Munched k start (b.closer :: cs) := by
    intro b
    by_cases hb : k = some (.group b)
    · rw [hb]
      exact munched_closing (.group b) start cs
    · exact munched_stops start cs ⟨hk, .inl ⟨b, rfl, hb⟩⟩
  by_cases hmark : c ∈ marks
  · simp only [marks, List.mem_cons, List.not_mem_nil, or_false] at hmark
    rcases hmark with rfl | rfl | rfl | rfl | rfl | rfl
    · exact hopening (.quoted .single) hk
    · exact hopening (.quoted .double) hk
    · exact hopening (.group .round) ⟨hk, nofun⟩
    · exact hcloser .round
    · by_cases hround : k = some (.group .round)
      · exact munched_stops start cs ⟨hk, .inr ⟨rfl, hround⟩⟩
      · exact hopening (.group .curly) ⟨hk, fun _ => hround⟩
    · exact hcloser .curly
  · refine munched_plain ?_ (ih _ _ _ (Nat.le_refl _))
    rcases hk.cases with rfl | ⟨b, rfl⟩
    · exact ⟨hc, hmark⟩
    · exact ⟨hc, hmark⟩

/-- Every text can be read until it ends, or what it stands in ends, or a character fits
nowhere. -/
theorem munched (k : Option Opening) (start : Bool) (cs : List Char) : Munched k start cs := by
  -- On the length: what follows an enclosed run is shorter, but not the tail of the text.
  induction hn : cs.length using Nat.strongRecOn generalizing k start cs with
  | ind n ih =>
    subst hn
    cases cs with
    | nil => exact ⟨[], [], [], rfl, .nil _ _ _, .inl rfl⟩
    | cons c cs =>
      have hshort : ∀ k start cs', cs'.length ≤ cs.length → Munched k start cs' :=
        fun k start cs' hle => ih _ (Nat.lt_succ_of_le hle) k start cs' rfl
      by_cases hc : c = '\\'
      · subst hc
        cases cs with
        | nil => exact ⟨[], ['\\'], [], rfl, .backslash _ _, .inl rfl⟩
        | cons c cs =>
          exact munched_pair fun k start cs' hle => hshort k start cs' (Nat.le_succ_of_le hle)
      cases k with
      | none => exact munched_structured trivial hc hshort
      | some q =>
        cases q with
        | group b => exact munched_structured trivial hc hshort
        | verbatim b => exact munched_plain hc (hshort _ _ _ (Nat.le_refl _))
        | quoted m =>
          by_cases hm : c = m.char
          · rw [hm]
            exact munched_closing (.quoted m) start cs
          · exact munched_plain ⟨hc, hm⟩ (hshort _ _ _ (Nat.le_refl _))

end Grammar

end MarkupScript
