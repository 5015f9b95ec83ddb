import MarkupScript.Proofs.Line.Scan
import MarkupScript.Proofs.Line.Grammar

/-!
# The scan follows the grammar

What the grammar reads the scan reads too, with the same quotes and brackets left open. The
scan takes one way only. So where one reading comes to a character that fits nowhere, no other
reading goes on.

* `Token.Partial.Inside`: a partial token stands where the grammar says.
* `Grammar.Reads.reach`: a reading is a run of the scan.
* `Grammar.stuckAt_iff`: where no reading goes on.
* `Token.tokenize_recognizes`: which lines are accepted, and what is wrong with the others.
-/

namespace MarkupScript

open Relation Grammar

/-! ## Escaped characters -/

namespace Token

theorem closesLater_iff (b : Bracket) (cs : List Char) :
    closesLater b.closer cs = true ↔ ClosesVerbatim b cs := by
  fun_induction closesLater b.closer cs with
  | case1 c rest ih => simp [closesVerbatim_pair, ih]
  | case2 c rest hpair ih =>
    by_cases hc : c = '\\'
    · subst hc
      cases rest with
      | nil => simp [closesLater, not_closesVerbatim_short]
      | cons c rest => exact absurd rfl (hpair c rest rfl)
    · rw [closesVerbatim_char hc, ih]
  | case3 => simp [not_closesVerbatim_short]

theorem verbatimBracket?_eq_some {c : Char} {rest : List Char} {b : Bracket} :
    verbatimBracket? c rest = some b ↔ c = b.opener ∧ ClosesVerbatim b rest := by
  unfold verbatimBracket?
  rw [← closesLater_iff]
  cases b with
  | round =>
    by_cases hc : c = '('
    · simp [hc, Bracket.opener, Bracket.closer]
    · simp [hc, Bracket.opener]
  | curly =>
    by_cases hc : c = '{'
    · simp [hc, Bracket.opener, Bracket.closer]
    · simp [hc, Bracket.opener]

namespace Partial

/-- The partial token `p` stands inside `k`, and the flag says whether a token starts. -/
structure Inside (p : Partial) (k : Option Opening) (start : Bool) : Prop where
  innermost : p.openings.head? = k
  /-- No set is open inside an expression. -/
  nested : p.openings.Pairwise fun inner outer => inner = .group .curly → outer ≠ .group .round
  starts : k = none → start = p.text.isEmpty

variable {p : Partial} {k : Option Opening} {start : Bool}

theorem inside_empty : Inside {} none true where
  innermost := rfl
  nested := .nil
  starts _ := rfl

theorem isEmpty_push (p : Partial) (c : Char) : (p.push c).text.isEmpty = false := by
  simp [push]

theorem Inside.openings_nil (h : p.Inside none start) : p.openings = [] :=
  List.head?_eq_none_iff.mp h.innermost

theorem Inside.openings_cons {q : Opening} (h : p.Inside (some q) start) :
    ∃ outer, p.openings = q :: outer :=
  List.head?_eq_some_iff.mp h.innermost

/-- After a character the same things are open, or the token begins anew. -/
theorem Inside.after {p' : Partial} {start' : Bool} (h : p.Inside k start)
    (hopen : p'.openings = p.openings) (hstart : p'.text.isEmpty = start') :
    p'.Inside k start' where
  innermost := by rw [hopen, h.innermost]
  nested := by rw [hopen]; exact h.nested
  starts _ := hstart.symm

theorem Inside.contains_round (h : p.Inside k start) (hk : Structured k) :
    p.openings.contains (.group .round) = decide (k = some (.group .round)) := by
  rcases hk.cases with rfl | ⟨b, rfl⟩
  · simp [h.openings_nil]
  · obtain ⟨outer, houter⟩ := h.openings_cons
    rw [houter]
    cases b with
    | round => simp
    | curly =>
      have hnested := h.nested
      rw [houter, List.pairwise_cons] at hnested
      have hround : Opening.group .round ∉ outer := fun hmem => hnested.1 _ hmem rfl rfl
      simpa using hround

/-! ## One item at a time -/

theorem openings_escaped {c : Char} {rest : List Char} (h : p.Inside k start)
    (hpair : PlainPair k start c rest) : (p.escaped c rest).openings = p.openings := by
  unfold escaped
  cases k with
  | none =>
    rw [h.openings_nil]
    by_cases hstart : p.atStart = true
    · -- A bracket that closes later would open a verbatim group.
      have hnone : verbatimBracket? c rest = none := by
        rw [Option.eq_none_iff_forall_not_mem]
        intro b hb
        obtain ⟨hc, hcloses⟩ := verbatimBracket?_eq_some.mp hb
        have hempty : start = true := by
          rw [h.starts rfl]
          exact (Bool.and_eq_true_iff.mp hstart).1
        exact hpair.1 b ⟨rfl, hempty, hcloses⟩ hc
      simp [hstart, hnone]
    · simp [hstart]
  | some q =>
    obtain ⟨outer, houter⟩ := h.openings_cons
    rw [houter]
    cases q with
    | group b => rfl
    | quoted m => rfl
    | verbatim b => exact if_neg (hpair.2 b rfl)

theorem ordinary_plain {c : Char} (hc : c ∉ marks) : p.ordinary c = .ok (p.push c) := by
  unfold ordinary
  split <;> simp_all [marks]

theorem step_structured (h : p.Inside k start) (hk : Structured k) (c : Char) :
    p.step c = p.ordinary c := by
  unfold step
  rcases hk.cases with rfl | ⟨b, rfl⟩
  · rw [h.openings_nil]
  · obtain ⟨outer, houter⟩ := h.openings_cons
    rw [houter]

theorem step_plain {c : Char} (h : p.Inside k start) (hplain : Plain k c) :
    p.step c = .ok (p.push c) := by
  cases k with
  | none => rw [step_structured h trivial, ordinary_plain hplain.2]
  | some q =>
    cases q with
    | group b => rw [step_structured h trivial, ordinary_plain hplain.2]
    | quoted m =>
      obtain ⟨outer, houter⟩ := h.openings_cons
      rw [step, houter]
      exact if_neg hplain.2
    | verbatim b =>
      obtain ⟨outer, houter⟩ := h.openings_cons
      rw [step, houter]

theorem endsAt_eq (h : p.Inside k start) (c : Char) :
    p.endsAt c = (k.isNone && Separator c) := by
  unfold endsAt Separator
  cases k with
  | none => rw [h.openings_nil]; rfl
  | some q =>
    obtain ⟨outer, houter⟩ := h.openings_cons
    rw [houter]
    rfl

theorem plain_ne_backslash {c : Char} (hplain : Plain k c) : c ≠ '\\' := by
  cases k with
  | none => exact hplain.1
  | some q =>
    cases q with
    | group b => exact hplain.1
    | quoted m => exact hplain.1
    | verbatim b => exact hplain

/-- A plain character is read, or ends the token. -/
theorem advance_plain {c : Char} (rest : List Char) (h : p.Inside k start) (hplain : Plain k c) :
    ∃ p', Advance (p, c :: rest) (p', rest) ∧ p'.openings = p.openings ∧
      p'.Inside k (k.isNone && Separator c) := by
  have hc := plain_ne_backslash hplain
  cases hend : p.endsAt c with
  | true =>
    have hflag := endsAt_eq h c
    rw [hend] at hflag
    obtain rfl : k = none := by simpa using (Bool.and_eq_true_iff.mp hflag.symm).1
    refine ⟨{}, .cut rest hc hend, h.openings_nil.symm, ?_⟩
    rw [← hflag]
    exact inside_empty
  | false =>
    rw [← endsAt_eq h c, hend]
    exact ⟨p.push c, .char rest hc hend (step_plain h hplain), rfl, h.after rfl (isEmpty_push p c)⟩

/-- A mark is no backslash, and ends no token. -/
theorem marks_inside (p : Partial) {c : Char} (hc : c ∈ marks) : c ≠ '\\' ∧ p.endsAt c = false := by
  have hchar : c ≠ '\\' ∧ Separator c = false := by
    simp only [marks, List.mem_cons, List.not_mem_nil, or_false] at hc
    rcases hc with rfl | rfl | rfl | rfl | rfl | rfl <;> decide
  refine ⟨hchar.1, ?_⟩
  rw [endsAt, ← Separator, hchar.2, Bool.and_false]

theorem advance_mark {p' : Partial} {c : Char} (rest : List Char) (hc : c ∈ marks)
    (hstep : p.step c = .ok p') : Advance (p, c :: rest) (p', rest) := by
  obtain ⟨hne, hend⟩ := marks_inside p hc
  exact .char rest hne hend hstep

theorem quote_mem_marks (m : QuoteMark) : m.char ∈ marks := by
  cases m <;> decide

theorem opener_mem_marks (b : Bracket) : b.opener ∈ marks := by
  cases b <;> decide

theorem closer_mem_marks (b : Bracket) : b.closer ∈ marks := by
  cases b <;> decide

/-- The same partial token with one more character and `q` open. -/
theorem Inside.opened {q : Opening} {p' : Partial} (h : p.Inside k start)
    (hround : q = .group .curly → p.openings.contains (.group .round) = false)
    (hopen : p'.openings = q :: p.openings) : p'.Inside (some q) false where
  innermost := by rw [hopen]; rfl
  nested := by
    rw [hopen, List.pairwise_cons]
    refine ⟨?_, h.nested⟩
    rintro o ho hq rfl
    have hnot := hround hq
    rw [List.contains_eq_mem, decide_eq_false_iff_not] at hnot
    exact hnot ho
  starts hk := absurd hk (Option.some_ne_none _)

/-- What may open does open. -/
theorem advance_opens {q : Opening} {later : List Char} (h : p.Inside k start)
    (hopen : Opens k start later q) :
    ∃ p', Advance (p, q.starting ++ later) (p', later) ∧ p'.openings = q :: p.openings ∧
      p'.Inside (some q) false := by
  cases q with
  | quoted m =>
    have hstep : p.step m.char = .ok { p.push m.char with openings := .quoted m :: p.openings } := by
      rw [step_structured h hopen]
      cases m <;> rfl
    exact ⟨_, advance_mark later (quote_mem_marks m) hstep, rfl, h.opened nofun rfl⟩
  | group b =>
    have hround : b = .curly → p.openings.contains (.group .round) = false := by
      intro hb
      rw [h.contains_round hopen.1]
      exact decide_eq_false (hopen.2 hb)
    have hstep : p.step b.opener = .ok { p.push b.opener with openings := .group b :: p.openings } := by
      rw [step_structured h hopen.1]
      cases b with
      | round => rfl
      | curly => exact if_neg (by rw [hround rfl]; exact Bool.false_ne_true)
    exact ⟨_, advance_mark later (opener_mem_marks b) hstep, rfl,
      h.opened (fun hb => hround (Opening.group.inj hb)) rfl⟩
  | verbatim b =>
    obtain ⟨rfl, rfl, hcloses⟩ := hopen
    have hstart : p.atStart = true := by
      rw [atStart, ← h.starts rfl, h.openings_nil]
      rfl
    have hescaped : (p.escaped b.opener later).openings = .verbatim b :: p.openings := by
      simp [escaped, h.openings_nil, hstart, verbatimBracket?_eq_some.mpr ⟨rfl, hcloses⟩]
    exact ⟨_, .escape p b.opener later, hescaped, h.opened nofun hescaped⟩

/-- What is innermost closes at its end. -/
theorem advance_closes {q : Opening} {outer : List Opening} (rest : List Char)
    (hp : p.openings = q :: outer) :
    ∃ p', Advance (p, q.ending ++ rest) (p', rest) ∧ p'.openings = outer ∧
      p'.text.isEmpty = false := by
  cases q with
  | quoted m =>
    have hstep : p.step m.char = .ok { p.push m.char with openings := outer } := by
      rw [step, hp]
      exact if_pos rfl
    exact ⟨_, advance_mark rest (quote_mem_marks m) hstep, rfl, isEmpty_push p _⟩
  | group b =>
    have hstep : p.step b.closer = .ok { p.push b.closer with openings := outer } := by
      have hclose : p.close b = .ok { p.push b.closer with openings := outer } := by
        rw [close, hp]
        exact if_pos rfl
      rw [step, hp, ← hclose]
      cases b <;> rfl
    exact ⟨_, advance_mark rest (closer_mem_marks b) hstep, rfl, isEmpty_push p _⟩
  | verbatim b =>
    have hescaped : (p.escaped b.closer rest).openings = outer := by
      simp [escaped, hp]
    exact ⟨_, .escape p b.closer rest, hescaped, by simp [escaped]⟩

/-- What fits nowhere is refused. -/
theorem step_stops {c : Char} (h : p.Inside k start) (hstops : Stops k c) :
    c ∈ marks ∧
      ((∃ b : Bracket, c = b.closer ∧ p.step c = .error (.unmatchedCloser b.closer)) ∨
        c = '{' ∧ k = some (.group .round) ∧ p.step c = .error .illegalNesting) := by
  obtain ⟨hk, ⟨b, rfl, hb⟩ | ⟨rfl, rfl⟩⟩ := hstops
  · have hclose : p.close b = .error (.unmatchedCloser b.closer) := by
      unfold close
      cases k with
      | none => rw [h.openings_nil]
      | some q =>
        obtain ⟨outer, houter⟩ := h.openings_cons
        rw [houter]
        exact if_neg fun hq => hb (congrArg some hq)
    refine ⟨closer_mem_marks b, .inl ⟨b, rfl, ?_⟩⟩
    rw [step_structured h hk, ← hclose]
    cases b <;> rfl
  · refine ⟨opener_mem_marks .curly, .inr ⟨rfl, rfl, ?_⟩⟩
    rw [step_structured h hk]
    have hround := h.contains_round hk
    rw [decide_eq_true rfl] at hround
    exact if_pos hround

end Partial

end Token

/-! ## Readings are runs -/

namespace Grammar

open Token

/-- The scan reads what the grammar reads, and keeps open what the reading leaves open. -/
theorem Reads.reach {k : Option Opening} {start : Bool} {o : List Opening} {cs rest : List Char}
    (h : Reads k start o cs rest) :
    ∀ p : Partial, p.Inside k start →
      ∃ p', Reach (p, cs ++ rest) (p', rest) ∧ p'.openings = o ++ p.openings ∧
        ∃ start', p'.Inside (o.head?.or k) start' := by
  induction h with
  | nil k start rest => exact fun p hp => ⟨p, .refl, rfl, start, hp⟩
  | backslash k start =>
    intro p hp
    exact ⟨p.push '\\', .single (.last p), rfl, false, hp.after rfl (p.isEmpty_push _)⟩
  | @escape k start o c cs rest hpair _ ih =>
    intro p hp
    have hopen := Partial.openings_escaped hp hpair
    have hempty : (p.escaped c (cs ++ rest)).text.isEmpty = false := by simp [Partial.escaped]
    obtain ⟨p', hreach, hp', hin⟩ := ih (p.escaped c (cs ++ rest)) (hp.after hopen hempty)
    exact ⟨p', .head (.escape p c (cs ++ rest)) hreach, by rw [hp', hopen], hin⟩
  | @plain k start o c cs rest hplain _ ih =>
    intro p hp
    obtain ⟨p₁, hstep, hopen, hp₁⟩ := Partial.advance_plain (cs ++ rest) hp hplain
    obtain ⟨p', hreach, hp', hin⟩ := ih p₁ hp₁
    exact ⟨p', .head hstep hreach, by rw [hp', hopen], hin⟩
  | @enclosed k start o q inner cs rest hopen _ _ ih_inner ih =>
    -- The start, the text between, the end, and then what follows.
    intro p hp
    obtain ⟨p₁, hopening, hopen₁, hp₁⟩ := Partial.advance_opens hp hopen
    obtain ⟨p₂, hbetween, hopen₂, -⟩ := ih_inner p₁ hp₁
    have hq : p₂.openings = q :: p.openings := by rw [hopen₂, hopen₁]; rfl
    obtain ⟨p₃, hclosing, hopen₃, hempty⟩ := Partial.advance_closes (cs ++ rest) hq
    obtain ⟨p', hreach, hp', hin⟩ := ih p₃ (hp.after hopen₃ hempty)
    refine ⟨p', ?_, by rw [hp', hopen₃], hin⟩
    simp only [List.append_assoc]
    exact .head hopening (hbetween.trans (.head hclosing hreach))
  | @unclosed k start o q inner rest hopen _ ih =>
    -- `q` stays on the stack, under what the text between leaves open.
    intro p hp
    obtain ⟨p₁, hopening, hopen₁, hp₁⟩ := Partial.advance_opens hp hopen
    obtain ⟨p', hreach, hp', start', hin⟩ := ih p₁ hp₁
    refine ⟨p', ?_, ?_, start', ?_⟩
    · rw [List.append_assoc]
      exact .head hopening hreach
    · rw [hp', hopen₁, List.append_assoc]
      rfl
    · rw [List.head?_append, Option.or_assoc]
      exact hin

variable {o : List Opening} {before after line : List Char} {c : Char}

theorem Reads.reach_line {rest : List Char} (h : Reads none true o before rest) :
    ∃ p, Reach ({}, before ++ rest) (p, rest) ∧ p.openings = o ∧
      ∃ start, p.Inside o.head? start := by
  obtain ⟨p, hreach, hp, hin⟩ := h.reach {} Partial.inside_empty
  rw [Option.or_none] at hin
  exact ⟨p, hreach, hp.trans (List.append_nil o), hin⟩

/-! ## Where no reading goes on -/

/-- The scan of a line ends at a character that fits nowhere. -/
theorem Reads.reach_stop (h : Reads none true o before (c :: after)) (hstops : Stops o.head? c) :
    ∃ p, Reach ({}, before ++ c :: after) (p, c :: after) ∧ ∀ w, ¬ Advance (p, c :: after) w := by
  obtain ⟨p, hreach, -, start, hin⟩ := h.reach_line
  obtain ⟨hmark, hstep⟩ := Partial.step_stops hin hstops
  obtain ⟨hc, hend⟩ := Partial.marks_inside p hmark
  rcases hstep with ⟨b, -, hstep⟩ | ⟨-, -, hstep⟩
  · exact ⟨p, hreach, not_advance_of_error hc hend hstep⟩
  · exact ⟨p, hreach, not_advance_of_error hc hend hstep⟩

theorem stuckAt_of_stops (h : Reads none true o before (c :: after)) (hstops : Stops o.head? c) :
    StuckAt before c after where
  before_reads := ⟨o, h⟩
  no_more := by
    -- The scan passes the end of every reading, and it ends at `c`.
    rintro more rest o' rfl hmore
    obtain ⟨p, hreach, hend⟩ := h.reach_stop hstops
    obtain ⟨p', hreach', -, -⟩ := hmore.reach_line
    rw [List.append_assoc] at hreach'
    have hlength := length_le_of_reach (reach_end hreach hend hreach')
    simp only [List.length_cons, List.length_append] at hlength
    omega

theorem stuckAt_iff :
    StuckAt before c after ↔ ∃ o, Reads none true o before (c :: after) ∧ Stops o.head? c := by
  constructor
  · intro hstuck
    obtain ⟨o', hbefore⟩ := hstuck.before_reads
    obtain ⟨o, read, rest, hline, hreads, hends⟩ := munched none true (before ++ c :: after)
    rcases hends with rfl | ⟨-, q, after', hq, -⟩ | ⟨c', after', rfl, hstops⟩
    · rw [List.append_nil] at hline
      rw [← hline] at hreads
      exact absurd hreads (hstuck.no_more after [] o (List.append_nil after).symm)
    · exact absurd hq.symm (Option.some_ne_none q)
    rw [Option.or_none] at hstops
    -- The two places are the same: beyond neither of them anything can be read.
    rcases List.append_eq_append_iff.mp hline with ⟨more, rfl, hrest⟩ | ⟨more, rfl, hrest⟩
    · cases more with
      | nil =>
        obtain ⟨rfl, rfl⟩ := List.cons.inj hrest
        exact ⟨o, by simpa using hreads, hstops⟩
      | cons c₁ more =>
        obtain ⟨rfl, rfl⟩ := List.cons.inj hrest
        exact absurd hreads (hstuck.no_more more _ o rfl)
    · cases more with
      | nil =>
        obtain ⟨rfl, rfl⟩ := List.cons.inj hrest
        exact ⟨o, by simpa using hreads, hstops⟩
      | cons c₁ more =>
        obtain ⟨rfl, rfl⟩ := List.cons.inj hrest
        exact absurd hbefore ((stuckAt_of_stops hreads hstops).no_more more _ o' rfl)
  · rintro ⟨o, hreads, hstops⟩
    exact stuckAt_of_stops hreads hstops

/-! ## What the scan says of a line -/

theorem scan_derivable (h : Derivable line) : ∃ tokens, scan {} line = .ok tokens := by
  obtain ⟨p, hreach, hp, -⟩ := h.reach_line
  rw [List.append_nil] at hreach
  cases hscan : scan {} line with
  | ok tokens => exact ⟨tokens, rfl⟩
  | error e =>
    have hfails := (fails_iff_of_reach hreach e).mp hscan
    rw [scan_end_closed hp] at hfails
    cases hfails

theorem scan_unclosed {q : Opening} {outer : List Opening}
    (h : Reads none true (q :: outer) line []) : scan {} line = .error (.unclosed q.char) := by
  obtain ⟨p, hreach, hp, -⟩ := h.reach_line
  rw [List.append_nil] at hreach
  exact (fails_iff_of_reach hreach _).mpr (scan_end_open hp)

theorem scan_stops (h : Reads none true o before (c :: after)) (hstops : Stops o.head? c) :
    (∃ b : Bracket, c = b.closer ∧
        scan {} (before ++ c :: after) = .error (.unmatchedCloser b.closer)) ∨
      c = '{' ∧ .group .round ∈ o ∧ scan {} (before ++ c :: after) = .error .illegalNesting := by
  obtain ⟨p, hreach, -, start, hin⟩ := h.reach_line
  obtain ⟨hmark, hstep⟩ := Partial.step_stops hin hstops
  obtain ⟨hc, hend⟩ := Partial.marks_inside p hmark
  rcases hstep with ⟨b, hb, hstep⟩ | ⟨hbrace, hround, hstep⟩
  · have hscan := (fails_iff_of_reach hreach _).mpr (scan_error after hc hend hstep)
    exact .inl ⟨b, hb, hscan⟩
  · have hscan := (fails_iff_of_reach hreach _).mpr (scan_error after hc hend hstep)
    exact .inr ⟨hbrace, List.mem_of_head? hround, hscan⟩

/-- A line can be read to its end, or up to a character that fits nowhere. -/
theorem reads_or_stops (line : List Char) :
    (∃ o, Reads none true o line []) ∨
      ∃ o before c after, line = before ++ c :: after ∧ Reads none true o before (c :: after) ∧
        Stops o.head? c := by
  obtain ⟨o, read, rest, rfl, hreads, hends⟩ := munched none true line
  rcases hends with rfl | ⟨-, q, after, hq, -⟩ | ⟨c, after, rfl, hstops⟩
  · rw [List.append_nil]
    exact .inl ⟨o, hreads⟩
  · exact absurd hq.symm (Option.some_ne_none q)
  · rw [Option.or_none] at hstops
    exact .inr ⟨o, read, c, after, rfl, hreads, hstops⟩

theorem scan_isOk_iff : (∃ tokens, scan {} line = .ok tokens) ↔ Derivable line := by
  refine ⟨?_, scan_derivable⟩
  rintro ⟨tokens, hscan⟩
  rcases reads_or_stops line with ⟨o, hreads⟩ | ⟨o, before, c, after, rfl, hreads, hstops⟩
  · cases o with
    | nil => exact hreads
    | cons q outer =>
      rw [scan_unclosed hreads] at hscan
      cases hscan
  · rcases scan_stops hreads hstops with ⟨b, -, herror⟩ | ⟨-, -, herror⟩
    · rw [herror] at hscan
      cases hscan
    · rw [herror] at hscan
      cases hscan

theorem fault_of_scan {e : SyntaxError} (hscan : scan {} line = .error e) : Fault line e := by
  rcases reads_or_stops line with ⟨o, hreads⟩ | ⟨o, before, c, after, rfl, hreads, hstops⟩
  · cases o with
    | nil =>
      obtain ⟨tokens, hok⟩ := scan_derivable hreads
      rw [hok] at hscan
      cases hscan
    | cons q outer =>
      obtain rfl := Except.error.inj ((scan_unclosed hreads).symm.trans hscan)
      exact .unclosed hreads
  · have hstuck := stuckAt_of_stops hreads hstops
    rcases scan_stops hreads hstops with ⟨b, rfl, herror⟩ | ⟨rfl, hround, herror⟩
    · obtain rfl := Except.error.inj (herror.symm.trans hscan)
      exact .closer rfl hstuck
    · obtain rfl := Except.error.inj (herror.symm.trans hscan)
      exact .nesting rfl hstuck hreads hround

theorem scan_of_fault {e : SyntaxError} (h : Fault line e) : scan {} line = .error e := by
  cases h with
  | unclosed hreads => exact scan_unclosed hreads
  | @closer before after b hline hstuck =>
    obtain ⟨o, hreads, hstops⟩ := stuckAt_iff.mp hstuck
    rw [hline]
    rcases scan_stops hreads hstops with ⟨b', hb, herror⟩ | ⟨hbrace, -, -⟩
    · rwa [← hb] at herror
    · cases b <;> cases hbrace
  | nesting hline hstuck _ _ =>
    obtain ⟨o, hreads, hstops⟩ := stuckAt_iff.mp hstuck
    rw [hline]
    rcases scan_stops hreads hstops with ⟨b, hbrace, -⟩ | ⟨-, -, herror⟩
    · cases b <;> cases hbrace
    · exact herror

end Grammar

namespace Token

/-- A line that is neither blank nor a comment is cut into tokens exactly if
it is a sequence of items. Any other line has a fault, and the fault is reported: the
first character that fits nowhere, or else the innermost quote or bracket that is open at the end
of the line. A verbatim group is never open there. -/
theorem tokenize_recognizes {line : String} {trimmed : List Char}
    (htrim : Text.trimChars line.toList = trimmed) (hblank : trimmed ≠ [])
    (hcomment : trimmed.head? ≠ some '#') :
    ((∃ tokens, tokenize line = .ok tokens) ↔ Derivable trimmed) ∧
      (∀ e, tokenize line = .error e ↔ Fault trimmed e) ∧
      ∀ o b, Reads none true o trimmed [] → Opening.verbatim b ∉ o := by
  subst htrim
  rw [tokenize_eq_scan hblank hcomment]
  refine ⟨scan_isOk_iff, ?_, ?_⟩
  · exact fun e => ⟨fault_of_scan, scan_of_fault⟩
  · exact fun o b hreads => hreads.no_verbatim_open rfl b

/-- A quote in a verbatim group opens nothing; a brace in an expression fits nowhere. -/
theorem tokenize_recognizes_lines :
    (Derivable ['\\', '(', '\'', '\\', ')'] ∧ ∃ tokens, tokenize " \\('\\)" = .ok tokens) ∧
      tokenize "'\x7b' (\x7b" = .error .illegalNesting ∧
      Fault "'\x7b' (\x7b".toList .illegalNesting := by
  have hverbatim : Text.trimChars " \\('\\)".toList = ['\\', '(', '\'', '\\', ')'] := by cbv
  have hopens : Opens none true ['\'', '\\', ')'] (.verbatim .round) :=
    ⟨rfl, rfl, ['\''], [], .char (by decide) .nil, rfl⟩
  have hquote : Reads (some (.verbatim .round)) false [] ['\''] ['\\', ')'] :=
    .plain (show '\'' ≠ '\\' by decide) (.nil _ _ _)
  have hderivable : Derivable ['\\', '(', '\'', '\\', ')'] :=
    @Reads.enclosed none true [] (.verbatim .round) ['\''] [] [] hopens hquote (.nil _ _ _)
  have hnested : Text.trimChars "'\x7b' (\x7b".toList = "'\x7b' (\x7b".toList := by cbv
  have herror : tokenize "'\x7b' (\x7b" = .error .illegalNesting := by cbv
  refine ⟨⟨hderivable, ?_⟩, herror, ?_⟩
  · exact (tokenize_recognizes hverbatim (by decide) (by decide)).1.mpr hderivable
  · exact ((tokenize_recognizes hnested (by decide) (by decide)).2.1 _).mp herror

end Token

end MarkupScript
