import MarkupScript.Proofs.Expression.Phrase

/-!
# Phrases are cut into their tokens

Whether a sign is an operator or part of an operand depends on what stands before it, and where a
name or a number ends on what stands after it. So the text of a phrase is followed through with
whatever may come after.

* `ExprToken.Lexes`: characters are cut into tokens.
* `ExprToken.Ends`: what may come after an operand.
* `takeOperand_number`, `takeOperand_path` and others: which token is taken from which character.
* `Phrase.lexes_write`: the text of a phrase is cut into the tokens of the phrase.
-/

namespace MarkupScript

namespace ExprToken

/-! ## Classes of characters -/

/-- The code points of the blanks. -/
def blankPoints : List Nat :=
  [0x09, 0x0A, 0x0B, 0x0C, 0x0D, 0x20, 0x85, 0xA0, 0x1680, 0x2000, 0x2001, 0x2002, 0x2003, 0x2004,
    0x2005, 0x2006, 0x2007, 0x2008, 0x2009, 0x200A, 0x2028, 0x2029, 0x202F, 0x205F, 0x3000]

theorem mem_blankPoints {c : Char} (h : Text.isBlank c = true) : c.toNat ∈ blankPoints := by
  simp only [Text.isBlank, Bool.or_eq_true, Bool.and_eq_true, decide_eq_true_eq, beq_iff_eq] at h
  simp only [blankPoints, List.mem_cons, List.not_mem_nil, or_false]
  omega

/-- No character of a variable is a blank. -/
theorem not_isBlank_of_isVariableChar {c : Char} (h : isVariableChar c = true) :
    Text.isBlank c = false := by
  have hpoints : ∀ n ∈ blankPoints, isVariableChar (Char.ofNat n) = false := by decide +kernel
  cases hblank : Text.isBlank c with
  | false => rfl
  | true =>
    have hnot := hpoints c.toNat (mem_blankPoints hblank)
    rw [Char.ofNat_toNat, h] at hnot
    cases hnot

theorem isVariableChar_of_isNameStart {c : Char} (h : isNameStart c = true) :
    isVariableChar c = true := by
  rw [isNameStart, Bool.or_eq_true] at h
  rw [isVariableChar, Text.isAlphanumeric]
  rcases h with h | h <;> simp [h]

/-- What starts a name is no blank. -/
theorem not_isBlank_of_isNameStart {c : Char} (h : isNameStart c = true) :
    Text.isBlank c = false :=
  not_isBlank_of_isVariableChar (isVariableChar_of_isNameStart h)

theorem isDigit_bounds {c : Char} (h : Decimal.isDigit c = true) :
    48 ≤ c.toNat ∧ c.toNat ≤ 57 := by
  rw [Decimal.isDigit, Bool.and_eq_true, decide_eq_true_eq, decide_eq_true_eq] at h
  exact h

/-- What starts a name is no digit. -/
theorem not_isDigit_of_isNameStart {c : Char} (h : isNameStart c = true) :
    Decimal.isDigit c = false := by
  have hdigits : ∀ n : Fin 10, isNameStart (Char.ofNat (48 + n.val)) = false := by decide
  cases hdigit : Decimal.isDigit c with
  | false => rfl
  | true =>
    rcases isDigit_bounds hdigit with ⟨hlow, hhigh⟩
    have hnot := hdigits ⟨c.toNat - 48, by omega⟩
    have hsum : 48 + (c.toNat - 48) = c.toNat := by omega
    rw [hsum, Char.ofNat_toNat, h] at hnot
    cases hnot

/-- What starts a name is none of the signs. -/
theorem ne_of_isNameStart {c d : Char} (h : isNameStart c = true) (hd : isNameStart d = false) :
    c ≠ d := by
  rintro rfl
  rw [h] at hd
  cases hd

theorem not_isBlank_of_isDigit {c : Char} (h : Decimal.isDigit c = true) :
    Text.isBlank c = false := by
  rcases isDigit_bounds h with ⟨hlow, hhigh⟩
  simp only [Text.isBlank, Bool.or_eq_false_iff, Bool.and_eq_false_iff, decide_eq_false_iff_not,
    beq_eq_false_iff_ne]
  omega

/-! ## Cutting -/

/-- The characters are cut into the tokens, if the bound is high enough. -/
def Lexes (input : String) (operand : Bool) (cs : List Char) (ts : List ExprToken) : Prop :=
  ∀ fuel, cs.length ≤ fuel → lexFrom input fuel operand cs = .ok ts

variable {input : String} {operand : Bool} {ts : List ExprToken}

theorem Lexes.nil : Lexes input operand [] [] := by
  intro fuel _
  rw [lexFrom]

theorem Lexes.blank {c : Char} {rest : List Char} (hc : Text.isBlank c = true)
    (h : Lexes input operand rest ts) : Lexes input operand (c :: rest) ts := by
  intro fuel hfuel
  rcases fuel with _ | fuel
  · cases hfuel
  · rw [lexFrom, if_pos hc]
    exact h fuel (Nat.le_of_succ_le_succ hfuel)

theorem Lexes.token {c : Char} {rest : List Char} {taken : Taken} (hc : Text.isBlank c = false)
    (htake : take input operand c rest = .ok taken) (hle : taken.rest.length ≤ rest.length)
    (h : Lexes input taken.operandNext taken.rest ts) :
    Lexes input operand (c :: rest) (taken.token :: ts) := by
  intro fuel hfuel
  rcases fuel with _ | fuel
  · cases hfuel
  · have hrest : taken.rest.length ≤ fuel := Nat.le_trans hle (Nat.le_of_succ_le_succ hfuel)
    rw [lexFrom, hc, if_neg Bool.false_ne_true, htake]
    show (lexFrom input fuel taken.operandNext taken.rest >>= _) = _
    rw [h fuel hrest]
    rfl

/-- What may come after an operand: nothing, or a blank, a comma or a closing bracket. After
blanks there is no opening bracket, which would make a call of a name. -/
structure Ends (rest : List Char) : Prop where
  head : ∀ c ∈ rest.head?, c = ' ' ∨ c = ',' ∨ c = ')'
  noCall : (rest.dropWhile Text.isBlank).head? ≠ some '('

theorem Ends.stops {rest : List Char} (h : Ends rest) {p : Char → Bool} (hblank : p ' ' = false)
    (hcomma : p ',' = false) (hclose : p ')' = false) : ∀ c ∈ rest.head?, p c = false := by
  intro c hc
  rcases h.head c hc with rfl | rfl | rfl
  · exact hblank
  · exact hcomma
  · exact hclose

/-- An operand that is one token. -/
theorem Lexes.single {c : Char} {cs rest : List Char} {token : ExprToken}
    (hc : Text.isBlank c = false)
    (htake : takeOperand input c (cs ++ rest) = .ok ⟨token, false, rest⟩)
    (h : Lexes input false rest ts) : Lexes input true (c :: (cs ++ rest)) (token :: ts) := by
  have htaken : take input true c (cs ++ rest) = .ok ⟨token, false, rest⟩ := htake
  refine Lexes.token hc htaken ?_ h
  rw [List.length_append]
  exact Nat.le_add_left _ _

/-- A bracket or a sign after which an operand is expected. -/
theorem Lexes.opening {c : Char} {rest : List Char} {token : ExprToken}
    (hc : Text.isBlank c = false) (htake : takeOperand input c rest = .ok ⟨token, true, rest⟩)
    (h : Lexes input true rest ts) : Lexes input true (c :: rest) (token :: ts) := by
  have htaken : take input true c rest = .ok ⟨token, true, rest⟩ := htake
  exact Lexes.token hc htaken (Nat.le_refl _) h

/-! ## Operands -/

theorem takeOperand_number {c : Char} {rest : List Char}
    (h : Decimal.isDigit c = true ∨ c = '.' ∧ ∃ d more, rest = d :: more ∧ Decimal.isDigit d = true)
    (input : String) : takeOperand input c rest = takeNumber (c :: rest) := by
  have hne : ∀ d, Decimal.isDigit d = false → d ≠ '.' → c ≠ d := by
    rintro d hd hpoint rfl
    rcases h with h | ⟨h, -⟩
    · rw [h] at hd
      cases hd
    · exact hpoint h
  have hnumber : (Decimal.isDigit c ||
      (c = '.' && (rest.head?.map Decimal.isDigit).getD false)) = true := by
    rcases h with h | ⟨h, d, more, rfl, hd⟩
    · rw [h, Bool.true_or]
    · simp [h, hd]
  rw [takeOperand, if_neg (hne '(' (by decide) (by decide)),
    if_neg (hne ')' (by decide) (by decide)), if_neg (hne '-' (by decide) (by decide)), if_neg,
    if_pos hnumber]
  simp [hne '\'' (by decide) (by decide), hne '"' (by decide) (by decide)]

theorem takeOperand_name {c : Char} (h : isNameStart c = true) (input : String)
    (rest : List Char) : takeOperand input c rest = takeName (c :: rest) := by
  have hne : ∀ d, isNameStart d = false → c ≠ d := fun d => ne_of_isNameStart h
  have hnumber : (Decimal.isDigit c ||
      (c = '.' && (rest.head?.map Decimal.isDigit).getD false)) = false := by
    simp [not_isDigit_of_isNameStart h, hne '.' (by decide)]
  rw [takeOperand, if_neg (hne '(' (by decide)), if_neg (hne ')' (by decide)),
    if_neg (hne '-' (by decide)), if_neg, hnumber, if_neg Bool.false_ne_true,
    if_neg (hne '$' (by decide)), if_pos h]
  simp [hne '\'' (by decide), hne '"' (by decide)]

theorem takeOperand_path {c : Char} {rest : List Char}
    (h : c = '/' ∨ c = '@' ∨ c = '*' ∨ c = '.' ∧ ∀ d ∈ rest.head?, Decimal.isDigit d = false)
    (input : String) : takeOperand input c rest = takePath (c :: rest) := by
  rcases h with rfl | rfl | rfl | ⟨rfl, hdigit⟩
  · rfl
  · rfl
  · rfl
  · have hnext : (rest.head?.map Decimal.isDigit).getD false = false := by
      cases hhead : rest.head? with
      | none => rfl
      | some d => exact hdigit d hhead
    have hpoint : Decimal.isDigit '.' = false := by decide
    have hname : isNameStart '.' = false := by decide
    simp [takeOperand, hnext, hpoint, hname]

theorem lexes_numeral (n : Numeral) {rest : List Char} (hrest : Ends rest)
    (h : Lexes input false rest ts) :
    Lexes input true (n.text ++ rest) (.number n.value :: ts) := by
  rcases n.text_head with ⟨c, cs, htext, hc⟩
  have hblank : Text.isBlank c = false := by
    rcases hc with hdigit | ⟨rfl, -⟩
    · exact not_isBlank_of_isDigit hdigit
    · decide
  have hstart : Decimal.isDigit c = true ∨
      c = '.' ∧ ∃ d more, cs ++ rest = d :: more ∧ Decimal.isDigit d = true := by
    rcases hc with hdigit | ⟨hpoint, d, more, rfl, hd⟩
    · exact Or.inl hdigit
    · exact Or.inr ⟨hpoint, d, more ++ rest, rfl, hd⟩
  rcases takeWhile_append_stop n.text_numberChars
    (hrest.stops (by decide) (by decide) (by decide)) with ⟨htake, hdrop⟩
  rw [htext, List.cons_append]
  refine Lexes.single hblank ?_ h
  rw [takeOperand_number hstart, ← List.cons_append, ← htext, takeNumber]
  simp only [htake, hdrop, n.readChars?_text]

theorem lexes_literal (l : Literal) {rest : List Char} (h : Lexes input false rest ts) :
    Lexes input true (l.write ++ rest) (.text l.text :: ts) := by
  have hgo : ∀ c ∈ l.text.toList, decide (c ≠ l.mark) = true := by
    intro c hc
    refine decide_eq_true ?_
    rintro rfl
    exact l.mark_not_mem hc
  have hstop : ∀ c ∈ (l.mark :: rest).head?, decide (c ≠ l.mark) = false := by
    intro c hc
    rw [← Option.some.inj hc]
    simp
  rcases takeWhile_append_stop hgo hstop with ⟨htake, hdrop⟩
  have htext : takeText input l.mark (l.text.toList ++ l.mark :: rest) =
      .ok ⟨.text l.text, false, rest⟩ := by
    rw [takeText]
    simp only [htake, hdrop, String.ofList_toList]
  have hmark : takeOperand input l.mark (l.text.toList ++ [l.mark] ++ rest) =
      .ok ⟨.text l.text, false, rest⟩ := by
    rw [List.append_assoc, List.singleton_append, ← htext]
    rcases l.mark_quotes with hm | hm
    · rw [hm]
      rfl
    · rw [hm]
      rfl
  refine Lexes.single ?_ hmark h
  rcases l.mark_quotes with hm | hm
  · rw [hm]
    decide
  · rw [hm]
    decide

theorem lexes_var (x : VariableName) {rest : List Char} (hrest : Ends rest)
    (h : Lexes input false rest ts) :
    Lexes input true (x.name.toList ++ rest) (.var x.name :: ts) := by
  rcases x with ⟨name, chars, hname, hne, hchars⟩
  rcases takeWhile_append_stop hchars
    (hrest.stops (by decide) (by decide) (by decide)) with ⟨htake, hdrop⟩
  have hslash : rest.head? ≠ some '/' := by
    intro hhead
    rcases hrest.head '/' hhead with hc | hc | hc <;> cases hc
  have hvar : takeVariable input (chars ++ rest) = .ok ⟨.var name, false, rest⟩ := by
    rw [takeVariable]
    simp only [htake, hdrop]
    rw [if_neg (by simpa using hne), if_neg hslash, ← hname, String.ofList_toList]
  show Lexes input true (name.toList ++ rest) (.var name :: ts)
  rw [hname, List.cons_append]
  exact Lexes.single (by decide) hvar h

theorem takePath_append {cs rest : List Char} (hcs : ∀ c ∈ cs, isPathChar c = true)
    (hrest : Ends rest) :
    takePath (cs ++ rest) = .ok ⟨.path (String.ofList cs), false, rest⟩ := by
  have htake : takeBracketed isPathChar (cs ++ rest) = some (cs, rest) := by
    refine takeBracketed_append ?_ ?_
    · intro c hc
      refine ⟨hcs c hc, ?_⟩
      rintro rfl
      exact absurd (hcs _ hc) (by decide)
    · intro c hc
      rcases hrest.head c hc with rfl | rfl | rfl <;> decide
  rw [takePath, htake]

/-- After a name in a path there is no call. -/
theorem noCall_append {cs rest : List Char} (hcs : ∀ c ∈ cs, isPathChar c = true)
    (hrest : Ends rest) :
    (((cs ++ rest).dropWhile isNameChar).dropWhile Text.isBlank).head? ≠ some '(' := by
  induction cs with
  | nil =>
    have hstop : ([] ++ rest).dropWhile isNameChar = rest :=
      (takeWhile_append_stop (by simp) (hrest.stops (by decide) (by decide) (by decide))).2
    rw [hstop]
    exact hrest.noCall
  | cons c cs ih =>
    rcases List.forall_mem_cons.mp hcs with ⟨hc, hcs⟩
    cases hname : isNameChar c with
    | true =>
      rw [List.cons_append, List.dropWhile_cons_of_pos hname]
      exact ih hcs
    | false =>
      rw [List.cons_append, List.dropWhile_cons_of_neg (by simp [hname])]
      simp only [isPathChar, hname, Bool.false_or, Bool.or_eq_true, decide_eq_true_eq] at hc
      rcases hc with ((((rfl | rfl) | rfl) | rfl) | rfl) | rfl <;> simp [Text.isBlank]

theorem takeName_path {cs rest : List Char} (hcs : ∀ c ∈ cs, isPathChar c = true)
    (hrest : Ends rest) :
    takeName (cs ++ rest) = .ok ⟨.path (String.ofList cs), false, rest⟩ := by
  rw [takeName, if_neg (noCall_append hcs hrest), takePath_append hcs hrest]

/-- A path that starts at a variable. -/
theorem takeVariable_path {chars tail rest : List Char} (hne : chars ≠ [])
    (hchars : ∀ c ∈ chars, isVariableChar c = true) (htail : tail.head? = some '/')
    (hpath : ∀ c ∈ '$' :: (chars ++ tail), isPathChar c = true) (hrest : Ends rest) :
    takeVariable input (chars ++ tail ++ rest) =
      .ok ⟨.path (String.ofList ('$' :: (chars ++ tail))), false, rest⟩ := by
  have hslash : (tail ++ rest).head? = some '/' := by
    rw [List.head?_append, htail]
    rfl
  have hstop : ∀ c ∈ (tail ++ rest).head?, isVariableChar c = false := by
    intro c hc
    rw [hslash] at hc
    cases hc
    decide
  rcases takeWhile_append_stop hchars hstop with ⟨htake, hdrop⟩
  rw [List.append_assoc, takeVariable]
  simp only [htake, hdrop]
  rw [if_neg (by simpa using hne), if_pos hslash, ← List.append_assoc, ← List.cons_append,
    takePath_append hpath hrest]

/-- A path that leads without a slash. -/
theorem takeOperand_leads {cs tail rest : List Char} (hleads : LeadsPath cs)
    (htail : ∀ c ∈ tail.head?, c = '/') (hpath : ∀ c ∈ cs ++ tail, isPathChar c = true)
    (hrest : Ends rest) : ∃ c more, cs ++ tail = c :: more ∧ Text.isBlank c = false ∧
      takeOperand input c (more ++ rest) =
        .ok ⟨.path (String.ofList (cs ++ tail)), false, rest⟩ := by
  rcases hleads with ⟨c, more, rfl, hc⟩
  refine ⟨c, more ++ tail, rfl, ?_⟩
  by_cases hname : isNameStart c = true
  · refine ⟨not_isBlank_of_isNameStart hname, ?_⟩
    rw [takeOperand_name hname, ← List.cons_append]
    exact takeName_path hpath hrest
  · have hsign : c = '/' ∨ c = '@' ∨ c = '*' ∨
        c = '.' ∧ ∀ d ∈ (more ++ tail ++ rest).head?, Decimal.isDigit d = false := by
      rcases hc with hc | hc | hc | ⟨hc, hdigit⟩
      · exact absurd hc hname
      · exact Or.inr (Or.inl hc)
      · exact Or.inr (Or.inr (Or.inl hc))
      · refine Or.inr (Or.inr (Or.inr ⟨hc, ?_⟩))
        -- After the point comes more of the step, or the slash of the next, or what ends the path.
        intro d hd
        rw [List.append_assoc, List.head?_append, List.head?_append] at hd
        cases hmore : more.head? with
        | some e =>
          rw [hmore] at hd
          exact hdigit d (hmore.trans hd)
        | none =>
          rw [hmore] at hd
          cases hnext : tail.head? with
          | some e =>
            rw [hnext] at hd
            cases hd
            rw [htail _ hnext]
            decide
          | none =>
            rw [hnext] at hd
            exact hrest.stops (by decide) (by decide) (by decide) d hd
    constructor
    · rcases hsign with rfl | rfl | rfl | ⟨rfl, -⟩ <;> decide
    · rw [takeOperand_path hsign, ← List.cons_append]
      exact takePath_append hpath hrest

theorem lexes_path (p : PathPhrase) {rest : List Char} (hrest : Ends rest)
    (h : Lexes input false rest ts) :
    Lexes input true (p.write ++ rest) (.path (String.ofList p.write) :: ts) := by
  rcases p with ⟨path, bare, hplain, hbare⟩
  have hchars := hplain.pathChars bare
  show Lexes input true (path.write bare ++ rest) (.path (String.ofList (path.write bare)) :: ts)
  cases bare with
  | true =>
    rcases hbare rfl with ⟨hcontext, step, others, hsteps, -, hleads⟩
    have hwrite : path.write true = step.write ++ Path.writeSteps others := by
      rw [Path.write, hcontext, hsteps]
      rfl
    rw [hwrite] at hchars ⊢
    rcases takeOperand_leads hleads (Path.head?_writeSteps others) hchars hrest with
      ⟨c, more, hcs, hblank, htake⟩
    rw [hcs] at htake ⊢
    exact Lexes.single hblank htake h
  | false =>
    have hslash := Path.head?_writeTail path.steps
    cases hstart : path.start with
    | context =>
      have hwrite : path.write false = Path.writeTail false path.steps := by
        rw [Path.write, hstart]
        rfl
      rw [hwrite] at hchars ⊢
      cases htail : Path.writeTail false path.steps with
      | nil =>
        rw [htail] at hslash
        cases hslash
      | cons c more =>
        rw [htail] at hslash hchars
        obtain rfl : c = '/' := Option.some.inj hslash
        refine Lexes.single (by decide) ?_ h
        rw [takeOperand_path (Or.inl rfl), ← List.cons_append]
        exact takePath_append hchars hrest
    | fromVariable name =>
      have hvariable := hplain.start
      rw [hstart] at hvariable
      rcases hvariable with ⟨chars, hname, hne, hvars⟩
      have hwrite : path.write false = '$' :: (chars ++ Path.writeTail false path.steps) := by
        rw [Path.write, hstart, PathStart.write, hname, List.cons_append]
      rw [hwrite] at hchars ⊢
      exact Lexes.single (by decide) (takeVariable_path hne hvars hslash hchars hrest) h

/-! ## Brackets, commas and operators -/

theorem ends_nil : Ends [] := ⟨by simp, by simp⟩

theorem ends_close (rest : List Char) : Ends (')' :: rest) where
  head c hc := Or.inr (Or.inr (Option.some.inj hc).symm)
  noCall := by
    show some ')' ≠ some '('
    decide

theorem ends_comma (rest : List Char) : Ends (',' :: rest) where
  head c hc := Or.inr (Or.inl (Option.some.inj hc).symm)
  noCall := by
    show some ',' ≠ some '('
    decide

theorem ends_operator (o : Operator) (rest : List Char) : Ends (' ' :: (o.write ++ rest)) where
  head c hc := Or.inl (Option.some.inj hc).symm
  noCall := by
    cases o <;> (intro h; cases h)

theorem Lexes.openBracket {rest : List Char} (h : Lexes input true rest ts) :
    Lexes input true ('(' :: rest) (.openBracket :: ts) :=
  Lexes.opening (by decide) rfl h

theorem Lexes.close {rest : List Char} (h : Lexes input false rest ts) :
    Lexes input operand (')' :: rest) (.closeBracket :: ts) := by
  have htake : take input operand ')' rest = .ok ⟨.closeBracket, false, rest⟩ := by
    cases operand <;> rfl
  exact Lexes.token (by decide) htake (Nat.le_refl _) h

theorem Lexes.comma {rest : List Char} (h : Lexes input true rest ts) :
    Lexes input false (',' :: ' ' :: rest) (.comma :: ts) := by
  have htake : take input false ',' (' ' :: rest) = .ok ⟨.comma, true, ' ' :: rest⟩ := rfl
  exact Lexes.token (by decide) htake (Nat.le_refl _) (Lexes.blank (by decide) h)

/-- An operator with a blank on each side. -/
theorem Lexes.operator (o : Operator) {rest : List Char} (h : Lexes input true rest ts) :
    Lexes input false (' ' :: (o.write ++ ' ' :: rest)) (.op o :: ts) := by
  have hrest : Lexes input true (' ' :: rest) ts := Lexes.blank (by decide) h
  refine Lexes.blank (by decide) ?_
  have htake : ∃ c more, o.write ++ ' ' :: rest = c :: (more ++ ' ' :: rest) ∧
      Text.isBlank c = false ∧
      take input false c (more ++ ' ' :: rest) = .ok ⟨.op o, true, ' ' :: rest⟩ := by
    cases o with
    | or => exact ⟨'o', ['r'], rfl, by decide, rfl⟩
    | and => exact ⟨'a', ['n', 'd'], rfl, by decide, rfl⟩
    | eq => exact ⟨'=', [], rfl, by decide, rfl⟩
    | ne => exact ⟨'!', ['='], rfl, by decide, rfl⟩
    | lt => exact ⟨'<', [], rfl, by decide, rfl⟩
    | le => exact ⟨'<', ['='], rfl, by decide, rfl⟩
    | gt => exact ⟨'>', [], rfl, by decide, rfl⟩
    | ge => exact ⟨'>', ['='], rfl, by decide, rfl⟩
    | add => exact ⟨'+', [], rfl, by decide, rfl⟩
    | sub => exact ⟨'-', [], rfl, by decide, rfl⟩
    | mul => exact ⟨'*', [], rfl, by decide, rfl⟩
    | div => exact ⟨'d', ['i', 'v'], rfl, by decide, rfl⟩
    | mod => exact ⟨'m', ['o', 'd'], rfl, by decide, rfl⟩
  rcases htake with ⟨c, more, hwrite, hblank, htake⟩
  rw [hwrite]
  refine Lexes.token hblank htake ?_ hrest
  rw [List.length_append]
  exact Nat.le_add_left _ _

/-- The name of a function with the bracket after it. -/
theorem Lexes.call (f : FunctionName) {rest : List Char} (h : Lexes input true rest ts) :
    Lexes input true (f.first :: (f.others ++ '(' :: rest))
      (.call f.name :: .openBracket :: ts) := by
  have hstart : isNameChar f.first = true := by
    have hfirst := f.starts
    rw [isNameStart, Bool.or_eq_true] at hfirst
    rcases hfirst with hletter | hline
    · simp [isNameChar, Text.isAlphanumeric, hletter]
    · simp [isNameChar, of_decide_eq_true hline]
  have hchars : ∀ c ∈ f.first :: f.others, isNameChar c = true :=
    List.forall_mem_cons.mpr ⟨hstart, f.goes_on⟩
  have hstop : ∀ c ∈ ('(' :: rest).head?, isNameChar c = false := by
    intro c hc
    cases hc
    decide
  rcases takeWhile_append_stop hchars hstop with ⟨htake, hdrop⟩
  have hname : take input true f.first (f.others ++ '(' :: rest) =
      .ok ⟨.call f.name, true, '(' :: rest⟩ := by
    show takeOperand input f.first (f.others ++ '(' :: rest) = _
    rw [takeOperand_name f.starts, ← List.cons_append, takeName]
    simp only [htake, hdrop]
    rfl
  refine Lexes.token (not_isBlank_of_isNameStart f.starts) hname ?_ h.openBracket
  rw [List.length_append]
  exact Nat.le_add_left _ _

end ExprToken

/-! ## Phrases -/

namespace Phrase

open ExprToken

variable {input : String}

-- The induction is on the phrase with anything after it: what a case hands on as the rest is how
-- the text goes on inside the phrase, and that never changes where an operand ends.
mutual

/-- The text of a phrase is cut into its tokens, with anything after it that may come there. -/
theorem lexes_write : ∀ (t : Phrase) (level : Nat) {rest : List Char} {ts : List ExprToken},
    Ends rest → Lexes input false rest ts →
    Lexes input true (t.write level ++ rest) (t.tokens level ++ ts)
  | numeral n, _, _, _, hrest, h => by
    rw [write, tokens]
    exact lexes_numeral n hrest h
  | literal l, _, _, _, _, h => by
    rw [write, tokens]
    exact lexes_literal l h
  | var x, _, _, _, hrest, h => by
    rw [write, tokens]
    exact lexes_var x hrest h
  | path p, _, _, _, hrest, h => by
    rw [write, tokens]
    exact lexes_path p hrest h
  | neg t, _, _, _, hrest, h => by
    rw [write, tokens]
    exact Lexes.opening (by decide) rfl (lexes_write t operandLevel hrest h)
  | bracketed t, _, rest, _, _, h => by
    have hinner := lexes_write t 0 (ends_close rest) h.close
    rw [write, tokens, List.cons_append, List.cons_append, List.append_assoc, List.append_assoc]
    exact hinner.openBracket
  | binary o left right, level, rest, ts, hrest, h => by
    have hsides : ∀ {after : List Char} {us : List ExprToken}, Ends after →
        Lexes input false after us → Lexes input true
          (left.write o.precedence ++
            (' ' :: (o.write ++ ' ' :: right.write (o.precedence + 1))) ++ after)
          (left.tokens o.precedence ++ .op o :: right.tokens (o.precedence + 1) ++ us) := by
      intro after us hafter hus
      have hright := lexes_write right (o.precedence + 1) hafter hus
      have hleft := lexes_write left o.precedence (ends_operator o _) (hright.operator o)
      simpa using hleft
    rw [write, tokens]
    cases hasked : decide (o.precedence < level) with
    | false => exact hsides hrest h
    | true =>
      have hinner := hsides (ends_close rest) h.close
      have hopen := hinner.openBracket
      simpa [enclose] using hopen
  | call f [], _, rest, ts, _, h => by
    have hclose : Lexes input true (')' :: rest) (.closeBracket :: ts) := h.close
    have hcall := Lexes.call f hclose
    rw [write, tokens]
    simpa using hcall
  | call f (arg :: args), _, rest, ts, _, h => by
    rcases lexes_writeMore args h with ⟨hends, hmore⟩
    have hcall := Lexes.call f (lexes_write arg 0 hends hmore)
    rw [write, tokens]
    simpa using hcall

/-- So are the arguments after the first. -/
theorem lexes_writeMore : ∀ (args : List Phrase) {rest : List Char} {ts : List ExprToken},
    Lexes input false rest ts →
    Ends (writeMore args ++ ')' :: rest) ∧
      Lexes input false (writeMore args ++ ')' :: rest) (tokensMore args ++ .closeBracket :: ts)
  | [], rest, ts, h => by
    rw [writeMore, tokensMore]
    exact ⟨ends_close rest, h.close⟩
  | arg :: args, rest, ts, h => by
    rcases lexes_writeMore args h with ⟨hends, hmore⟩
    have harg := lexes_write arg 0 hends hmore
    rw [writeMore, tokensMore]
    refine ⟨ends_comma _, ?_⟩
    have hcomma := harg.comma
    simpa using hcomma

end

end Phrase

end MarkupScript
