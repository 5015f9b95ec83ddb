import MarkupScript.Proofs.Expression.Lexing

/-!
# Phrases are read back

The reader goes from operator to operator with the least precedence that it still takes. A phrase
at a level has no operator outside brackets that binds weaker than the level, so whoever looks for
operators at or below that level reads all of it, and goes on with what comes after.

* `Expr.ReadsOperand`: tokens are read as one operand.
* `Expr.TakesPrimary`, `operatorsFrom_inv` and others: what a reader can have taken.
* `Phrase.ReadsBack`: the tokens of a phrase are read as its expression, up to the operators
  after it.
* `Phrase.reads`: both hold of every phrase.
* `parse_text`: a phrase is read from its text as the expression that it means, with and without
  the brackets that nothing asks for.
-/

namespace MarkupScript

namespace Expr

/-- Operators that bind weaker than `least` are left to whoever asked. -/
theorem operatorsFrom_stop {least : Nat} {rest : List ExprToken}
    (hrest : ∀ o more, rest = .op o :: more → o.precedence < least) (left : Expr) {fuel : Nat}
    (hfuel : 1 ≤ fuel) : operatorsFrom fuel least left rest = .ok (left, rest) := by
  rcases fuel with _ | fuel
  · omega
  rcases rest with _ | ⟨token, more⟩
  · rw [operatorsFrom]
    rintro _ _ ⟨⟩
  · cases token
    case op o => rw [operatorsFrom, if_pos (hrest o more rfl)]
    all_goals
      rw [operatorsFrom]
      rintro _ _ ⟨⟩

/-- What is no operator is left too. -/
theorem operatorsFrom_end {rest : List ExprToken} (hrest : ∀ o more, rest ≠ .op o :: more)
    (least : Nat) (left : Expr) {fuel : Nat} (hfuel : 1 ≤ fuel) :
    operatorsFrom fuel least left rest = .ok (left, rest) := by
  refine operatorsFrom_stop ?_ left hfuel
  intro o more heq
  exact absurd heq (hrest o more)

/-- An operator that binds strongly enough is taken with its right operand. -/
theorem operatorsFrom_op {least : Nat} {o : Operator} (hleast : least ≤ o.precedence)
    {fuel : Nat} {right : Expr} {tokens rest : List ExprToken}
    (hright : binaryFrom fuel (o.precedence + 1) tokens = .ok (right, rest)) (left : Expr) :
    operatorsFrom (fuel + 1) least left (.op o :: tokens) =
      operatorsFrom fuel least (.binary o left right) rest := by
  rw [operatorsFrom, if_neg (Nat.not_lt.mpr hleast), hright]
  rfl

/-! ## Operands -/

/-- The tokens are read as one operand, whatever comes after them. -/
def ReadsOperand (tokens : List ExprToken) (e : Expr) : Prop :=
  ∀ fuel rest, 4 * tokens.length ≤ fuel + 2 → unaryFrom fuel (tokens ++ rest) = .ok (e, rest)

/-- The tokens are read as an expression up to a token that is no operator. -/
def ReadsClosed (tokens : List ExprToken) (e : Expr) : Prop :=
  ∀ fuel rest, 4 * tokens.length + 1 ≤ fuel → (∀ o more, rest ≠ .op o :: more) →
    binaryFrom fuel 0 (tokens ++ rest) = .ok (e, rest)

theorem unaryFrom_primary {token : ExprToken} (h : token ≠ .neg) (fuel : Nat)
    (rest : List ExprToken) :
    unaryFrom (fuel + 1) (token :: rest) = primaryFrom fuel (token :: rest) := by
  rw [unaryFrom]
  rintro more heq
  exact h (List.cons.inj heq).1

theorem readsOperand_single {token : ExprToken} {e : Expr} (hneg : token ≠ .neg)
    (h : ∀ fuel rest, primaryFrom (fuel + 1) (token :: rest) = .ok (e, rest)) :
    ReadsOperand [token] e := by
  intro fuel rest hfuel
  rw [List.length_singleton] at hfuel
  rcases fuel with _ | _ | fuel
  · omega
  · omega
  · rw [List.singleton_append, unaryFrom_primary hneg, h]

theorem readsOperand_path {source : String} {p : Path} (h : Path.parse source = .ok p) :
    ReadsOperand [.path source] (.path p) := by
  refine readsOperand_single (by simp) ?_
  intro fuel rest
  rw [primaryFrom, h]
  rfl

theorem ReadsOperand.neg {tokens : List ExprToken} {e : Expr} (h : ReadsOperand tokens e) :
    ReadsOperand (.neg :: tokens) (.neg e) := by
  intro fuel rest hfuel
  rw [List.length_cons] at hfuel
  rcases fuel with _ | fuel
  · omega
  · rw [List.cons_append, unaryFrom, h fuel rest (by omega)]
    rfl

/-- Brackets make an operand of an expression. -/
theorem ReadsClosed.bracket {tokens : List ExprToken} {e : Expr} (h : ReadsClosed tokens e) :
    ReadsOperand (.openBracket :: (tokens ++ [.closeBracket])) e := by
  intro fuel rest hfuel
  rw [List.length_cons, List.length_append, List.length_singleton] at hfuel
  rcases fuel with _ | _ | fuel
  · omega
  · omega
  · have hinner := h fuel (.closeBracket :: rest) (by omega) (by rintro _ _ ⟨⟩)
    rw [List.cons_append, List.append_assoc, List.singleton_append, unaryFrom_primary (by simp),
      primaryFrom, hinner]
    rfl

/-- After an operand the reader goes on with the operators. -/
theorem ReadsOperand.binary {tokens : List ExprToken} {e : Expr} (h : ReadsOperand tokens e)
    (hne : tokens ≠ []) {least bound fuel : Nat} {rest : List ExprToken}
    {result : Except ExpressionFault (Parsed Expr)}
    (hrest : ∀ n, bound ≤ n → operatorsFrom n least e rest = result)
    (hfuel : bound + 4 * tokens.length ≤ fuel) :
    binaryFrom fuel least (tokens ++ rest) = result := by
  have hpos := List.length_pos_iff.mpr hne
  rcases fuel with _ | fuel
  · omega
  · rw [binaryFrom, h fuel rest (by omega)]
    exact hrest fuel (by omega)

theorem ReadsOperand.closed {tokens : List ExprToken} {e : Expr} (h : ReadsOperand tokens e)
    (hne : tokens ≠ []) : ReadsClosed tokens e := by
  intro fuel rest hfuel hrest
  have hend : ∀ n, 1 ≤ n → operatorsFrom n 0 e rest = .ok (e, rest) := by
    intro n hn
    exact operatorsFrom_end hrest 0 e hn
  exact h.binary hne hend (by omega)

/-- A text is read as an expression if all of its tokens are. -/
theorem ReadsClosed.parse {text : String} {tokens : List ExprToken} {e : Expr}
    (h : ReadsClosed tokens e) (htokens : ExprToken.lex text = .ok tokens) :
    Expr.parse text = .ok e := by
  have hread := h (4 * tokens.length + 4) [] (by omega) (by rintro _ _ ⟨⟩)
  rw [List.append_nil] at hread
  rw [Expr.parse, htokens]
  show (binaryFrom (4 * tokens.length + 4) 0 tokens >>= _) = _
  rw [hread]
  rfl

/-! ## Calls -/

/-- The tokens are read as the arguments of a call, with its closing bracket. -/
def ReadsArguments (tokens : List ExprToken) (args : List Expr) : Prop :=
  ∀ fuel name rest, 4 * tokens.length + 2 ≤ fuel →
    argumentsFrom fuel name (tokens ++ .closeBracket :: rest) = .ok (args, rest)

theorem ReadsClosed.lastArgument {tokens : List ExprToken} {e : Expr} (h : ReadsClosed tokens e) :
    ReadsArguments tokens [e] := by
  intro fuel name rest hfuel
  rcases fuel with _ | fuel
  · omega
  · rw [argumentsFrom, h fuel _ (by omega) (by rintro _ _ ⟨⟩)]
    rfl

theorem ReadsClosed.argument {tokens more : List ExprToken} {e : Expr} {args : List Expr}
    (h : ReadsClosed tokens e) (hmore : ReadsArguments more args) :
    ReadsArguments (tokens ++ .comma :: more) (e :: args) := by
  intro fuel name rest hfuel
  rw [List.length_append, List.length_cons] at hfuel
  rcases fuel with _ | fuel
  · omega
  · rw [List.append_assoc, argumentsFrom, h fuel _ (by omega) (by rintro _ _ ⟨⟩)]
    show (argumentsFrom fuel name (more ++ .closeBracket :: rest) >>= _) = _
    rw [hmore fuel name rest (by omega)]
    rfl

theorem readsOperand_call_nil (name : String) :
    ReadsOperand [.call name, .openBracket, .closeBracket] (.call name []) := by
  intro fuel rest hfuel
  simp only [List.length_cons, List.length_nil] at hfuel
  rcases fuel with _ | _ | fuel
  · omega
  · omega
  · rw [List.cons_append, unaryFrom_primary (by simp)]
    rfl

theorem ReadsArguments.call {token : ExprToken} {tokens : List ExprToken} {args : List Expr}
    (h : ReadsArguments (token :: tokens) args) (hopen : token ≠ .closeBracket) (name : String) :
    ReadsOperand (.call name :: .openBracket :: (token :: tokens ++ [.closeBracket]))
      (.call name args) := by
  intro fuel rest hfuel
  simp only [List.length_cons, List.length_append, List.length_nil] at hfuel
  rcases fuel with _ | _ | fuel
  · omega
  · omega
  · have hargs := h fuel name rest (by rw [List.length_cons]; omega)
    rw [List.cons_append, List.cons_append, List.append_assoc, List.singleton_append,
      unaryFrom_primary (by simp), primaryFrom, hargs]
    · rfl
    · intro more hclose
      exact hopen (List.cons.inj hclose).1

/-! ## What is taken -/

variable {fuel least : Nat} {tokens rest : List ExprToken} {e : Expr}

/-- The readers of operators stop, or take an operator with its right operand and go on. -/
theorem operatorsFrom_inv {left : Expr}
    (h : operatorsFrom (fuel + 1) least left tokens = .ok (e, rest)) :
    (e = left ∧ rest = tokens) ∨
      ∃ o more right after, tokens = .op o :: more ∧
        binaryFrom fuel (o.precedence + 1) more = .ok (right, after) ∧
        operatorsFrom fuel least (.binary o left right) after = .ok (e, rest) := by
  by_cases hop : ∃ o more, tokens = .op o :: more
  · rcases hop with ⟨o, more, rfl⟩
    rw [operatorsFrom] at h
    split at h
    · cases h
      exact Or.inl ⟨rfl, rfl⟩
    · rcases bind_eq_ok h with ⟨⟨right, after⟩, hright, h⟩
      exact Or.inr ⟨o, more, right, after, rfl, hright, h⟩
  · have hstop : ∀ o more, tokens ≠ .op o :: more := by
      intro o more heq
      exact hop ⟨o, more, heq⟩
    rw [operatorsFrom_end hstop least left (by omega)] at h
    cases h
    exact Or.inl ⟨rfl, rfl⟩

theorem unaryFrom_inv (h : unaryFrom (fuel + 1) tokens = .ok (e, rest)) :
    (∃ more operand, tokens = .neg :: more ∧ unaryFrom fuel more = .ok (operand, rest) ∧
      e = .neg operand) ∨ primaryFrom fuel tokens = .ok (e, rest) := by
  by_cases hneg : ∃ more, tokens = .neg :: more
  · rcases hneg with ⟨more, rfl⟩
    rw [unaryFrom] at h
    rcases bind_eq_ok h with ⟨⟨operand, after⟩, hoperand, h⟩
    cases h
    exact Or.inl ⟨more, operand, rfl, hoperand, rfl⟩
  · rw [unaryFrom] at h
    · exact Or.inr h
    · intro more heq
      exact hneg ⟨more, heq⟩

/-- The ways to take an operand from the front of some tokens. -/
inductive TakesPrimary (fuel : Nat) : List ExprToken → Expr → List ExprToken → Prop
  | number (x : Float) (rest : List ExprToken) :
      TakesPrimary fuel (.number x :: rest) (.number x) rest
  | text (s : String) (rest : List ExprToken) : TakesPrimary fuel (.text s :: rest) (.text s) rest
  | var (name : String) (rest : List ExprToken) :
      TakesPrimary fuel (.var name :: rest) (.var name) rest
  | path {source : String} {p : Path} (rest : List ExprToken) (h : Path.parse source = .ok p) :
      TakesPrimary fuel (.path source :: rest) (.path p) rest
  | bracket {inner rest : List ExprToken} {e : Expr}
      (h : binaryFrom fuel 0 inner = .ok (e, .closeBracket :: rest)) :
      TakesPrimary fuel (.openBracket :: inner) e rest
  | constant (name : String) (rest : List ExprToken) :
      TakesPrimary fuel (.call name :: .openBracket :: .closeBracket :: rest) (.call name []) rest
  | call {name : String} {inner rest : List ExprToken} {args : List Expr}
      (h : argumentsFrom fuel name inner = .ok (args, rest)) :
      TakesPrimary fuel (.call name :: .openBracket :: inner) (.call name args) rest

theorem primaryFrom_inv (h : primaryFrom (fuel + 1) tokens = .ok (e, rest)) :
    TakesPrimary fuel tokens e rest := by
  rcases tokens with _ | ⟨token, more⟩
  · rw [primaryFrom] at h
    cases h
  · cases token
    case number x =>
      cases h
      exact .number x rest
    case text s =>
      cases h
      exact .text s rest
    case var name =>
      cases h
      exact .var name rest
    case path source =>
      rw [primaryFrom] at h
      rcases bind_eq_ok h with ⟨p, hp, h⟩
      cases h
      exact .path rest hp
    case openBracket =>
      rw [primaryFrom] at h
      rcases bind_eq_ok h with ⟨⟨inner, after⟩, hinner, h⟩
      rcases after with _ | ⟨close, after⟩
      · cases h
      · cases close <;> cases h
        exact .bracket hinner
    case call name =>
      unfold primaryFrom at h
      dsimp only at h
      split at h
      · cases h
        exact .constant name _
      · rcases bind_eq_ok h with ⟨⟨args, after⟩, hargs, h⟩
        cases h
        exact .call hargs
      · cases h
    all_goals simp [primaryFrom] at h

/-- An argument is the last, or a comma and others follow. -/
theorem argumentsFrom_inv {name : String} {args : List Expr}
    (h : argumentsFrom (fuel + 1) name tokens = .ok (args, rest)) :
    ∃ arg, (binaryFrom fuel 0 tokens = .ok (arg, .closeBracket :: rest) ∧ args = [arg]) ∨
      ∃ more others, binaryFrom fuel 0 tokens = .ok (arg, .comma :: more) ∧
        argumentsFrom fuel name more = .ok (others, rest) ∧ args = arg :: others := by
  rw [argumentsFrom] at h
  rcases bind_eq_ok h with ⟨⟨arg, after⟩, harg, h⟩
  refine ⟨arg, ?_⟩
  rcases after with _ | ⟨token, more⟩
  · cases h
  · cases token
    case closeBracket =>
      cases h
      exact Or.inl ⟨harg, rfl⟩
    case comma =>
      rcases bind_eq_ok h with ⟨⟨others, after⟩, hothers, h⟩
      cases h
      exact Or.inr ⟨more, others, harg, hothers, rfl⟩
    all_goals cases h

end Expr

/-! ## Phrases -/

namespace Phrase

open MarkupScript.Expr

/-- The tokens of a phrase at a level are read as its expression, by whoever takes operators from
that level on or from a weaker one, and what is read then is as if the expression stood there. The
operators after it bind no stronger than the level. -/
def ReadsBack (t : Phrase) : Prop :=
  ∀ (level least bound fuel : Nat) (rest : List ExprToken)
    (result : Except ExpressionFault (Parsed Expr)), least ≤ level →
    (∀ o more, rest = .op o :: more → o.precedence ≤ level) →
    (∀ n, bound ≤ n → operatorsFrom n least t.expr rest = result) →
    bound + 4 * (t.tokens level).length ≤ fuel →
    binaryFrom fuel least (t.tokens level ++ rest) = result

theorem ReadsBack.closed {t : Phrase} (h : t.ReadsBack) : ReadsClosed (t.tokens 0) t.expr := by
  intro fuel rest hfuel hrest
  refine h 0 0 1 fuel rest _ (Nat.le_refl 0) ?_ ?_ (by omega)
  · intro o more heq
    exact absurd heq (hrest o more)
  · intro n hn
    exact operatorsFrom_end hrest 0 t.expr hn

/-- What a phrase starts with. -/
theorem tokens_head : ∀ (t : Phrase) (level : Nat),
    ∃ token more, t.tokens level = token :: more ∧ token ≠ .closeBracket
  | numeral n, _ => ⟨_, _, by rw [tokens], by simp⟩
  | literal l, _ => ⟨_, _, by rw [tokens], by simp⟩
  | var x, _ => ⟨_, _, by rw [tokens], by simp⟩
  | path p, _ => ⟨_, _, by rw [tokens], by simp⟩
  | neg t, _ => ⟨_, _, by rw [tokens], by simp⟩
  | call f [], _ => ⟨_, _, by rw [tokens], by simp⟩
  | call f (arg :: args), _ => ⟨_, _, by rw [tokens], by simp⟩
  | bracketed t, _ => ⟨_, _, by rw [tokens], by simp⟩
  | binary o left right, level => by
    rcases tokens_head left o.precedence with ⟨token, more, hleft, hne⟩
    rw [tokens, hleft]
    cases decide (o.precedence < level) with
    | false => exact ⟨token, _, rfl, hne⟩
    | true => exact ⟨.openBracket, _, rfl, by simp⟩

/-- A phrase that is one operand at all levels. -/
theorem reads_of_operand {t : Phrase} (hlevel : ∀ level, t.tokens level = t.tokens operandLevel)
    (h : ReadsOperand (t.tokens operandLevel) t.expr) :
    ReadsOperand (t.tokens operandLevel) t.expr ∧ t.ReadsBack := by
  refine ⟨h, ?_⟩
  intro level least bound fuel rest result _ _ hrest hfuel
  rcases tokens_head t operandLevel with ⟨token, more, htokens, -⟩
  rw [hlevel] at hfuel ⊢
  exact h.binary (by rw [htokens]; simp) hrest hfuel

section Binary

variable {o : Operator} {left right : Phrase} (hleft : left.ReadsBack) (hright : right.ReadsBack)

include hleft hright

/-- Two operands and the operator between them, without brackets. -/
theorem binaryFrom_sides {level least bound fuel : Nat} {rest : List ExprToken}
    {result : Except ExpressionFault (Parsed Expr)} (hlevel : level ≤ o.precedence)
    (hleast : least ≤ level) (hrest : ∀ p more, rest = .op p :: more → p.precedence ≤ level)
    (hresult : ∀ n, bound ≤ n →
      operatorsFrom n least (.binary o left.expr right.expr) rest = result)
    (hfuel : bound + 4 * (left.tokens o.precedence ++
      .op o :: right.tokens (o.precedence + 1)).length ≤ fuel) :
    binaryFrom fuel least
      (left.tokens o.precedence ++ .op o :: right.tokens (o.precedence + 1) ++ rest) = result := by
  rw [List.length_append, List.length_cons] at hfuel
  rw [List.append_assoc, List.cons_append]
  -- The left operand is read up to the operator, and that takes the right one. The reader of the
  -- right one stops at what comes after, since it binds no stronger than the operator.
  refine hleft o.precedence least (bound + 4 * (right.tokens (o.precedence + 1)).length + 2) fuel _
    result (by omega) ?_ ?_ (by omega)
  · intro p more heq
    cases heq
    exact Nat.le_refl _
  · intro n hn
    rcases n with _ | n
    · omega
    · have hoperand : binaryFrom n (o.precedence + 1)
          (right.tokens (o.precedence + 1) ++ rest) = .ok (right.expr, rest) := by
        refine hright (o.precedence + 1) (o.precedence + 1) 1 n rest _ (Nat.le_refl _) ?_ ?_
          (by omega)
        · intro p more heq
          have hp := hrest p more heq
          omega
        · intro m hm
          refine operatorsFrom_stop ?_ right.expr hm
          intro p more heq
          have hp := hrest p more heq
          omega
      rw [operatorsFrom_op (by omega) hoperand]
      exact hresult n (by omega)

/-- The same in brackets. -/
theorem readsOperand_sides : ReadsOperand
    (.openBracket :: (left.tokens o.precedence ++ .op o :: right.tokens (o.precedence + 1) ++
      [.closeBracket])) (.binary o left.expr right.expr) := by
  refine ReadsClosed.bracket ?_
  intro fuel rest hfuel hrest
  refine binaryFrom_sides hleft hright (Nat.zero_le _) (Nat.le_refl 0) ?_ ?_
    (Nat.le_trans (Nat.le_of_eq (Nat.add_comm 1 _)) hfuel)
  · intro p more heq
    exact absurd heq (hrest p more)
  · intro n hn
    exact operatorsFrom_end hrest 0 _ hn

end Binary

mutual

/-- Every phrase is read back, and as one operand at the strongest level. -/
theorem reads : ∀ t : Phrase, ReadsOperand (t.tokens operandLevel) t.expr ∧ t.ReadsBack
  | numeral n => by
    refine reads_of_operand (fun level => by rw [tokens, tokens]) ?_
    rw [tokens, expr]
    exact readsOperand_single (by simp) fun fuel rest => by rw [primaryFrom]
  | literal l => by
    refine reads_of_operand (fun level => by rw [tokens, tokens]) ?_
    rw [tokens, expr]
    exact readsOperand_single (by simp) fun fuel rest => by rw [primaryFrom]
  | var x => by
    refine reads_of_operand (fun level => by rw [tokens, tokens]) ?_
    rw [tokens, expr]
    exact readsOperand_single (by simp) fun fuel rest => by rw [primaryFrom]
  | path p => by
    have hparse : Path.parse (String.ofList p.write) = .ok p.path :=
      Path.parse_write p.plain p.may_bare
    refine reads_of_operand (fun level => by rw [tokens, tokens]) ?_
    rw [tokens, expr]
    exact readsOperand_path hparse
  | neg t => by
    refine reads_of_operand (fun level => by rw [tokens, tokens]) ?_
    rw [tokens, expr]
    exact (reads t).1.neg
  | bracketed t => by
    refine reads_of_operand (fun level => by rw [tokens, tokens]) ?_
    rw [tokens, expr]
    exact (reads t).2.closed.bracket
  | call f [] => by
    refine reads_of_operand (fun level => by rw [tokens, tokens]) ?_
    rw [tokens, expr, exprAll]
    exact readsOperand_call_nil f.name
  | call f (arg :: args) => by
    rcases tokens_head arg 0 with ⟨token, more, htoken, hopen⟩
    have hargs := readsArguments (reads arg).2.closed args
    refine reads_of_operand (fun level => by rw [tokens, tokens]) ?_
    rw [tokens, expr, exprAll, ← List.append_assoc]
    rw [htoken, List.cons_append] at hargs ⊢
    exact hargs.call hopen f.name
  | binary o left right => by
    have hleft := (reads left).2
    have hright := (reads right).2
    have hbrackets := readsOperand_sides (o := o) hleft hright
    constructor
    · -- Where an operand is expected every operator stands in brackets.
      have hasked : decide (o.precedence < operandLevel) = true := by
        cases o <;> decide
      rw [tokens, expr, hasked]
      exact hbrackets
    · intro level least bound fuel rest result hleast hrest hresult hfuel
      rw [tokens] at hfuel ⊢
      rw [expr] at hresult
      cases hasked : decide (o.precedence < level) with
      | true =>
        rw [hasked] at hfuel
        exact hbrackets.binary (by simp) hresult hfuel
      | false =>
        rw [hasked] at hfuel
        have hlevel := Nat.not_lt.mp (of_decide_eq_false hasked)
        exact binaryFrom_sides hleft hright hlevel hleast hrest hresult hfuel

theorem readsArguments {arg : Phrase} (harg : ReadsClosed (arg.tokens 0) arg.expr) :
    ∀ args : List Phrase,
      ReadsArguments (arg.tokens 0 ++ tokensMore args) (arg.expr :: exprAll args)
  | [] => by
    rw [tokensMore, exprAll, List.append_nil]
    exact harg.lastArgument
  | next :: args => by
    rw [tokensMore, exprAll]
    exact harg.argument (readsArguments (reads next).2.closed args)

end

/-- A phrase is read from its text as the expression that it means. The text has the brackets that
precedence and grouping to the left ask for, and may have others, which change nothing. -/
theorem parse_text (t : Phrase) :
    Expr.parse t.text = .ok t.expr ∧ Expr.parse t.plain.text = .ok t.expr := by
  have hparse : ∀ s : Phrase, Expr.parse s.text = .ok s.expr := by
    intro s
    have hlex : ExprToken.lex s.text = .ok (s.tokens 0) := by
      have hwrite : ExprToken.Lexes s.text true (s.write 0 ++ []) (s.tokens 0 ++ []) :=
        lexes_write s 0 ExprToken.ends_nil ExprToken.Lexes.nil
      rw [List.append_nil, List.append_nil] at hwrite
      rw [ExprToken.lex, text, String.toList_ofList]
      exact hwrite _ (Nat.le_refl _)
    exact (reads s).2.closed.parse hlex
  refine ⟨hparse t, ?_⟩
  rw [hparse t.plain, expr_plain]

example (a b c : Numeral) :
    (binary .sub (numeral a) (neg (binary .mul (numeral b) (numeral c)))).write 0 =
      a.text ++ (' ' :: '-' :: ' ' :: '-' :: '(' ::
        (b.text ++ (' ' :: '*' :: ' ' :: c.text) ++ [')'])) :=
  rfl

end Phrase

end MarkupScript
