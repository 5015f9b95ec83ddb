import MarkupScript.Expression.Parser
import MarkupScript.Proofs.Expression.PathText

/-!
# Expressions as they are written

A phrase is an expression as it is written: its numbers and texts are spelled, and it may have
brackets that nothing asks for. Brackets that are asked for are put in by `Phrase.write`.

* `Numeral`, `Literal`, `VariableName`, `FunctionName`, `PathPhrase`: what a phrase is made of,
  each so that it can be written.
* `Phrase.write`, `Phrase.tokens`: the text of a phrase and its tokens, at a level of precedence.
* `Phrase.expr`: the expression that a phrase means.
* `Phrase.plain`: the phrase without brackets that nothing asks for.
-/

namespace MarkupScript

open ExprToken

/-! ## Numbers and texts -/

/-- Digits, and a point with digits after it or not. -/
structure Numeral where
  whole : List Char
  fraction : Option (List Char)
  whole_digits : ∀ c ∈ whole, Decimal.isDigit c = true
  fraction_digits : ∀ c ∈ fraction.getD [], Decimal.isDigit c = true
  /-- A point alone is no number. -/
  some_digit : whole ≠ [] ∨ fraction.getD [] ≠ []

namespace Numeral

def text (n : Numeral) : List Char :=
  n.whole ++ (n.fraction.map ('.' :: ·)).getD []

/-- The number that is read from the text. -/
def value (n : Numeral) : Float :=
  (Decimal.readChars? n.text).getD Decimal.notANumber

/-- The text starts with a digit, or with a point and a digit. -/
theorem text_head (n : Numeral) : ∃ c rest, n.text = c :: rest ∧
    (Decimal.isDigit c = true ∨
      c = '.' ∧ ∃ d more, rest = d :: more ∧ Decimal.isDigit d = true) := by
  rcases n with ⟨whole, fraction, hwhole, hfraction, hsome⟩
  rcases whole with _ | ⟨c, whole⟩
  · rcases fraction with _ | _ | ⟨d, more⟩
    · exact absurd hsome (by simp)
    · exact absurd hsome (by simp)
    · exact ⟨'.', d :: more, rfl, Or.inr ⟨rfl, d, more, rfl, hfraction d List.mem_cons_self⟩⟩
  · exact ⟨c, _, rfl, Or.inl (hwhole c List.mem_cons_self)⟩

theorem text_numberChars (n : Numeral) : ∀ c ∈ n.text, isNumberChar c = true := by
  rcases n with ⟨whole, fraction, hwhole, hfraction, hsome⟩
  have hdigit : ∀ c, Decimal.isDigit c = true → isNumberChar c = true := by
    intro c hc
    rw [isNumberChar, hc, Bool.true_or]
  intro c hc
  rcases List.mem_append.mp hc with hc | hc
  · exact hdigit c (hwhole c hc)
  · rcases fraction with _ | fraction
    · cases hc
    · rcases List.mem_cons.mp hc with rfl | hc
      · decide
      · exact hdigit c (hfraction c hc)

/-- Digits, a point and digits are read as a number if there is a digit. -/
theorem isSome_unsigned?_text (n : Numeral) : (Decimal.unsigned? n.text).isSome = true := by
  rcases n with ⟨whole, fraction, hwhole, hfraction, hsome⟩
  cases fraction with
  | none =>
    have hne : whole ≠ [] := by simpa using hsome
    have hsplit : (whole ++ []).takeWhile Decimal.isDigit = whole ∧
        (whole ++ []).dropWhile Decimal.isDigit = [] :=
      takeWhile_append_stop hwhole (by simp)
    show (Decimal.unsigned? (whole ++ [])).isSome = true
    rw [Decimal.unsigned?]
    simp only [hsplit.1, hsplit.2]
    rw [if_neg (by simp [hne])]
    rfl
  | some fraction =>
    have hpoint : (whole ++ '.' :: fraction).takeWhile Decimal.isDigit = whole ∧
        (whole ++ '.' :: fraction).dropWhile Decimal.isDigit = '.' :: fraction :=
      takeWhile_append_stop hwhole (by simp [Decimal.isDigit])
    have hdigits : (fraction ++ []).takeWhile Decimal.isDigit = fraction ∧
        (fraction ++ []).dropWhile Decimal.isDigit = [] :=
      takeWhile_append_stop hfraction (by simp)
    rw [List.append_nil] at hdigits
    show (Decimal.unsigned? (whole ++ '.' :: fraction)).isSome = true
    rw [Decimal.unsigned?]
    simp only [hpoint.1, hpoint.2, hdigits.1, hdigits.2]
    have hdigit : ¬ (whole.isEmpty && fraction.isEmpty) = true := by
      rw [Bool.and_eq_true, List.isEmpty_iff, List.isEmpty_iff]
      rintro ⟨hnone, hnone'⟩
      rcases hsome with hne | hne
      · exact hne hnone
      · exact hne hnone'
    rw [if_neg hdigit]
    rfl

/-- A numeral is a number. -/
theorem readChars?_text (n : Numeral) : Decimal.readChars? n.text = some n.value := by
  rcases Option.isSome_iff_exists.mp n.isSome_unsigned?_text with ⟨x, hx⟩
  have hsign : Decimal.takeSign n.text = (false, n.text) := by
    rcases n.text_head with ⟨c, rest, htext, hc⟩
    rw [htext, Decimal.takeSign]
    · rintro more ⟨⟩
      simp [Decimal.isDigit] at hc
    · rintro more ⟨⟩
      simp [Decimal.isDigit] at hc
  have hread : Decimal.readChars? n.text = some x := by
    rw [Decimal.readChars?, hsign]
    simp [hx]
  rw [value, hread, Option.getD_some]

end Numeral

/-- A text between quotes, with a mark that is not in the text. -/
structure Literal where
  text : String
  mark : Char
  mark_quotes : mark = '\'' ∨ mark = '"'
  mark_not_mem : mark ∉ text.toList

def Literal.write (l : Literal) : List Char :=
  l.mark :: (l.text.toList ++ [l.mark])

/-! ## Names and paths -/

/-- A variable with its dollar sign. -/
structure VariableName where
  name : String
  isVariable : IsVariable name.toList

/-- The name of a function. -/
structure FunctionName where
  first : Char
  others : List Char
  starts : isNameStart first = true
  goes_on : ∀ c ∈ others, isNameChar c = true

def FunctionName.name (f : FunctionName) : String :=
  String.ofList (f.first :: f.others)

/-- A path without predicates, with a slash in front of its first step or, where that can be
left out, without. -/
structure PathPhrase where
  path : Path
  bare : Bool
  plain : path.Plain
  may_bare : bare = true → path.Bare

def PathPhrase.write (p : PathPhrase) : List Char := p.path.write p.bare

/-! ## Phrases -/

/-- The text of an operator. -/
def Operator.write : Operator → List Char
  | or => ['o', 'r']
  | and => ['a', 'n', 'd']
  | eq => ['=']
  | ne => ['!', '=']
  | lt => ['<']
  | le => ['<', '=']
  | gt => ['>']
  | ge => ['>', '=']
  | add => ['+']
  | sub => ['-']
  | mul => ['*']
  | div => ['d', 'i', 'v']
  | mod => ['m', 'o', 'd']

/-- An expression as it is written. -/
inductive Phrase where
  | numeral (n : Numeral)
  | literal (l : Literal)
  | var (x : VariableName)
  | path (p : PathPhrase)
  | neg (t : Phrase)
  | binary (o : Operator) (left right : Phrase)
  | call (f : FunctionName) (args : List Phrase)
  /-- Brackets that nothing asks for. -/
  | bracketed (t : Phrase)

namespace Phrase

/-- Stronger than every operator. -/
def operandLevel : Nat := 7

/-- Puts brackets around what binds weaker than its place asks for. -/
def enclose {α : Type} (opening closing : α) (asked : Bool) (inner : List α) : List α :=
  if asked then opening :: (inner ++ [closing]) else inner

mutual

/-- Writes a phrase where an operator must bind at least as strongly as `level`, or else stand in
brackets. The left operand of an operator may bind as strongly as the operator, the right one
binds stronger. -/
def write (level : Nat) : Phrase → List Char
  | numeral n => n.text
  | literal l => l.write
  | var x => x.name.toList
  | path p => p.write
  | neg t => '-' :: write operandLevel t
  | binary o left right =>
    enclose '(' ')' (o.precedence < level)
      (write o.precedence left ++
        (' ' :: (o.write ++ ' ' :: write (o.precedence + 1) right)))
  | call f [] => f.first :: (f.others ++ ['(', ')'])
  | call f (arg :: args) =>
    f.first :: (f.others ++ '(' :: (write 0 arg ++ (writeMore args ++ [')'])))
  | bracketed t => '(' :: (write 0 t ++ [')'])

/-- Writes arguments after the first. -/
def writeMore : List Phrase → List Char
  | [] => []
  | arg :: args => ',' :: ' ' :: (write 0 arg ++ writeMore args)

end

mutual

/-- The tokens of what `write` writes. -/
def tokens (level : Nat) : Phrase → List ExprToken
  | numeral n => [.number n.value]
  | literal l => [.text l.text]
  | var x => [.var x.name]
  | path p => [.path (String.ofList p.write)]
  | neg t => .neg :: tokens operandLevel t
  | binary o left right =>
    enclose .openBracket .closeBracket (o.precedence < level)
      (tokens o.precedence left ++ .op o :: tokens (o.precedence + 1) right)
  | call f [] => [.call f.name, .openBracket, .closeBracket]
  | call f (arg :: args) =>
    .call f.name :: .openBracket :: (tokens 0 arg ++ (tokensMore args ++ [.closeBracket]))
  | bracketed t => .openBracket :: (tokens 0 t ++ [.closeBracket])

def tokensMore : List Phrase → List ExprToken
  | [] => []
  | arg :: args => .comma :: (tokens 0 arg ++ tokensMore args)

end

mutual

/-- The expression that a phrase means. -/
def expr : Phrase → Expr
  | numeral n => .number n.value
  | literal l => .text l.text
  | var x => .var x.name
  | path p => .path p.path
  | neg t => .neg (expr t)
  | binary o left right => .binary o (expr left) (expr right)
  | call f args => .call f.name (exprAll args)
  | bracketed t => expr t

def exprAll : List Phrase → List Expr
  | [] => []
  | t :: rest => expr t :: exprAll rest

end

mutual

/-- The phrase without brackets that nothing asks for. -/
def plain : Phrase → Phrase
  | numeral n => numeral n
  | literal l => literal l
  | var x => var x
  | path p => path p
  | neg t => neg (plain t)
  | binary o left right => binary o (plain left) (plain right)
  | call f args => call f (plainAll args)
  | bracketed t => plain t

def plainAll : List Phrase → List Phrase
  | [] => []
  | t :: rest => plain t :: plainAll rest

end

/-- The text of a phrase. -/
def text (t : Phrase) : String := String.ofList (t.write 0)

mutual

/-- Brackets that nothing asks for mean nothing. -/
theorem expr_plain : ∀ t : Phrase, t.plain.expr = t.expr
  | numeral n => by rw [plain]
  | literal l => by rw [plain]
  | var x => by rw [plain]
  | path p => by rw [plain]
  | neg t => by rw [plain, expr, expr_plain t, expr]
  | binary o left right => by rw [plain, expr, expr_plain left, expr_plain right, expr]
  | call f args => by rw [plain, expr, exprAll_plainAll args, expr]
  | bracketed t => by rw [plain, expr_plain t, expr]

theorem exprAll_plainAll : ∀ ts : List Phrase, exprAll (plainAll ts) = exprAll ts
  | [] => by rw [plainAll]
  | t :: rest => by rw [plainAll, exprAll, expr_plain t, exprAll_plainAll rest, exprAll]

end

end Phrase

end MarkupScript
