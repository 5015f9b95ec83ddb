import MarkupScript.Expression.Eval
import MarkupScript.Proofs.Expression.Parsing
import MarkupScript.Proofs.Script.Units

/-!
# The ways to ask for an expression

An expression is asked for as a value, as a condition or as a set of annotations. Each way reads
the same operand in its own manner.

* `Expr.inBrackets`: tokens in any number of brackets.
* `parse_eq_path_iff`: an expression that is read as a path is a path in brackets.
* `View.StartsEmpty`: an expression is an attribute path, and its first value is empty.
* `truth_eq`: where the readings of an operand agree.
* `readings_agree`: all ways fail alike, or they agree but for that one kind of expression.
-/

namespace MarkupScript

namespace Expr

/-! ## Paths in brackets -/

/-- Tokens in `n` pairs of brackets. -/
def inBrackets (tokens : List ExprToken) : Nat → List ExprToken
  | 0 => tokens
  | n + 1 => .openBracket :: (inBrackets tokens n ++ [.closeBracket])

/-- With an operator after it an operand becomes a binary expression. -/
theorem operatorsFrom_cases {fuel least : Nat} {left e : Expr} {tokens rest : List ExprToken}
    (h : operatorsFrom fuel least left tokens = .ok (e, rest)) :
    (e = left ∧ rest = tokens) ∨ ∃ o l r, e = .binary o l r := by
  induction fuel generalizing left tokens with
  | zero =>
    rw [operatorsFrom] at h
    cases h
  | succ fuel ih =>
    rcases operatorsFrom_inv h with hstop | ⟨o, more, right, after, rfl, -, h⟩
    · exact Or.inl hstop
    · rcases ih h with ⟨rfl, -⟩ | hbinary
      · exact Or.inr ⟨o, left, right, rfl⟩
      · exact Or.inr hbinary

theorem binaryFrom_eq_path {fuel least : Nat} {tokens rest : List ExprToken} {p : Path}
    (h : binaryFrom (fuel + 1) least tokens = .ok (.path p, rest)) :
    unaryFrom fuel tokens = .ok (.path p, rest) := by
  rw [binaryFrom] at h
  rcases bind_eq_ok h with ⟨⟨left, after⟩, hleft, h⟩
  rcases operatorsFrom_cases h with ⟨hpath, hrest⟩ | ⟨o, l, r, hbinary⟩
  · rw [hleft, hpath, hrest]
  · cases hbinary

theorem unaryFrom_eq_path {fuel : Nat} {tokens rest : List ExprToken} {p : Path}
    (h : unaryFrom (fuel + 1) tokens = .ok (.path p, rest)) :
    primaryFrom fuel tokens = .ok (.path p, rest) := by
  rcases unaryFrom_inv h with ⟨more, operand, -, -, hneg⟩ | hprimary
  · cases hneg
  · exact hprimary

/-- A path is read from its token or out of a bracket. -/
theorem primaryFrom_eq_path {fuel : Nat} {tokens rest : List ExprToken} {p : Path}
    (h : primaryFrom (fuel + 1) tokens = .ok (.path p, rest)) :
    (∃ source, tokens = .path source :: rest ∧ Path.parse source = .ok p) ∨
      ∃ inner, tokens = .openBracket :: inner ∧
        binaryFrom fuel 0 inner = .ok (.path p, .closeBracket :: rest) := by
  cases primaryFrom_inv h with
  | path _ hp => exact Or.inl ⟨_, rfl, hp⟩
  | bracket hinner => exact Or.inr ⟨_, rfl, hinner⟩

/-- What is read as a path is a path in brackets. -/
theorem inBrackets_of_binaryFrom {fuel least : Nat} {tokens rest : List ExprToken} {p : Path}
    (h : binaryFrom fuel least tokens = .ok (.path p, rest)) :
    ∃ source n, tokens = inBrackets [.path source] n ++ rest ∧ Path.parse source = .ok p := by
  -- A bracket takes three calls, from one operand to the next inside.
  induction fuel using Nat.strongRecOn generalizing least tokens rest with
  | ind fuel ih =>
    rcases fuel with _ | _ | _ | fuel
    · rw [binaryFrom] at h
      cases h
    · have hunary := binaryFrom_eq_path h
      rw [unaryFrom] at hunary
      cases hunary
    · have hprimary := unaryFrom_eq_path (binaryFrom_eq_path h)
      rw [primaryFrom] at hprimary
      cases hprimary
    · have hprimary := unaryFrom_eq_path (binaryFrom_eq_path h)
      rcases primaryFrom_eq_path hprimary with ⟨source, rfl, hp⟩ | ⟨inner, rfl, hinner⟩
      · exact ⟨source, 0, rfl, hp⟩
      · rcases ih fuel (by omega) hinner with ⟨source, n, rfl, hp⟩
        refine ⟨source, n + 1, ?_, hp⟩
        simp [inBrackets]

/-- A path in brackets is read as the path. -/
theorem readsClosed_inBrackets {source : String} {p : Path} (hp : Path.parse source = .ok p)
    (n : Nat) : ReadsClosed (inBrackets [.path source] n) (.path p) := by
  induction n with
  | zero => exact (readsOperand_path hp).closed (by simp)
  | succ n ih => exact ih.bracket.closed (by simp)

/-- An expression is read as a path if it is one in brackets. -/
theorem parse_eq_path_iff {text : String} {p : Path} :
    parse text = .ok (.path p) ↔
      ∃ source n, ExprToken.lex text = .ok (inBrackets [.path source] n) ∧
        Path.parse source = .ok p := by
  constructor
  · intro h
    rcases bind_eq_ok h with ⟨tokens, htokens, h⟩
    rcases bind_eq_ok h with ⟨⟨e, rest⟩, he, h⟩
    rcases rest with _ | ⟨token, rest⟩
    · cases h
      rcases inBrackets_of_binaryFrom he with ⟨source, n, hshape, hp⟩
      rw [hshape, List.append_nil] at htokens
      exact ⟨source, n, htokens, hp⟩
    · cases h
  · rintro ⟨source, n, htokens, hp⟩
    exact (readsClosed_inBrackets hp n).parse htokens

end Expr

namespace Path

/-- An attribute step of a path that was read is its last. -/
theorem attribute_last {source : String} {p : Path} (h : Path.parse source = .ok p)
    {test : NameTest} (hmem : .attributes test ∈ p.steps) :
    p.steps.getLast? = some (.attributes test) := by
  rw [parse] at h
  rcases bind_eq_ok h with ⟨steps, -, h⟩
  split at h
  · cases h
  · next hinner =>
    cases h
    have hne : steps ≠ [] := List.ne_nil_of_mem hmem
    rw [← List.dropLast_append_getLast hne] at hmem
    rcases List.mem_append.mp hmem with hearly | hlast
    · exact absurd (List.any_eq_true.mpr ⟨_, hearly, rfl⟩) hinner
    · rw [List.getLast?_eq_some_getLast hne, List.mem_singleton.mp hlast]

end Path

namespace View

/-- The expression is an attribute path, possibly in brackets, that selects values, of which the
first is empty. -/
def StartsEmpty (v : View) (text : String) : Prop :=
  ∃ source n p test others, ExprToken.lex text = .ok (Expr.inBrackets [.path source] n) ∧
    Path.parse source = .ok p ∧ p.steps.getLast? = some (.attributes test) ∧
    v.select p = .ok (.strings ("" :: others))

/-- Only an attribute step gives attribute values. -/
theorem attributes_of_follow {v : View} {steps : List Step} {ids : List AnnotationId}
    {values : List String} (h : v.follow steps ids = .strings values) :
    ∃ test, .attributes test ∈ steps := by
  induction steps generalizing ids with
  | nil => cases h
  | cons step rest ih =>
    cases step with
    | attributes test => exact ⟨test, List.mem_cons_self⟩
    | nodes axis test predicates =>
      rw [follow] at h
      rcases ih h with ⟨other, hother⟩
      exact ⟨other, List.mem_cons_of_mem _ hother⟩

/-- Only a path gives attribute values. -/
theorem path_of_eval {v : View} {e : Expr} {values : List String}
    (h : v.eval e = .ok (.strings values)) :
    ∃ p, e = .path p ∧ v.select p = .ok (.strings values) := by
  cases e with
  | number x => cases h
  | text s => cases h
  | var name =>
    rw [eval] at h
    split at h <;> cases h
  | path p =>
    rw [eval] at h
    exact ⟨p, rfl, h⟩
  | neg e =>
    rw [eval] at h
    rcases bind_eq_ok h with ⟨operand, -, h⟩
    cases h
  | binary o left right =>
    cases o
    case or =>
      rw [eval] at h
      rcases bind_eq_ok h with ⟨l, -, h⟩
      split at h
      · cases h
      · rcases bind_eq_ok h with ⟨r, -, h⟩
        cases h
    case and =>
      rw [eval] at h
      rcases bind_eq_ok h with ⟨l, -, h⟩
      split at h
      · cases h
      · rcases bind_eq_ok h with ⟨r, -, h⟩
        cases h
    all_goals
      rw [eval] at h
      · rcases bind_eq_ok h with ⟨l, -, h⟩
        rcases bind_eq_ok h with ⟨r, -, h⟩
        cases h
      · rintro ⟨⟩
      · rintro ⟨⟩
  | call name args =>
    rw [eval] at h
    rcases bind_eq_ok h with ⟨operands, -, h⟩
    rcases bind_eq_ok h with ⟨value, -, h⟩
    cases h

/-- The truth of an operand is that of its value, unless the first of its values is empty. -/
theorem truth_eq (operand : Operand) :
    truth operand = (toValue operand).truth ∨
      ∃ others, operand = .strings ("" :: others) := by
  cases operand with
  | nodes ids => exact Or.inl rfl
  | value value => exact Or.inl rfl
  | strings values =>
    rcases values with _ | ⟨first, others⟩
    · exact Or.inl rfl
    · by_cases hempty : first = ""
      · exact Or.inr ⟨others, by rw [hempty]⟩
      · refine Or.inl ?_
        have hnot : first.isEmpty = false := by
          rw [← Bool.not_eq_true, String.isEmpty_iff]
          exact hempty
        show true = !first.isEmpty
        rw [hnot]
        rfl

/-- The text has an operand that is attribute values with an empty one first if it is an
attribute path that selects them. -/
theorem startsEmpty_iff {v : View} {text : String} :
    v.StartsEmpty text ↔ ∃ others, v.operand text = .ok (.strings ("" :: others)) := by
  constructor
  · rintro ⟨source, n, p, test, others, hlex, hp, -, hselect⟩
    refine ⟨others, ?_⟩
    rw [operand, Expr.parse_eq_path_iff.mpr ⟨source, n, hlex, hp⟩]
    exact hselect
  · rintro ⟨others, h⟩
    unfold operand at h
    split at h
    · next e he =>
      rcases path_of_eval h with ⟨p, rfl, hselect⟩
      rcases Expr.parse_eq_path_iff.mp he with ⟨source, n, hlex, hp⟩
      rcases bind_eq_ok hselect with ⟨ids, -, hfollow⟩
      rcases attributes_of_follow (Except.ok.inj hfollow) with ⟨test, htest⟩
      exact ⟨source, n, p, test, others, hlex, hp, Path.attribute_last hp htest, hselect⟩
    · cases h

/-- A selection and a set of annotations are what can be asked for as a set. -/
theorem path_eq_ok_iff {v : View} {text : String} {operand : Operand}
    (h : v.operand text = .ok operand) (ids : List AnnotationId) :
    v.path text = .ok ids ↔ toValue operand = .annotations ids := by
  unfold path
  rw [h]
  cases operand with
  | nodes ids' =>
    show Except.ok ids' = .ok ids ↔ Value.annotations ids' = .annotations ids
    simp
  | strings values =>
    show Except.error _ = .ok ids ↔ Value.string _ = .annotations ids
    simp
  | value value =>
    cases value with
    | annotations ids' =>
      show Except.ok ids' = .ok ids ↔ Value.annotations ids' = .annotations ids
      simp
    | boolean b =>
      show Except.error _ = .ok ids ↔ Value.boolean b = .annotations ids
      simp
    | number x =>
      show Except.error _ = .ok ids ↔ Value.number x = .annotations ids
      simp
    | string s =>
      show Except.error _ = .ok ids ↔ Value.string s = .annotations ids
      simp

/-- All ways to ask for an expression fail with the same error, or none does but that for a set,
which gives the set that is the value and nothing if there is none. Then the expression is true
as its value is, except for an attribute path whose first value is empty: that is true, and its
value is not. -/
theorem readings_agree (v : View) (text : String) :
    (∃ err, v.expression text = .error err ∧ v.condition text = .error err ∧
      v.coercedCondition text = .error err ∧ v.path text = .error err) ∨
    ∃ value holds, v.expression text = .ok value ∧ v.condition text = .ok holds ∧
      v.coercedCondition text = .ok value.truth ∧
      (∀ ids, v.path text = .ok ids ↔ value = .annotations ids) ∧
      (holds ≠ value.truth ↔ v.StartsEmpty text) ∧
      (v.StartsEmpty text → holds = true ∧ value.truth = false) := by
  cases h : v.operand text with
  | error err =>
    refine Or.inl ⟨err, ?_, ?_, ?_, ?_⟩
    · rw [expression, h]
      rfl
    · rw [condition, h]
      rfl
    · rw [coercedCondition, expression, h]
      rfl
    · rw [path, h]
      rfl
  | ok operand =>
    have hempty : v.StartsEmpty text → truth operand = true ∧ (toValue operand).truth = false := by
      intro hstarts
      rcases startsEmpty_iff.mp hstarts with ⟨others, hothers⟩
      rw [h] at hothers
      cases hothers
      exact ⟨rfl, rfl⟩
    refine Or.inr ⟨toValue operand, truth operand, ?_, ?_, ?_, path_eq_ok_iff h, ⟨?_, ?_⟩, hempty⟩
    · rw [expression, h]
      rfl
    · rw [condition, h]
      rfl
    · rw [coercedCondition, expression, h]
      rfl
    · intro hne
      rcases truth_eq operand with heq | ⟨others, rfl⟩
      · exact absurd heq hne
      · exact startsEmpty_iff.mpr ⟨others, h⟩
    · intro hstarts heq
      rcases hempty hstarts with ⟨htrue, hfalse⟩
      rw [htrue, hfalse] at heq
      cases heq

/-- An annotation with one attribute, whose value is empty. -/
def emptyNote : View where
  document :=
    { root := ⟨1⟩
      table := [(⟨1⟩, { kind := "doc", attributes := [("a", "")], parent := none, children := [] })]
      ids := { sequence := fun n => ⟨BitVec.ofNat 128 n⟩ } }
  scope := ⟨1⟩
  bindings := {}

example : (emptyNote.condition "(@a)").toOption = some true ∧
    (emptyNote.coercedCondition "(@a)").toOption = some false := by
  decide +kernel

end View

end MarkupScript
