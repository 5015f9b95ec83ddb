import MarkupScript.Line.Token
import Mathlib.Logic.Relation

/-!
# The scan of a line, step by step

A line is read from left to right, a character or an escaped pair at a time.

* `Token.Advance` is one step of the scan: a partial token and what is left of the line.
* `Advance.fails_iff`: what is wrong with a line is what is wrong after a step.
* `fails_iff_of_reach`: so it is after any number of steps.
* `reach_end`: the scan has one way only, up to where it ends.
-/

namespace MarkupScript

open Relation

namespace Token

/-! ## Equations of the scan -/

theorem scan_escape (p : Partial) (c : Char) (rest : List Char) :
    scan p ('\\' :: c :: rest) = scan (p.escaped c rest) rest := rfl

theorem scan_last (p : Partial) : scan p ['\\'] = scan (p.push '\\') [] := rfl

theorem scan_cons {c : Char} (p : Partial) (rest : List Char) (hc : c ≠ '\\') :
    scan p (c :: rest) =
      if p.endsAt c then (p.finish ++ ·) <$> scan {} rest else p.step c >>= (scan · rest) := by
  rw [scan]
  · congr 1
    cases p.step c <;> rfl
  · exact fun h _ => hc h
  · exact fun _ _ h _ => hc h

theorem scan_end (p : Partial) :
    scan p [] = p.openings.head?.elim (.ok p.finish) fun o => .error (.unclosed o.char) := by
  obtain ⟨text, literal, openings⟩ := p
  cases openings <;> rfl

theorem scan_cut {p : Partial} {c : Char} (rest : List Char) (hc : c ≠ '\\')
    (hend : p.endsAt c = true) : scan p (c :: rest) = (p.finish ++ ·) <$> scan {} rest := by
  rw [scan_cons p rest hc, if_pos hend]

theorem scan_char {p p' : Partial} {c : Char} (rest : List Char) (hc : c ≠ '\\')
    (hend : p.endsAt c = false) (hstep : p.step c = .ok p') :
    scan p (c :: rest) = scan p' rest := by
  rw [scan_cons p rest hc, hend, if_neg Bool.false_ne_true, hstep]
  rfl

theorem scan_error {p : Partial} {c : Char} {e : SyntaxError} (rest : List Char) (hc : c ≠ '\\')
    (hend : p.endsAt c = false) (hstep : p.step c = .error e) :
    scan p (c :: rest) = .error e := by
  rw [scan_cons p rest hc, hend, if_neg Bool.false_ne_true, hstep]
  rfl

theorem scan_end_closed {p : Partial} (h : p.openings = []) : scan p [] = .ok p.finish := by
  rw [scan_end, h]
  rfl

theorem scan_end_open {p : Partial} {o : Opening} {outer : List Opening}
    (h : p.openings = o :: outer) : scan p [] = .error (.unclosed o.char) := by
  rw [scan_end, h]
  rfl

/-! ## Steps -/

/-- One step of the scan, from a partial token and the rest of the line. -/
inductive Advance : Partial × List Char → Partial × List Char → Prop
  /-- A backslash and the character after it. -/
  | escape (p : Partial) (c : Char) (rest : List Char) :
      Advance (p, '\\' :: c :: rest) (p.escaped c rest, rest)
  /-- A backslash that ends the line. -/
  | last (p : Partial) : Advance (p, ['\\']) (p.push '\\', [])
  /-- A character that ends the token. -/
  | cut {p : Partial} {c : Char} (rest : List Char) (hc : c ≠ '\\') (hend : p.endsAt c = true) :
      Advance (p, c :: rest) ({}, rest)
  /-- Any other character. -/
  | char {p p' : Partial} {c : Char} (rest : List Char) (hc : c ≠ '\\')
      (hend : p.endsAt c = false) (hstep : p.step c = .ok p') : Advance (p, c :: rest) (p', rest)

/-- Steps of the scan, any number of them. -/
abbrev Reach : Partial × List Char → Partial × List Char → Prop := ReflTransGen Advance

theorem Advance.length_lt {x y : Partial × List Char} (h : Advance x y) :
    y.2.length < x.2.length := by
  cases h with
  | escape p c rest => exact Nat.lt_succ_of_lt (Nat.lt_succ_self _)
  | last p => exact Nat.zero_lt_one
  | cut rest _ _ => exact Nat.lt_succ_self _
  | char rest _ _ _ => exact Nat.lt_succ_self _

theorem length_le_of_reach {x y : Partial × List Char} (h : Reach x y) :
    y.2.length ≤ x.2.length := by
  induction h with
  | refl => exact Nat.le_refl _
  | tail _ hstep ih => exact Nat.le_trans (Nat.le_of_lt hstep.length_lt) ih

/-- The rest of a line decides the next step. -/
theorem advance_rightUnique : Relator.RightUnique Advance := by
  intro x y z hy hz
  cases hy with
  | escape p c rest =>
    cases hz with
    | escape => rfl
    | cut _ hc _ => exact absurd rfl hc
    | char _ hc _ _ => exact absurd rfl hc
  | last p =>
    cases hz with
    | last => rfl
    | cut _ hc _ => exact absurd rfl hc
    | char _ hc _ _ => exact absurd rfl hc
  | cut rest hc hend =>
    cases hz with
    | escape => exact absurd rfl hc
    | last => exact absurd rfl hc
    | cut _ _ _ => rfl
    | char _ _ hend' _ => simp [hend] at hend'
  | char rest hc hend hstep =>
    cases hz with
    | escape => exact absurd rfl hc
    | last => exact absurd rfl hc
    | cut _ _ hend' => simp [hend] at hend'
    | char _ _ _ hstep' =>
      obtain rfl := Except.ok.inj (hstep.symm.trans hstep')
      rfl

/-- A step neither mends nor breaks a line. -/
theorem Advance.fails_iff {x y : Partial × List Char} (h : Advance x y) (e : SyntaxError) :
    scan x.1 x.2 = .error e ↔ scan y.1 y.2 = .error e := by
  cases h with
  | escape p c rest => rw [scan_escape]
  | last p => rw [scan_last]
  | @cut p c rest hc hend =>
    rw [scan_cut rest hc hend]
    cases scan {} rest with
    | ok tokens => constructor <;> intro h <;> cases h
    | error e' => rfl
  | char rest hc hend hstep => rw [scan_char rest hc hend hstep]

theorem fails_iff_of_reach {x y : Partial × List Char} (h : Reach x y) (e : SyntaxError) :
    scan x.1 x.2 = .error e ↔ scan y.1 y.2 = .error e := by
  induction h with
  | refl => rfl
  | tail _ hstep ih => rw [ih, hstep.fails_iff]

/-- Where the next character is refused the scan has come to its end. -/
theorem not_advance_of_error {p : Partial} {c : Char} {rest : List Char} {e : SyntaxError}
    (hc : c ≠ '\\') (hend : p.endsAt c = false) (hstep : p.step c = .error e)
    (y : Partial × List Char) : ¬ Advance (p, c :: rest) y := by
  intro h
  cases h with
  | escape => exact hc rfl
  | last => exact hc rfl
  | cut _ _ hend' => simp [hend] at hend'
  | char _ _ _ hstep' =>
    rw [hstep] at hstep'
    cases hstep'

/-- Whatever is met on the way is met before the end. -/
theorem reach_end {x y z : Partial × List Char} (hy : Reach x y) (hend : ∀ w, ¬ Advance y w)
    (hz : Reach x z) : Reach z y := by
  rcases ReflTransGen.total_of_right_unique advance_rightUnique hz hy with h | h
  · exact h
  · rcases ReflTransGen.cases_head h with rfl | ⟨w, hstep, -⟩
    · exact .refl
    · exact absurd hstep (hend w)

/-- A line that is neither blank nor a comment is scanned without the blanks around it. -/
theorem tokenize_eq_scan {line : String} (hblank : Text.trimChars line.toList ≠ [])
    (hcomment : (Text.trimChars line.toList).head? ≠ some '#') :
    tokenize line = scan {} (Text.trimChars line.toList) := by
  unfold tokenize
  split
  · rename_i hnil
    exact absurd hnil hblank
  · rename_i hcons
    rw [hcons] at hcomment
    exact absurd rfl hcomment
  · rfl

end Token

end MarkupScript
