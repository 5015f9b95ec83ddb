import MarkupScript.Document.Id
import Mathlib.Algebra.GroupWithZero.Nat

/-!
# Ids read back

* `ofDigits?_digits`: the 32 digits of an id give the id.
* `unhyphenate?_hyphenate`: hyphens between groups can be taken out again.
* `parse?_text`: an id is read back from its text.
-/

namespace MarkupScript.AnnotationId

/-! ## Digits -/

theorem hexValue?_digitChar {n : Nat} (h : n < 16) : hexValue? (Nat.digitChar n) = some n := by
  have hall : ∀ m : Fin 16, hexValue? (Nat.digitChar m.val) = some m.val := by decide
  exact hall ⟨n, h⟩

/-- The value read so far, with one more digit. -/
def addDigit (acc : Option Nat) (c : Char) : Option Nat :=
  acc.bind fun n => (hexValue? c).map (16 * n + ·)

/-- The lowest `k` digits of `n`, the most significant first. -/
def lowDigits (n k : Nat) : List Char :=
  (List.range k).reverse.map fun i => Nat.digitChar (n / Nat.pow 16 i % 16)

theorem lowDigits_succ (n k : Nat) :
    lowDigits n (k + 1) = Nat.digitChar (n / Nat.pow 16 k % 16) :: lowDigits n k := by
  rw [lowDigits, List.range_succ, List.reverse_append]
  rfl

/-- Reading `k` digits after `a` moves `a` up by `k` places. -/
theorem foldl_lowDigits (n k a : Nat) :
    (lowDigits n k).foldl addDigit (some a) =
      some (a * Nat.pow 16 k + n % Nat.pow 16 k) := by
  induction k generalizing a with
  | zero =>
    show some a = some (a * 1 + n % 1)
    rw [Nat.mod_one, Nat.mul_one, Nat.add_zero]
  | succ k ih =>
    have hdigit : n / Nat.pow 16 k % 16 < 16 := Nat.mod_lt _ (by decide)
    have hstep : addDigit (some a) (Nat.digitChar (n / Nat.pow 16 k % 16)) =
        some (16 * a + n / Nat.pow 16 k % 16) := by
      rw [addDigit, Option.bind_some, hexValue?_digitChar hdigit, Option.map_some]
    -- The digit at place `k` stands above those that are left.
    have hmod : n % (Nat.pow 16 k * 16) =
        n % Nat.pow 16 k + Nat.pow 16 k * (n / Nat.pow 16 k % 16) := Nat.mod_mul
    rw [lowDigits_succ, List.foldl_cons, hstep, ih]
    show _ = some (a * (Nat.pow 16 k * 16) + n % (Nat.pow 16 k * 16))
    rw [hmod, Nat.add_mul, Nat.mul_comm (Nat.pow 16 k) 16, ← Nat.mul_assoc, Nat.mul_comm a 16,
      Nat.mul_comm (n / Nat.pow 16 k % 16), Nat.add_assoc, Nat.add_comm (n % _)]

theorem length_digits (id : AnnotationId) : id.digits.length = 32 := by
  rw [digits, List.length_map, List.length_reverse, List.length_range]

theorem ofDigits?_digits (id : AnnotationId) : ofDigits? id.digits = some id := by
  have hfold : id.digits.foldl addDigit (some 0) = some id.bits.toNat := by
    have hlow := foldl_lowDigits id.bits.toNat 32 0
    have hlt : id.bits.toNat < Nat.pow 16 32 := id.bits.isLt
    rw [Nat.zero_mul, Nat.zero_add, Nat.mod_eq_of_lt hlt] at hlow
    exact hlow
  rw [ofDigits?, if_pos (length_digits id)]
  show (id.digits.foldl addDigit (some 0)).map _ = _
  rw [hfold, Option.map_some, BitVec.ofNat_toNat, BitVec.setWidth_eq]

/-! ## Groups -/

theorem length_hyphenate : ∀ {lengths : List Nat} {cs : List Char},
    cs.length = lengths.sum →
    (hyphenate lengths cs).length = cs.length + (lengths.length - 1)
  | [], cs, _ => by rw [hyphenate]; rfl
  | [n], cs, h => by
    have hn : cs.length = n := h
    rw [hyphenate, List.take_of_length_le (by omega)]
    rfl
  | n :: m :: rest, cs, h => by
    have hn : cs.length = n + (m :: rest).sum := h
    have hdrop : (cs.drop n).length = (m :: rest).sum := by
      rw [List.length_drop]
      omega
    rw [hyphenate, List.length_append, List.length_cons, length_hyphenate hdrop, hdrop,
      List.length_take]
    · simp only [List.length_cons]
      omega
    · rintro ⟨⟩

/-- Hyphens between groups can be taken out again. -/
theorem unhyphenate?_hyphenate : ∀ {lengths : List Nat} {cs : List Char},
    cs.length = lengths.sum → unhyphenate? lengths (hyphenate lengths cs) = some cs
  | [], cs, h => by
    obtain rfl := List.eq_nil_of_length_eq_zero h
    rfl
  | [n], cs, h => by
    have hn : cs.length = n := h
    rw [hyphenate, List.take_of_length_le (by omega), unhyphenate?, if_pos hn]
  | n :: m :: rest, cs, h => by
    have hn : cs.length = n + (m :: rest).sum := h
    have hdrop : (cs.drop n).length = (m :: rest).sum := by
      rw [List.length_drop]
      omega
    have htake : (cs.take n).length = n := by
      rw [List.length_take]
      omega
    rw [hyphenate, unhyphenate?, List.drop_append_of_le_length (by omega),
      List.drop_of_length_le (by omega), List.nil_append]
    · show (unhyphenate? (m :: rest) (hyphenate (m :: rest) (cs.drop n))).map _ = _
      rw [unhyphenate?_hyphenate hdrop, Option.map_some, List.take_append_of_le_length (by omega),
        List.take_of_length_le (by omega), List.take_append_drop]
    · rintro ⟨⟩
    · rintro ⟨⟩

/-- An id is read back from its text. -/
theorem parse?_text (id : AnnotationId) : parse? id.text = some id := by
  have hgroups : id.digits.length = groups.sum := length_digits id
  have hlength : (hyphenate groups id.digits).length = 36 := by
    rw [length_hyphenate hgroups, length_digits]
    rfl
  rw [parse?, text, String.toList_ofList]
  simp only [hlength]
  rw [ofHyphenated?, unhyphenate?_hyphenate hgroups, Option.bind_some, ofDigits?_digits]

end MarkupScript.AnnotationId
