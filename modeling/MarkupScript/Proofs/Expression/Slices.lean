import MarkupScript.Proofs.Expression.Brackets
import Mathlib.Data.String.Basic

/-!
# Slices of a stored text

A stored text is counted in bytes, and a character may take several. Who reads from such a text
without copying it asks for slices, from one offset to another. There is no slice from or to an
offset that lies inside a character or past the end.

* `Text.slice?`: the slice of a text between two offsets.
* `Text.slice?_middle`: after whole characters there are slices of whole characters.
* `Step.readSliced`: reads a step of a path in slices of its text.
* `Step.readSliced_eq`: a step is read in slices as it is read from characters.
-/

namespace MarkupScript

open String (utf8Len)

/-! ## Slices -/

namespace Text

/-- The slice of a text between two offsets in bytes. There is none if an offset lies inside a
character or past the end, or if the second lies before the first. -/
def slice? (text : String) (start stop : Nat) : Option String :=
  if h : start ≤ stop ∧
      String.Pos.Raw.IsValid text ⟨start⟩ ∧ String.Pos.Raw.IsValid text ⟨stop⟩ then
    some (String.extract ⟨⟨start⟩, h.2.1⟩ ⟨⟨stop⟩, h.2.2⟩)
  else none

/-- The characters between two indices. -/
def sliceChars? (cs : List Char) (start stop : Nat) : Option (List Char) :=
  if start ≤ stop ∧ stop ≤ cs.length then some ((cs.take stop).drop start) else none

theorem isValid_utf8Len (front rest : List Char) :
    String.Pos.Raw.IsValid (String.ofList (front ++ rest)) ⟨utf8Len front⟩ := by
  refine String.Pos.Raw.isValid_iff_exists_append.mpr
    ⟨String.ofList front, String.ofList rest, String.ofList_append, ?_⟩
  apply String.Pos.Raw.ext
  rw [String.byteIdx_rawEndPos, String.utf8ByteSize_ofList]

/-- After whole characters there are slices of whole characters. -/
theorem slice?_middle (front middle rest : List Char) :
    slice? (String.ofList (front ++ (middle ++ rest))) (utf8Len front)
      (utf8Len front + utf8Len middle) = some (String.ofList middle) := by
  have hstart := isValid_utf8Len front (middle ++ rest)
  have hstop := isValid_utf8Len (front ++ middle) rest
  rw [List.append_assoc, String.utf8Len_append] at hstop
  have hsize : ∀ cs, utf8Len cs = (String.ofList cs).toByteArray.size := by
    intro cs
    rw [String.size_toByteArray, String.utf8ByteSize_ofList]
  have hbytes : (String.ofList (front ++ (middle ++ rest))).toByteArray =
      (String.ofList front).toByteArray ++
        ((String.ofList middle).toByteArray ++ (String.ofList rest).toByteArray) := by
    simp only [String.ofList_append, String.toByteArray_append]
  rw [slice?, dif_pos ⟨Nat.le_add_right _ _, hstart, hstop⟩]
  -- Both sides are the same bytes, those between the bytes of `front` and of `rest`.
  congr 1
  apply String.toByteArray_inj.mp
  rw [String.toByteArray_extract, hbytes]
  dsimp only
  rw [← Nat.add_zero (utf8Len front), Nat.add_assoc, Nat.zero_add,
    ByteArray.extract_append_size_add' (hsize front),
    ByteArray.extract_append_eq_left (hsize middle)]

theorem slice?_front (front rest : List Char) :
    slice? (String.ofList (front ++ rest)) 0 (utf8Len front) = some (String.ofList front) := by
  have h := slice?_middle [] front rest
  rwa [List.nil_append, String.utf8Len_nil, Nat.zero_add] at h

theorem slice?_rest (front rest : List Char) :
    slice? (String.ofList (front ++ rest)) (utf8Len front)
      (String.ofList (front ++ rest)).utf8ByteSize = some (String.ofList rest) := by
  have h := slice?_middle front rest []
  rwa [List.append_nil, ← String.utf8Len_append, ← String.utf8ByteSize_ofList (front ++ rest)] at h

/-- What is left behind the characters up to `stop` starts with it. -/
theorem head?_dropWhile_ne {stop : Char} (cs : List Char) :
    ∀ c ∈ (cs.dropWhile (· ≠ stop)).head?, c = stop := by
  intro c hc
  have hstop := List.head?_dropWhile_not (· ≠ stop) cs
  rw [Option.mem_def.mp hc] at hstop
  simpa using hstop

theorem sliceChars?_middle (front middle rest : List Char) :
    sliceChars? (front ++ (middle ++ rest)) front.length (front.length + middle.length) =
      some middle := by
  have hlength : front.length + middle.length ≤ (front ++ (middle ++ rest)).length := by
    simp only [List.length_append]
    omega
  rw [sliceChars?, if_pos ⟨Nat.le_add_right _ _, hlength⟩, ← List.append_assoc,
    ← List.length_append, List.take_left, List.drop_left]

end Text

/-! ## Steps in slices -/

/-- The index behind the bracket that closes the predicate at an index. -/
def ExprToken.predicateEnd (cs : List Char) (start : Nat) : Option Nat :=
  (closePredicate 0 none (cs.drop start)).map fun taken => start + taken.1.length

theorem ExprToken.predicateEnd_bracket (front rest : List Char) :
    predicateEnd (front ++ '[' :: rest) front.length =
      (closePredicate 1 none rest).map fun taken => front.length + (taken.1.length + 1) := by
  have hopen : closePredicate 0 none ('[' :: rest) =
      (closePredicate 1 none rest).map fun taken => ('[' :: taken.1, taken.2) := rfl
  rw [predicateEnd, List.drop_left, hopen, Option.map_map]
  rfl

namespace Step

/-- The step that a name and predicates make. -/
def ofParts (axis : Axis) (step : String) (name : List Char) (predicates : List Predicate) :
    Except ExpressionFault Step :=
  match name with
  | '@' :: label =>
    if !predicates.isEmpty || axis ≠ .child || label.isEmpty then
      .error (.malformedAttribute step)
    else .ok (.attributes (.ofText (String.ofList label)))
  | [] => .error .emptyStep
  | ['.'] =>
    if axis = .child then .ok (.nodes .self .any predicates)
    else .error (.afterDescendant ".")
  | ['.', '.'] =>
    if axis = .child then .ok (.nodes .parent .any predicates)
    else .error (.afterDescendant "..")
  | _ => .ok (.nodes axis (.ofText (String.ofList name)) predicates)

/-- Reads predicates in slices of the text behind the name. A predicate takes two characters at
least, so the length of the text bounds their number. -/
def readPredicates (step : String) :
    Nat → String → Option (Except ExpressionFault (List Predicate))
  | 0, brackets => if brackets = "" then some (.ok []) else none
  | fuel + 1, brackets =>
    if brackets = "" then some (.ok [])
    else
      match ExprToken.predicateEnd brackets.toList 0 with
      | none => some (.error .unclosedPredicate)
      | some stop => do
        let passed ← Text.sliceChars? brackets.toList 0 stop
        let inside ← Text.slice? brackets 1 (utf8Len passed - 1)
        match Predicate.parse inside.toList with
        | .error fault => some (.error fault)
        | .ok predicate =>
          let rest ← Text.slice? brackets (utf8Len passed) brackets.utf8ByteSize
          if rest ≠ "" && rest.toList.head? ≠ some '[' then
            some (.error (.textAfterPredicate step))
          else
            let others ← readPredicates step fuel rest
            some (others.map (predicate :: ·))

/-- Reads a step in slices of its text. -/
def readSliced (axis : Axis) (step : String) : Option (Except ExpressionFault Step) := do
  let opening := utf8Len (step.toList.takeWhile (· ≠ '['))
  let name ← Text.slice? step 0 opening
  let brackets ← Text.slice? step opening step.utf8ByteSize
  let predicates ← readPredicates step brackets.toList.length brackets
  some (predicates >>= ofParts axis step name.toList)

theorem parse_eq_ofParts (axis : Axis) (cs : List Char) :
    Step.parse axis cs =
      (parsePredicates (String.ofList cs) (cs.dropWhile (· ≠ '[')) >>=
        ofParts axis (String.ofList cs) (cs.takeWhile (· ≠ '['))) := rfl

/-- The first predicate is sliced out without its brackets, and the rest behind it. -/
theorem slices_of_closePredicate {rest inside after : List Char}
    (h : ExprToken.closePredicate 1 none rest = some (inside, after)) :
    let brackets := String.ofList ('[' :: rest)
    ExprToken.predicateEnd ('[' :: rest) 0 = some (inside.length + 1) ∧
      Text.sliceChars? ('[' :: rest) 0 (inside.length + 1) = some ('[' :: inside) ∧
      Text.slice? brackets 1 (utf8Len ('[' :: inside) - 1) =
        some (String.ofList inside.dropLast) ∧
      Text.slice? brackets (utf8Len ('[' :: inside)) brackets.utf8ByteSize =
        some (String.ofList after) := by
  intro brackets
  obtain ⟨rfl, -, within, rfl⟩ := ExprToken.closesAll_of_closePredicate h
  refine ⟨?_, ?_, ?_, Text.slice?_rest ('[' :: (within ++ [']'])) after⟩
  · have hend := ExprToken.predicateEnd_bracket [] (within ++ [']'] ++ after)
    rw [h] at hend
    simpa using hend
  · have hpassed := Text.sliceChars?_middle [] ('[' :: (within ++ [']'])) after
    simpa using hpassed
  · -- The two brackets take a byte each, so the offsets lie between characters.
    have hinside := Text.slice?_middle ['['] within (']' :: after)
    have hone : ∀ c : Char, c.utf8Size = 1 → utf8Len [c] = 1 := by
      intro c hc
      rw [String.utf8Len_cons, String.utf8Len_nil, hc]
    have hbytes : utf8Len ('[' :: (within ++ [']'])) - 1 = 1 + utf8Len within := by
      rw [← List.singleton_append, String.utf8Len_append, String.utf8Len_append,
        hone '[' (by decide), hone ']' (by decide)]
      omega
    rw [hone '[' (by decide)] at hinside
    rw [hbytes, List.dropLast_concat]
    simpa [brackets] using hinside

theorem parsePredicates_of_none (step : String) {rest : List Char}
    (h : ExprToken.closePredicate 1 none rest = none) :
    parsePredicates step ('[' :: rest) = .error .unclosedPredicate := by
  rw [parsePredicates]
  split
  · rfl
  · next hsome =>
    rw [h] at hsome
    cases hsome

theorem parsePredicates_of_some (step : String) {rest inside after : List Char}
    (h : ExprToken.closePredicate 1 none rest = some (inside, after)) :
    parsePredicates step ('[' :: rest) =
      (Predicate.parse inside.dropLast >>= fun predicate =>
        (parsePredicates step after).map (predicate :: ·)) := by
  rw [parsePredicates]
  split
  · next hnone =>
    rw [h] at hnone
    cases hnone
  · next hsome =>
    rw [h] at hsome
    cases hsome
    rfl

theorem readPredicates_eq (step : String) {fuel : Nat} {cs : List Char} (hfuel : cs.length ≤ fuel)
    (hcs : ∀ c ∈ cs.head?, c = '[') :
    readPredicates step fuel (String.ofList cs) = some (parsePredicates step cs) := by
  induction fuel generalizing cs with
  | zero =>
    obtain rfl := List.length_eq_zero_iff.mp (Nat.le_zero.mp hfuel)
    rw [parsePredicates]
    rfl
  | succ fuel ih =>
    rcases cs with _ | ⟨c, rest⟩
    · rw [parsePredicates]
      rfl
    obtain rfl := hcs c rfl
    have hne : String.ofList ('[' :: rest) ≠ "" := by simp
    rw [readPredicates, if_neg hne, String.toList_ofList]
    cases hclose : ExprToken.closePredicate 1 none rest with
    | none =>
      have hend : ExprToken.predicateEnd ('[' :: rest) 0 = none := by
        have hbracket := ExprToken.predicateEnd_bracket [] rest
        rwa [hclose] at hbracket
      rw [hend, parsePredicates_of_none step hclose]
    | some taken =>
      obtain ⟨inside, after⟩ := taken
      obtain ⟨hend, hpassed, hinside, hrest⟩ := slices_of_closePredicate hclose
      rw [parsePredicates_of_some step hclose, hend]
      simp only [hpassed, hinside, hrest, Option.bind_eq_bind, Option.bind_some,
        String.toList_ofList]
      cases hparse : Predicate.parse inside.dropLast with
      | error fault => rfl
      | ok predicate =>
        have hshorter : after.length ≤ fuel := by
          have hlength := ExprToken.length_closePredicate hclose
          rw [List.length_cons] at hfuel
          omega
        -- Here the slices are looked at before the next round, the characters in it.
        by_cases hnext : ∀ c ∈ after.head?, c = '['
        · have hgo : (String.ofList after ≠ "" && after.head? ≠ some '[') = false := by
            rcases after with _ | ⟨c, after⟩
            · rfl
            · simp [hnext c rfl]
          dsimp only
          rw [hgo, if_neg Bool.false_ne_true, ih hshorter hnext]
          rfl
        · obtain ⟨c, others, rfl, hc⟩ : ∃ c others, after = c :: others ∧ c ≠ '[' := by
            rcases after with _ | ⟨c, others⟩
            · simp at hnext
            · exact ⟨c, others, rfl, by simpa using hnext⟩
          have hstop : (String.ofList (c :: others) ≠ "" &&
              (c :: others).head? ≠ some '[') = true := by simp [hc]
          have hfault : parsePredicates step (c :: others) =
              .error (.textAfterPredicate step) := by
            rw [parsePredicates]
            exact hc
          dsimp only
          rw [hstop, if_pos rfl, hfault]
          rfl

/-- A step is read in slices as it is read from characters, whatever its text is. -/
theorem readSliced_eq (axis : Axis) (cs : List Char) :
    readSliced axis (String.ofList cs) = some (Step.parse axis cs) := by
  have hsplit := List.takeWhile_append_dropWhile (p := (· ≠ '[')) (l := cs)
  have hname := Text.slice?_front (cs.takeWhile (· ≠ '[')) (cs.dropWhile (· ≠ '['))
  have hbrackets := Text.slice?_rest (cs.takeWhile (· ≠ '[')) (cs.dropWhile (· ≠ '['))
  rw [hsplit] at hname hbrackets
  have hpredicates := readPredicates_eq (String.ofList cs) (Nat.le_refl _)
    (Text.head?_dropWhile_ne cs)
  rw [readSliced, String.toList_ofList]
  simp only [hname, hbrackets, hpredicates, Option.bind_eq_bind, Option.bind_some,
    String.toList_ofList]
  rw [parse_eq_ofParts]

end Step

end MarkupScript
