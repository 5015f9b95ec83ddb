import MarkupScript.Proofs.Expression.Slices

/-!
# Cutting a path into pieces

The text of a path is cut into the variable that it starts with, slashes, and steps. A reader that
keeps to the stored text makes the cuts by offsets and looks for the brackets of predicates anew in
each step.

* `Path.readSliced`: reads a path in slices, and says what pieces its text was cut into.
* `Path.Cut`: the pieces are the text, without a loss and with no cut in a predicate.
* `Path.Reads`: what can happen while a path is read whose brackets are closed.
* `Path.exists_reads`: this is what happens, and every slice is there.
* `Reads.front`, `Reads.makes`, `Reads.closesAll`, `Reads.ne_unclosed`: so nothing is lost, the
  pieces make the steps, no cut falls into a predicate, and no bracket is missed.
* `Path.cut_of_mem_lex`: so it is with every path among the tokens of an expression.
-/

namespace MarkupScript

open String (utf8Len)

/-! ## Paths in slices -/

namespace Path

/-- A piece of the text of a path. -/
inductive Piece where
  /-- The variable that the path starts with. -/
  | start (text : String)
  /-- The slashes in front of a step, if any. -/
  | separator (text : String)
  /-- A step with its predicates. -/
  | step (text : String)
deriving DecidableEq

def Piece.text : Piece → String
  | start text | separator text | step text => text

/-- The characters of some pieces in their order. -/
def Piece.joined (pieces : List Piece) : List Char :=
  pieces.flatMap fun piece => piece.text.toList

theorem Piece.joined_cons (piece : Piece) (pieces : List Piece) :
    joined (piece :: pieces) = piece.text.toList ++ joined pieces :=
  List.flatMap_cons

/-- Pieces that leave nothing open leave nothing open together. -/
theorem Piece.closesAll_joined {pieces : List Piece}
    (h : ∀ piece ∈ pieces, ClosesAll piece.text.toList) : ClosesAll (joined pieces) := by
  induction pieces with
  | nil => rfl
  | cons piece pieces ih =>
    obtain ⟨hpiece, hpieces⟩ := List.forall_mem_cons.mp h
    rw [joined_cons]
    exact (hpiece.append_iff _).mpr (ih hpieces)

/-- The axis of a step behind slashes. -/
def axisOf (slashes : String) : Axis := if slashes = "//" then .descendant else .child

/-- The pieces are those of steps, each with the slashes in front of it, and the texts of the steps
are read as these steps. `first` says that no step comes before. -/
inductive MakesSteps : Bool → List Piece → List Step → Prop
  | nil {first : Bool} : MakesSteps first [] []
  /-- A slash needs no step behind it if it is all there is. -/
  | slash : MakesSteps true [.separator "/"] []
  | cons {first : Bool} {slashes text : String} {read : Step} {pieces : List Piece}
      {steps : List Step} (hparse : Step.parse (axisOf slashes) text.toList = .ok read)
      (h : MakesSteps false pieces steps) :
      MakesSteps first (.separator slashes :: .step text :: pieces) (read :: steps)

/-- The pieces make the path. -/
inductive Makes : List Piece → Path → Prop
  | context {pieces : List Piece} {steps : List Step} (h : MakesSteps true pieces steps) :
      Makes pieces { start := .context, steps }
  | fromVariable {name : String} {pieces : List Piece} {steps : List Step}
      (h : MakesSteps true pieces steps) :
      Makes (.start name :: pieces) { start := .fromVariable name, steps }

/-- The text of a path is cut into the pieces, and this comes out. -/
structure Cut (text : String) (pieces : List Piece) (outcome : Except ExpressionFault Path) :
    Prop where
  /-- No bracket is missed. -/
  closed : outcome ≠ .error .unclosedPredicate
  /-- The pieces are all of the text if a path comes out, and they make this path. -/
  whole : ∀ p, outcome = .ok p → text.toList = Piece.joined pieces ∧ Makes pieces p
  /-- In any case they are the front of the text, and what is left unread stands behind a step
  that is refused. -/
  front : ∃ unread, text.toList = Piece.joined pieces ++ unread ∧
    (unread ≠ [] → ∃ before slashes step fault,
      pieces = before ++ [.separator slashes, .step step] ∧
      Step.parse (axisOf slashes) step.toList = .error fault ∧ outcome = .error fault)
  /-- At no cut a bracket is open. -/
  apart : ∀ before, before <+: pieces → ClosesAll (Piece.joined before)

/-- What came of reading: the pieces that were cut off the text, the last one for a step that is
refused included, and the outcome. -/
structure Reading (α : Type) where
  pieces : List Piece
  outcome : Except ExpressionFault α

/-- The number of bytes of the step at the front of a text, up to the next slash outside brackets.
`i` characters have been passed, in `passed` bytes. -/
def stepEndFrom (cs : List Char) : Nat → Nat → Nat → Option (Except ExpressionFault Nat)
  | 0, _, _ => none
  | fuel + 1, i, passed =>
    match cs[i]? with
    | none => some (.ok passed)
    | some c =>
      if c = '/' then some (.ok passed)
      else if c = '[' then
        match ExprToken.predicateEnd cs i with
        | none => some (.error .unclosedPredicate)
        | some stop => do
          let predicate ← Text.sliceChars? cs i stop
          stepEndFrom cs fuel stop (passed + utf8Len predicate)
      else stepEndFrom cs fuel (i + 1) (passed + c.utf8Size)

def stepEnd (text : String) : Option (Except ExpressionFault Nat) :=
  stepEndFrom text.toList (text.toList.length + 1) 0 0

/-- Reads the steps of the path `text` in slices of what is left of it. -/
def readSteps (text : String) : Nat → Bool → Bool → String → Option (Reading (List Step))
  | 0, _, _, rest => if rest = "" then some ⟨[], .ok []⟩ else none
  | fuel + 1, first, bare, rest =>
    if rest = "" then some ⟨[], .ok []⟩
    else
      match takeSeparator bare rest.toList with
      | none => some ⟨[], .error (.expectedSeparator text)⟩
      | some (axis, behind) => do
        -- The slashes are what is no longer there behind them.
        let width := utf8Len rest.toList - utf8Len behind
        let separator ← Text.slice? rest 0 width
        let rest ← Text.slice? rest width rest.utf8ByteSize
        if rest = "" then
          some ⟨[.separator separator],
            if axis = .child && first then .ok [] else .error (.separatorLast text)⟩
        else
          match ← stepEnd rest with
          | .error fault => some ⟨[.separator separator], .error fault⟩
          | .ok stop =>
            let step ← Text.slice? rest 0 stop
            match ← Step.readSliced axis step with
            | .error fault => some ⟨[.separator separator, .step step], .error fault⟩
            | .ok first =>
              let rest ← Text.slice? rest stop rest.utf8ByteSize
              let others ← readSteps text fuel false false rest
              some ⟨.separator separator :: .step step :: others.pieces,
                others.outcome.map (first :: ·)⟩

/-- The path that a start and steps make. An attribute step must be the last. -/
def ofSteps (text : String) (start : PathStart) (steps : List Step) :
    Except ExpressionFault Path :=
  if steps.dropLast.any Step.isAttribute then .error (.attributeInside text)
  else .ok { start, steps }

/-- Reads a path in slices of its text. There is no reading if a slice is not there. -/
def readSliced (text : String) : Option (Reading Path) :=
  if text.toList.head? = some '$' then do
    let named ← Text.slice? text 1 text.utf8ByteSize
    let stop := utf8Len (named.toList.takeWhile (· ≠ '/'))
    let name ← Text.slice? named 0 stop
    let rest ← Text.slice? named stop named.utf8ByteSize
    let steps ← readSteps text rest.toList.length true false rest
    some ⟨.start ("$" ++ name) :: steps.pieces,
      steps.outcome >>= ofSteps text (.fromVariable ("$" ++ name))⟩
  else do
    let steps ← readSteps text text.toList.length true true text
    some ⟨steps.pieces, steps.outcome >>= ofSteps text .context⟩

theorem parse_eq_ofSteps (text : String) :
    Path.parse text =
      (parseSteps text (takeStart text.toList).2.length true
        ((takeStart text.toList).1 = .context) (takeStart text.toList).2 >>=
        ofSteps text (takeStart text.toList).1) := rfl

/-! ## The end of a step -/

/-- The bytes of a step are counted from wherever it starts. -/
theorem stepEndFrom_eq (front : List Char) (passed : Nat) {fuel : Nat} {cs step rest : List Char}
    (h : takeStep cs = some (step, rest)) (hfuel : step.length ≤ fuel) :
    stepEndFrom (front ++ cs) (fuel + 1) front.length passed =
      some (.ok (passed + utf8Len step)) := by
  rw [takeStep] at h
  -- The search always looks at the whole text, so what has been passed stays in front.
  fun_induction ExprToken.takeBracketed (· ≠ '/') cs generalizing front step passed fuel rest with
  | case1 =>
    cases h
    rw [stepEndFrom, List.append_nil, List.getElem?_eq_none (Nat.le_refl _)]
    rfl
  | case2 => cases h
  | case3 more inside after hclose ih =>
    obtain ⟨⟨others, left⟩, hothers, heq⟩ := Option.map_eq_some_iff.mp h
    cases heq
    obtain ⟨rfl, -, -⟩ := ExprToken.closesAll_of_closePredicate hclose
    rw [List.cons_append, List.length_cons, List.length_append] at hfuel
    obtain ⟨fuel, rfl⟩ : ∃ n, fuel = n + 1 := ⟨fuel - 1, by omega⟩
    have hend := ExprToken.predicateEnd_bracket front (inside ++ after)
    rw [hclose, Option.map_some] at hend
    have hpredicate := Text.sliceChars?_middle front ('[' :: inside) after
    rw [List.cons_append, List.length_cons] at hpredicate
    have hshorter : others.length ≤ fuel := by omega
    have hbehind := ih (front ++ '[' :: inside) (passed + utf8Len ('[' :: inside)) hothers
      hshorter
    rw [List.append_assoc, List.cons_append, List.length_append, List.length_cons] at hbehind
    rw [stepEndFrom, List.getElem?_append_right (Nat.le_refl _), Nat.sub_self]
    simp only [List.getElem?_cons_zero, hend, hpredicate, Option.bind_eq_bind, Option.bind_some]
    rw [if_neg (by decide), if_pos trivial, hbehind, String.utf8Len_append, Nat.add_assoc]
  | case4 c more hbracket hgo ih =>
    obtain ⟨⟨others, left⟩, hothers, heq⟩ := Option.map_eq_some_iff.mp h
    cases heq
    rw [List.length_cons] at hfuel
    obtain ⟨fuel, rfl⟩ : ∃ n, fuel = n + 1 := ⟨fuel - 1, by omega⟩
    have hslash : c ≠ '/' := by simpa using hgo
    have hbehind := ih (front ++ [c]) (passed + c.utf8Size) hothers (Nat.le_of_succ_le_succ hfuel)
    rw [List.append_assoc, List.singleton_append, List.length_append, List.length_singleton]
      at hbehind
    rw [stepEndFrom, List.getElem?_append_right (Nat.le_refl _), Nat.sub_self]
    simp only [List.getElem?_cons_zero]
    rw [if_neg hslash, if_neg hbracket, hbehind, String.utf8Len_cons, Nat.add_assoc,
      Nat.add_comm c.utf8Size]
  | case5 c more hbracket hstop =>
    cases h
    have hslash : c = '/' := by simpa using hstop
    rw [stepEndFrom, List.getElem?_append_right (Nat.le_refl _), Nat.sub_self]
    simp only [List.getElem?_cons_zero]
    rw [if_pos hslash]
    rfl

theorem stepEnd_eq {cs step rest : List Char} (h : takeStep cs = some (step, rest)) :
    stepEnd (String.ofList cs) = some (.ok (utf8Len step)) := by
  have hlength : step.length ≤ cs.length := by
    rw [(ExprToken.closesAll_of_takeBracketed h).1, List.length_append]
    exact Nat.le_add_right _ _
  have hend := stepEndFrom_eq [] 0 h hlength
  rw [stepEnd, String.toList_ofList]
  rwa [Nat.zero_add] at hend

/-! ## One step after the other -/

/-- Slashes are taken off the front, and if there are none, the text starts with no slash. -/
theorem takeSeparator_split {bare : Bool} {axis : Axis} {cs behind : List Char}
    (h : takeSeparator bare cs = some (axis, behind)) :
    ∃ slashes, cs = slashes ++ behind ∧ axis = axisOf (String.ofList slashes) ∧
      (∀ c ∈ slashes, c = '/') ∧ (slashes = [] → cs.head? ≠ some '/') := by
  unfold takeSeparator at h
  split at h
  · cases h
    exact ⟨['/', '/'], rfl, rfl, by simp, by simp⟩
  · cases h
    exact ⟨['/'], rfl, rfl, by simp, by simp⟩
  · next hdouble hsingle =>
    split at h
    · cases h
      refine ⟨[], rfl, rfl, by simp, fun _ hhead => ?_⟩
      obtain ⟨others, rfl⟩ := List.head?_eq_some_iff.mp hhead
      exact hsingle others rfl
    · cases h

theorem closesAll_of_slashes {slashes : List Char} (h : ∀ c ∈ slashes, c = '/') :
    ClosesAll slashes := by
  refine closesAll_of_no_bracket fun c hc => ?_
  rw [h c hc]
  decide

/-- A separator is missing only where a slash is asked for and there is none. -/
theorem exists_takeSeparator {bare : Bool} {cs : List Char} (hne : cs ≠ [])
    (hlead : bare = false → ∀ c ∈ cs.head?, c = '/') :
    ∃ axis behind, takeSeparator bare cs = some (axis, behind) := by
  unfold takeSeparator
  split
  · exact ⟨_, _, rfl⟩
  · exact ⟨_, _, rfl⟩
  · next hdouble hsingle =>
    cases bare with
    | true => exact ⟨_, _, rfl⟩
    | false =>
      obtain ⟨c, others, rfl⟩ := List.exists_cons_of_ne_nil hne
      obtain rfl := hlead rfl c rfl
      exact absurd rfl (hsingle others)

/-- Nothing but a single slash has a step of a child behind it and no text. -/
theorem eq_slash_of_takeSeparator {bare : Bool} {cs : List Char} (hne : cs ≠ [])
    (h : takeSeparator bare cs = some (.child, [])) : cs = ['/'] := by
  unfold takeSeparator at h
  split at h
  · cases h
  · cases h
    rfl
  · split at h
    · cases h
      exact absurd rfl hne
    · cases h

/-- Every step takes one character at least, with the slashes in front of it. -/
theorem length_of_takeStep {bare : Bool} {axis : Axis} {cs behind step rest : List Char}
    (hsep : takeSeparator bare cs = some (axis, behind)) (hne : behind ≠ [])
    (hstep : takeStep behind = some (step, rest)) : rest.length < cs.length := by
  obtain ⟨slashes, rfl, -, -, hslash⟩ := takeSeparator_split hsep
  obtain ⟨rfl, -⟩ := ExprToken.closesAll_of_takeBracketed hstep
  have hhead := ExprToken.head?_of_takeBracketed hstep
  rcases slashes with _ | ⟨c, slashes⟩
  · rcases step with _ | ⟨c, step⟩
    · -- Then what is left is all, and it starts with a slash.
      obtain ⟨c, others, rfl⟩ := List.exists_cons_of_ne_nil hne
      have hc : c = '/' := by simpa using hhead c rfl
      simp [hc] at hslash
    · simp only [List.nil_append, List.length_append, List.length_cons]
      omega
  · simp only [List.length_append, List.length_cons]
    omega

/-- What can happen while the steps of a path are read, if its brackets are closed: the pieces
that are cut off, and the outcome. -/
inductive Reads (text : String) : Bool → Bool → List Char → List Piece →
    Except ExpressionFault (List Step) → Prop
  | done {first bare : Bool} : Reads text first bare [] [] (.ok [])
  /-- Nothing follows the slashes. -/
  | alone {first bare : Bool} {axis : Axis} {cs : List Char} (hne : cs ≠ [])
      (hsep : takeSeparator bare cs = some (axis, [])) :
      Reads text first bare cs [.separator (String.ofList cs)]
        (if axis = .child && first then .ok [] else .error (.separatorLast text))
  | refused {first bare : Bool} {slashes behind step rest : List Char} {fault : ExpressionFault}
      (hslashes : ∀ c ∈ slashes, c = '/') (hstep : takeStep behind = some (step, rest))
      (hparse : Step.parse (axisOf (String.ofList slashes)) step = .error fault) :
      Reads text first bare (slashes ++ behind)
        [.separator (String.ofList slashes), .step (String.ofList step)] (.error fault)
  | step {first bare : Bool} {slashes behind step rest : List Char} {read : Step}
      {pieces : List Piece} {outcome : Except ExpressionFault (List Step)}
      (hslashes : ∀ c ∈ slashes, c = '/') (hstep : takeStep behind = some (step, rest))
      (hparse : Step.parse (axisOf (String.ofList slashes)) step = .ok read)
      (h : Reads text false false rest pieces outcome) :
      Reads text first bare (slashes ++ behind)
        (.separator (String.ofList slashes) :: .step (String.ofList step) :: pieces)
        (outcome.map (read :: ·))

section Round

variable {text : String} {fuel : Nat} {first bare : Bool} {axis : Axis}
  {cs slashes behind step rest : List Char}

theorem parseSteps_of_alone (hne : cs ≠ []) (hsep : takeSeparator bare cs = some (axis, [])) :
    parseSteps text (fuel + 1) first bare cs =
      if axis = .child && first then .ok [] else .error (.separatorLast text) := by
  rw [parseSteps, hsep]
  exact hne

theorem parseSteps_of_takeStep (hsep : takeSeparator bare (slashes ++ behind) = some (axis, behind))
    (hne : behind ≠ []) (hstep : takeStep behind = some (step, rest)) :
    parseSteps text (fuel + 1) first bare (slashes ++ behind) =
      (Step.parse axis step >>= fun read =>
        (parseSteps text fuel false false rest).map (read :: ·)) := by
  obtain ⟨c, others, rfl⟩ := List.exists_cons_of_ne_nil hne
  rw [parseSteps, hsep]
  · dsimp only
    rw [hstep]
    rfl
  · simp

/-- The slices in front of and behind the slashes. -/
theorem slices_of_separator (slashes behind : List Char) :
    let rest := String.ofList (slashes ++ behind)
    Text.slice? rest 0 (utf8Len (slashes ++ behind) - utf8Len behind) =
        some (String.ofList slashes) ∧
      Text.slice? rest (utf8Len (slashes ++ behind) - utf8Len behind) rest.utf8ByteSize =
        some (String.ofList behind) := by
  intro rest
  have hwidth : utf8Len (slashes ++ behind) - utf8Len behind = utf8Len slashes := by
    rw [String.utf8Len_append]
    omega
  rw [hwidth]
  exact ⟨Text.slice?_front slashes behind, Text.slice?_rest slashes behind⟩

theorem readSteps_of_alone (hne : cs ≠ []) (hsep : takeSeparator bare cs = some (axis, [])) :
    readSteps text (fuel + 1) first bare (String.ofList cs) =
      some ⟨[.separator (String.ofList cs)],
        if axis = .child && first then .ok [] else .error (.separatorLast text)⟩ := by
  have hslices := slices_of_separator cs []
  rw [List.append_nil] at hslices
  have hcs : String.ofList cs ≠ "" := by simpa using hne
  rw [readSteps, if_neg hcs, String.toList_ofList, hsep]
  simp only [hslices, Option.bind_eq_bind, Option.bind_some]
  rfl

/-- The slices in front of and behind the end of a step. -/
theorem slices_of_takeStep (hstep : takeStep behind = some (step, rest)) :
    let text := String.ofList behind
    stepEnd text = some (.ok (utf8Len step)) ∧
      Text.slice? text 0 (utf8Len step) = some (String.ofList step) ∧
      Text.slice? text (utf8Len step) text.utf8ByteSize = some (String.ofList rest) := by
  intro text
  have hend := stepEnd_eq hstep
  obtain ⟨rfl, -⟩ := ExprToken.closesAll_of_takeBracketed hstep
  exact ⟨hend, Text.slice?_front step rest, Text.slice?_rest step rest⟩

/-- Up to the end of a step all slices are there. Reading ends with a step that is refused, and
goes on behind one that is read. -/
theorem readSteps_of_takeStep
    (hsep : takeSeparator bare (slashes ++ behind) = some (axis, behind)) (hne : behind ≠ [])
    (hstep : takeStep behind = some (step, rest)) :
    (∀ fault, Step.parse axis step = .error fault →
      readSteps text (fuel + 1) first bare (String.ofList (slashes ++ behind)) =
        some ⟨[.separator (String.ofList slashes), .step (String.ofList step)], .error fault⟩) ∧
    ∀ read, Step.parse axis step = .ok read →
      readSteps text (fuel + 1) first bare (String.ofList (slashes ++ behind)) =
        (readSteps text fuel false false (String.ofList rest)).map fun others =>
          ⟨.separator (String.ofList slashes) :: .step (String.ofList step) :: others.pieces,
            others.outcome.map (read :: ·)⟩ := by
  obtain ⟨hseparator, hbehind⟩ := slices_of_separator slashes behind
  obtain ⟨hend, htaken, hrest⟩ := slices_of_takeStep hstep
  have hall : String.ofList (slashes ++ behind) ≠ "" := by simp [hne]
  have hbehindNe : String.ofList behind ≠ "" := by simpa using hne
  rw [readSteps, if_neg hall, String.toList_ofList, hsep]
  simp only [hseparator, hbehind, hend, htaken, hrest, if_neg hbehindNe, Step.readSliced_eq,
    Option.bind_eq_bind, Option.bind_some]
  constructor
  · intro fault hparse
    rw [hparse]
  · intro read hparse
    rw [hparse]
    dsimp only
    rw [Option.map_eq_bind]
    rfl

end Round

/-- A path whose brackets are closed is read step by step. In slices it is read as from
characters, and every slice is there. -/
theorem exists_reads (text : String) (first bare : Bool) {fuel : Nat} {cs : List Char}
    (hfuel : cs.length ≤ fuel) (hclosed : ClosesAll cs)
    (hlead : bare = false → ∀ c ∈ cs.head?, c = '/') :
    ∃ pieces outcome, Reads text first bare cs pieces outcome ∧
      readSteps text fuel first bare (String.ofList cs) = some ⟨pieces, outcome⟩ ∧
      parseSteps text fuel first bare cs = outcome := by
  -- In each round: what is left leaves nothing open, and starts with a slash unless it may do
  -- without. So a separator and a step can be taken, and the same holds of what is left then.
  induction fuel generalizing first bare cs with
  | zero =>
    obtain rfl := List.length_eq_zero_iff.mp (Nat.le_zero.mp hfuel)
    exact ⟨[], .ok [], .done, rfl, by rw [parseSteps]⟩
  | succ fuel ih =>
    by_cases hne : cs = []
    · subst hne
      exact ⟨[], .ok [], .done, rfl, by rw [parseSteps]⟩
    obtain ⟨axis, behind, hsep⟩ := exists_takeSeparator hne hlead
    by_cases hbehind : behind = []
    · subst hbehind
      exact ⟨_, _, .alone hne hsep, readSteps_of_alone hne hsep, parseSteps_of_alone hne hsep⟩
    obtain ⟨slashes, rfl, rfl, hslashes, -⟩ := takeSeparator_split hsep
    have hbehindClosed := ((closesAll_of_slashes hslashes).append_iff behind).mp hclosed
    obtain ⟨step, rest, hstep⟩ := ExprToken.exists_takeBracketed (· ≠ '/') hbehindClosed
    have hshorter : rest.length ≤ fuel := by
      have hlength := length_of_takeStep hsep hbehind hstep
      omega
    obtain ⟨hrefused, hread⟩ := readSteps_of_takeStep hsep hbehind hstep
    cases hparse : Step.parse (axisOf (String.ofList slashes)) step with
    | error fault =>
      refine ⟨_, _, .refused hslashes hstep hparse, hrefused fault hparse, ?_⟩
      rw [parseSteps_of_takeStep hsep hbehind hstep, hparse]
      rfl
    | ok read =>
      obtain ⟨hsplit, hstepClosed⟩ := ExprToken.closesAll_of_takeBracketed hstep
      rw [hsplit] at hbehindClosed
      have hrestClosed := (hstepClosed.append_iff rest).mp hbehindClosed
      have hrestLead : ∀ c ∈ rest.head?, c = '/' := by
        intro c hc
        simpa using ExprToken.head?_of_takeBracketed hstep c hc
      obtain ⟨pieces, outcome, hreads, hsliced, hparsed⟩ :=
        ih false false hshorter hrestClosed fun _ => hrestLead
      refine ⟨_, _, .step hslashes hstep hparse hreads, ?_, ?_⟩
      · rw [hread read hparse, hsliced, Option.map_some]
      · rw [parseSteps_of_takeStep hsep hbehind hstep, hparse, hparsed]
        rfl

namespace Reads

variable {text : String} {first bare : Bool} {cs : List Char} {pieces : List Piece}
  {outcome : Except ExpressionFault (List Step)}

/-- Nothing is lost: the pieces are the front of the text, and what is left stands behind a step
that is refused. -/
theorem front (h : Reads text first bare cs pieces outcome) :
    ∃ unread, cs = Piece.joined pieces ++ unread ∧
      (unread = [] ∨ ∃ before slashes step fault,
        pieces = before ++ [.separator slashes, .step step] ∧
        Step.parse (axisOf slashes) step.toList = .error fault ∧ outcome = .error fault) := by
  induction h with
  | done => exact ⟨[], rfl, .inl rfl⟩
  | alone hne hsep =>
    refine ⟨[], ?_, .inl rfl⟩
    simp [Piece.joined, Piece.text]
  | @refused _ _ slashes behind step rest fault hslashes hstep hparse =>
    obtain ⟨rfl, -⟩ := ExprToken.closesAll_of_takeBracketed hstep
    refine ⟨rest, ?_, .inr ⟨[], String.ofList slashes, String.ofList step, fault, rfl, ?_, rfl⟩⟩
    · simp [Piece.joined, Piece.text]
    · rw [String.toList_ofList, hparse]
  | @step _ _ slashes behind step rest read pieces outcome hslashes hstep hparse _ ih =>
    obtain ⟨rfl, -⟩ := ExprToken.closesAll_of_takeBracketed hstep
    obtain ⟨unread, rfl, hunread⟩ := ih
    refine ⟨unread, ?_, hunread.imp_right ?_⟩
    · simp [Piece.joined, Piece.text]
    · rintro ⟨before, slashes', refused, fault, rfl, hrefused, rfl⟩
      exact ⟨.separator (String.ofList slashes) :: .step (String.ofList step) :: before, slashes',
        refused, fault, rfl, hrefused, rfl⟩

/-- If steps come out, the pieces make them. -/
theorem makes (h : Reads text first bare cs pieces outcome) {steps : List Step}
    (hok : outcome = .ok steps) : MakesSteps first pieces steps := by
  induction h generalizing steps with
  | done =>
    cases hok
    exact .nil
  | @alone first _ axis cs hne hsep =>
    split at hok
    · next hchild =>
      rw [Bool.and_eq_true, decide_eq_true_eq] at hchild
      obtain ⟨rfl, rfl⟩ := hchild
      obtain rfl := eq_slash_of_takeSeparator hne hsep
      cases hok
      exact .slash
    · cases hok
  | refused => cases hok
  | @step _ _ slashes _ step _ read _ outcome _ _ hparse _ ih =>
    cases outcome with
    | error fault => cases hok
    | ok others =>
      cases hok
      exact .cons (by rw [String.toList_ofList, hparse]) (ih rfl)

/-- Every piece leaves nothing open. -/
theorem closesAll (h : Reads text first bare cs pieces outcome) :
    ∀ piece ∈ pieces, ClosesAll piece.text.toList := by
  induction h with
  | done => simp
  | alone hne hsep =>
    obtain ⟨slashes, rfl, -, hslashes, -⟩ := takeSeparator_split hsep
    rw [List.append_nil]
    simpa [Piece.text] using closesAll_of_slashes hslashes
  | refused hslashes hstep hparse =>
    have hclosed := (ExprToken.closesAll_of_takeBracketed hstep).2
    simpa [Piece.text] using ⟨closesAll_of_slashes hslashes, hclosed⟩
  | step hslashes hstep hparse _ ih =>
    have hclosed := (ExprToken.closesAll_of_takeBracketed hstep).2
    simpa [Piece.text] using ⟨closesAll_of_slashes hslashes, hclosed, ih⟩

/-- No bracket is missed. -/
theorem ne_unclosed (h : Reads text first bare cs pieces outcome) :
    outcome ≠ .error .unclosedPredicate := by
  induction h with
  | done =>
    intro h
    cases h
  | alone hne hsep =>
    intro h
    split at h <;> cases h
  | refused hslashes hstep hparse =>
    intro h
    cases h
    exact Step.parse_ne_unclosed (ExprToken.closesAll_of_takeBracketed hstep).2 hparse
  | @step _ _ _ _ _ _ _ _ outcome _ _ _ _ ih =>
    intro h
    cases outcome with
    | error fault =>
      cases h
      exact ih rfl
    | ok steps => cases h

end Reads

/-! ## Whole paths -/

theorem ofSteps_ne_unclosed (text : String) (start : PathStart) (steps : List Step) :
    ofSteps text start steps ≠ .error .unclosedPredicate := by
  intro h
  rw [ofSteps] at h
  split at h <;> cases h

theorem eq_of_ofSteps {text : String} {start : PathStart} {steps : List Step} {p : Path}
    (h : ofSteps text start steps = .ok p) : p = { start, steps } := by
  rw [ofSteps] at h
  split at h
  · cases h
  · cases h
    rfl

/-- Behind the start of a path, its steps are cut off one after the other. -/
theorem cut_of_reads (lead : List Piece) {text : String} {bare : Bool} {pieces : List Piece}
    {rest : List Char} {start : PathStart} {outcome : Except ExpressionFault (List Step)}
    (h : Reads text true bare rest pieces outcome)
    (hclosed : ∀ piece ∈ lead, ClosesAll piece.text.toList)
    (htext : text.toList = Piece.joined lead ++ rest)
    (hmakes : ∀ {steps}, MakesSteps true pieces steps → Makes (lead ++ pieces) { start, steps }) :
    Cut text (lead ++ pieces) (outcome >>= ofSteps text start) := by
  obtain ⟨unread, rfl, hunread⟩ := h.front
  have hjoined : text.toList = Piece.joined (lead ++ pieces) ++ unread := by
    rw [htext, Piece.joined, Piece.joined, Piece.joined, List.flatMap_append, List.append_assoc]
  constructor
  case closed =>
    -- Neither the steps miss a bracket nor the last check, which asks for attributes only.
    intro hfault
    rcases bind_eq_error hfault with hsteps | ⟨steps, -, hsteps⟩
    · exact h.ne_unclosed hsteps
    · exact ofSteps_ne_unclosed text start steps hsteps
  case whole =>
    intro p hp
    obtain ⟨steps, rfl, hp⟩ := bind_eq_ok hp
    rcases hunread with rfl | ⟨before, slashes, step, fault, -, -, hfault⟩
    · rw [List.append_nil] at hjoined
      rw [eq_of_ofSteps hp]
      exact ⟨hjoined, hmakes (h.makes rfl)⟩
    · cases hfault
  case front =>
    refine ⟨unread, hjoined, fun hne => ?_⟩
    rcases hunread with rfl | ⟨before, slashes, step, fault, rfl, hstep, rfl⟩
    · exact absurd rfl hne
    · exact ⟨lead ++ before, slashes, step, fault, (List.append_assoc _ _ _).symm, hstep, rfl⟩
  case apart =>
    intro before hbefore
    refine Piece.closesAll_joined fun piece hpiece => ?_
    rcases List.mem_append.mp (hbefore.subset hpiece) with hin | hin
    · exact hclosed piece hin
    · exact h.closesAll piece hin

section Variable

variable {text : String} {name rest : List Char}

/-- A variable ends at the first slash. -/
theorem split_variable (hname : ∀ c ∈ name, c ≠ '/') (hrest : ∀ c ∈ rest.head?, c = '/') :
    (name ++ rest).takeWhile (· ≠ '/') = name ∧ (name ++ rest).dropWhile (· ≠ '/') = rest := by
  have hgo : ∀ c ∈ name, decide (c ≠ '/') = true := by simpa using hname
  have hstop : ∀ c ∈ rest.head?, decide (c ≠ '/') = false := by simpa using hrest
  exact ExprToken.takeWhile_append_stop hgo hstop

/-- The variable is sliced off in front of the first slash. -/
theorem readSliced_variable (htext : text = String.ofList ('$' :: (name ++ rest)))
    (hname : ∀ c ∈ name, c ≠ '/') (hrest : ∀ c ∈ rest.head?, c = '/')
    {steps : Reading (List Step)}
    (hsteps : readSteps text rest.length true false (String.ofList rest) = some steps) :
    readSliced text = some ⟨.start (String.ofList ('$' :: name)) :: steps.pieces,
      steps.outcome >>= ofSteps text (.fromVariable (String.ofList ('$' :: name)))⟩ := by
  have hdollar : text.toList.head? = some '$' := by
    rw [htext, String.toList_ofList]
    rfl
  have hnamed : Text.slice? text 1 text.utf8ByteSize = some (String.ofList (name ++ rest)) := by
    rw [htext]
    exact Text.slice?_rest ['$'] (name ++ rest)
  have hstart : "$" ++ String.ofList name = String.ofList ('$' :: name) := by
    rw [← List.singleton_append, String.ofList_append]
  rw [readSliced, if_pos hdollar]
  simp only [hnamed, (split_variable hname hrest).1, Text.slice?_front, Text.slice?_rest, hsteps,
    hstart, String.toList_ofList, Option.bind_eq_bind, Option.bind_some]

/-- A path that starts with a variable is read from the first slash on. -/
theorem parse_variable (htext : text = String.ofList ('$' :: (name ++ rest)))
    (hname : ∀ c ∈ name, c ≠ '/') (hrest : ∀ c ∈ rest.head?, c = '/') :
    Path.parse text = (parseSteps text rest.length true false rest >>=
      ofSteps text (.fromVariable (String.ofList ('$' :: name)))) := by
  have hstart : takeStart text.toList =
      (.fromVariable (String.ofList ('$' :: name)), rest) := by
    rw [htext, String.toList_ofList, takeStart, (split_variable hname hrest).1,
      (split_variable hname hrest).2]
  rw [parse_eq_ofSteps, hstart]
  rfl

end Variable

/-- A path that starts with no variable is read from its front on. -/
theorem parse_context {text : String} (h : text.toList.head? ≠ some '$') :
    Path.parse text = (parseSteps text text.toList.length true true text.toList >>=
      ofSteps text .context) := by
  have hstart : takeStart text.toList = (.context, text.toList) := by
    unfold takeStart
    split
    · next tail heq =>
      rw [heq] at h
      exact absurd rfl h
    · rfl
  rw [parse_eq_ofSteps, hstart]
  rfl

/-- A path among the tokens of an expression starts with no variable, or with one that ends at a
slash and has no bracket in its name. -/
theorem start_of_mem_lex {input text : String} {tokens : List ExprToken}
    (hlex : ExprToken.lex input = .ok tokens) (hmem : .path text ∈ tokens) :
    text.toList.head? ≠ some '$' ∨ ∃ name rest, text = String.ofList ('$' :: (name ++ rest)) ∧
      (∀ c ∈ name, c ≠ '/') ∧ (∀ c ∈ name, c ≠ '[') ∧ ∀ c ∈ rest.head?, c = '/' := by
  by_cases hdollar : text.toList.head? = some '$'
  · right
    obtain ⟨tail, htail⟩ := List.head?_eq_some_iff.mp hdollar
    have hname : ∀ c ∈ tail.takeWhile (· ≠ '/'), c ≠ '/' := by
      intro c hc
      simpa using List.all_eq_true.mp List.all_takeWhile c hc
    refine ⟨tail.takeWhile (· ≠ '/'), tail.dropWhile (· ≠ '/'), ?_, hname, ?_,
      Text.head?_dropWhile_ne tail⟩
    · rw [List.takeWhile_append_dropWhile, ← htail, String.ofList_toList]
    · -- The names that a path reads are spelled with letters, digits and underscores.
      have hspelled := ExprToken.spelled_lex hlex _ hmem
      rw [ExprToken.Spelled, ExprToken.reads, htail, takeStart] at hspelled
      obtain ⟨chars, hchars, -, hvariable⟩ := hspelled _ (List.mem_singleton.mpr rfl)
      rw [String.toList_ofList] at hchars
      cases hchars
      intro c hc
      exact ne_bracket_of_isPathChar (isPathChar_of_isVariableChar (hvariable c hc))
  · exact .inl hdollar

/-- Every path among the tokens of an expression can be read in slices: each slice that is asked
for is there, and the outcome is that of reading characters. The pieces are cut as `Cut` says: no
bracket is missed, nothing is lost, and no cut falls into a predicate. -/
theorem cut_of_mem_lex {input text : String} {tokens : List ExprToken}
    (hlex : ExprToken.lex input = .ok tokens) (hmem : .path text ∈ tokens) :
    ∃ reading, readSliced text = some reading ∧ reading.outcome = Path.parse text ∧
      Cut text reading.pieces (Path.parse text) := by
  have hclosed := ExprToken.closesAll_of_mem_lex hlex hmem
  rcases start_of_mem_lex hlex hmem with hdollar | ⟨name, rest, htext, hslash, hbracket, hrest⟩
  · obtain ⟨pieces, outcome, hreads, hsliced, hparsed⟩ :=
      exists_reads text true true (Nat.le_refl _) hclosed fun h => absurd h.symm Bool.false_ne_true
    rw [parse_context hdollar, hparsed]
    refine ⟨⟨pieces, outcome >>= ofSteps text .context⟩, ?_, rfl,
      cut_of_reads [] hreads (by simp) rfl .context⟩
    rw [String.ofList_toList] at hsliced
    rw [readSliced, if_neg hdollar, hsliced]
    rfl
  · have hchars : text.toList = '$' :: name ++ rest := by
      rw [htext, String.toList_ofList, List.cons_append]
    have hname : ClosesAll ('$' :: name) :=
      closesAll_of_no_bracket (List.forall_mem_cons.mpr ⟨by decide, hbracket⟩)
    -- The name has no bracket, so the brackets of the steps are closed among themselves.
    rw [hchars, hname.append_iff] at hclosed
    obtain ⟨pieces, outcome, hreads, hsliced, hparsed⟩ :=
      exists_reads text true false (Nat.le_refl _) hclosed fun _ => hrest
    rw [parse_variable htext hslash hrest, hparsed]
    refine ⟨⟨.start (String.ofList ('$' :: name)) :: pieces, _⟩,
      readSliced_variable htext hslash hrest hsliced, rfl,
      cut_of_reads [.start (String.ofList ('$' :: name))] hreads ?_ ?_ .fromVariable⟩
    · simpa [Piece.text] using hname
    · simpa [Piece.joined, Piece.text] using hchars

/-- The text of a token that is a path. -/
def pathText? : ExprToken → Option String
  | .path text => some text
  | _ => none

/-- A bracket and a slash in quotes, and characters of two bytes. -/
theorem cut_of_mem_lex_accents :
    let text := "$é/p[@n='a]/ü']//w[2]"
    (∃ tokens, ExprToken.lex "count($é/p[@n='a]/ü']//w[2]) + 1" = .ok tokens ∧
      .path text ∈ tokens) ∧
    ∃ reading, readSliced text = some reading ∧ reading.outcome = Path.parse text ∧
      reading.pieces = [.start "$é", .separator "/", .step "p[@n='a]/ü']", .separator "//",
        .step "w[2]"] ∧
      Cut text reading.pieces (Path.parse text) := by
  intro text
  have hpaths : (ExprToken.lex "count($é/p[@n='a]/ü']//w[2]) + 1").toOption.map
      (·.filterMap pathText?) = some [text] := by decide +kernel
  have hpieces : (readSliced text).map (·.pieces) = some [.start "$é", .separator "/",
      .step "p[@n='a]/ü']", .separator "//", .step "w[2]"] := by decide +kernel
  obtain ⟨tokens, hlex, hmem⟩ : ∃ tokens,
      ExprToken.lex "count($é/p[@n='a]/ü']//w[2]) + 1" = .ok tokens ∧ .path text ∈ tokens := by
    cases hlex : ExprToken.lex "count($é/p[@n='a]/ü']//w[2]) + 1" with
    | error fault =>
      rw [hlex] at hpaths
      cases hpaths
    | ok tokens =>
      rw [hlex] at hpaths
      have hfilter : tokens.filterMap pathText? = [text] := Option.some.inj hpaths
      have hin : text ∈ tokens.filterMap pathText? := by
        rw [hfilter]
        exact List.mem_singleton.mpr rfl
      obtain ⟨token, htoken, hpath⟩ := List.mem_filterMap.mp hin
      cases token with
      | path source => exact ⟨tokens, rfl, Option.some.inj hpath ▸ htoken⟩
      | _ => cases hpath
  obtain ⟨reading, hread, houtcome, hcut⟩ := cut_of_mem_lex hlex hmem
  rw [hread] at hpieces
  exact ⟨⟨tokens, hlex, hmem⟩, reading, hread, houtcome, Option.some.inj hpieces, hcut⟩

end Path

end MarkupScript
