import MarkupScript.Expression.Path
import MarkupScript.Proofs.Script.Units

/-!
# The text of a path

A path without predicates is written as its steps with slashes in front. The first step of a path
that starts at the scope may stand without its slash.

* `Path.Plain`: a path without predicates, with names that can be written.
* `Path.write`: its text.
* `takeBracketed_append`: characters that go on are taken up to one that does not.
* `Path.parse_write`: a plain path is read back from its text.
* `Path.plain_of_parse`: every path that is read from a text without predicates is plain.
-/

namespace MarkupScript

open ExprToken

/-! ## Plain paths -/

namespace ExprToken

/-- The characters of the name in a step. -/
def isStepChar (c : Char) : Bool := isPathChar c && c ≠ '/'

/-- Characters that are taken for a path where an operand is expected. -/
def LeadsPath (cs : List Char) : Prop :=
  ∃ c rest, cs = c :: rest ∧ (isNameStart c = true ∨ c = '@' ∨ c = '*' ∨
    c = '.' ∧ ∀ d ∈ rest.head?, Decimal.isDigit d = false)

/-- A variable is a dollar sign and a name. -/
def IsVariable (cs : List Char) : Prop :=
  ∃ name, cs = '$' :: name ∧ name ≠ [] ∧ ∀ c ∈ name, isVariableChar c = true

end ExprToken

namespace NameTest

def write : NameTest → List Char
  | any => ['*']
  | named name => name.toList

/-- The test is written as some characters of a step that do not stand for another test. -/
def Plain (test : NameTest) : Prop :=
  test.write ≠ [] ∧ (∀ c ∈ test.write, isStepChar c = true) ∧ test ≠ named "*"

/-- Written alone, the test is neither an attribute nor one of the steps of dots. -/
def Apart (test : NameTest) : Prop :=
  test.write.head? ≠ some '@' ∧ test.write ≠ ['.'] ∧ test.write ≠ ['.', '.']

theorem ofText_write {test : NameTest} (h : test.Plain) :
    ofText (String.ofList test.write) = test := by
  cases test with
  | any => rfl
  | named name =>
    have hne : ¬ name = "*" := by
      rintro rfl
      exact h.2.2 rfl
    rw [write, String.ofList_toList, ofText, if_neg hne]

end NameTest

namespace Step

/-- A step without predicates that can be written. -/
def Plain : Step → Prop
  | nodes .self test predicates | nodes .parent test predicates => test = .any ∧ predicates = []
  | nodes .child test predicates | nodes .descendant test predicates =>
    test.Plain ∧ test.Apart ∧ predicates = []
  | attributes test => test.Plain

/-- A step without the slashes in front. -/
def write : Step → List Char
  | nodes .self _ _ => ['.']
  | nodes .parent _ _ => ['.', '.']
  | nodes .child test _ | nodes .descendant test _ => test.write
  | attributes test => '@' :: test.write

/-- The axis that the slashes in front of a step say. -/
def axis : Step → Axis
  | nodes .descendant _ _ => .descendant
  | _ => .child

def separator (step : Step) : List Char :=
  if step.axis = .descendant then ['/', '/'] else ['/']

end Step

namespace PathStart

def write : PathStart → List Char
  | context => []
  | fromVariable name => name.toList

def Plain : PathStart → Prop
  | context => True
  | fromVariable name => IsVariable name.toList

end PathStart

namespace Path

/-- A path without predicates that can be written. An attribute step is its last. -/
structure Plain (p : Path) : Prop where
  start : p.start.Plain
  steps : ∀ step ∈ p.steps, step.Plain
  inner : p.steps.dropLast.any Step.isAttribute = false

/-- Steps with the slashes in front of them. -/
def writeSteps (steps : List Step) : List Char :=
  steps.flatMap fun step => step.separator ++ step.write

/-- What follows the start of a path. If it is `bare`, the slash in front of the first step is
left out. -/
def writeTail (bare : Bool) : List Step → List Char
  | [] => ['/']
  | step :: rest => (if bare then [] else step.separator) ++ (step.write ++ writeSteps rest)

/-- The text of a path. -/
def write (bare : Bool) (p : Path) : List Char :=
  p.start.write ++ writeTail bare p.steps

/-- A path that starts at the scope needs no slash in front if its first step goes to children,
attributes, the parent or the scope itself, and leads in a path. -/
def Bare (p : Path) : Prop :=
  p.start = .context ∧
    ∃ step rest, p.steps = step :: rest ∧ step.axis = .child ∧ LeadsPath step.write

end Path

/-! ## Characters that go on -/

namespace ExprToken

/-- Characters that go on are taken up to one that does not. -/
theorem takeBracketed_append {continues : Char → Bool} {cs rest : List Char}
    (hcs : ∀ c ∈ cs, continues c = true ∧ c ≠ '[')
    (hrest : ∀ c ∈ rest.head?, continues c = false ∧ c ≠ '[') :
    takeBracketed continues (cs ++ rest) = some (cs, rest) := by
  induction cs with
  | nil =>
    cases rest with
    | nil =>
      rw [List.append_nil, takeBracketed]
    | cons c rest =>
      rcases hrest c rfl with ⟨hstop, hbracket⟩
      rw [List.nil_append, takeBracketed, if_neg hbracket, hstop, if_neg Bool.false_ne_true]
  | cons c cs ih =>
    rcases hcs c List.mem_cons_self with ⟨hgo, hbracket⟩
    rw [List.cons_append, takeBracketed, if_neg hbracket, if_pos hgo,
      ih fun d hd => hcs d (List.mem_cons_of_mem _ hd)]
    rfl

theorem takeWhile_append_stop {p : Char → Bool} {cs rest : List Char}
    (hcs : ∀ c ∈ cs, p c = true) (hrest : ∀ c ∈ rest.head?, p c = false) :
    (cs ++ rest).takeWhile p = cs ∧ (cs ++ rest).dropWhile p = rest := by
  rw [List.takeWhile_append_of_pos hcs, List.dropWhile_append_of_pos hcs]
  cases rest with
  | nil => simp
  | cons c rest => simp [hrest c rfl]

end ExprToken

/-! ## Steps -/

namespace Step

theorem ne_bracket_of_isStepChar {c : Char} (h : isStepChar c = true) : c ≠ '[' := by
  rintro rfl
  exact absurd h (by decide)

theorem ne_slash_of_isStepChar {c : Char} (h : isStepChar c = true) : c ≠ '/' := by
  rintro rfl
  exact absurd h (by decide)

theorem Plain.stepChars {step : Step} (h : step.Plain) : ∀ c ∈ step.write, isStepChar c = true := by
  cases step with
  | attributes test =>
    intro c hc
    rcases List.mem_cons.mp hc with rfl | hc
    · decide
    · exact h.2.1 c hc
  | nodes axis test predicates =>
    cases axis with
    | child => exact h.1.2.1
    | descendant => exact h.1.2.1
    | parent =>
      intro c hc
      have hdot : c = '.' := by simpa [write] using hc
      rw [hdot]
      decide
    | self =>
      intro c hc
      have hdot : c = '.' := by simpa [write] using hc
      rw [hdot]
      decide

theorem Plain.write_ne_nil {step : Step} (h : step.Plain) : step.write ≠ [] := by
  cases step with
  | attributes test => exact List.cons_ne_nil _ _
  | nodes axis test predicates =>
    cases axis with
    | child => exact h.1.1
    | descendant => exact h.1.1
    | parent => exact List.cons_ne_nil _ _
    | self => exact List.cons_ne_nil _ _

/-- Characters without a bracket are a name without predicates. -/
theorem takeWhile_name {cs : List Char} (h : ∀ c ∈ cs, isStepChar c = true) :
    cs.takeWhile (· ≠ '[') = cs ∧ cs.dropWhile (· ≠ '[') = [] := by
  have hall : ∀ c ∈ cs, decide (c ≠ '[') = true := by
    intro c hc
    exact decide_eq_true (ne_bracket_of_isStepChar (h c hc))
  have hsplit : (cs ++ []).takeWhile (· ≠ '[') = cs ∧ (cs ++ []).dropWhile (· ≠ '[') = [] :=
    takeWhile_append_stop hall (by simp)
  rwa [List.append_nil] at hsplit

/-- A test that stands apart is read as a test. -/
theorem parse_test {test : NameTest} (h : test.Plain) (hapart : test.Apart) (axis : Axis) :
    Step.parse axis test.write = .ok (.nodes axis test []) := by
  rcases takeWhile_name h.2.1 with ⟨htake, hdrop⟩
  rcases hapart with ⟨hattribute, hself, hparent⟩
  rw [Step.parse]
  simp only [htake, hdrop, parsePredicates, bind, Except.bind]
  split
  · next label hlabel =>
    rw [hlabel] at hattribute
    exact absurd rfl hattribute
  · next hnil => exact absurd hnil h.1
  · next hdot => exact absurd hdot hself
  · next hdots => exact absurd hdots hparent
  · rw [NameTest.ofText_write h]

theorem parse_attributes {test : NameTest} (h : test.Plain) :
    Step.parse .child ('@' :: test.write) = .ok (.attributes test) := by
  have hplain : Step.Plain (.attributes test) := h
  rcases takeWhile_name hplain.stepChars with ⟨htake, hdrop⟩
  have hlabel : test.write.isEmpty = false := by
    rw [← Bool.not_eq_true, List.isEmpty_iff]
    exact h.1
  rw [Step.parse]
  simp only [write] at htake hdrop
  simp only [htake, hdrop, parsePredicates, bind, Except.bind]
  simp [hlabel, NameTest.ofText_write h]

/-- A plain step is read back. -/
theorem parse_write {step : Step} (h : step.Plain) :
    Step.parse step.axis step.write = .ok step := by
  cases step with
  | attributes test => exact parse_attributes h
  | nodes axis test predicates =>
    cases axis with
    | child =>
      rcases h with ⟨htest, hapart, rfl⟩
      exact parse_test htest hapart .child
    | descendant =>
      rcases h with ⟨htest, hapart, rfl⟩
      exact parse_test htest hapart .descendant
    | parent =>
      rcases h with ⟨rfl, rfl⟩
      simp [Step.parse, write, axis, parsePredicates, bind, Except.bind]
    | self =>
      rcases h with ⟨rfl, rfl⟩
      simp [Step.parse, write, axis, parsePredicates, bind, Except.bind]

end Step

/-! ## Paths -/

namespace Path

theorem writeSteps_cons (step : Step) (rest : List Step) :
    writeSteps (step :: rest) = step.separator ++ (step.write ++ writeSteps rest) := by
  rw [writeSteps, List.flatMap_cons, List.append_assoc]
  rfl

theorem writeTail_slashed (step : Step) (rest : List Step) :
    writeTail false (step :: rest) = writeSteps (step :: rest) := by
  rw [writeSteps_cons]
  rfl

theorem writeTail_bare (step : Step) (rest : List Step) :
    writeTail true (step :: rest) = step.write ++ writeSteps rest := rfl

theorem takeSeparator_separator (step : Step) {cs : List Char} (hcs : cs.head? ≠ some '/')
    (bare : Bool) : takeSeparator bare (step.separator ++ cs) = some (step.axis, cs) := by
  have hchild : step.axis ≠ .descendant → step.axis = .child := by
    cases step with
    | attributes test => exact fun _ => rfl
    | nodes axis test predicates => cases axis <;> simp [Step.axis]
  unfold Step.separator
  by_cases haxis : step.axis = .descendant
  · rw [if_pos haxis, haxis]
    rfl
  · rw [if_neg haxis, hchild haxis, List.singleton_append, takeSeparator]
    rintro rest rfl
    exact hcs rfl

theorem head?_writeSteps_cons (step : Step) (rest : List Step) :
    (writeSteps (step :: rest)).head? = some '/' := by
  rw [writeSteps_cons]
  unfold Step.separator
  split <;> rfl

theorem head?_writeTail (steps : List Step) : (writeTail false steps).head? = some '/' := by
  cases steps with
  | nil => rfl
  | cons step rest =>
    rw [writeTail_slashed]
    exact head?_writeSteps_cons step rest

theorem head?_writeSteps (steps : List Step) : ∀ c ∈ (writeSteps steps).head?, c = '/' := by
  intro c hc
  cases steps with
  | nil => cases hc
  | cons step rest =>
    rw [head?_writeSteps_cons] at hc
    exact (Option.some.inj hc).symm

theorem takeStep_write {step : Step} (h : step.Plain) (rest : List Step) :
    takeStep (step.write ++ writeSteps rest) = some (step.write, writeSteps rest) := by
  refine takeBracketed_append ?_ ?_
  · intro c hc
    have hchar := h.stepChars c hc
    exact ⟨decide_eq_true (Step.ne_slash_of_isStepChar hchar),
      Step.ne_bracket_of_isStepChar hchar⟩
  · intro c hc
    rw [head?_writeSteps rest c hc]
    decide

theorem head?_write_ne_slash {step : Step} (h : step.Plain) (cs : List Char) :
    (step.write ++ cs).head? ≠ some '/' := by
  cases hwrite : step.write with
  | nil => exact absurd hwrite h.write_ne_nil
  | cons c rest =>
    intro hhead
    have hc : c = '/' := Option.some.inj hhead
    exact Step.ne_slash_of_isStepChar (h.stepChars c (hwrite ▸ List.mem_cons_self)) hc

/-- One step is read, with slashes in front or not, and then the others. -/
theorem parseSteps_step {step : Step} (h : step.Plain) {rest : List Step} {cs : List Char}
    {bare : Bool} (hcs : takeSeparator bare cs = some (step.axis, step.write ++ writeSteps rest))
    (source : String) (fuel : Nat) (first : Bool) :
    parseSteps source (fuel + 1) first bare cs =
      (parseSteps source fuel false false (writeSteps rest)).map (step :: ·) := by
  cases hwrite : step.write with
  | nil => exact absurd hwrite h.write_ne_nil
  | cons c others =>
    have htake := takeStep_write h rest
    rw [hwrite, List.cons_append] at htake hcs
    rw [parseSteps]
    · simp only [hcs, htake]
      rw [← hwrite, Step.parse_write h]
      cases parseSteps source fuel false false (writeSteps rest) <;> rfl
    · rintro rfl
      cases bare <;> simp [takeSeparator] at hcs

/-- Steps with their slashes are read back. -/
theorem parseSteps_writeSteps {steps : List Step} (h : ∀ step ∈ steps, step.Plain)
    {fuel : Nat} (hfuel : steps.length ≤ fuel) (source : String) (first bare : Bool) :
    parseSteps source fuel first bare (writeSteps steps) = .ok steps := by
  induction steps generalizing fuel first bare with
  | nil => rw [writeSteps, List.flatMap_nil, parseSteps]
  | cons step rest ih =>
    rcases List.forall_mem_cons.mp h with ⟨hstep, hrest⟩
    rcases fuel with _ | fuel
    · simp at hfuel
    have hcs : takeSeparator bare (writeSteps (step :: rest)) =
        some (step.axis, step.write ++ writeSteps rest) := by
      rw [writeSteps_cons]
      exact takeSeparator_separator step (head?_write_ne_slash hstep _) bare
    rw [parseSteps_step hstep hcs, ih hrest (by simpa using hfuel)]
    rfl

theorem length_le_writeSteps (steps : List Step) : steps.length ≤ (writeSteps steps).length := by
  induction steps with
  | nil => exact Nat.zero_le _
  | cons step rest ih =>
    have hslash : 1 ≤ step.separator.length := by
      unfold Step.separator
      split <;> simp
    rw [writeSteps_cons, List.length_append, List.length_append, List.length_cons]
    omega

/-- What follows the start of a path is read as its steps. -/
theorem parse_start {p : Path} (h : p.Plain) {source : String} {cs : List Char}
    (hstart : takeStart source.toList = (p.start, cs))
    (hsteps : parseSteps source cs.length true (p.start = .context) cs = .ok p.steps) :
    Path.parse source = .ok p := by
  rw [Path.parse, hstart]
  simp only [hsteps, bind, Except.bind, h.inner]
  rfl

theorem head?_ne_dollar {cs : List Char} (h : LeadsPath cs) (rest : List Char) :
    (cs ++ rest).head? ≠ some '$' := by
  rcases h with ⟨c, others, rfl, hc⟩
  intro hhead
  have hdollar : c = '$' := Option.some.inj hhead
  subst hdollar
  rcases hc with hc | hc | hc | ⟨hc, -⟩
  · exact absurd hc (by decide)
  · cases hc
  · cases hc
  · cases hc

theorem takeSeparator_bare {cs : List Char} (hcs : cs.head? ≠ some '/') :
    takeSeparator true cs = some (.child, cs) := by
  unfold takeSeparator
  split
  · exact absurd rfl hcs
  · exact absurd rfl hcs
  · rfl

theorem takeStart_write {start : PathStart} (h : start.Plain) {cs : List Char}
    (hcs : cs.head? = some '/' ∨ start = .context ∧ cs.head? ≠ some '$') :
    takeStart (start.write ++ cs) = (start, cs) := by
  cases start with
  | context =>
    show takeStart cs = (.context, cs)
    rw [takeStart]
    rintro rest rfl
    rcases hcs with hslash | ⟨-, hdollar⟩
    · cases hslash
    · exact hdollar rfl
  | fromVariable name =>
    rcases hcs with hslash | ⟨hcontext, -⟩
    · rcases h with ⟨chars, hname, -, hchars⟩
      have hgo : ∀ c ∈ chars, decide (c ≠ '/') = true := by
        intro c hc
        refine decide_eq_true ?_
        rintro rfl
        exact absurd (hchars _ hc) (by decide)
      have hstop : ∀ c ∈ cs.head?, decide (c ≠ '/') = false := by
        intro c hc
        rw [hslash] at hc
        cases hc
        decide
      rcases takeWhile_append_stop hgo hstop with ⟨htake, hdrop⟩
      have hwrite : (PathStart.fromVariable name).write ++ cs = '$' :: (chars ++ cs) := by
        rw [PathStart.write, hname, List.cons_append]
      rw [hwrite, takeStart, htake, hdrop, ← hname, String.ofList_toList]
    · cases hcontext

/-- A plain path is read back from its text. -/
theorem parse_write {p : Path} (h : p.Plain) {bare : Bool} (hbare : bare = true → p.Bare) :
    Path.parse (String.ofList (p.write bare)) = .ok p := by
  have hlist : (String.ofList (p.write bare)).toList = p.start.write ++ writeTail bare p.steps :=
    String.toList_ofList
  cases bare with
  | false =>
    have hstart := takeStart_write h.start (Or.inl (head?_writeTail p.steps))
    rw [← hlist] at hstart
    refine parse_start h hstart ?_
    cases hsteps : p.steps with
    | nil => rfl
    | cons step rest =>
      rw [writeTail_slashed]
      exact parseSteps_writeSteps (hsteps ▸ h.steps) (length_le_writeSteps _) _ _ _
  | true =>
    rcases hbare rfl with ⟨hcontext, step, rest, hsteps, haxis, hleads⟩
    rcases List.forall_mem_cons.mp (hsteps ▸ h.steps) with ⟨hstep, hrest⟩
    have hstart := takeStart_write h.start
      (Or.inr ⟨hcontext, head?_ne_dollar hleads (writeSteps rest)⟩)
    rw [hsteps, writeTail_bare] at hlist
    rw [← hlist] at hstart
    refine parse_start h hstart ?_
    have hseparator : takeSeparator true (step.write ++ writeSteps rest) =
        some (step.axis, step.write ++ writeSteps rest) := by
      rw [haxis]
      exact takeSeparator_bare (head?_write_ne_slash hstep _)
    have hlength : rest.length + 1 ≤ (step.write ++ writeSteps rest).length := by
      have hpos := List.length_pos_iff.mpr hstep.write_ne_nil
      have hle := length_le_writeSteps rest
      rw [List.length_append]
      omega
    rcases Nat.exists_eq_add_of_le' hlength with ⟨more, hmore⟩
    rw [hcontext, hmore, hsteps, ← Nat.add_assoc]
    show parseSteps _ _ true true _ = _
    rw [parseSteps_step hstep hseparator, parseSteps_writeSteps hrest (by omega)]
    rfl

/-! ## The characters of a path -/

theorem isPathChar_of_isVariableChar {c : Char} (h : isVariableChar c = true) :
    isPathChar c = true := by
  rw [isVariableChar, Bool.or_eq_true] at h
  rcases h with h | h
  · simp [isPathChar, isNameChar, h]
  · simp [isPathChar, isNameChar, of_decide_eq_true h]

theorem isPathChar_of_isStepChar {c : Char} (h : isStepChar c = true) : isPathChar c = true := by
  rw [isStepChar, Bool.and_eq_true] at h
  exact h.1

theorem pathChars_separator (step : Step) : ∀ c ∈ step.separator, isPathChar c = true := by
  intro c hc
  have hslash : c = '/' := by
    unfold Step.separator at hc
    split at hc <;> simpa using hc
  rw [hslash]
  decide

theorem pathChars_writeSteps {steps : List Step} (h : ∀ step ∈ steps, step.Plain) :
    ∀ c ∈ writeSteps steps, isPathChar c = true := by
  intro c hc
  rcases List.mem_flatMap.mp hc with ⟨step, hstep, hc⟩
  rcases List.mem_append.mp hc with hc | hc
  · exact pathChars_separator step c hc
  · exact isPathChar_of_isStepChar ((h step hstep).stepChars c hc)

theorem Plain.pathChars {p : Path} (h : p.Plain) (bare : Bool) :
    ∀ c ∈ p.write bare, isPathChar c = true := by
  intro c hc
  rcases List.mem_append.mp hc with hc | hc
  · cases hstart : p.start with
    | context =>
      rw [hstart] at hc
      cases hc
    | fromVariable name =>
      have hplain := h.start
      rw [hstart] at hplain hc
      rcases hplain with ⟨chars, hname, -, hchars⟩
      rw [PathStart.write, hname] at hc
      rcases List.mem_cons.mp hc with rfl | hc
      · decide
      · exact isPathChar_of_isVariableChar (hchars c hc)
  · cases hsteps : p.steps with
    | nil =>
      rw [hsteps] at hc
      rw [List.mem_singleton.mp hc]
      decide
    | cons step rest =>
      rcases List.forall_mem_cons.mp (hsteps ▸ h.steps) with ⟨hstep, hrest⟩
      rw [hsteps] at hc
      rcases List.mem_append.mp hc with hc | hc
      · cases bare with
        | true => cases hc
        | false => exact pathChars_separator step c hc
      · rcases List.mem_append.mp hc with hc | hc
        · exact isPathChar_of_isStepChar (hstep.stepChars c hc)
        · exact pathChars_writeSteps hrest c hc

end Path

/-! ## What is read without predicates -/

namespace ExprToken

/-- Without brackets, characters are taken as long as they go on. -/
theorem takeBracketed_of_no_bracket {continues : Char → Bool} {cs : List Char}
    (hcs : ∀ c ∈ cs, c ≠ '[') :
    takeBracketed continues cs = some (cs.takeWhile continues, cs.dropWhile continues) := by
  induction cs with
  | nil => rw [takeBracketed, List.takeWhile_nil, List.dropWhile_nil]
  | cons c cs ih =>
    rcases List.forall_mem_cons.mp hcs with ⟨hc, hcs⟩
    cases hgo : continues c with
    | false => simp [takeBracketed, hc, hgo]
    | true => simp [takeBracketed, hc, hgo, ih hcs]

end ExprToken

namespace NameTest

theorem write_ofText (cs : List Char) :
    (ofText (String.ofList cs)).write = cs ∧ ofText (String.ofList cs) ≠ named "*" := by
  unfold ofText
  split
  · next hany =>
    refine ⟨?_, by simp⟩
    rw [← String.toList_ofList (l := cs), hany]
    rfl
  · next hname => exact ⟨String.toList_ofList, by simpa using hname⟩

theorem plain_ofText {cs : List Char} (hne : cs ≠ [])
    (hcs : ∀ c ∈ cs, isStepChar c = true) : (ofText (String.ofList cs)).Plain := by
  rcases write_ofText cs with ⟨hwrite, hany⟩
  refine ⟨?_, ?_, hany⟩
  · rwa [hwrite]
  · rwa [hwrite]

end NameTest

namespace Step

/-- A step that is read without predicates is plain. -/
theorem plain_of_parse {axis : Axis} (haxis : axis = .child ∨ axis = .descendant)
    {cs : List Char} (hcs : ∀ c ∈ cs, isStepChar c = true) {step : Step}
    (h : Step.parse axis cs = .ok step) : step.Plain := by
  rcases takeWhile_name hcs with ⟨htake, hdrop⟩
  rw [Step.parse] at h
  simp only [htake, hdrop, parsePredicates, bind, Except.bind] at h
  split at h
  · next label =>
    split at h
    · cases h
    · next hlabel =>
      cases h
      refine NameTest.plain_ofText ?_ (List.forall_mem_cons.mp hcs).2
      rintro rfl
      simp at hlabel
  · cases h
  · split at h <;> cases h
    exact ⟨rfl, rfl⟩
  · split at h <;> cases h
    exact ⟨rfl, rfl⟩
  · next hattribute hnil hself hparent =>
    cases h
    have hplain := NameTest.plain_ofText hnil hcs
    have hapart : (NameTest.ofText (String.ofList cs)).Apart := by
      unfold NameTest.Apart
      rw [(NameTest.write_ofText cs).1]
      refine ⟨?_, hself, hparent⟩
      intro hhead
      rcases List.head?_eq_some_iff.mp hhead with ⟨label, hlabel⟩
      exact hattribute label hlabel
    rcases haxis with rfl | rfl
    · exact ⟨hplain, hapart, rfl⟩
    · exact ⟨hplain, hapart, rfl⟩

end Step

namespace Path

theorem takeSeparator_eq_some {bare : Bool} {cs rest : List Char} {axis : Axis}
    (h : takeSeparator bare cs = some (axis, rest)) :
    (axis = .child ∨ axis = .descendant) ∧ rest <:+ cs := by
  unfold takeSeparator at h
  split at h
  · cases h
    exact ⟨Or.inr rfl, ⟨['/', '/'], rfl⟩⟩
  · cases h
    exact ⟨Or.inl rfl, ⟨['/'], rfl⟩⟩
  · split at h <;> cases h
    exact ⟨Or.inl rfl, List.suffix_rfl⟩

theorem ne_bracket_of_isPathChar {c : Char} (h : isPathChar c = true) : c ≠ '[' := by
  rintro rfl
  exact absurd h (by decide)

/-- So are the steps of a path. -/
theorem plain_of_parseSteps {source : String} {fuel : Nat} {first bare : Bool} {cs : List Char}
    (hcs : ∀ c ∈ cs, isPathChar c = true) {steps : List Step}
    (h : parseSteps source fuel first bare cs = .ok steps) : ∀ step ∈ steps, step.Plain := by
  induction fuel generalizing first bare cs steps with
  | zero =>
    have hnil : steps = [] := by
      cases cs <;> (rw [parseSteps] at h; cases h; rfl)
    simp [hnil]
  | succ fuel ih =>
    rcases cs with _ | ⟨c, cs⟩
    · rw [parseSteps] at h
      cases h
      simp
    rw [parseSteps] at h
    · split at h
      · cases h
      · split at h <;> cases h
        simp
      · next axis rest hne hseparator =>
        rcases takeSeparator_eq_some hseparator with ⟨haxis, hsuffix⟩
        have hrest : ∀ c ∈ rest, isPathChar c = true := by
          intro c hc
          exact hcs c (hsuffix.mem hc)
        have hbracket : ∀ c ∈ rest, c ≠ '[' := fun c hc => ne_bracket_of_isPathChar (hrest c hc)
        -- Without predicates a step goes up to the next slash.
        rw [takeStep, takeBracketed_of_no_bracket hbracket] at h
        rcases bind_eq_ok h with ⟨step, hstep, h⟩
        rcases bind_eq_ok h with ⟨others, hothers, h⟩
        cases h
        have hchars : ∀ c ∈ rest.takeWhile (· ≠ '/'), isStepChar c = true := by
          intro c hc
          rw [isStepChar, hrest c ((List.takeWhile_prefix _).mem hc), Bool.true_and]
          exact List.all_eq_true.mp List.all_takeWhile c hc
        have hmore : ∀ c ∈ rest.dropWhile (· ≠ '/'), isPathChar c = true := by
          intro c hc
          exact hrest c ((List.dropWhile_suffix _).mem hc)
        exact List.forall_mem_cons.mpr ⟨Step.plain_of_parse haxis hchars hstep, ih hmore hothers⟩
    · rintro ⟨⟩

theorem mem_of_mem_takeStart {cs : List Char} {c : Char} (h : c ∈ (takeStart cs).2) : c ∈ cs := by
  unfold takeStart at h
  split at h
  · exact List.mem_cons_of_mem _ ((List.dropWhile_suffix _).mem h)
  · exact h

/-- A path that is read from a text without predicates is plain. -/
theorem plain_of_parse {source : String} {p : Path} (h : Path.parse source = .ok p)
    (hsource : ∀ c ∈ source.toList, isPathChar c = true) (hstart : p.start.Plain) : p.Plain := by
  rw [parse] at h
  rcases bind_eq_ok h with ⟨steps, hsteps, h⟩
  split at h
  · cases h
  · next hinner =>
    cases h
    refine ⟨hstart, plain_of_parseSteps ?_ hsteps, by simpa using hinner⟩
    intro c hc
    exact hsource c (mem_of_mem_takeStart hc)

end Path

end MarkupScript
