import MarkupScript.Proofs.Document.WellFormed
import MarkupScript.Proofs.Expression.Parsing
import MarkupScript.Proofs.Expression.Reads
import MarkupScript.Proofs.Line.Quoting
import MarkupScript.Proofs.Script.Blocks
import MarkupScript.Run.Site

/-!
# The names that an expression can read

A script may give a variable any name that starts with a dollar sign. An expression ends the name
at the first character that is neither a letter nor a digit nor an underscore, so that `$n-1` is a
difference. A variable with another character in its name can be passed on as an argument, but
there is no expression that reads it.

* `ExprToken.reads`: the variable that a token names.
* `ExprToken.spelled_lex`: the names in the tokens of a text are a dollar sign and a name.
* `Expr.keepsAll`: an expression reads only what its tokens name.
* `View.isVariable_of_mem_readsText`: both together.
* `Site.argument_bracketed_iff`: where a variable in brackets is what it is without them.
-/

namespace MarkupScript

namespace ExprToken

/-! ## Tokens -/

/-- The variable that a token names, alone or at the start of a path. -/
def reads : ExprToken → List String
  | .var name => [name]
  | .path source => (Path.takeStart source.toList).1.reads
  | _ => []

/-- All variables that the token names are a dollar sign and a name. -/
def Spelled (token : ExprToken) : Prop :=
  ∀ name ∈ token.reads, IsVariable name.toList

/-- Only variables and paths can name a variable. -/
def mayRead : ExprToken → Bool
  | .var _ | .path _ => true
  | _ => false

theorem spelled_of_reads_eq_nil {token : ExprToken} (h : token.reads = []) : token.Spelled := by
  intro name hname
  rw [h] at hname
  cases hname

theorem spelled_of_not_mayRead {token : ExprToken} (h : token.mayRead = false) :
    token.Spelled := by
  apply spelled_of_reads_eq_nil
  cases token with
  | var name => cases h
  | path source => cases h
  | _ => rfl

/-- A path that starts with something else than a dollar sign names no variable. -/
theorem spelled_path_of_ne {c : Char} {cs : List Char} (h : c ≠ '$') :
    (path (String.ofList (c :: cs))).Spelled := by
  apply spelled_of_reads_eq_nil
  rw [reads, String.toList_ofList, Path.takeStart]
  · rfl
  · rintro rest ⟨⟩
    exact h rfl

/-- A path names what stands before its first slash. -/
theorem spelled_path_variable {name cs : List Char} (hne : name ≠ [])
    (hname : ∀ c ∈ name, isVariableChar c = true) :
    (path (String.ofList ('$' :: name ++ '/' :: cs))).Spelled := by
  have hslash : ∀ c ∈ name, decide (c ≠ '/') = true := by
    intro c hc
    refine decide_eq_true ?_
    rintro rfl
    exact absurd (hname '/' hc) (by decide)
  have hstop : ∀ c ∈ ('/' :: cs).head?, decide (c ≠ '/') = false := by
    simp
  have htake := (takeWhile_append_stop hslash hstop).1
  intro read hread
  rw [reads, String.toList_ofList, List.cons_append, Path.takeStart, htake] at hread
  rw [List.mem_singleton.mp hread, String.toList_ofList]
  exact ⟨name, rfl, hne, hname⟩

/-! ## Taking a token -/

/-- Characters that go on are at the front of what is taken. -/
theorem takeBracketed_front {continues : Char → Bool} {front cs taken rest : List Char}
    (hfront : ∀ c ∈ front, continues c = true ∧ c ≠ '[')
    (h : takeBracketed continues (front ++ cs) = some (taken, rest)) :
    ∃ more, taken = front ++ more := by
  induction front generalizing taken rest with
  | nil => exact ⟨taken, rfl⟩
  | cons c front ih =>
    rcases hfront c List.mem_cons_self with ⟨hgo, hbracket⟩
    rw [List.cons_append, takeBracketed, if_neg hbracket, if_pos hgo] at h
    rcases Option.map_eq_some_iff.mp h with ⟨⟨inner, after⟩, hinner, htaken⟩
    rcases ih (fun d hd => hfront d (List.mem_cons_of_mem _ hd)) hinner with ⟨more, rfl⟩
    cases htaken
    exact ⟨more, rfl⟩

theorem takePath_front {front cs : List Char} {taken : Taken}
    (hfront : ∀ c ∈ front, isPathChar c = true) (h : takePath (front ++ cs) = .ok taken) :
    ∃ more, taken.token = path (String.ofList (front ++ more)) := by
  have hgo : ∀ c ∈ front, isPathChar c = true ∧ c ≠ '[' := by
    intro c hc
    refine ⟨hfront c hc, ?_⟩
    rintro rfl
    exact absurd (hfront '[' hc) (by decide)
  rw [takePath] at h
  split at h
  · next source rest htake =>
    rcases takeBracketed_front hgo htake with ⟨more, rfl⟩
    cases h
    exact ⟨more, rfl⟩
  · cases h

/-- A path that is taken from something else than a dollar sign names no variable. -/
theorem spelled_takePath {c : Char} {rest : List Char} {taken : Taken}
    (hpath : isPathChar c = true) (hc : c ≠ '$') (h : takePath (c :: rest) = .ok taken) :
    taken.token.Spelled := by
  have hfront : ∀ d ∈ [c], isPathChar d = true := by
    intro d hd
    rwa [List.mem_singleton.mp hd]
  rcases takePath_front hfront h with ⟨more, htoken⟩
  rw [htoken]
  exact spelled_path_of_ne hc

theorem spelled_takeVariable {input : String} {cs : List Char} {taken : Taken}
    (h : takeVariable input cs = .ok taken) : taken.token.Spelled := by
  have hname : ∀ c ∈ cs.takeWhile isVariableChar, isVariableChar c = true := by
    intro c hc
    exact List.all_eq_true.mp List.all_takeWhile c hc
  rw [takeVariable] at h
  split at h
  · cases h
  · next hempty =>
    have hne : cs.takeWhile isVariableChar ≠ [] := by
      simpa using hempty
    split at h
    · next hslash =>
      -- The path goes on at least to the slash that ends the name.
      rcases List.head?_eq_some_iff.mp hslash with ⟨after, hafter⟩
      have hsplit : '$' :: cs = ('$' :: cs.takeWhile isVariableChar ++ ['/']) ++ after := by
        rw [List.append_assoc, List.singleton_append, ← hafter, List.cons_append,
          List.takeWhile_append_dropWhile]
      have hfront : ∀ c ∈ '$' :: cs.takeWhile isVariableChar ++ ['/'], isPathChar c = true := by
        intro c hc
        rcases List.mem_append.mp hc with hc | hc
        · rcases List.mem_cons.mp hc with rfl | hc
          · decide
          · exact Path.isPathChar_of_isVariableChar (hname c hc)
        · rw [List.mem_singleton.mp hc]
          decide
      rw [hsplit] at h
      rcases takePath_front hfront h with ⟨more, htoken⟩
      rw [htoken, List.append_assoc, List.singleton_append]
      exact spelled_path_variable hne hname
    · cases h
      intro read hread
      rw [List.mem_singleton.mp hread, String.toList_ofList]
      exact ⟨_, rfl, hne, hname⟩

/-- What is taken where an operand is expected: a token that names nothing, a variable, or a
path. -/
theorem takeOperand_cases {input : String} {c : Char} {rest : List Char} {taken : Taken}
    (h : takeOperand input c rest = .ok taken) :
    taken.token.mayRead = false ∨ (c = '$' ∧ takeVariable input rest = .ok taken) ∨
      (isPathChar c = true ∧ c ≠ '$' ∧ takePath (c :: rest) = .ok taken) := by
  unfold takeOperand at h
  split at h
  · cases h
    exact .inl rfl
  split at h
  · cases h
    exact .inl rfl
  split at h
  · cases h
    exact .inl rfl
  split at h
  · rw [takeText] at h
    split at h
    · cases h
      exact .inl rfl
    · cases h
  split at h
  · rw [takeNumber] at h
    split at h
    · cases h
      exact .inl rfl
    · cases h
  split at h
  · next hdollar => exact .inr (.inl ⟨hdollar, h⟩)
  split at h
  · next hdollar hname =>
    rw [takeName] at h
    split at h
    · cases h
      exact .inl rfl
    · exact .inr (.inr ⟨Path.isPathChar_of_isVariableChar (isVariableChar_of_isNameStart hname),
        hdollar, h⟩)
  split at h
  · next hdollar hname hsign =>
    refine .inr (.inr ⟨?_, hdollar, h⟩)
    simp only [Bool.or_eq_true, decide_eq_true_eq] at hsign
    rcases hsign with ((rfl | rfl) | rfl) | rfl <;> decide
  · cases h

/-- No token that is taken after an operand names a variable. -/
theorem mayRead_of_takeOperator {input : String} {c : Char} {rest : List Char} {taken : Taken}
    (h : takeOperator input c rest = .ok taken) : taken.token.mayRead = false := by
  unfold takeOperator at h
  split at h
  case h_13 =>
    split at h
    · rw [takeWord] at h
      split at h
      · cases h
        rfl
      · cases h
    · cases h
  all_goals
    cases h
    rfl

theorem take_cases {input : String} {operand : Bool} {c : Char} {rest : List Char}
    {taken : Taken} (h : take input operand c rest = .ok taken) :
    taken.token.mayRead = false ∨ (c = '$' ∧ takeVariable input rest = .ok taken) ∨
      (isPathChar c = true ∧ c ≠ '$' ∧ takePath (c :: rest) = .ok taken) := by
  rw [take] at h
  split at h
  · exact takeOperand_cases h
  · exact .inl (mayRead_of_takeOperator h)

theorem spelled_take {input : String} {operand : Bool} {c : Char} {rest : List Char}
    {taken : Taken} (h : take input operand c rest = .ok taken) : taken.token.Spelled := by
  rcases take_cases h with hnone | ⟨-, hvariable⟩ | ⟨hpath, hc, htake⟩
  · exact spelled_of_not_mayRead hnone
  · exact spelled_takeVariable hvariable
  · exact spelled_takePath hpath hc htake

/-- Every token of a text is taken somewhere in it. -/
theorem taken_of_mem_lexFrom {input : String} {fuel : Nat} {operand : Bool} {cs : List Char}
    {tokens : List ExprToken} (h : lexFrom input fuel operand cs = .ok tokens) {token : ExprToken}
    (hmem : token ∈ tokens) :
    ∃ operand c rest taken, take input operand c rest = .ok taken ∧ taken.token = token := by
  fun_induction lexFrom input fuel operand cs generalizing tokens with
  | case1 fuel operand =>
    cases h
    cases hmem
  | case2 operand c rest =>
    cases h
    cases hmem
  | case3 fuel operand c rest hblank ih => exact ih h hmem
  | case4 fuel operand c rest hblank ih =>
    rcases bind_eq_ok h with ⟨taken, htaken, h⟩
    rcases bind_eq_ok h with ⟨more, hmore, h⟩
    cases h
    rcases List.mem_cons.mp hmem with rfl | hmem
    · exact ⟨operand, c, rest, taken, htaken, rfl⟩
    · exact ih taken hmore hmem

theorem taken_of_mem_lex {input : String} {tokens : List ExprToken} (h : lex input = .ok tokens)
    {token : ExprToken} (hmem : token ∈ tokens) :
    ∃ operand c rest taken, take input operand c rest = .ok taken ∧ taken.token = token :=
  taken_of_mem_lexFrom h hmem

/-- The variables that the tokens of a text name are a dollar sign and a name. -/
theorem spelled_lex {text : String} {tokens : List ExprToken} (h : lex text = .ok tokens) :
    ∀ token ∈ tokens, token.Spelled := by
  intro token hmem
  rcases taken_of_mem_lex h hmem with ⟨operand, c, rest, taken, htaken, rfl⟩
  exact spelled_take htaken

end ExprToken

/-- A path that is read starts from what its text starts with. -/
theorem Path.start_of_parse {source : String} {p : Path} (h : Path.parse source = .ok p) :
    p.start = (Path.takeStart source.toList).1 := by
  rw [Path.parse] at h
  rcases bind_eq_ok h with ⟨steps, -, h⟩
  split at h
  · cases h
  · cases h
    rfl

namespace Expr

/-! ## Expressions -/

/-- All variables that are looked up in evaluating an expression have the property. -/
def ReadsOnly (v : View) (P : String → Prop) (e : Expr) : Prop :=
  ∀ name ∈ v.reads e, P name

/-- All variables that the tokens name have the property. -/
def Named (P : String → Prop) (tokens : List ExprToken) : Prop :=
  ∀ token ∈ tokens, ∀ name ∈ token.reads, P name

/-- A reader takes from tokens whose variables have a property something of which `Q` holds, and
leaves such tokens. -/
def Keeps {α : Type} (P : String → Prop) (Q : α → Prop)
    (reader : List ExprToken → Except ExpressionFault (Parsed α)) : Prop :=
  ∀ {tokens a rest}, Named P tokens → reader tokens = .ok (a, rest) → Q a ∧ Named P rest

variable {v : View} {P : String → Prop} {fuel : Nat}

theorem Named.tail {token : ExprToken} {tokens : List ExprToken} (h : Named P (token :: tokens)) :
    Named P tokens :=
  (List.forall_mem_cons.mp h).2

theorem Named.head {token : ExprToken} {tokens : List ExprToken} (h : Named P (token :: tokens)) :
    ∀ name ∈ token.reads, P name :=
  (List.forall_mem_cons.mp h).1

theorem ReadsOnly.binary {left right : Expr} (o : Operator) (hleft : ReadsOnly v P left)
    (hright : ReadsOnly v P right) : ReadsOnly v P (.binary o left right) := by
  intro name hname
  rw [View.reads] at hname
  rcases List.mem_append.mp hname with hname | hname
  · exact hleft name hname
  · split at hname
    · cases hname
    · exact hright name hname

theorem readsOnly_call {args : List Expr} (f : String) (h : ∀ e ∈ args, ReadsOnly v P e) :
    ReadsOnly v P (.call f args) := by
  have hall : ∀ name ∈ v.readsAll args, P name := by
    induction args with
    | nil => simp [View.readsAll]
    | cons e rest ih =>
      rcases List.forall_mem_cons.mp h with ⟨he, hrest⟩
      rw [View.readsAll]
      exact List.forall_mem_append.mpr ⟨he, ih hrest⟩
  rw [ReadsOnly, View.reads]
  exact hall

/-- What the readers of expressions keep, up to a depth. -/
structure KeepsAll (v : View) (P : String → Prop) (fuel : Nat) : Prop where
  binary : ∀ least, Keeps P (ReadsOnly v P) (binaryFrom fuel least)
  operators : ∀ least left, ReadsOnly v P left →
    Keeps P (ReadsOnly v P) (operatorsFrom fuel least left)
  unary : Keeps P (ReadsOnly v P) (unaryFrom fuel)
  primary : Keeps P (ReadsOnly v P) (primaryFrom fuel)
  arguments : ∀ name, Keeps P (fun es => ∀ e ∈ es, ReadsOnly v P e) (argumentsFrom fuel name)

namespace KeepsAll

theorem binaryFrom_succ (h : KeepsAll v P fuel) (least : Nat) :
    Keeps P (ReadsOnly v P) (binaryFrom (fuel + 1) least) := by
  intro tokens e rest htokens hread
  rw [binaryFrom] at hread
  rcases bind_eq_ok hread with ⟨⟨left, after⟩, hleft, hread⟩
  rcases h.unary htokens hleft with ⟨hreads, hafter⟩
  exact h.operators least left hreads hafter hread

theorem operatorsFrom_succ (h : KeepsAll v P fuel) (least : Nat) (left : Expr)
    (hleft : ReadsOnly v P left) :
    Keeps P (ReadsOnly v P) (operatorsFrom (fuel + 1) least left) := by
  intro tokens e rest htokens hread
  rcases operatorsFrom_inv hread with ⟨rfl, rfl⟩ | ⟨o, more, right, after, rfl, hright, hread⟩
  · exact ⟨hleft, htokens⟩
  · rcases h.binary _ htokens.tail hright with ⟨hright, hafter⟩
    exact h.operators least _ (hleft.binary o hright) hafter hread

theorem unaryFrom_succ (h : KeepsAll v P fuel) :
    Keeps P (ReadsOnly v P) (unaryFrom (fuel + 1)) := by
  intro tokens e rest htokens hread
  rcases unaryFrom_inv hread with ⟨more, operand, rfl, hoperand, rfl⟩ | hprimary
  · rcases h.unary htokens.tail hoperand with ⟨hreads, hrest⟩
    refine ⟨?_, hrest⟩
    intro name hname
    rw [View.reads] at hname
    exact hreads name hname
  · exact h.primary htokens hprimary

theorem primaryFrom_succ (h : KeepsAll v P fuel) :
    Keeps P (ReadsOnly v P) (primaryFrom (fuel + 1)) := by
  intro tokens e rest htokens hread
  cases primaryFrom_inv hread with
  | number x => exact ⟨by simp [ReadsOnly, View.reads], htokens.tail⟩
  | text s => exact ⟨by simp [ReadsOnly, View.reads], htokens.tail⟩
  | var name =>
    refine ⟨?_, htokens.tail⟩
    intro read hread
    rw [View.reads] at hread
    exact htokens.head read hread
  | path rest hp =>
    refine ⟨?_, htokens.tail⟩
    intro read hread
    rw [View.reads, Path.start_of_parse hp] at hread
    exact htokens.head read hread
  | bracket hinner =>
    rcases h.binary 0 htokens.tail hinner with ⟨hreads, hafter⟩
    exact ⟨hreads, hafter.tail⟩
  | constant name => exact ⟨by simp [ReadsOnly, View.reads, View.readsAll], htokens.tail.tail.tail⟩
  | call hargs =>
    rcases h.arguments _ htokens.tail.tail hargs with ⟨hreads, hrest⟩
    exact ⟨readsOnly_call _ hreads, hrest⟩

theorem argumentsFrom_succ (h : KeepsAll v P fuel) (name : String) :
    Keeps P (fun es => ∀ e ∈ es, ReadsOnly v P e) (argumentsFrom (fuel + 1) name) := by
  intro tokens args rest htokens hread
  rcases argumentsFrom_inv hread with ⟨arg, ⟨harg, rfl⟩ | ⟨more, others, harg, hothers, rfl⟩⟩
  · rcases h.binary 0 htokens harg with ⟨hreads, hafter⟩
    exact ⟨List.forall_mem_singleton.mpr hreads, hafter.tail⟩
  · rcases h.binary 0 htokens harg with ⟨hreads, hafter⟩
    rcases h.arguments name hafter.tail hothers with ⟨hall, hrest⟩
    exact ⟨List.forall_mem_cons.mpr ⟨hreads, hall⟩, hrest⟩

end KeepsAll

/-- The readers take only what the tokens name. -/
theorem keepsAll (v : View) (P : String → Prop) (fuel : Nat) : KeepsAll v P fuel := by
  -- The readers call each other, always with less depth, so all of them are taken together.
  induction fuel with
  | zero =>
    constructor
    · intro least tokens e rest _ h
      rw [binaryFrom] at h
      cases h
    · intro least left _ tokens e rest _ h
      rw [operatorsFrom] at h
      cases h
    · intro tokens e rest _ h
      rw [unaryFrom] at h
      cases h
    · intro tokens e rest _ h
      rw [primaryFrom] at h
      cases h
    · intro name tokens args rest _ h
      rw [argumentsFrom] at h
      cases h
  | succ fuel ih =>
    exact ⟨ih.binaryFrom_succ, ih.operatorsFrom_succ, ih.unaryFrom_succ, ih.primaryFrom_succ,
      ih.argumentsFrom_succ⟩

/-- An expression looks up only what the tokens of its text name. -/
theorem readsOnly_of_parse {text : String} {e : Expr} {tokens : List ExprToken}
    (htokens : ExprToken.lex text = .ok tokens) (h : parse text = .ok e) (hnamed : Named P tokens) :
    ReadsOnly v P e := by
  rw [parse, htokens] at h
  rcases bind_eq_ok h with ⟨cut, hcut, h⟩
  cases hcut
  rcases bind_eq_ok h with ⟨⟨read, rest⟩, hread, h⟩
  rcases (keepsAll v P _).binary 0 hnamed hread with ⟨hreads, -⟩
  rcases rest with _ | ⟨token, rest⟩
  · cases h
    exact hreads
  · cases h

/-- A variable is read as such. -/
theorem parse_variable (x : VariableName) : parse x.name = .ok (.var x.name) := by
  have hlex : ExprToken.lex x.name = .ok [.var x.name] := by
    have hlexes : ExprToken.Lexes x.name true (x.name.toList ++ []) [.var x.name] :=
      ExprToken.lexes_var x ExprToken.ends_nil ExprToken.Lexes.nil
    rw [List.append_nil] at hlexes
    exact hlexes _ (Nat.le_refl _)
  have hread : ReadsClosed [.var x.name] (.var x.name) := by
    refine (readsOperand_single (by simp) ?_).closed (by simp)
    intro fuel rest
    rw [primaryFrom]
  exact hread.parse hlex

end Expr

namespace View

/-- Every variable that an expression looks up is a dollar sign and a name. -/
theorem isVariable_of_mem_readsText {v : View} {text name : String} (h : name ∈ v.readsText text) :
    ExprToken.IsVariable name.toList := by
  unfold readsText at h
  split at h
  · next e he =>
    rcases bind_eq_ok he with ⟨tokens, htokens, -⟩
    exact Expr.readsOnly_of_parse htokens he (ExprToken.spelled_lex htokens) name h
  · cases h

/-- What a variable with another name holds does not matter to any expression. -/
theorem expression_set {name : String} (h : ¬ ExprToken.IsVariable name.toList) (v : View)
    (value : Value) (text : String) :
    (v.rebound (v.bindings.set name value)).expression text = v.expression text := by
  refine expression_eq_of_reads ?_
  intro read hread
  have hne : name ≠ read := by
    rintro rfl
    exact h (isVariable_of_mem_readsText hread)
  rw [Bindings.get?_set, if_neg hne]

end View

namespace ExprToken

/-- There are no blanks around a variable. -/
theorem IsVariable.trimChars {cs : List Char} (h : IsVariable cs) : Text.trimChars cs = cs := by
  have hblank : ∀ c ∈ cs, Text.isBlank c = false := by
    rcases h with ⟨name, rfl, -, hname⟩
    intro c hc
    rcases List.mem_cons.mp hc with rfl | hc
    · decide
    · exact not_isBlank_of_isVariableChar (hname c hc)
  refine Text.trimChars_of_ends ?_ ?_
  · intro c hc
    exact hblank c (List.mem_of_mem_head? hc)
  · intro c hc
    exact hblank c (List.mem_of_mem_getLast? hc)

end ExprToken

/-! ## Arguments -/

namespace Argument

/-- What stands in the brackets of an expression, without blanks around it. -/
theorem inner_bracketed (name : String) :
    (expression ("(" ++ name ++ ")")).inner = String.ofList (Text.trimChars name.toList) := by
  have hchars : ("(" ++ name ++ ")").toList = '(' :: (name.toList ++ [')']) := by
    simp
  have hinside : Text.enclosed? Bracket.round.opener Bracket.round.closer
      ('(' :: (name.toList ++ [')'])) = some name.toList := by
    show (if '(' = '(' then Text.beforeLast? ')' (name.toList ++ [')']) else none) = _
    rw [if_pos rfl, Text.beforeLast?, List.getLast?_concat, List.dropLast_concat]
    exact if_pos rfl
  rw [inner, stripBracket, hchars, hinside]

end Argument

namespace Site

variable {site : Site} {s : RunState} {value : Value}

/-- A variable that is passed as it stands is its value. -/
theorem argument_variable {token : Token} (h : token.IsVariable)
    (hvalue : site.bindings.get? token.text = some value) :
    site.argument (.ofToken token) s = .ok value s := by
  rcases h with ⟨hkind, c, rest, htext⟩
  have hargument : Argument.ofToken token = .variableRef token.text := by
    rw [Argument.ofToken, hkind, htext, if_neg (by decide)]
    rfl
  rw [hargument, argument, lookup, hvalue]
  rfl

/-- An expression as an argument is the value of what stands in its brackets. -/
theorem argument_expression {text : String} {t : RunState}
    (h : site.argument (.expression text) s = .ok value t) :
    (site.view s.document).expression (Argument.expression text).inner = .ok value := by
  rw [argument, expression, evaluate] at h
  split at h
  · next a ha =>
    cases h
    exact ha
  · cases h

/-- A variable in brackets is its value, which is noted. -/
theorem argument_bracketed (x : VariableName) (hvalue : site.bindings.get? x.name = some value) :
    site.argument (.expression ("(" ++ x.name ++ ")")) s =
      .ok value { s with events := s.events.push (.evaluated x.name value) } := by
  have hinner : (Argument.expression ("(" ++ x.name ++ ")")).inner = x.name := by
    rw [Argument.inner_bracketed, x.isVariable.trimChars, String.ofList_toList]
  have hview : (site.view s.document).bindings.get? x.name = some value := hvalue
  have hread : (site.view s.document).expression x.name = .ok value := by
    rw [View.expression, View.operand, Expr.parse_variable]
    show ((site.view s.document).eval (.var x.name) >>= _) = _
    rw [View.eval, hview]
    cases value <;> rfl
  rw [argument, hinner, expression, evaluate, hread]
  rfl

/-- Whether a variable of a script means the same in brackets depends on its name alone. If there
is another character in it than letters, digits and underscores, then no expression reads it. -/
theorem argument_bracketed_iff {l : SourceLine} {token : Token} {name : String}
    (h : Compiler.variableName l (some token) = .ok name) (s : RunState) :
    (∀ (site : Site) (value : Value), site.bindings.get? name = some value →
      site.argument (.ofToken token) s = .ok value s) ∧
    ((∀ (site : Site) (value : Value), site.bindings.get? name = some value →
      ∃ t, site.argument (.expression ("(" ++ name ++ ")")) s = .ok value t) ↔
        ExprToken.IsVariable name.toList) ∧
    (¬ ExprToken.IsVariable name.toList → ∀ (v : View) (value : Value) (text : String),
      (v.rebound (v.bindings.set name value)).expression text = v.expression text) := by
  rcases Compiler.variableName_eq_ok_iff.mp h with ⟨_, ⟨⟩, hvariable, rfl⟩
  refine ⟨?_, ⟨?_, ?_⟩, View.expression_set⟩
  · intro site value hvalue
    exact argument_variable hvariable hvalue
  · intro hsame
    by_contra hname
    -- The expression gives the same for two values of the variable, so it misses one of them.
    have hgives : ∀ text, (View.mk s.document s.document.root {}).expression
        (Argument.expression ("(" ++ token.text ++ ")")).inner = .ok (.string text) := by
      intro text
      have hbound : (Bindings.empty.set token.text (.string text)).get? token.text =
          some (.string text) := by
        rw [Bindings.get?_set, if_pos rfl]
      rcases hsame ⟨s.document.root, _⟩ (.string text) hbound with ⟨t, ht⟩
      rw [← argument_expression ht]
      exact (View.expression_set hname _ (.string text) _).symm
    have hboth := (hgives "").symm.trans (hgives "0")
    simp at hboth
  · intro hname site value hvalue
    exact ⟨_, argument_bracketed ⟨token.text, hname⟩ hvalue⟩

open Document (smallDocument)

/-- A line that defines a variable. -/
def defining (name : String) : SourceLine :=
  { pos := ⟨1, "def " ++ name ++ " x"⟩
    tokens := [⟨.plain, "def"⟩, ⟨.plain, name⟩, ⟨.plain, "x"⟩] }

/-- Where the variable is defined. -/
def defined (name : String) : Site :=
  { scope := smallDocument.root, bindings := Bindings.empty.set name (.string "x") }

/-- The run that comes there. -/
def arrived (name : String) : RunState :=
  { document := smallDocument, bindings := (defined name).bindings }

theorem argument_bracketed_underscore :
    Compiler.variableName (defining "$n_1") (some ⟨.plain, "$n_1"⟩) = .ok "$n_1" ∧
      ExprToken.IsVariable "$n_1".toList ∧
      (defined "$n_1").argument (.ofToken ⟨.plain, "$n_1"⟩) (arrived "$n_1") =
        .ok (.string "x") (arrived "$n_1") ∧
      ∃ t, (defined "$n_1").argument (.expression "($n_1)") (arrived "$n_1") =
        .ok (.string "x") t := by
  have hname : Compiler.variableName (defining "$n_1") (some ⟨.plain, "$n_1"⟩) = .ok "$n_1" :=
    Compiler.variableName_eq_ok_iff.mpr ⟨_, rfl, ⟨rfl, 'n', ['_', '1'], rfl⟩, rfl⟩
  have hchars : ∀ c ∈ ['n', '_', '1'], ExprToken.isVariableChar c = true := by
    intro c hc
    simp only [List.mem_cons, List.not_mem_nil, or_false] at hc
    rcases hc with rfl | rfl | rfl <;> decide
  have hvariable : ExprToken.IsVariable "$n_1".toList :=
    ⟨['n', '_', '1'], rfl, by simp, hchars⟩
  rcases argument_bracketed_iff hname (arrived "$n_1") with ⟨hplain, hbracketed, -⟩
  exact ⟨hname, hvariable, hplain _ _ rfl, hbracketed.mpr hvariable _ _ rfl⟩

/-- With a hyphen in its name a variable is its value as it stands, and not in brackets. -/
theorem argument_bracketed_hyphen :
    Compiler.variableName (defining "$a-b") (some ⟨.plain, "$a-b"⟩) = .ok "$a-b" ∧
      (defined "$a-b").argument (.ofToken ⟨.plain, "$a-b"⟩) (arrived "$a-b") =
        .ok (.string "x") (arrived "$a-b") ∧
      ∀ value t, (defined "$a-b").argument (.expression "($a-b)") (arrived "$a-b") ≠
        .ok value t := by
  refine ⟨?_, rfl, ?_⟩
  · exact Compiler.variableName_eq_ok_iff.mpr ⟨_, rfl, ⟨rfl, 'a', ['-', 'b'], rfl⟩, rfl⟩
  · intro value t h
    have hfails : (((defined "$a-b").view smallDocument).expression
        (Argument.expression "($a-b)").inner).isOk = false := by
      decide +kernel
    have hgives : ((defined "$a-b").view smallDocument).expression
        (Argument.expression "($a-b)").inner = .ok value := argument_expression h
    rw [hgives] at hfails
    cases hfails

end Site

end MarkupScript
