import MarkupScript.Function.Standard
import MarkupScript.Proofs.Script.Grammar
import MarkupScript.Proofs.Script.Units

/-!
# Blocks are compiled by the grammar

Lines are compiled as a block exactly if they can be derived from the grammar of blocks. Each
loop is cut off at the first line that ends a loop over its variable, and the branches of a
choice are read as long as lines go on that start a branch. Neither takes too much or too little:
a block ends a loop over a variable exactly where it has one inside, and no command starts with
a line that starts a later branch.

* `command_eq_ok_iff`, `loopHead_eq_ok_iff`, `branchHead_eq_ok_iff`: what is said of a line.
* `Derivation.exists_loop_iff`: a block ends the loops that it has, and no others.
* `derived_of_from`: what is compiled is derived.
* `statementFrom_eq`: what is derived is compiled, with anything after it.
* `block_eq_ok_iff`: the two together; the derivation is the only one.
-/

namespace MarkupScript

namespace Compiler

/-! ## Lines -/

theorem variableName_eq_ok_iff {l : SourceLine} {token : Option Token} {name : String} :
    variableName l token = .ok name ↔ ∃ t, token = some t ∧ t.IsVariable ∧ t.text = name := by
  unfold variableName Token.IsVariable
  cases token with
  | none => simp [SourceLine.fault]
  | some t =>
    dsimp only
    split
    · next c rest hkind htext => simp [hkind, htext]
    · next hno =>
      simp only [SourceLine.fault, reduceCtorEq, Option.some.injEq, false_iff]
      rintro ⟨t', rfl, ⟨hkind, c, rest, htext⟩, -⟩
      exact hno c rest hkind htext

/-- A line whose first operand is a variable. -/
theorem variableName_head {l : SourceLine} {v : Token} {others : List Token}
    (h : l.operands = v :: others) (hv : v.IsVariable) :
    variableName l l.operands.head? = .ok v.text := by
  rw [variableName_eq_ok_iff, h]
  exact ⟨v, rfl, hv, rfl⟩

theorem isVariable_of_head {l : SourceLine} {v : Token} {others : List Token} {name : String}
    (h : l.operands = v :: others) (hname : variableName l l.operands.head? = .ok name) :
    v.IsVariable ∧ v.text = name := by
  rw [variableName_eq_ok_iff, h] at hname
  obtain ⟨t, ht, hvariable⟩ := hname
  obtain rfl : v = t := Option.some.inj ht
  exact hvariable

theorem define_eq_ok_iff {l : SourceLine} {cmd : Command} :
    define l = .ok cmd ↔ ∃ v value, l.operands = [v, value] ∧ v.IsVariable ∧
      cmd = .define v.text (.ofToken value) := by
  constructor
  · intro h
    obtain ⟨name, hname, h⟩ := bind_eq_ok h
    split at h
    · next v value hoperands =>
      cases h
      obtain ⟨hv, rfl⟩ := isVariable_of_head hoperands hname
      exact ⟨v, value, hoperands, hv, rfl⟩
    · cases h
  · rintro ⟨v, value, hoperands, hv, rfl⟩
    rw [define, variableName_head hoperands hv, hoperands]
    rfl

theorem clear_eq_ok_iff {l : SourceLine} {cmd : Command} :
    clear l = .ok cmd ↔ ∃ v, l.operands = [v] ∧ v.IsVariable ∧ cmd = .clear v.text := by
  constructor
  · intro h
    obtain ⟨name, hname, h⟩ := bind_eq_ok h
    split at h
    · next v hoperands =>
      cases h
      obtain ⟨hv, rfl⟩ := isVariable_of_head hoperands hname
      exact ⟨v, hoperands, hv, rfl⟩
    · cases h
  · rintro ⟨v, hoperands, hv, rfl⟩
    rw [clear, variableName_head hoperands hv, hoperands]
    rfl

theorem clearAll_eq_ok_iff {l : SourceLine} {cmd : Command} :
    clearAll l = .ok cmd ↔ l.operands = [] ∧ cmd = .clearAll := by
  unfold clearAll
  split
  · next hoperands => simp [hoperands, eq_comm]
  · next hoperands =>
    simp only [SourceLine.fault, reduceCtorEq, false_iff]
    exact fun h => hoperands h.1

theorem isScriptName_iff {t : Token} : isScriptName t.text = true ↔ t.IsScriptName := by
  unfold isScriptName Token.IsScriptName
  split
  · next rest htext => simp [htext]
  · next rest htext => simp [htext]
  · next rest htext => simp [htext]
  · next hdollar hround hcurly =>
    simp only [true_iff]
    intro c hc hhead
    obtain ⟨rest, htext⟩ := List.head?_eq_some_iff.mp hhead
    simp only [List.mem_cons, List.not_mem_nil, or_false] at hc
    rcases hc with rfl | rfl | rfl
    · exact hdollar rest htext
    · exact hround rest htext
    · exact hcurly rest htext

theorem scope_eq_ok_iff {l : SourceLine} {t : Token} {set : Option Argument} :
    scope l (some t) = .ok set ↔
      (Argument.ofToken t).IsScope ∧ set = some (Argument.ofToken t) := by
  unfold scope
  rw [Option.map_some]
  cases Argument.ofToken t with
  | literal text => simp [Argument.IsScope, SourceLine.fault]
  | expression text => simp [Argument.IsScope, SourceLine.fault]
  | annotationSet text => simp [Argument.IsScope, eq_comm]
  | variableRef name => simp [Argument.IsScope, eq_comm]

theorem invoke_eq_ok_iff {c : Compiler} {kind : InvokeKind} {l : SourceLine} {cmd : Command} :
    c.invoke kind l = .ok cmd ↔ ∃ name, name.IsScriptName ∧
      ((l.operands = [name] ∧
        cmd = .invoke kind name.text none (!c.subs.contains name.text)) ∨
      ∃ t, l.operands = [name, t] ∧ (Argument.ofToken t).IsScope ∧
        cmd = .invoke kind name.text (some (.ofToken t)) (!c.subs.contains name.text)) := by
  have hnone : scope l none = .ok none := rfl
  unfold invoke
  constructor
  · intro h
    split at h
    · next name rest hoperands =>
      split at h
      · cases h
      · next hlength =>
        split at h
        · cases h
        · next hname =>
          have hname : name.IsScriptName := isScriptName_iff.mp (by simpa using hname)
          obtain ⟨set, hset, h⟩ := bind_eq_ok h
          cases h
          refine ⟨name, hname, ?_⟩
          match rest, hlength with
          | [], _ =>
            rw [List.head?_nil, hnone] at hset
            cases hset
            exact Or.inl ⟨hoperands, rfl⟩
          | [t], _ =>
            obtain ⟨hscope, rfl⟩ := scope_eq_ok_iff.mp hset
            exact Or.inr ⟨t, hoperands, hscope, rfl⟩
          | _ :: _ :: _, hlength => simp at hlength
    · cases h
  · rintro ⟨name, hname, hcases⟩
    have hname : isScriptName name.text = true := isScriptName_iff.mpr hname
    rcases hcases with ⟨hoperands, rfl⟩ | ⟨t, hoperands, hscope, rfl⟩
    · simp only [hoperands, hname, List.length_nil, List.head?_nil, hnone]
      rfl
    · have hset := (scope_eq_ok_iff (l := l)).mpr ⟨hscope, rfl⟩
      simp only [hoperands, hname, List.length_cons, List.length_nil, List.head?_cons, hset]
      rfl

theorem single_of_invoke {c : Compiler} {kind : InvokeKind} {l : SourceLine} {cmd : Command}
    (h : c.invoke kind l = .ok cmd) (hkeyword : l.keyword = some kind.keyword) :
    c.Single l cmd := by
  obtain ⟨name, hname, ⟨hoperands, rfl⟩ | ⟨t, hoperands, hscope, rfl⟩⟩ := invoke_eq_ok_iff.mp h
  · exact .invoke hkeyword hoperands hname
  · exact .invokeFor hkeyword hoperands hname hscope

theorem function_eq_ok_iff {c : Compiler} {l : SourceLine} {name : Token} {args : List Token}
    (htokens : l.tokens = name :: args) {cmd : Command} :
    c.function l = .ok cmd ↔ ∃ d, c.catalogue.resolve name.text args.length = some d ∧
      d.arity ≤ args.length ∧ cmd = .function d (args.map Argument.ofToken) := by
  have hoperands : l.operands = args := by rw [SourceLine.operands, htokens, List.drop_one, List.tail_cons]
  unfold function
  simp only [htokens, hoperands, List.head?_cons, Option.map_some, Option.getD_some,
    List.length_map]
  cases hresolve : c.catalogue.resolve name.text args.length with
  | none => simp
  | some d =>
    dsimp only
    split
    · next hshort =>
      simp only [SourceLine.fault, reduceCtorEq, Option.some.injEq, false_iff]
      rintro ⟨d', rfl, harity, -⟩
      omega
    · next hlong => simp [Nat.le_of_not_lt hlong, eq_comm]

/-- A command of one line is compiled exactly if it is one. -/
theorem command_eq_ok_iff {c : Compiler} {l : SourceLine} (htokens : l.tokens ≠ [])
    (hfor : l.keyword ≠ some "for") (hif : l.keyword ≠ some "if") {cmd : Command} :
    c.command l = .ok cmd ↔ c.Single l cmd := by
  obtain ⟨name, args, htokens⟩ := List.exists_cons_of_ne_nil htokens
  constructor
  · intro h
    unfold command at h
    split at h
    · next hkeyword =>
      obtain ⟨v, value, hoperands, hv, rfl⟩ := define_eq_ok_iff.mp h
      exact .define hkeyword hoperands hv
    · next hkeyword =>
      obtain ⟨v, hoperands, hv, rfl⟩ := clear_eq_ok_iff.mp h
      exact .clear hkeyword hoperands hv
    · next hkeyword =>
      obtain ⟨hoperands, rfl⟩ := clearAll_eq_ok_iff.mp h
      exact .clearAll hkeyword hoperands
    · next hkeyword => exact single_of_invoke h hkeyword
    · next hkeyword => exact single_of_invoke h hkeyword
    · cases h
    · cases h
    · cases h
    · cases h
    · cases h
    · obtain ⟨d, hresolve, harity, rfl⟩ := (function_eq_ok_iff htokens).mp h
      refine .function ?_ htokens hresolve harity
      simp only [keywords, List.forall_mem_cons, List.not_mem_nil, false_imp_iff, implies_true,
        and_true]
      exact ⟨hfor, by assumption, hif, by assumption, by assumption, by assumption, by assumption,
        by assumption, by assumption, by assumption, by assumption, by assumption⟩
  · intro h
    cases h with
    | define hkeyword hoperands hv =>
      rw [command, hkeyword]
      exact define_eq_ok_iff.mpr ⟨_, _, hoperands, hv, rfl⟩
    | clear hkeyword hoperands hv =>
      rw [command, hkeyword]
      exact clear_eq_ok_iff.mpr ⟨_, hoperands, hv, rfl⟩
    | clearAll hkeyword hoperands =>
      rw [command, hkeyword]
      exact clearAll_eq_ok_iff.mpr ⟨hoperands, rfl⟩
    | @invoke kind name hkeyword hoperands hname =>
      rw [command, hkeyword]
      cases kind with
      | call => exact invoke_eq_ok_iff.mpr ⟨name, hname, .inl ⟨hoperands, rfl⟩⟩
      | inclusion => exact invoke_eq_ok_iff.mpr ⟨name, hname, .inl ⟨hoperands, rfl⟩⟩
    | @invokeFor kind name scope hkeyword hoperands hname hscope =>
      rw [command, hkeyword]
      cases kind with
      | call => exact invoke_eq_ok_iff.mpr ⟨name, hname, .inr ⟨scope, hoperands, hscope, rfl⟩⟩
      | inclusion => exact invoke_eq_ok_iff.mpr ⟨name, hname, .inr ⟨scope, hoperands, hscope, rfl⟩⟩
    | @function name args d hkeyword htokens hresolve harity =>
      have hfunction := (function_eq_ok_iff htokens).mpr ⟨d, hresolve, harity, rfl⟩
      simp only [keywords, List.forall_mem_cons, List.not_mem_nil, false_imp_iff, implies_true,
        and_true] at hkeyword
      obtain ⟨-, hend, -, helseIf, helse, hsub, hendSub, hdef, hclear, hclearAll, hcall, hinclude⟩ :=
        hkeyword
      unfold command
      split
      all_goals first | exact hfunction | contradiction

theorem loopHead_eq_ok_iff {l : SourceLine} (hkeyword : l.keyword = some "for") {name : String}
    {set : Argument} : loopHead l = .ok (name, set) ↔ l.IsFor name set := by
  constructor
  · intro h
    obtain ⟨name', hname, h⟩ := bind_eq_ok h
    split at h
    · next v s hoperands =>
      obtain ⟨hv, rfl⟩ := isVariable_of_head hoperands hname
      split at h
      · cases h
      · next hliteral =>
        cases h
        refine ⟨hkeyword, v, s, hoperands, hv, rfl, rfl, ?_⟩
        cases hs : Argument.ofToken s with
        | literal text => exact hliteral text hs
        | _ => trivial
    · cases h
  · rintro ⟨-, v, s, hoperands, hv, rfl, rfl, hset⟩
    rw [loopHead, variableName_head hoperands hv, hoperands]
    simp only [bind, Except.bind]
    cases hs : Argument.ofToken s with
    | literal text =>
      rw [hs] at hset
      exact hset.elim
    | _ => rfl

theorem endsLoop_iff {name : String} {l : SourceLine} : endsLoop name l = true ↔ l.IsEnd name := by
  unfold endsLoop SourceLine.IsEnd
  rw [Bool.and_eq_true, decide_eq_true_iff, decide_eq_true_iff, List.map_eq_singleton_iff]

theorem condition_eq_ok_iff {l : SourceLine} {keyword : String} {a : Argument} :
    condition l keyword = .ok a ↔
      ∃ t, l.operands = [t] ∧ Argument.ofToken t = a ∧ a.IsCondition := by
  unfold condition
  split
  · next t hoperands =>
    simp only [hoperands, List.cons.injEq, and_true, exists_eq_left']
    cases Argument.ofToken t with
    | literal text =>
      simp only [SourceLine.fault, reduceCtorEq, false_iff]
      rintro ⟨rfl, h⟩
      exact h
    | annotationSet text =>
      simp only [SourceLine.fault, reduceCtorEq, false_iff]
      rintro ⟨rfl, h⟩
      exact h
    | expression text =>
      simp only [Except.ok.injEq, iff_self_and]
      rintro rfl
      trivial
    | variableRef name =>
      simp only [Except.ok.injEq, iff_self_and]
      rintro rfl
      trivial
  · next hoperands =>
    simp only [SourceLine.fault, reduceCtorEq, false_iff]
    rintro ⟨t, ht, -⟩
    exact hoperands t ht

/-- A line that starts a branch gives a condition, unless its keyword is `else`. -/
theorem branchHead_eq_ok_iff {l : SourceLine} {keyword : String} (hkeyword : l.keyword = some keyword)
    {condition : Option Argument} : branchHead l keyword = .ok condition ↔
      (keyword = "else" ∧ l.IsElse ∧ condition = none) ∨
        (keyword ≠ "else" ∧ ∃ a, l.IsTest keyword a ∧ condition = some a) := by
  unfold branchHead SourceLine.IsElse SourceLine.IsTest
  by_cases helse : keyword = "else"
  · subst helse
    rw [if_pos rfl]
    split
    · next hoperands => simp [hkeyword, hoperands, eq_comm]
    · next hoperands =>
      simp only [SourceLine.fault, reduceCtorEq, ne_eq, not_true_eq_false, false_and, or_false,
        true_and, false_iff]
      rintro ⟨⟨-, h⟩, -⟩
      exact hoperands h
  · rw [if_neg helse]
    simp only [helse, false_and, not_false_eq_true, true_and, false_or, ne_eq, hkeyword]
    constructor
    · intro h
      obtain ⟨a, ha, h⟩ := bind_eq_ok h
      cases h
      exact ⟨a, condition_eq_ok_iff.mp ha, rfl⟩
    · rintro ⟨a, ha, rfl⟩
      rw [condition_eq_ok_iff.mpr ha]
      rfl

/-- A loop is cut off at the first line that ends a loop over its variable. -/
theorem cutLoop_eq_some_iff {name : String} {lines body after : List SourceLine} :
    cutLoop name lines = some (body, after) ↔ ∃ last, lines = body ++ last :: after ∧
      last.IsEnd name ∧ ∀ l ∈ body, ¬ l.IsEnd name := by
  induction lines generalizing body with
  | nil => simp [cutLoop]
  | cons l rest ih =>
    rw [cutLoop]
    by_cases hend : endsLoop name l = true
    · rw [if_pos hend]
      rw [endsLoop_iff] at hend
      constructor
      · intro h
        cases h
        exact ⟨l, rfl, hend, by simp⟩
      · rintro ⟨last, hlines, -, hbody⟩
        cases body with
        | nil =>
          cases hlines
          rfl
        | cons first body =>
          cases hlines
          exact absurd hend (hbody l (by simp))
    · rw [if_neg hend, Option.map_eq_some_iff]
      rw [endsLoop_iff] at hend
      constructor
      · rintro ⟨⟨body', after'⟩, hcut, heq⟩
        cases heq
        obtain ⟨last, rfl, hlast, hbody⟩ := ih.mp hcut
        refine ⟨last, rfl, hlast, ?_⟩
        intro l' hl'
        rcases List.mem_cons.mp hl' with rfl | hl'
        · exact hend
        · exact hbody l' hl'
      · rintro ⟨last, hlines, hlast, hbody⟩
        cases body with
        | nil =>
          cases hlines
          exact absurd hlast hend
        | cons first body =>
          cases hlines
          exact ⟨(body, after), ih.mpr ⟨last, rfl, hlast, fun l' hl' => hbody l' (by simp [hl'])⟩, rfl⟩

/-- A line that is a command by itself has none of the keywords of loops and choices. -/
theorem Single.keyword_ne {c : Compiler} {l : SourceLine} {cmd : Command} (h : c.Single l cmd)
    {k : String} (hk : k ∈ ["for", "end", "if", "elseIf", "else"]) : l.keyword ≠ some k := by
  have hdistinct : ∀ {other : String}, l.keyword = some other →
      other ∉ ["for", "end", "if", "elseIf", "else"] → l.keyword ≠ some k := by
    rintro other hother hnot heq
    obtain rfl : other = k := Option.some.inj (hother.symm.trans heq)
    exact hnot hk
  cases h with
  | define hkeyword _ _ => exact hdistinct hkeyword (by decide)
  | clear hkeyword _ _ => exact hdistinct hkeyword (by decide)
  | clearAll hkeyword _ => exact hdistinct hkeyword (by decide)
  | @invoke kind _ hkeyword _ _ => exact hdistinct hkeyword (by cases kind <;> decide)
  | @invokeFor kind _ _ hkeyword _ _ _ => exact hdistinct hkeyword (by cases kind <;> decide)
  | function hkeyword _ _ _ =>
    refine hkeyword k ?_
    simp only [List.mem_cons, List.not_mem_nil, or_false] at hk
    rcases hk with rfl | rfl | rfl | rfl | rfl <;> decide

theorem Single.tokens_ne_nil {c : Compiler} {l : SourceLine} {cmd : Command} (h : c.Single l cmd) :
    l.tokens ≠ [] := by
  intro hnil
  have hkeyword : l.keyword = none := by rw [SourceLine.keyword, hnil]
  cases h <;> simp_all

end Compiler

/-! ## Where loops end -/

namespace SourceLine

theorem IsEnd.unique {l : SourceLine} {name other : String} (h : l.IsEnd name)
    (h' : l.IsEnd other) : name = other := by
  obtain ⟨-, t, ht, rfl⟩ := h
  obtain ⟨-, t', ht', rfl⟩ := h'
  rw [ht] at ht'
  rw [(List.cons.inj ht').1]

theorem not_isEnd {l : SourceLine} {keyword name : String} (h : l.keyword = some keyword)
    (hne : keyword ≠ "end") : ¬ l.IsEnd name := by
  rintro ⟨hend, -⟩
  exact hne (Option.some.inj (h.symm.trans hend))

end SourceLine

mutual

/-- A command has the `end` line of a variable exactly if it has a loop over the variable. -/
theorem Derivation.exists_loop_iff {c : Compiler} (name : String) : ∀ {d : Derivation},
    d.Valid c → ((∃ s ∈ d.statement.parts, s.loopName? = some name) ↔ ∃ l ∈ d.lines, l.IsEnd name)
  | .single l cmd, h => by
    rw [Derivation.Valid] at h
    have hend : ¬ l.IsEnd name := fun hend => h.keyword_ne (by decide) hend.1
    simp [Derivation.statement, Derivation.lines, Statement.parts, hend]
  | .loop first name' set body last, h => by
    rw [Derivation.Valid] at h
    obtain ⟨hfirst, hbody, -, hlast⟩ := h
    have hnot : ¬ first.IsEnd name := SourceLine.not_isEnd hfirst.1 (by decide)
    have hname : last.IsEnd name ↔ name' = name :=
      ⟨fun hend => hlast.unique hend, fun heq => heq ▸ hlast⟩
    have hinside := Derivation.exists_loopAll_iff name hbody
    simp only [Derivation.statement, Derivation.lines, Statement.parts, List.exists_mem_cons_iff,
      Statement.loopName?_loop, Option.some.injEq, hnot, false_or, hinside, List.mem_append,
      List.mem_singleton, or_and_right, exists_or, exists_eq_left, hname]
    exact or_comm
  | .choice first condition d more, h => by
    rw [Derivation.Valid] at h
    obtain ⟨hfirst, hcommand, -, hmore⟩ := h
    have hnot : ¬ first.IsEnd name := SourceLine.not_isEnd hfirst.1 (by decide)
    simp only [Derivation.statement, Derivation.lines, Statement.parts, Statement.partsBranches,
      List.exists_mem_cons_iff, Statement.loopName?_choice, reduceCtorEq, hnot, false_or,
      List.mem_append, or_and_right, exists_or, Derivation.exists_loop_iff name hcommand,
      Alternatives.exists_loop_iff name hmore]

theorem Derivation.exists_loopAll_iff {c : Compiler} (name : String) : ∀ {ds : List Derivation},
    Derivation.ValidAll c ds →
      ((∃ s ∈ Statement.partsAll (Derivation.statements ds), s.loopName? = some name) ↔
        ∃ l ∈ Derivation.linesAll ds, l.IsEnd name)
  | [], _ => by simp [Derivation.statements, Derivation.linesAll, Statement.partsAll]
  | d :: rest, h => by
    rw [Derivation.ValidAll] at h
    simp only [Derivation.statements, Derivation.linesAll, Statement.partsAll, List.mem_append,
      or_and_right, exists_or, Derivation.exists_loop_iff name h.1, Derivation.exists_loopAll_iff name h.2]

theorem Alternatives.exists_loop_iff {c : Compiler} (name : String) : ∀ {a : Alternatives},
    a.Valid c → ((∃ s ∈ Statement.partsBranches a.branches, s.loopName? = some name) ↔
      ∃ l ∈ a.lines, l.IsEnd name)
  | .none, _ => by simp [Alternatives.branches, Alternatives.lines, Statement.partsBranches]
  | .elseIf l condition d more, h => by
    rw [Alternatives.Valid] at h
    obtain ⟨hline, hcommand, -, hmore⟩ := h
    have hnot : ¬ l.IsEnd name := SourceLine.not_isEnd hline.1 (by decide)
    simp only [Alternatives.branches, Alternatives.lines, Statement.partsBranches,
      List.exists_mem_cons_iff, hnot, false_or, List.mem_append, or_and_right, exists_or,
      Derivation.exists_loop_iff name hcommand, Alternatives.exists_loop_iff name hmore]
  | .otherwise l d, h => by
    rw [Alternatives.Valid] at h
    obtain ⟨hline, hcommand, -⟩ := h
    have hnot : ¬ l.IsEnd name := SourceLine.not_isEnd hline.1 (by decide)
    simp only [Alternatives.branches, Alternatives.lines, Statement.partsBranches,
      List.append_nil, List.exists_mem_cons_iff, hnot, false_or,
      Derivation.exists_loop_iff name hcommand]

end

/-- The body of a loop has no line that ends the loop. -/
theorem Derivation.noLoop_iff {c : Compiler} {name : String} {ds : List Derivation}
    (h : Derivation.ValidAll c ds) :
    (∀ s ∈ Statement.partsAll (Derivation.statements ds), s.loopName? ≠ some name) ↔
      ∀ l ∈ Derivation.linesAll ds, ¬ l.IsEnd name := by
  have hiff := not_congr (Derivation.exists_loopAll_iff name h)
  push Not at hiff
  exact hiff

/-! ## What is compiled is derived -/

/-- A valid command starts with a line that starts no later branch, and with an `if` line only
if it is a choice. -/
theorem Derivation.Valid.lines_eq_cons {c : Compiler} {d : Derivation} (h : d.Valid c) :
    ∃ first rest, d.lines = first :: rest ∧ first.keyword ≠ some "elseIf" ∧
      first.keyword ≠ some "else" ∧ (d.IsChoice ↔ first.keyword = some "if") := by
  cases d with
  | single l cmd =>
    rw [Derivation.Valid] at h
    refine ⟨l, [], rfl, h.keyword_ne (by decide), h.keyword_ne (by decide), ?_⟩
    simp [Derivation.IsChoice, h.keyword_ne]
  | loop first name set body last =>
    rw [Derivation.Valid] at h
    refine ⟨first, _, rfl, ?_⟩
    simp [Derivation.IsChoice, h.1.1]
  | choice first condition d more =>
    rw [Derivation.Valid] at h
    refine ⟨first, _, rfl, ?_⟩
    simp [Derivation.IsChoice, h.1.1]

namespace Compiler

theorem branchKeyword?_eq_none_iff {l : SourceLine} : branchKeyword? l = none ↔
    l.keyword ≠ some "if" ∧ l.keyword ≠ some "elseIf" ∧ l.keyword ≠ some "else" := by
  unfold branchKeyword?
  split
  · next h => simp [h]
  · next h => simp [h]
  · next h => simp [h]
  · next hif helseIf helse => exact ⟨fun _ => ⟨hif, helseIf, helse⟩, fun _ => rfl⟩

/-- A branch after the first is derived from its line, its command and what comes after. -/
theorem exists_alternatives {c : Compiler} {l : SourceLine} {keyword : String}
    (hkeyword : l.keyword = some keyword) (hlater : keyword = "elseIf" ∨ keyword = "else")
    {condition : Option Argument} (hhead : branchHead l keyword = .ok condition) {d : Derivation}
    (hd : d.Valid c) (hnot : ¬ d.IsChoice) {more : Alternatives} (hmore : more.Valid c)
    (hlast : condition = none → more = .none) :
    ∃ a : Alternatives, a.Valid c ∧ a.lines = l :: (d.lines ++ more.lines) ∧
      a.branches = (condition, d.statement) :: more.branches := by
  rcases (branchHead_eq_ok_iff hkeyword).mp hhead with
    ⟨rfl, hline, rfl⟩ | ⟨hne, a, hline, rfl⟩
  · obtain rfl := hlast rfl
    refine ⟨.otherwise l d, ?_, ?_, ?_⟩
    · rw [Alternatives.Valid]
      exact ⟨hline, hd, hnot⟩
    · simp [Alternatives.lines]
    · simp [Alternatives.branches]
  · obtain rfl : keyword = "elseIf" := hlater.resolve_right hne
    refine ⟨.elseIf l a d more, ?_, ?_, ?_⟩
    · rw [Alternatives.Valid]
      exact ⟨hline, hd, hnot, hmore⟩
    · rw [Alternatives.lines]
    · rw [Alternatives.branches]

/-- What a statement is compiled to is the tree of a derivation from its lines. -/
def StatementsDerived (c : Compiler) (fuel : Nat) : Prop :=
  ∀ {l rest s after}, (∀ l' ∈ l :: rest, l'.tokens ≠ []) →
    c.statementFrom fuel l rest = .ok (s, after) →
    ∃ d : Derivation, d.Valid c ∧ d.lines ++ after = l :: rest ∧ d.statement = s

/-- So it is with branches, whose first line is given apart. -/
def BranchesDerived (c : Compiler) (fuel : Nat) : Prop :=
  ∀ {l keyword lines branches after}, (∀ l' ∈ lines, l'.tokens ≠ []) →
    l.keyword = some keyword → c.branchesFrom fuel l keyword lines = .ok (branches, after) →
    ∃ (condition : Option Argument) (d : Derivation) (more : Alternatives),
      branchHead l keyword = .ok condition ∧ d.Valid c ∧ ¬ d.IsChoice ∧ more.Valid c ∧
      (condition = none → more = .none) ∧ d.lines ++ (more.lines ++ after) = lines ∧
      (condition, d.statement) :: more.branches = branches

/-- So it is with blocks. -/
def BlocksDerived (c : Compiler) (fuel : Nat) : Prop :=
  ∀ {lines body}, (∀ l' ∈ lines, l'.tokens ≠ []) → c.blockFrom fuel lines = .ok body →
    ∃ ds, c.Derives lines ds ∧ Derivation.statements ds = body

theorem statementsDerived_succ {c : Compiler} {fuel : Nat} (hbranches : c.BranchesDerived fuel)
    (hblocks : c.BlocksDerived fuel) : c.StatementsDerived (fuel + 1) := by
  intro l rest s after htokens h
  have hrest : ∀ l' ∈ rest, l'.tokens ≠ [] := fun l' hl' => htokens l' (by simp [hl'])
  rcases statementFrom_cases h with
    ⟨name, set, lines, body, hkeyword, hhead, hcut, hbody, rfl⟩ |
    ⟨branches, hkeyword, hfrom, rfl⟩ | ⟨cmd, hfor, hif, hcmd, rfl, rfl⟩
  · obtain ⟨last, rfl, hlast, hlines⟩ := cutLoop_eq_some_iff.mp hcut
    have hinside : ∀ l' ∈ lines, l'.tokens ≠ [] := fun l' hl' => hrest l' (by simp [hl'])
    obtain ⟨ds, ⟨hvalid, rfl⟩, rfl⟩ := hblocks hinside hbody
    refine ⟨.loop l name set ds last, ?_, ?_, ?_⟩
    · rw [Derivation.Valid]
      exact ⟨(loopHead_eq_ok_iff hkeyword).mp hhead, hvalid,
        (Derivation.noLoop_iff hvalid).mpr hlines, hlast⟩
    · simp [Derivation.lines]
    · rw [Derivation.statement]
  · obtain ⟨condition, d, more, hhead, hd, hnot, hmore, -, rfl, rfl⟩ :=
      hbranches hrest hkeyword hfrom
    rcases (branchHead_eq_ok_iff hkeyword).mp hhead with ⟨habsurd, -⟩ | ⟨-, a, hline, rfl⟩
    · exact absurd habsurd (by decide)
    · refine ⟨.choice l a d more, ?_, ?_, ?_⟩
      · rw [Derivation.Valid]
        exact ⟨hline, hd, hnot, hmore⟩
      · simp [Derivation.lines]
      · rw [Derivation.statement]
  · have hline := (command_eq_ok_iff (htokens l (by simp)) hfor hif).mp hcmd
    refine ⟨.single l cmd, ?_, ?_, ?_⟩
    · rw [Derivation.Valid]
      exact hline
    · simp [Derivation.lines]
    · rw [Derivation.statement]

theorem branchesDerived_succ {c : Compiler} {fuel : Nat} (hstatements : c.StatementsDerived fuel)
    (hbranches : c.BranchesDerived fuel) : c.BranchesDerived (fuel + 1) := by
  intro l keyword lines branches after htokens hkeyword h
  obtain ⟨condition, first, rest, statement, mid, rfl, hhead, hfirst, hfrom, hcases⟩ :=
    branchesFrom_cases h
  obtain ⟨d, hd, hlines, rfl⟩ := hstatements htokens hfrom
  have hnot : ¬ d.IsChoice := by
    obtain ⟨first', rest', hfirst', -, -, hchoice⟩ := hd.lines_eq_cons
    rw [hfirst'] at hlines
    obtain rfl := (List.cons.inj hlines).1
    rw [hchoice]
    exact (branchKeyword?_eq_none_iff.mp hfirst).1
  rcases hcases with ⟨rfl, rfl⟩ |
    ⟨next, others, keyword', more, rfl, hlater, hnext, hnone, hmore, rfl⟩
  · refine ⟨condition, d, .none, hhead, hd, hnot, ?_, fun _ => rfl, ?_, ?_⟩
    · rw [Alternatives.Valid]
      trivial
    · rw [Alternatives.lines]
      exact hlines
    · rw [Alternatives.branches]
  · have hothers : ∀ l' ∈ others, l'.tokens ≠ [] := by
      intro l' hl'
      refine htokens l' ?_
      rw [← hlines]
      simp [hl']
    obtain ⟨condition', d', more', hhead', hd', hnot', hvalid', hlast', rfl, rfl⟩ :=
      hbranches hothers hnext hmore
    obtain ⟨a, ha, halines, habranches⟩ :=
      exists_alternatives hnext hlater hhead' hd' hnot' hvalid' hlast'
    refine ⟨condition, d, a, hhead, hd, hnot, ha, ?_, ?_, ?_⟩
    · rintro rfl
      cases hnone
    · rw [halines, ← hlines]
      simp
    · rw [habranches]

theorem derives_nil (c : Compiler) : c.Derives [] [] := by
  constructor
  · rw [Derivation.ValidAll]
    trivial
  · rw [Derivation.linesAll]

theorem blocksDerived_succ {c : Compiler} {fuel : Nat} (hstatements : c.StatementsDerived fuel)
    (hblocks : c.BlocksDerived fuel) : c.BlocksDerived (fuel + 1) := by
  intro lines body htokens h
  cases lines with
  | nil =>
    cases h
    exact ⟨[], c.derives_nil, by rw [Derivation.statements]⟩
  | cons l rest =>
    obtain ⟨statement, after, statements, hfrom, hrest, rfl⟩ := blockFrom_cases h
    obtain ⟨d, hd, hlines, rfl⟩ := hstatements htokens hfrom
    have hafter : ∀ l' ∈ after, l'.tokens ≠ [] := by
      intro l' hl'
      refine htokens l' ?_
      rw [← hlines]
      simp [hl']
    obtain ⟨ds, ⟨hvalid, rfl⟩, rfl⟩ := hblocks hafter hrest
    refine ⟨d :: ds, ⟨?_, ?_⟩, ?_⟩
    · rw [Derivation.ValidAll]
      exact ⟨hd, hvalid⟩
    · rw [Derivation.linesAll]
      exact hlines
    · rw [Derivation.statements]

/-- What is compiled is derived. Statements, branches and blocks are compiled through each other,
each call with less fuel. -/
theorem derived_of_from (c : Compiler) (fuel : Nat) :
    c.StatementsDerived fuel ∧ c.BranchesDerived fuel ∧ c.BlocksDerived fuel := by
  induction fuel with
  | zero =>
    refine ⟨?_, ?_, ?_⟩
    · intro l rest s after _ h
      cases h
    · intro l keyword lines branches after _ _ h
      cases h
    · intro lines body _ h
      cases lines with
      | nil =>
        cases h
        exact ⟨[], c.derives_nil, by rw [Derivation.statements]⟩
      | cons l rest => cases h
  | succ fuel ih =>
    obtain ⟨hstatements, hbranches, hblocks⟩ := ih
    exact ⟨statementsDerived_succ hbranches hblocks, branchesDerived_succ hstatements hbranches,
      blocksDerived_succ hstatements hblocks⟩

/-! ## What is derived is compiled -/

/-- The lines do not start with a line that starts a later branch. -/
def StartsNoBranch (lines : List SourceLine) : Prop :=
  ∀ l ∈ lines.head?, l.keyword ≠ some "elseIf" ∧ l.keyword ≠ some "else"

theorem startsNoBranch_linesAll {c : Compiler} {ds : List Derivation}
    (h : Derivation.ValidAll c ds) : StartsNoBranch (Derivation.linesAll ds) := by
  intro l hl
  cases ds with
  | nil =>
    rw [Derivation.linesAll] at hl
    cases hl
  | cons d rest =>
    rw [Derivation.ValidAll] at h
    obtain ⟨first, others, hlines, helseIf, helse, -⟩ := h.1.lines_eq_cons
    rw [Derivation.linesAll, hlines] at hl
    obtain rfl : first = l := Option.some.inj hl
    exact ⟨helseIf, helse⟩

/-- A branch whose command is compiled, with no branch after it. -/
theorem branchesFrom_last {c : Compiler} {fuel : Nat} {l first : SourceLine} {keyword : String}
    {rest after : List SourceLine} {condition : Option Argument} {s : Statement}
    (hhead : branchHead l keyword = .ok condition) (hfirst : branchKeyword? first = none)
    (hfrom : c.statementFrom fuel first rest = .ok (s, after)) (hafter : StartsNoBranch after) :
    c.branchesFrom (fuel + 1) l keyword (first :: rest) = .ok ([(condition, s)], after) := by
  rw [branchesFrom]
  simp only [hhead, checkBranchBody, hfirst, hfrom, bind, Except.bind]
  cases after with
  | nil => rfl
  | cons next others =>
    obtain ⟨helseIf, helse⟩ := hafter next rfl
    dsimp only
    split
    · contradiction
    · contradiction
    · rfl

/-- A branch whose command is compiled, with other branches after it. -/
theorem branchesFrom_more {c : Compiler} {fuel : Nat} {l first next : SourceLine}
    {keyword keyword' : String} {rest others after : List SourceLine} {a : Argument}
    {s : Statement} {more : List (Option Argument × Statement)}
    (hhead : branchHead l keyword = .ok (some a)) (hfirst : branchKeyword? first = none)
    (hfrom : c.statementFrom fuel first rest = .ok (s, next :: others))
    (hnext : next.keyword = some keyword') (hlater : keyword' = "elseIf" ∨ keyword' = "else")
    (hmore : c.branchesFrom fuel next keyword' others = .ok (more, after)) :
    c.branchesFrom (fuel + 1) l keyword (first :: rest) = .ok ((some a, s) :: more, after) := by
  rw [branchesFrom]
  simp only [hhead, checkBranchBody, hfirst, hfrom, hnext, bind, Except.bind]
  rcases hlater with rfl | rfl
  · simp only [Option.isNone_some, Bool.false_eq_true, if_false, hmore]
    rfl
  · simp only [Option.isNone_some, Bool.false_eq_true, if_false, hmore]
    rfl

theorem statementFrom_single {c : Compiler} {fuel : Nat} {l : SourceLine} {rest : List SourceLine}
    {cmd : Command} (hfor : l.keyword ≠ some "for") (hif : l.keyword ≠ some "if")
    (hcmd : c.command l = .ok cmd) :
    c.statementFrom (fuel + 1) l rest = .ok (.command l.pos cmd, rest) := by
  rw [statementFrom]
  split
  · contradiction
  · contradiction
  · rw [hcmd]
    rfl

theorem statementFrom_loop {c : Compiler} {fuel : Nat} {l : SourceLine}
    {rest lines after : List SourceLine} {name : String} {set : Argument} {body : List Statement}
    (hline : l.IsFor name set) (hcut : cutLoop name rest = some (lines, after))
    (hbody : c.blockFrom fuel lines = .ok body) :
    c.statementFrom (fuel + 1) l rest = .ok (.loop l.pos name set body, after) := by
  have hhead := (loopHead_eq_ok_iff hline.1).mpr hline
  rw [statementFrom]
  simp only [hline.1, hhead, hcut, hbody, bind, Except.bind]
  rfl

theorem statementFrom_choice {c : Compiler} {fuel : Nat} {l : SourceLine}
    {rest after : List SourceLine} {branches : List (Option Argument × Statement)}
    (hkeyword : l.keyword = some "if")
    (hfrom : c.branchesFrom fuel l "if" rest = .ok (branches, after)) :
    c.statementFrom (fuel + 1) l rest = .ok (.choice l.pos branches, after) := by
  rw [statementFrom]
  simp only [hkeyword, hfrom, bind, Except.bind]
  rfl

/-- The command of a branch and the branches after it are compiled one after the other. -/
theorem branchesFrom_of_valid {c : Compiler} {fuel : Nat} {l : SourceLine} {keyword : String}
    {condition : Option Argument} (hhead : branchHead l keyword = .ok condition) {d : Derivation}
    (hd : d.Valid c) (hnot : ¬ d.IsChoice) {more : Alternatives} {after : List SourceLine}
    (hfrom : ∃ first rest, d.lines ++ (more.lines ++ after) = first :: rest ∧
      c.statementFrom fuel first rest = .ok (d.statement, more.lines ++ after))
    (hafter : StartsNoBranch after)
    (hmore : more = .none ∨ (∃ a, condition = some a) ∧ ∃ next keyword' others,
      more.lines ++ after = next :: others ∧ next.keyword = some keyword' ∧
      (keyword' = "elseIf" ∨ keyword' = "else") ∧
      c.branchesFrom fuel next keyword' others = .ok (more.branches, after)) :
    c.branchesFrom (fuel + 1) l keyword (d.lines ++ (more.lines ++ after)) =
      .ok ((condition, d.statement) :: more.branches, after) := by
  obtain ⟨first, rest, hlines, hfrom⟩ := hfrom
  have hfirst : branchKeyword? first = none := by
    obtain ⟨first', rest', hfirst', helseIf, helse, hchoice⟩ := hd.lines_eq_cons
    rw [hfirst'] at hlines
    obtain rfl := (List.cons.inj hlines).1
    rw [hchoice] at hnot
    exact branchKeyword?_eq_none_iff.mpr ⟨hnot, helseIf, helse⟩
  rw [hlines]
  rcases hmore with rfl | ⟨⟨a, rfl⟩, next, keyword', others, hnext, hkeyword', hlater, hbranches⟩
  · rw [Alternatives.lines, List.nil_append] at hfrom
    rw [Alternatives.branches]
    exact branchesFrom_last hhead hfirst hfrom hafter
  · rw [hnext] at hfrom
    exact branchesFrom_more hhead hfirst hfrom hkeyword' hlater hbranches

mutual

/-- A valid command is compiled to its tree, whatever comes after it, if this does not go on with
a branch of the choice that the command may be. There are two levels of fuel for each line. -/
theorem statementFrom_eq {c : Compiler} : ∀ {d : Derivation} {fuel : Nat}
    {after : List SourceLine}, d.Valid c → 2 * d.lines.length ≤ fuel →
      (d.IsChoice → StartsNoBranch after) → ∃ first rest, d.lines ++ after = first :: rest ∧
        c.statementFrom fuel first rest = .ok (d.statement, after)
  | .single l cmd, fuel, after, h, hfuel, _ => by
    rw [Derivation.Valid] at h
    simp only [Derivation.lines, List.length_cons, List.length_nil] at hfuel
    obtain ⟨n, rfl⟩ : ∃ n, fuel = n + 1 := ⟨fuel - 1, by omega⟩
    have hfor := h.keyword_ne (k := "for") (by decide)
    have hif := h.keyword_ne (k := "if") (by decide)
    have hcmd := (command_eq_ok_iff h.tokens_ne_nil hfor hif).mpr h
    rw [Derivation.statement]
    exact ⟨l, after, rfl, statementFrom_single hfor hif hcmd⟩
  | .loop first name set body last, fuel, after, h, hfuel, _ => by
    rw [Derivation.Valid] at h
    obtain ⟨hfirst, hvalid, hno, hlast⟩ := h
    simp only [Derivation.lines, List.length_cons, List.length_append, List.length_nil] at hfuel
    obtain ⟨n, rfl⟩ : ∃ n, fuel = n + 1 := ⟨fuel - 1, by omega⟩
    have hbody := blockFrom_eq hvalid (show 2 * (Derivation.linesAll body).length + 1 ≤ n by omega)
    have hcut : cutLoop name (Derivation.linesAll body ++ last :: after) =
        some (Derivation.linesAll body, after) :=
      cutLoop_eq_some_iff.mpr ⟨last, rfl, hlast, (Derivation.noLoop_iff hvalid).mp hno⟩
    rw [Derivation.statement]
    exact ⟨first, _, by simp [Derivation.lines], statementFrom_loop hfirst hcut hbody⟩
  | .choice first condition d more, fuel, after, h, hfuel, hafter => by
    rw [Derivation.Valid] at h
    obtain ⟨hfirst, hd, hnot, hmore⟩ := h
    simp only [Derivation.lines, List.length_cons, List.length_append] at hfuel
    obtain ⟨n, rfl⟩ : ∃ n, fuel = n + 2 := ⟨fuel - 2, by omega⟩
    have hafter := hafter trivial
    have hhead : branchHead first "if" = .ok (some condition) :=
      (branchHead_eq_ok_iff hfirst.1).mpr (.inr ⟨by decide, condition, hfirst, rfl⟩)
    have hcommand : ∃ first rest, d.lines ++ (more.lines ++ after) = first :: rest ∧
        c.statementFrom n first rest = .ok (d.statement, more.lines ++ after) :=
      statementFrom_eq hd (by omega) fun hchoice => absurd hchoice hnot
    have hbranches := branchesFrom_of_valid hhead hd hnot hcommand hafter
      ((branchesFrom_eq hmore (by omega) hafter).imp_right fun hmore => ⟨⟨condition, rfl⟩, hmore⟩)
    rw [Derivation.statement]
    exact ⟨first, _, by simp [Derivation.lines], statementFrom_choice hfirst.1 hbranches⟩

theorem blockFrom_eq {c : Compiler} : ∀ {ds : List Derivation} {fuel : Nat},
    Derivation.ValidAll c ds → 2 * (Derivation.linesAll ds).length + 1 ≤ fuel →
      c.blockFrom fuel (Derivation.linesAll ds) = .ok (Derivation.statements ds)
  | [], fuel, _, _ => by
    rw [Derivation.linesAll, Derivation.statements, blockFrom]
  | d :: rest, fuel, h, hfuel => by
    rw [Derivation.ValidAll] at h
    obtain ⟨first, others, hlines, -⟩ := h.1.lines_eq_cons
    have hlength : d.lines.length = others.length + 1 := by rw [hlines, List.length_cons]
    simp only [Derivation.linesAll, List.length_append] at hfuel
    obtain ⟨n, rfl⟩ : ∃ n, fuel = n + 1 := ⟨fuel - 1, by omega⟩
    obtain ⟨first', rest', hsplit, hfrom⟩ :=
      statementFrom_eq h.1 (show 2 * d.lines.length ≤ n by omega)
        fun _ => startsNoBranch_linesAll h.2
    have hrest := blockFrom_eq h.2 (show 2 * (Derivation.linesAll rest).length + 1 ≤ n by omega)
    rw [Derivation.linesAll, Derivation.statements, hsplit, blockFrom]
    simp only [hfrom, hrest, bind, Except.bind]
    rfl

theorem branchesFrom_eq {c : Compiler} : ∀ {a : Alternatives} {fuel : Nat}
    {after : List SourceLine}, a.Valid c → 2 * a.lines.length ≤ fuel + 1 → StartsNoBranch after →
      a = .none ∨ ∃ next keyword others, a.lines ++ after = next :: others ∧
        next.keyword = some keyword ∧ (keyword = "elseIf" ∨ keyword = "else") ∧
        c.branchesFrom fuel next keyword others = .ok (a.branches, after)
  | .none, _, _, _, _, _ => .inl rfl
  | .elseIf l condition d more, fuel, after, h, hfuel, hafter => by
    rw [Alternatives.Valid] at h
    obtain ⟨hline, hd, hnot, hmore⟩ := h
    simp only [Alternatives.lines, List.length_cons, List.length_append] at hfuel
    obtain ⟨n, rfl⟩ : ∃ n, fuel = n + 1 := ⟨fuel - 1, by omega⟩
    have hhead : branchHead l "elseIf" = .ok (some condition) :=
      (branchHead_eq_ok_iff hline.1).mpr (.inr ⟨by decide, condition, hline, rfl⟩)
    have hcommand : ∃ first rest, d.lines ++ (more.lines ++ after) = first :: rest ∧
        c.statementFrom n first rest = .ok (d.statement, more.lines ++ after) :=
      statementFrom_eq hd (by omega) fun hchoice => absurd hchoice hnot
    have hbranches := branchesFrom_of_valid hhead hd hnot hcommand hafter
      ((branchesFrom_eq hmore (by omega) hafter).imp_right fun hmore => ⟨⟨condition, rfl⟩, hmore⟩)
    rw [Alternatives.branches]
    exact .inr ⟨l, "elseIf", _, by simp [Alternatives.lines], hline.1, .inl rfl, hbranches⟩
  | .otherwise l d, fuel, after, h, hfuel, hafter => by
    rw [Alternatives.Valid] at h
    obtain ⟨hline, hd, hnot⟩ := h
    simp only [Alternatives.lines, List.length_cons] at hfuel
    obtain ⟨first, others, hlines, -⟩ := hd.lines_eq_cons
    have hlength : d.lines.length = others.length + 1 := by rw [hlines, List.length_cons]
    obtain ⟨n, rfl⟩ : ∃ n, fuel = n + 1 := ⟨fuel - 1, by omega⟩
    have hhead : branchHead l "else" = .ok none :=
      (branchHead_eq_ok_iff hline.1).mpr (.inl ⟨rfl, hline, rfl⟩)
    have hcommand : ∃ first rest,
        d.lines ++ (Alternatives.none.lines ++ after) = first :: rest ∧
        c.statementFrom n first rest = .ok (d.statement, Alternatives.none.lines ++ after) :=
      statementFrom_eq hd (by omega) fun hchoice => absurd hchoice hnot
    have hbranches := branchesFrom_of_valid hhead hd hnot hcommand hafter (.inl rfl)
    simp only [Alternatives.lines, Alternatives.branches, List.nil_append] at hbranches ⊢
    exact .inr ⟨l, "else", _, rfl, hline.1, .inr rfl, hbranches⟩

end

end Compiler

/-! ## Conditions -/

/-- A choice has a condition at its first branch, and no branch without one but the last. -/
def Statement.Conditional (branches : List (Option Argument × Statement)) : Prop :=
  (∃ a s more, branches = (some a, s) :: more) ∧ ∀ b ∈ branches.dropLast, b.1.isSome = true

theorem Alternatives.conditional {a : Argument} {s : Statement} : ∀ {more : Alternatives},
    Statement.Conditional ((some a, s) :: more.branches)
  | .none => ⟨⟨a, s, _, rfl⟩, by simp [Alternatives.branches]⟩
  | .otherwise _ d => ⟨⟨a, s, _, rfl⟩, by simp [Alternatives.branches]⟩
  | .elseIf _ condition d more => by
    refine ⟨⟨a, s, _, rfl⟩, ?_⟩
    have hnext : Statement.Conditional ((some condition, d.statement) :: more.branches) :=
      Alternatives.conditional
    rw [Alternatives.branches, List.dropLast_cons_of_ne_nil (by simp)]
    intro b hb
    rcases List.mem_cons.mp hb with rfl | hb
    · rfl
    · exact hnext.2 b hb

mutual

/-- So it is with all choices in the tree of a derivation. -/
theorem Derivation.conditional {pos : Position} {branches : List (Option Argument × Statement)} :
    ∀ {d : Derivation}, .choice pos branches ∈ d.statement.parts →
      Statement.Conditional branches
  | .single l cmd, h => by
    simp [Derivation.statement, Statement.parts] at h
  | .loop first name set body last, h => by
    simp only [Derivation.statement, Statement.parts, List.mem_cons, reduceCtorEq, false_or] at h
    exact Derivation.conditional_all h
  | .choice first condition d more, h => by
    simp only [Derivation.statement, Statement.parts, Statement.partsBranches, List.mem_cons,
      List.mem_append, Statement.choice.injEq] at h
    rcases h with ⟨-, rfl⟩ | h | h
    · exact Alternatives.conditional
    · exact Derivation.conditional h
    · exact Alternatives.conditional_inside h

theorem Derivation.conditional_all {pos : Position}
    {branches : List (Option Argument × Statement)} : ∀ {ds : List Derivation},
      .choice pos branches ∈ Statement.partsAll (Derivation.statements ds) →
      Statement.Conditional branches
  | [], h => by
    simp [Derivation.statements, Statement.partsAll] at h
  | d :: rest, h => by
    simp only [Derivation.statements, Statement.partsAll, List.mem_append] at h
    rcases h with h | h
    · exact Derivation.conditional h
    · exact Derivation.conditional_all h

theorem Alternatives.conditional_inside {pos : Position}
    {branches : List (Option Argument × Statement)} : ∀ {a : Alternatives},
      .choice pos branches ∈ Statement.partsBranches a.branches → Statement.Conditional branches
  | .none, h => by
    simp [Alternatives.branches, Statement.partsBranches] at h
  | .elseIf _ condition d more, h => by
    simp only [Alternatives.branches, Statement.partsBranches, List.mem_append] at h
    rcases h with h | h
    · exact Derivation.conditional h
    · exact Alternatives.conditional_inside h
  | .otherwise _ d, h => by
    simp only [Alternatives.branches, Statement.partsBranches, List.append_nil] at h
    exact Derivation.conditional h

end

/-! ## Blocks -/

namespace Compiler

/-- Lines with tokens are compiled as a block exactly if they are derived from the grammar, and
the statements are the tree of the derivation, which is the only one. So a branch without a
condition is the last of its choice. -/
theorem block_eq_ok_iff {c : Compiler} {lines : List SourceLine}
    (htokens : ∀ l ∈ lines, l.tokens ≠ []) :
    (∀ body, c.block lines = .ok body ↔
      ∃ ds, c.Derives lines ds ∧ Derivation.statements ds = body) ∧
    (∀ ds ds', c.Derives lines ds → c.Derives lines ds' → ds = ds') ∧
    ∀ body, c.block lines = .ok body → ∀ pos branches,
      .choice pos branches ∈ Statement.partsAll body → Statement.Conditional branches := by
  have hcompiled : ∀ {ds}, c.Derives lines ds → c.block lines = .ok (Derivation.statements ds) := by
    rintro ds ⟨hvalid, rfl⟩
    exact blockFrom_eq hvalid (Nat.le_refl _)
  have hderived : ∀ {body}, c.block lines = .ok body →
      ∃ ds, c.Derives lines ds ∧ Derivation.statements ds = body :=
    fun h => (derived_of_from c _).2.2 htokens h
  refine ⟨?_, ?_, ?_⟩
  · intro body
    constructor
    · exact hderived
    · rintro ⟨ds, hds, rfl⟩
      exact hcompiled hds
  · intro ds ds' hds hds'
    have htrees : Derivation.statements ds = Derivation.statements ds' :=
      Except.ok.inj ((hcompiled hds).symm.trans (hcompiled hds'))
    have hlines : Derivation.linesAll ds ++ [] = Derivation.linesAll ds' ++ [] := by
      rw [hds.2, hds'.2]
    exact (Derivation.eq_of_statements_eq htrees hlines).1
  · intro body hbody pos branches hchoice
    obtain ⟨ds, -, rfl⟩ := hderived hbody
    exact Derivation.conditional_all hchoice

/-- A line of plain words. -/
def sampleLine (number : Nat) (words : List String) : SourceLine where
  pos := { line := number, text := " ".intercalate words }
  tokens := words.map fun word => { kind := .plain, text := word }

/-- A loop around a choice whose first branch is a loop over another variable. -/
def sampleLines : List SourceLine :=
  [sampleLine 1 ["for", "$p", "$all"], sampleLine 2 ["if", "$p"],
    sampleLine 3 ["for", "$w", "$p"], sampleLine 4 ["print", "$w"], sampleLine 5 ["end", "$w"],
    sampleLine 6 ["else"], sampleLine 7 ["def", "$x", "y"], sampleLine 8 ["end", "$p"]]

def sample : Compiler where
  catalogue := { functions := [("print", [Standard.print])] }

def sampleChoice : Statement :=
  .choice { line := 2, text := "if $p" }
    [(some (.variableRef "$p"),
      .loop { line := 3, text := "for $w $p" } "$w" (.variableRef "$p")
        [.command { line := 4, text := "print $w" }
          (.function Standard.print.descriptor [.variableRef "$w"])]),
     (none, .command { line := 7, text := "def $x y" } (.define "$x" (.literal "y")))]

def sampleBody : List Statement :=
  [.loop { line := 1, text := "for $p $all" } "$p" (.variableRef "$all") [sampleChoice]]

theorem block_sample :
    sample.block sampleLines = .ok sampleBody ∧
    (∃ ds, sample.Derives sampleLines ds ∧ Derivation.statements ds = sampleBody) ∧
    (∀ ds ds', sample.Derives sampleLines ds → sample.Derives sampleLines ds' → ds = ds') ∧
    sampleChoice ∈ Statement.partsAll sampleBody ∧
    ¬ ∃ ds, sample.Derives sampleLines.dropLast ds := by
  have htokens : ∀ l ∈ sampleLines, l.tokens ≠ [] := by decide
  have hcompiled : sample.block sampleLines = .ok sampleBody := rfl
  obtain ⟨hiff, hunique, -⟩ := block_eq_ok_iff (c := sample) htokens
  refine ⟨hcompiled, (hiff sampleBody).mp hcompiled, hunique, ?_, ?_⟩
  · simp [sampleBody, sampleChoice, Statement.partsAll, Statement.parts]
  · -- Without its last line the loop does not end.
    rintro ⟨ds, hds⟩
    have hshort : ∀ l ∈ sampleLines.dropLast, l.tokens ≠ [] := by decide
    have hblock := ((block_eq_ok_iff (c := sample) hshort).1 _).mpr ⟨ds, hds, rfl⟩
    have hfails : sample.block sampleLines.dropLast =
        .error (.unmatched { line := 1, text := "for $p $all" } "for") := rfl
    rw [hfails] at hblock
    cases hblock

end Compiler

end MarkupScript
