import MarkupScript.Proofs.Document.Lookup
import MarkupScript.Script.Program

/-!
# What the commands of a compiled unit refer to

* `Statement.commands` lists the commands in a statement, at any depth of loops and
  branches; the invocations are read off from it (`invocationsAll_eq`).
* `Compiler.Refers` says what a command that was compiled from a line refers to.
* `refers_of_compile`: all commands of a compiled unit do so, with respect to the
  sub-scripts of that unit.
-/

namespace MarkupScript

/-- A sequence of two that succeeds. -/
theorem bind_eq_ok {ε α β : Type} {x : Except ε α} {f : α → Except ε β} {b : β}
    (h : (x >>= f) = .ok b) : ∃ a, x = .ok a ∧ f a = .ok b := by
  cases x with
  | error e => cases h
  | ok a => exact ⟨a, rfl, h⟩

/-- A sequence of two that fails, in the one or the other. -/
theorem bind_eq_error {ε α β : Type} {x : Except ε α} {f : α → Except ε β} {e : ε}
    (h : (x >>= f) = .error e) : x = .error e ∨ ∃ a, x = .ok a ∧ f a = .error e := by
  cases x with
  | error e' =>
    cases h
    exact .inl rfl
  | ok a => exact .inr ⟨a, rfl, h⟩

/-! ## Commands -/

/-- The invocation that a command is. -/
def Command.invocation? (pos : Position) : Command → Option Invocation
  | .invoke kind name _ external => some ⟨pos.line, kind, name, external⟩
  | _ => none

namespace Statement

mutual

/-- The commands in a statement with their positions, in order. -/
def commands : Statement → List (Position × Command)
  | command pos c => [(pos, c)]
  | loop _ _ _ body => commandsAll body
  | choice _ branches => commandsBranches branches

def commandsAll : List Statement → List (Position × Command)
  | [] => []
  | s :: rest => commands s ++ commandsAll rest

def commandsBranches : List (Option Argument × Statement) → List (Position × Command)
  | [] => []
  | (_, s) :: rest => commands s ++ commandsBranches rest

end

mutual

theorem invocations_eq : ∀ s : Statement,
    s.invocations = s.commands.filterMap fun pc => pc.2.invocation? pc.1
  | command pos c => by
    cases c <;> simp [invocations, commands, Command.invocation?]
  | loop _ _ _ body => by
    rw [invocations, commands]
    exact invocationsAll_eq body
  | choice _ branches => by
    rw [invocations, commands]
    exact invocationsBranches_eq branches

/-- The invocations in statements are the commands that invoke. -/
theorem invocationsAll_eq : ∀ body : List Statement,
    invocationsAll body = (commandsAll body).filterMap fun pc => pc.2.invocation? pc.1
  | [] => by simp [invocationsAll, commandsAll]
  | s :: rest => by
    rw [invocationsAll, commandsAll, List.filterMap_append, invocations_eq s,
      invocationsAll_eq rest]

theorem invocationsBranches_eq : ∀ branches : List (Option Argument × Statement),
    invocationsBranches branches =
      (commandsBranches branches).filterMap fun pc => pc.2.invocation? pc.1
  | [] => by simp [invocationsBranches, commandsBranches]
  | (_, s) :: rest => by
    rw [invocationsBranches, commandsBranches, List.filterMap_append, invocations_eq s,
      invocationsBranches_eq rest]

end

end Statement

namespace ScriptUnit

/-- All commands of a unit: those of the sub-scripts, then those of the body. -/
def commands (u : ScriptUnit) : List (Position × Command) :=
  u.subs.flatMap (fun sub => Statement.commandsAll sub.2) ++ Statement.commandsAll u.body

theorem invocations_eq (u : ScriptUnit) :
    u.invocations = u.commands.filterMap fun pc => pc.2.invocation? pc.1 := by
  unfold invocations commands
  rw [List.filterMap_append, Statement.invocationsAll_eq, List.filterMap_flatMap]
  simp only [Statement.invocationsAll_eq]

theorem mem_commands_of_sub {u : ScriptUnit} {name : String} {body : List Statement}
    (h : Keyed.get? u.subs name = some body) {pc : Position × Command}
    (hpc : pc ∈ Statement.commandsAll body) : pc ∈ u.commands := by
  unfold commands
  exact List.mem_append_left _ (List.mem_flatMap.mpr ⟨(name, body), Keyed.mem_of_get? h, hpc⟩)

theorem mem_commands_of_body {u : ScriptUnit} {pc : Position × Command}
    (hpc : pc ∈ Statement.commandsAll u.body) : pc ∈ u.commands :=
  List.mem_append_right _ hpc

end ScriptUnit

/-! ## What a compiled command refers to -/

namespace Compiler

/-- A function that is called was found under some name for that many arguments, and has
not more parameters. An invocation is external if its name is no sub-script. -/
def Refers (c : Compiler) : Command → Prop
  | .function d args =>
    (∃ name, c.catalogue.resolve name args.length = some d) ∧ d.arity ≤ args.length
  | .invoke _ name _ external => external = !c.subs.contains name
  | _ => True

theorem refers_of_invoke {c : Compiler} {kind : InvokeKind} {l : SourceLine} {cmd : Command}
    (h : c.invoke kind l = .ok cmd) : c.Refers cmd := by
  unfold invoke at h
  split at h
  · next name rest _ =>
    by_cases hlen : 1 < rest.length
    · rw [if_pos hlen] at h
      cases h
    by_cases hname : isScriptName name.text = true
    · simp only [hlen, hname, Bool.not_true, Bool.false_eq_true, if_false] at h
      obtain ⟨scope, -, hcmd⟩ := bind_eq_ok h
      cases hcmd
      rfl
    · simp only [hlen, hname, Bool.not_false, if_true, if_false] at h
      cases h
  · cases h

theorem refers_of_function {c : Compiler} {l : SourceLine} {cmd : Command}
    (h : c.function l = .ok cmd) : c.Refers cmd := by
  unfold function at h
  dsimp only at h
  split at h
  · cases h
  · next d hd =>
    split at h
    · cases h
    · next hlen =>
      cases h
      exact ⟨⟨_, hd⟩, Nat.le_of_not_lt hlen⟩

theorem refers_of_define {c : Compiler} {l : SourceLine} {cmd : Command}
    (h : define l = .ok cmd) : c.Refers cmd := by
  obtain ⟨name, -, h⟩ := bind_eq_ok h
  split at h
  · cases h
    trivial
  · cases h

theorem refers_of_clear {c : Compiler} {l : SourceLine} {cmd : Command}
    (h : clear l = .ok cmd) : c.Refers cmd := by
  obtain ⟨name, -, h⟩ := bind_eq_ok h
  split at h
  · cases h
    trivial
  · cases h

theorem refers_of_clearAll {c : Compiler} {l : SourceLine} {cmd : Command}
    (h : clearAll l = .ok cmd) : c.Refers cmd := by
  unfold clearAll at h
  split at h
  · cases h
    trivial
  · cases h

theorem refers_of_command {c : Compiler} {l : SourceLine} {cmd : Command}
    (h : c.command l = .ok cmd) : c.Refers cmd := by
  unfold command at h
  split at h
  · exact refers_of_define h
  · exact refers_of_clear h
  · exact refers_of_clearAll h
  · exact refers_of_invoke h
  · exact refers_of_invoke h
  · cases h
  · cases h
  · cases h
  · cases h
  · cases h
  · exact refers_of_function h

/-! ## Blocks -/

/-- A compiled statement is a loop, a choice or a command, as the keyword of its line says. -/
theorem statementFrom_cases {c : Compiler} {fuel : Nat} {l : SourceLine}
    {rest after : List SourceLine} {s : Statement}
    (h : c.statementFrom (fuel + 1) l rest = .ok (s, after)) :
    (∃ name set lines body, l.keyword = some "for" ∧ loopHead l = .ok (name, set) ∧
      cutLoop name rest = some (lines, after) ∧ c.blockFrom fuel lines = .ok body ∧
      s = .loop l.pos name set body) ∨
    (∃ branches, l.keyword = some "if" ∧ c.branchesFrom fuel l "if" rest = .ok (branches, after) ∧
      s = .choice l.pos branches) ∨
    ∃ cmd, l.keyword ≠ some "for" ∧ l.keyword ≠ some "if" ∧ c.command l = .ok cmd ∧
      s = .command l.pos cmd ∧ after = rest := by
  rw [statementFrom] at h
  split at h
  · next hkeyword =>
    obtain ⟨⟨name, set⟩, hhead, h⟩ := bind_eq_ok h
    dsimp only at h
    split at h
    · cases h
    · next lines after' hcut =>
      obtain ⟨body, hbody, h⟩ := bind_eq_ok h
      cases h
      exact Or.inl ⟨name, set, lines, body, hkeyword, hhead, hcut, hbody, rfl⟩
  · next hkeyword =>
    obtain ⟨⟨branches, after'⟩, hbranches, h⟩ := bind_eq_ok h
    cases h
    exact Or.inr (Or.inl ⟨branches, hkeyword, hbranches, rfl⟩)
  · next hfor hif =>
    obtain ⟨cmd, hcmd, h⟩ := bind_eq_ok h
    cases h
    exact Or.inr (Or.inr ⟨cmd, hfor, hif, hcmd, rfl, rfl⟩)

/-- Compiled branches are a first one and others, if another line that starts a branch comes
after it. Only a branch with a condition has others after it. -/
theorem branchesFrom_cases {c : Compiler} {fuel : Nat} {l : SourceLine} {keyword : String}
    {lines after : List SourceLine} {branches : List (Option Argument × Statement)}
    (h : c.branchesFrom (fuel + 1) l keyword lines = .ok (branches, after)) :
    ∃ condition first rest statement mid, lines = first :: rest ∧
      branchHead l keyword = .ok condition ∧ branchKeyword? first = none ∧
      c.statementFrom fuel first rest = .ok (statement, mid) ∧
      ((branches = [(condition, statement)] ∧ after = mid) ∨
        ∃ next others keyword' more, mid = next :: others ∧
          (keyword' = "elseIf" ∨ keyword' = "else") ∧ next.keyword = some keyword' ∧
          condition.isNone = false ∧ c.branchesFrom fuel next keyword' others = .ok (more, after) ∧
          branches = (condition, statement) :: more) := by
  rw [branchesFrom] at h
  obtain ⟨condition, hcondition, h⟩ := bind_eq_ok h
  obtain ⟨_, hcheck, h⟩ := bind_eq_ok h
  cases lines with
  | nil => cases h
  | cons first rest =>
    obtain ⟨⟨statement, mid⟩, hstatement, h⟩ := bind_eq_ok h
    have hfirst : branchKeyword? first = none := by
      unfold checkBranchBody at hcheck
      dsimp only at hcheck
      split at hcheck
      · cases hcheck
      · assumption
    refine ⟨condition, first, rest, statement, mid, rfl, hcondition, hfirst, hstatement, ?_⟩
    -- The same for both keywords that can follow.
    have hmore : ∀ {next others keyword' fault},
        (if condition.isNone then SourceLine.fault next fault
          else c.branchesFrom fuel next keyword' others >>= fun result =>
            pure ((condition, statement) :: result.1, result.2)) = .ok (branches, after) →
        condition.isNone = false ∧ ∃ more,
          c.branchesFrom fuel next keyword' others = .ok (more, after) ∧
          branches = (condition, statement) :: more := by
      intro next others keyword' fault h
      split at h
      · cases h
      · next hnone =>
        obtain ⟨⟨more, after'⟩, hrest, h⟩ := bind_eq_ok h
        cases h
        exact ⟨Bool.eq_false_iff.mpr hnone, more, hrest, rfl⟩
    dsimp only at h
    split at h
    · next next others =>
      split at h
      · next hkeyword =>
        obtain ⟨hnone, more, hrest, heq⟩ := hmore h
        exact Or.inr ⟨next, others, "elseIf", more, rfl, .inl rfl, hkeyword, hnone, hrest, heq⟩
      · next hkeyword =>
        obtain ⟨hnone, more, hrest, heq⟩ := hmore h
        exact Or.inr ⟨next, others, "else", more, rfl, .inr rfl, hkeyword, hnone, hrest, heq⟩
      · cases h
        exact Or.inl ⟨rfl, rfl⟩
    · cases h
      exact Or.inl ⟨rfl, rfl⟩

theorem blockFrom_cases {c : Compiler} {fuel : Nat} {l : SourceLine} {rest : List SourceLine}
    {body : List Statement} (h : c.blockFrom (fuel + 1) (l :: rest) = .ok body) :
    ∃ statement after statements, c.statementFrom fuel l rest = .ok (statement, after) ∧
      c.blockFrom fuel after = .ok statements ∧ body = statement :: statements := by
  rw [blockFrom] at h
  obtain ⟨⟨statement, after⟩, hstatement, h⟩ := bind_eq_ok h
  obtain ⟨statements, hrest, h⟩ := bind_eq_ok h
  cases h
  exact ⟨statement, after, statements, hstatement, hrest, rfl⟩

/-- All commands of a compiled statement, of compiled branches and of a compiled block
refer as commands do. The three are compiled through each other, each call with less
fuel. -/
theorem refers_of_from (c : Compiler) (fuel : Nat) :
    (∀ {l rest s after}, c.statementFrom fuel l rest = .ok (s, after) →
      ∀ pc ∈ s.commands, c.Refers pc.2) ∧
    (∀ {l keyword rest branches after},
      c.branchesFrom fuel l keyword rest = .ok (branches, after) →
      ∀ pc ∈ Statement.commandsBranches branches, c.Refers pc.2) ∧
    (∀ {lines body}, c.blockFrom fuel lines = .ok body →
      ∀ pc ∈ Statement.commandsAll body, c.Refers pc.2) := by
  have hempty : ∀ {fuel body}, c.blockFrom fuel [] = .ok body →
      ∀ pc ∈ Statement.commandsAll body, c.Refers pc.2 := by
    intro fuel body h
    rw [blockFrom] at h
    cases h
    simp [Statement.commandsAll]
  induction fuel with
  | zero =>
    refine ⟨?_, ?_, ?_⟩
    · intro l rest s after h
      cases h
    · intro l keyword rest branches after h
      cases h
    · intro lines body h
      cases lines with
      | nil => exact hempty h
      | cons l rest => cases h
  | succ fuel ih =>
    obtain ⟨ihStatement, ihBranches, ihBlock⟩ := ih
    refine ⟨?_, ?_, ?_⟩
    · intro l rest s after h
      rcases statementFrom_cases h with
        ⟨name, set, lines, body, -, -, -, hbody, rfl⟩ | ⟨branches, -, hbranches, rfl⟩ |
        ⟨cmd, -, -, hcmd, rfl, -⟩
      · exact ihBlock hbody
      · exact ihBranches hbranches
      · intro pc hpc
        rw [Statement.commands, List.mem_singleton] at hpc
        exact hpc ▸ refers_of_command hcmd
    · intro l keyword lines branches after h
      obtain ⟨condition, first, rest, statement, mid, -, -, -, hstatement, hcases⟩ :=
        branchesFrom_cases h
      rcases hcases with ⟨rfl, -⟩ | ⟨next, others, keyword', more, -, -, -, -, hmore, rfl⟩
      · intro pc hpc
        simp only [Statement.commandsBranches, List.append_nil] at hpc
        exact ihStatement hstatement pc hpc
      · intro pc hpc
        rw [Statement.commandsBranches, List.mem_append] at hpc
        exact hpc.elim (ihStatement hstatement pc) (ihBranches hmore pc)
    · intro lines body h
      cases lines with
      | nil => exact hempty h
      | cons l rest =>
        obtain ⟨statement, after, statements, hstatement, hrest, rfl⟩ := blockFrom_cases h
        intro pc hpc
        rw [Statement.commandsAll, List.mem_append] at hpc
        exact hpc.elim (ihStatement hstatement pc) (ihBlock hrest pc)

theorem refers_of_block {c : Compiler} {lines : List SourceLine} {body : List Statement}
    (h : c.block lines = .ok body) : ∀ pc ∈ Statement.commandsAll body, c.Refers pc.2 :=
  (refers_of_from c _).2.2 h

end Compiler

/-! ## Units -/

namespace ScriptUnit

theorem compileSubs_spec {c : Compiler} {parts : List (String × List SourceLine)}
    {subs : Keyed String (List Statement)} (h : compileSubs c parts = .ok subs) :
    Keyed.keys subs = parts.map (·.1) ∧
      ∀ sub ∈ subs, ∀ pc ∈ Statement.commandsAll sub.2, c.Refers pc.2 := by
  induction parts generalizing subs with
  | nil =>
    cases h
    simp [Keyed.keys]
  | cons part rest ih =>
    obtain ⟨name, lines⟩ := part
    obtain ⟨body, hbody, h⟩ := bind_eq_ok h
    obtain ⟨others, hothers, h⟩ := bind_eq_ok h
    cases h
    obtain ⟨hkeys, hall⟩ := ih hothers
    refine ⟨?_, ?_⟩
    · simp only [Keyed.keys, List.map_cons] at hkeys ⊢
      rw [hkeys]
    · intro sub hsub
      rcases List.mem_cons.mp hsub with rfl | hsub
      · exact Compiler.refers_of_block hbody
      · exact hall sub hsub

/-- Every command of a compiled unit refers to what the unit has or what is outside. -/
theorem refers_of_compile {catalogue : Catalogue} {source : String} {u : ScriptUnit}
    (h : ScriptUnit.compile catalogue source = .ok u) :
    ∀ pc ∈ u.commands,
      Compiler.Refers { catalogue, subs := Keyed.keys u.subs } pc.2 := by
  obtain ⟨lines, -, h⟩ := bind_eq_ok h
  obtain ⟨parts, -, h⟩ := bind_eq_ok h
  dsimp only at h
  obtain ⟨subs, hsubs, h⟩ := bind_eq_ok h
  obtain ⟨body, hbody, h⟩ := bind_eq_ok h
  cases h
  obtain ⟨hkeys, hall⟩ := compileSubs_spec hsubs
  rw [hkeys]
  intro pc hpc
  rcases List.mem_append.mp hpc with hpc | hpc
  · obtain ⟨sub, hsub, hpc⟩ := List.mem_flatMap.mp hpc
    exact hall sub hsub pc hpc
  · exact Compiler.refers_of_block hbody pc hpc

end ScriptUnit

end MarkupScript
