import MarkupScript.Proofs.Script.Accounting
import MarkupScript.Proofs.Script.Linking

/-!
# Where a script does not compile

What is wrong with a text by itself is wrong in one of its lines, and the error names that line.
What is wrong with a script that the text invokes is an error of the line that invokes it, with
the error of the other script inside. A script that needs itself is the exception: that error is
handed on as it is, and names a line of the script in which it was found.

* `Reports`: a part of the compiler fails with an error about one of its lines only; there is one
  lemma for each part, up to `ScriptUnit.compile_eq_error`.
* `Invocation.StandsIn`: an invocation is written in a line of a text.
* `Program.Traced`: how an error comes about, through scripts that invoke each other.
* `Program.compile_error_traced`: every error of compiling a program comes about so, and what
  line it names.
-/

namespace MarkupScript

open Relation

/-! ## Errors about a line -/

namespace CompileError

/-- The error says what is wrong with the line at a position. -/
def About (pos : Position) : CompileError → Prop
  | syntactic p _ | unknownFunction p _ _ | malformed p _ | unmatched p _ => p = pos
  | duplicateSub line _ => line = pos.line
  | unresolved _ _ _ | cyclic _ _ _ | external _ _ _ => False

/-- The error says that a library script needs itself. -/
def IsCyclic : CompileError → Prop
  | cyclic _ _ _ => True
  | syntactic _ _ | unknownFunction _ _ _ | malformed _ _ | unmatched _ _ | duplicateSub _ _
  | unresolved _ _ _ | external _ _ _ => False

theorem About.line_eq {e : CompileError} {pos : Position} (h : e.About pos) :
    e.line = pos.line := by
  cases e with
  | syntactic p _ => exact congrArg Position.line h
  | unknownFunction p _ _ => exact congrArg Position.line h
  | malformed p _ => exact congrArg Position.line h
  | unmatched p _ => exact congrArg Position.line h
  | duplicateSub line _ => exact h
  | unresolved _ _ _ => exact h.elim
  | cyclic _ _ _ => exact h.elim
  | external _ _ _ => exact h.elim

theorem About.not_isCyclic {e : CompileError} {pos : Position} (h : e.About pos) :
    ¬ e.IsCyclic := by
  cases e with
  | cyclic _ _ _ => exact fun _ => h
  | _ => exact fun hc => hc

/-- An error that is not of a cycle is put inside that of the script which invokes. -/
theorem within_eq_external {e : CompileError} (h : ¬ e.IsCyclic) (i : Invocation) :
    e.within i = external i.line i.name e := by
  cases e with
  | cyclic _ _ _ => exact absurd trivial h
  | _ => rfl

theorem within_cyclic {e : CompileError} (h : e.IsCyclic) (i : Invocation) : e.within i = e := by
  cases e with
  | cyclic _ _ _ => rfl
  | _ => exact h.elim

end CompileError

/-! ## Parts of the compiler -/

/-- A part of the compiler fails only with an error about one of some lines, and what it gives
otherwise has a property. -/
def Reports {α : Type} (lines : List SourceLine) (P : α → Prop) : Except CompileError α → Prop
  | .ok a => P a
  | .error e => ∃ l ∈ lines, e.About l.pos

section Reports

variable {α β : Type} {lines : List SourceLine} {P : α → Prop} {Q : β → Prop}

theorem Reports.of_error {x : Except CompileError α} {e : CompileError} (h : Reports lines P x)
    (he : x = .error e) : ∃ l ∈ lines, e.About l.pos := by
  rw [he] at h
  exact h

theorem reports_fault {l : SourceLine} (hl : l ∈ lines) (f : LineFault) :
    Reports lines P (l.fault f) :=
  ⟨l, hl, rfl⟩

theorem reports_bind {x : Except CompileError α} {f : α → Except CompileError β}
    (hx : Reports lines P x) (hf : ∀ a, P a → Reports lines Q (f a)) :
    Reports lines Q (x >>= f) := by
  cases x with
  | error e => exact hx
  | ok a => exact hf a hx

/-- What a part gives is what it gives. -/
theorem Reports.known {x : Except CompileError α} (h : Reports lines P x) :
    Reports lines (fun a => x = .ok a) x := by
  cases x with
  | ok a => rfl
  | error e => exact h

theorem Reports.mono {x : Except CompileError α} {more : List SourceLine} (h : Reports lines P x)
    (hlines : lines ⊆ more) : Reports more P x := by
  cases x with
  | ok a => exact h
  | error e =>
    rcases h with ⟨l, hl, habout⟩
    exact ⟨l, hlines hl, habout⟩

end Reports

/-! ## Single lines -/

namespace Compiler

section Lines

variable {lines : List SourceLine} {l : SourceLine} (hl : l ∈ lines)

include hl

theorem reports_variableName (token : Option Token) :
    Reports lines (fun _ => True) (variableName l token) := by
  unfold variableName
  split
  · exact reports_fault hl _
  · split
    · trivial
    · exact reports_fault hl _

theorem reports_define : Reports lines (fun _ => True) (define l) := by
  refine reports_bind (reports_variableName hl _) ?_
  intro name _
  split
  · trivial
  · exact reports_fault hl _

theorem reports_clear : Reports lines (fun _ => True) (clear l) := by
  refine reports_bind (reports_variableName hl _) ?_
  intro name _
  split
  · trivial
  · exact reports_fault hl _

theorem reports_clearAll : Reports lines (fun _ => True) (clearAll l) := by
  unfold clearAll
  split
  · trivial
  · exact reports_fault hl _

theorem reports_scope (token : Option Token) :
    Reports lines (fun _ => True) (scope l token) := by
  unfold scope
  split
  · trivial
  · trivial
  · trivial
  · exact reports_fault hl _

theorem reports_invoke (c : Compiler) (kind : InvokeKind) :
    Reports lines (fun _ => True) (c.invoke kind l) := by
  unfold invoke
  split
  · split
    · exact reports_fault hl _
    · split
      · exact reports_fault hl _
      · refine reports_bind (reports_scope hl _) ?_
        intro scope _
        trivial
  · exact reports_fault hl _

theorem reports_function (c : Compiler) : Reports lines (fun _ => True) (c.function l) := by
  unfold function
  dsimp only
  split
  · exact ⟨l, hl, rfl⟩
  · split
    · exact reports_fault hl _
    · trivial

theorem reports_command (c : Compiler) : Reports lines (fun _ => True) (c.command l) := by
  have hunmatched : ∀ word, Reports lines (fun _ : Command => True)
      (.error (.unmatched l.pos word)) := fun _ => ⟨l, hl, rfl⟩
  unfold command
  split
  · exact reports_define hl
  · exact reports_clear hl
  · exact reports_clearAll hl
  · exact reports_invoke hl c .call
  · exact reports_invoke hl c .inclusion
  · exact hunmatched "end"
  · exact hunmatched "elseIf"
  · exact hunmatched "else"
  · exact hunmatched "sub"
  · exact hunmatched "endSub"
  · exact reports_function hl c

theorem reports_loopHead : Reports lines (fun _ => True) (loopHead l) := by
  refine reports_bind (reports_variableName hl _) ?_
  intro name _
  split
  · split
    · exact reports_fault hl _
    · trivial
  · exact reports_fault hl _

theorem reports_condition (keyword : String) :
    Reports lines (fun _ => True) (condition l keyword) := by
  unfold condition
  split
  · split
    · trivial
    · trivial
    · exact reports_fault hl _
  · exact reports_fault hl _

theorem reports_branchHead (keyword : String) :
    Reports lines (fun _ => True) (branchHead l keyword) := by
  unfold branchHead
  split
  · split
    · trivial
    · exact reports_fault hl _
  · refine reports_bind (reports_condition hl keyword) ?_
    intro condition _
    trivial

theorem reports_checkBranchBody (keyword : String) (rest : List SourceLine) :
    Reports lines (fun _ => True) (checkBranchBody l keyword rest) := by
  unfold checkBranchBody
  split
  · exact reports_fault hl _
  · split
    · exact reports_fault hl _
    · trivial

end Lines

/-! ## Blocks -/

/-- Compiling a statement, branches and a block with some fuel: the lines after a statement or
after branches are lines that were given. -/
structure ReportsFrom (c : Compiler) (fuel : Nat) (lines : List SourceLine) : Prop where
  statement : ∀ l rest, l ∈ lines → rest ⊆ lines →
    Reports lines (fun result => result.2 ⊆ lines) (c.statementFrom fuel l rest)
  branches : ∀ l keyword rest, l ∈ lines → rest ⊆ lines →
    Reports lines (fun result => result.2 ⊆ lines) (c.branchesFrom fuel l keyword rest)
  block : ∀ rest, rest ⊆ lines → Reports lines (fun _ => True) (c.blockFrom fuel rest)

variable {c : Compiler} {fuel : Nat} {lines : List SourceLine}

theorem reports_statementFrom_succ (ih : c.ReportsFrom fuel lines) {l : SourceLine}
    {rest : List SourceLine} (hl : l ∈ lines) (hrest : rest ⊆ lines) :
    Reports lines (fun result => result.2 ⊆ lines) (c.statementFrom (fuel + 1) l rest) := by
  rw [statementFrom]
  split
  · refine reports_bind (reports_loopHead hl) ?_
    rintro ⟨name, set⟩ _
    dsimp only
    split
    · exact ⟨l, hl, rfl⟩
    · next body after hcut =>
      rcases cutLoop_eq_some_iff.mp hcut with ⟨last, rfl, -, -⟩
      have hbody : body ⊆ lines := fun l' hl' => hrest (by simp [hl'])
      have hafter : after ⊆ lines := fun l' hl' => hrest (by simp [hl'])
      refine reports_bind (ih.block body hbody) ?_
      intro statements _
      exact hafter
  · refine reports_bind (ih.branches l "if" rest hl hrest) ?_
    rintro ⟨branches, after⟩ hafter
    exact hafter
  · refine reports_bind (reports_command hl c) ?_
    intro command _
    exact hrest

theorem reports_branchesFrom_succ (ih : c.ReportsFrom fuel lines) {l : SourceLine}
    {keyword : String} {rest : List SourceLine} (hl : l ∈ lines) (hrest : rest ⊆ lines) :
    Reports lines (fun result => result.2 ⊆ lines) (c.branchesFrom (fuel + 1) l keyword rest) := by
  rw [branchesFrom]
  refine reports_bind (reports_branchHead hl keyword) ?_
  intro condition _
  refine reports_bind (reports_checkBranchBody hl keyword rest) ?_
  intro _ _
  cases rest with
  | nil => exact reports_fault hl _
  | cons first others =>
    have hfirst : first ∈ lines := hrest (by simp)
    have hothers : others ⊆ lines := fun l' hl' => hrest (by simp [hl'])
    refine reports_bind (ih.statement first others hfirst hothers) ?_
    rintro ⟨statement, after⟩ hafter
    dsimp only at hafter ⊢
    -- After this branch the choice goes on in the same way, whichever keyword comes next.
    have hmore : ∀ (next : SourceLine) (later : List SourceLine) (word : String) (f : LineFault),
        next ∈ lines → later ⊆ lines →
        Reports lines (fun result => result.2 ⊆ lines)
          (if condition.isNone then next.fault f
            else c.branchesFrom fuel next word later >>= fun result =>
              pure ((condition, statement) :: result.1, result.2)) := by
      intro next later word f hnext hlater
      split
      · exact reports_fault hnext f
      · refine reports_bind (ih.branches next word later hnext hlater) ?_
        intro result hresult
        exact hresult
    split
    · next next later =>
      have hnext : next ∈ lines := hafter (by simp)
      have hlater : later ⊆ lines := fun l' hl' => hafter (by simp [hl'])
      split
      · exact hmore next later "elseIf" .elseIfAfterElse hnext hlater
      · exact hmore next later "else" .secondElse hnext hlater
      · exact hafter
    · exact List.nil_subset lines

theorem reports_blockFrom_succ (ih : c.ReportsFrom fuel lines) {rest : List SourceLine}
    (hrest : rest ⊆ lines) : Reports lines (fun _ => True) (c.blockFrom (fuel + 1) rest) := by
  cases rest with
  | nil =>
    rw [blockFrom]
    trivial
  | cons l others =>
    have hl : l ∈ lines := hrest (by simp)
    have hothers : others ⊆ lines := fun l' hl' => hrest (by simp [hl'])
    rw [blockFrom]
    refine reports_bind (ih.statement l others hl hothers) ?_
    rintro ⟨statement, after⟩ hafter
    refine reports_bind (ih.block after hafter) ?_
    intro statements _
    trivial

/-- The compiler of blocks fails with errors about its lines only. Statements, branches and
blocks are compiled through each other, each call with less fuel. -/
theorem reportsFrom (c : Compiler) (fuel : Nat) (lines : List SourceLine) :
    c.ReportsFrom fuel lines := by
  induction fuel with
  | zero =>
    constructor
    · intro l rest hl _
      exact ⟨l, hl, rfl⟩
    · intro l keyword rest hl _
      exact ⟨l, hl, rfl⟩
    · intro rest hrest
      cases rest with
      | nil =>
        rw [blockFrom]
        trivial
      | cons l others => exact ⟨l, hrest (by simp), rfl⟩
  | succ fuel ih =>
    constructor
    · intro l rest hl hrest
      exact reports_statementFrom_succ ih hl hrest
    · intro l keyword rest hl hrest
      exact reports_branchesFrom_succ ih hl hrest
    · intro rest hrest
      exact reports_blockFrom_succ ih hrest

theorem reports_block (c : Compiler) (lines : List SourceLine) :
    Reports lines (fun _ => True) (c.block lines) :=
  (c.reportsFrom _ lines).block lines (List.Subset.refl lines)

end Compiler

/-! ## Sub-scripts and units -/

namespace CutLines

theorem reports_subName {lines : List SourceLine} {l : SourceLine} (hl : l ∈ lines)
    (seen : List String) : Reports lines (fun _ => True) (subName seen l) := by
  unfold subName
  split
  · split
    · exact ⟨l, hl, rfl⟩
    · trivial
  · exact reports_fault hl _

/-- Cutting out sub-scripts fails with errors about the lines that are cut, or about the line
that has opened a sub-script. -/
theorem reports_cut {lines : List SourceLine} (seen : List String) (sub? : Option OpenSub)
    (rest : List SourceLine) (hopen : ∀ sub ∈ sub?, sub.start ∈ lines) (hrest : rest ⊆ lines) :
    Reports lines (fun _ => True) (cut seen sub? rest) := by
  induction rest generalizing seen sub? with
  | nil =>
    cases sub? with
    | none => trivial
    | some sub => exact ⟨sub.start, hopen sub rfl, rfl⟩
  | cons l others ih =>
    have hl : l ∈ lines := hrest (by simp)
    have hothers : others ⊆ lines := fun l' hl' => hrest (by simp [hl'])
    have hclosed : Reports lines (fun _ => True) (cut seen none others) :=
      ih seen none (by simp) hothers
    unfold cut
    split
    · next heq => cases heq
    · next heq => cases heq
    · next heq =>
      cases heq
      split
      · exact reports_fault hl _
      · refine reports_bind (reports_subName hl seen) ?_
        intro name _
        refine ih (name :: seen) _ ?_ hothers
        intro sub hsub
        cases hsub
        exact hl
      · split
        · exact reports_fault hl _
        · split
          · exact ⟨l, hl, rfl⟩
          · refine reports_bind hclosed ?_
            intro parts _
            trivial
      · next sub _ _ =>
        refine ih seen _ ?_ hothers
        intro sub' hsub'
        cases hsub'
        exact hopen sub rfl
      · refine reports_bind hclosed ?_
        intro parts _
        trivial

end CutLines

namespace SourceLine

/-- The position of a line of a text. -/
def rowPosition (row : List Char × Nat) : Position :=
  { line := row.2, text := String.ofList (Text.trimChars row.1) }

/-- A line that cannot be cut into tokens is neither blank nor a comment. -/
theorem counts_of_error {cs : List Char} {e : SyntaxError}
    (h : Token.tokenize (String.ofList cs) = .error e) : Counts cs := by
  unfold Token.tokenize at h
  rw [String.toList_ofList] at h
  split at h
  · cases h
  · cases h
  · next hblank hcomment =>
    constructor
    · exact hblank
    · intro hhead
      cases hcs : Text.trimChars cs with
      | nil => exact hblank hcs
      | cons c rest =>
        rw [hcs, List.head?_cons, Option.some.injEq] at hhead
        exact hcomment rest (by rw [hcs, hhead])

/-- Reading fails at a line that counts. -/
theorem readFrom_eq_error {number : Nat} {texts : List (List Char)} {e : CompileError}
    (h : readFrom number texts = .error e) :
    ∃ row ∈ (texts.zipIdx number).filter fun row => Counts row.1, e.About (rowPosition row) := by
  induction texts generalizing number with
  | nil => cases h
  | cons cs rest ih =>
    rw [readFrom] at h
    cases htokens : Token.tokenize (String.ofList cs) with
    | error cause =>
      rw [htokens] at h
      cases h
      have hcounts : Counts cs := counts_of_error htokens
      refine ⟨(cs, number), ?_, rfl⟩
      simp [List.zipIdx_cons, hcounts]
    | ok tokens =>
      cases hrest : readFrom (number + 1) rest with
      | ok others => simp [htokens, hrest, bind, Except.bind, pure, Except.pure] at h
      | error cause =>
        simp only [htokens, hrest, bind, Except.bind, Except.error.injEq] at h
        subst h
        rcases ih hrest with ⟨row, hrow, habout⟩
        refine ⟨row, ?_, habout⟩
        rw [List.zipIdx_cons, List.filter_cons]
        split
        · exact List.mem_cons_of_mem _ hrow
        · exact hrow

/-- A line that is read is a line of the text that counts. -/
theorem exists_row {source : String} {lines : List SourceLine} (h : read source = .ok lines)
    {l : SourceLine} (hl : l ∈ lines) : ∃ row ∈ codeLines source, Reads row l := by
  have hall := forall₂_read h
  clear h
  generalize codeLines source = rows at hall
  induction hall with
  | nil => cases hl
  | @cons row first rows others hreads _ ih =>
    rcases List.mem_cons.mp hl with rfl | hl
    · exact ⟨row, by simp, hreads⟩
    · rcases ih hl with ⟨row', hrow', hreads'⟩
      exact ⟨row', by simp [hrow'], hreads'⟩

end SourceLine

namespace ScriptUnit

theorem reports_compileSubs (c : Compiler) {lines : List SourceLine}
    (parts : List (String × List SourceLine)) (hparts : ∀ part ∈ parts, part.2 ⊆ lines) :
    Reports lines (fun _ => True) (compileSubs c parts) := by
  induction parts with
  | nil => trivial
  | cons part rest ih =>
    have hfirst : part.2 ⊆ lines := hparts part (by simp)
    have hrest : ∀ p ∈ rest, p.2 ⊆ lines := fun p hp => hparts p (by simp [hp])
    refine reports_bind ((c.reports_block part.2).mono hfirst) ?_
    intro body _
    refine reports_bind (ih hrest) ?_
    intro others _
    trivial

/-- A text that does not compile by itself has a line that counts in which something is wrong,
and the error is about that line. -/
theorem compile_eq_error {catalogue : Catalogue} {source : String} {e : CompileError}
    (h : ScriptUnit.compile catalogue source = .error e) :
    ∃ row ∈ SourceLine.codeLines source, e.About (SourceLine.rowPosition row) := by
  unfold ScriptUnit.compile at h
  cases hread : SourceLine.read source with
  | error cause =>
    rw [hread] at h
    cases h
    exact SourceLine.readFrom_eq_error hread
  | ok lines =>
    rw [hread] at h
    -- From here on all lines are those that were read.
    have hreports : Reports lines (fun _ => True) (do
        let parts ← CutLines.cut [] none lines
        let c : Compiler := { catalogue, subs := parts.subs.map (·.1) }
        let subs ← compileSubs c parts.subs
        let body ← c.block parts.main
        return ({ body, subs } : ScriptUnit)) := by
      have hcutting : Reports lines (fun _ => True) (CutLines.cut [] none lines) :=
        CutLines.reports_cut [] none lines (by simp) (List.Subset.refl lines)
      refine reports_bind hcutting.known ?_
      intro parts hcut
      have hcovers : parts.Covers lines := CutLines.covers_of_cut hcut (by simp)
      have hsubs : ∀ part ∈ parts.subs, part.2 ⊆ lines :=
        fun part hpart => (hcovers.subs part hpart).subset
      refine reports_bind (reports_compileSubs _ parts.subs hsubs) ?_
      intro subs _
      refine reports_bind ((Compiler.reports_block _ parts.main).mono hcovers.main.subset) ?_
      intro body _
      trivial
    rcases hreports.of_error h with ⟨l, hl, habout⟩
    rcases SourceLine.exists_row hread hl with ⟨row, hrow, hpos, -⟩
    refine ⟨row, hrow, ?_⟩
    rw [SourceLine.rowPosition, ← hpos]
    exact habout

end ScriptUnit

/-! ## The lines of invocations -/

mutual

/-- Each command of a tree is written on a line of its derivation. -/
theorem Derivation.single_of_mem {c : Compiler} : ∀ {d : Derivation}, d.Valid c →
    ∀ pc ∈ d.statement.commands, ∃ l ∈ d.lines, l.pos = pc.1 ∧ c.Single l pc.2
  | .single l cmd, h => by
    rw [Derivation.Valid] at h
    simpa [Derivation.statement, Derivation.lines, Statement.commands] using h
  | .loop first name set body last, h => by
    rw [Derivation.Valid] at h
    intro pc hpc
    rw [Derivation.statement, Statement.commands] at hpc
    rcases Derivation.single_of_mem_all h.2.1 pc hpc with ⟨l, hl, hsingle⟩
    exact ⟨l, by simp [Derivation.lines, hl], hsingle⟩
  | .choice first condition d more, h => by
    rw [Derivation.Valid] at h
    intro pc hpc
    rw [Derivation.statement, Statement.commands, Statement.commandsBranches,
      List.mem_append] at hpc
    rcases hpc with hpc | hpc
    · rcases Derivation.single_of_mem h.2.1 pc hpc with ⟨l, hl, hsingle⟩
      exact ⟨l, by simp [Derivation.lines, hl], hsingle⟩
    · rcases Alternatives.single_of_mem h.2.2.2 pc hpc with ⟨l, hl, hsingle⟩
      exact ⟨l, by simp [Derivation.lines, hl], hsingle⟩

theorem Derivation.single_of_mem_all {c : Compiler} : ∀ {ds : List Derivation},
    Derivation.ValidAll c ds → ∀ pc ∈ Statement.commandsAll (Derivation.statements ds),
      ∃ l ∈ Derivation.linesAll ds, l.pos = pc.1 ∧ c.Single l pc.2
  | [], _ => by simp [Derivation.statements, Statement.commandsAll]
  | d :: rest, h => by
    rw [Derivation.ValidAll] at h
    intro pc hpc
    rw [Derivation.statements, Statement.commandsAll, List.mem_append] at hpc
    rcases hpc with hpc | hpc
    · rcases Derivation.single_of_mem h.1 pc hpc with ⟨l, hl, hsingle⟩
      exact ⟨l, by simp [Derivation.linesAll, hl], hsingle⟩
    · rcases Derivation.single_of_mem_all h.2 pc hpc with ⟨l, hl, hsingle⟩
      exact ⟨l, by simp [Derivation.linesAll, hl], hsingle⟩

theorem Alternatives.single_of_mem {c : Compiler} : ∀ {a : Alternatives}, a.Valid c →
    ∀ pc ∈ Statement.commandsBranches a.branches, ∃ l ∈ a.lines, l.pos = pc.1 ∧ c.Single l pc.2
  | .none, _ => by simp [Alternatives.branches, Statement.commandsBranches]
  | .elseIf l' condition d more, h => by
    rw [Alternatives.Valid] at h
    intro pc hpc
    rw [Alternatives.branches, Statement.commandsBranches, List.mem_append] at hpc
    rcases hpc with hpc | hpc
    · rcases Derivation.single_of_mem h.2.1 pc hpc with ⟨l, hl, hsingle⟩
      exact ⟨l, by simp [Alternatives.lines, hl], hsingle⟩
    · rcases Alternatives.single_of_mem h.2.2.2 pc hpc with ⟨l, hl, hsingle⟩
      exact ⟨l, by simp [Alternatives.lines, hl], hsingle⟩
  | .otherwise l' d, h => by
    rw [Alternatives.Valid] at h
    intro pc hpc
    rw [Alternatives.branches, Statement.commandsBranches, Statement.commandsBranches,
      List.append_nil] at hpc
    rcases Derivation.single_of_mem h.2.1 pc hpc with ⟨l, hl, hsingle⟩
    exact ⟨l, by simp [Alternatives.lines, hl], hsingle⟩

end

theorem Compiler.single_of_block {c : Compiler} {lines : List SourceLine} {body : List Statement}
    (htokens : ∀ l ∈ lines, l.tokens ≠ []) (h : c.block lines = .ok body) :
    ∀ pc ∈ Statement.commandsAll body, ∃ l ∈ lines, l.pos = pc.1 ∧ c.Single l pc.2 := by
  rcases (derived_of_from c _).2.2 htokens h with ⟨ds, ⟨hvalid, rfl⟩, rfl⟩
  exact Derivation.single_of_mem_all hvalid

namespace ScriptUnit

theorem single_of_compileSubs {c : Compiler} {lines : List SourceLine}
    (htokens : ∀ l ∈ lines, l.tokens ≠ []) {parts : List (String × List SourceLine)}
    (hparts : ∀ part ∈ parts, part.2 ⊆ lines) {subs : Keyed String (List Statement)}
    (h : compileSubs c parts = .ok subs) :
    ∀ sub ∈ subs, ∀ pc ∈ Statement.commandsAll sub.2,
      ∃ l ∈ lines, l.pos = pc.1 ∧ c.Single l pc.2 := by
  induction parts generalizing subs with
  | nil =>
    cases h
    simp
  | cons part rest ih =>
    rcases bind_eq_ok h with ⟨body, hbody, h⟩
    rcases bind_eq_ok h with ⟨others, hothers, h⟩
    cases h
    have hfirst : part.2 ⊆ lines := hparts part (by simp)
    intro sub hsub pc hpc
    rcases List.mem_cons.mp hsub with rfl | hsub
    · have hfirstTokens : ∀ l ∈ part.2, l.tokens ≠ [] := fun l hl => htokens l (hfirst hl)
      rcases Compiler.single_of_block hfirstTokens hbody pc hpc with ⟨l, hl, hsingle⟩
      exact ⟨l, hfirst hl, hsingle⟩
    · exact ih (fun p hp => hparts p (by simp [hp])) hothers sub hsub pc hpc

/-- Each command of a compiled text is written on a line of the text that counts. -/
theorem single_of_compile {catalogue : Catalogue} {source : String} {u : ScriptUnit}
    (h : ScriptUnit.compile catalogue source = .ok u) :
    ∀ pc ∈ u.commands, ∃ row ∈ SourceLine.codeLines source, ∃ l, SourceLine.Reads row l ∧
      l.pos = pc.1 ∧ Compiler.Single { catalogue, subs := Keyed.keys u.subs } l pc.2 := by
  rcases bind_eq_ok h with ⟨lines, hread, h⟩
  rcases bind_eq_ok h with ⟨parts, hcut, h⟩
  dsimp only at h
  rcases bind_eq_ok h with ⟨subs, hsubs, h⟩
  rcases bind_eq_ok h with ⟨body, hbody, h⟩
  cases h
  have htokens := SourceLine.tokens_ne_nil_of_read hread
  have hcovers : parts.Covers lines := CutLines.covers_of_cut hcut (by simp)
  have hkeys : Keyed.keys subs = parts.subs.map (·.1) := (compileSubs_spec hsubs).1
  rw [hkeys]
  intro pc hpc
  have hline : ∃ l ∈ lines, l.pos = pc.1 ∧
      Compiler.Single { catalogue, subs := parts.subs.map (·.1) } l pc.2 := by
    rcases List.mem_append.mp hpc with hpc | hpc
    · rcases List.mem_flatMap.mp hpc with ⟨sub, hsub, hpc⟩
      exact single_of_compileSubs htokens (fun part hpart => (hcovers.subs part hpart).subset)
        hsubs sub hsub pc hpc
    · have hmain : ∀ l ∈ parts.main, l.tokens ≠ [] := fun l hl => htokens l (hcovers.main.subset hl)
      rcases Compiler.single_of_block hmain hbody pc hpc with ⟨l, hl, hsingle⟩
      exact ⟨l, hcovers.main.subset hl, hsingle⟩
  rcases hline with ⟨l, hl, hpos, hsingle⟩
  rcases SourceLine.exists_row hread hl with ⟨row, hrow, hreads⟩
  exact ⟨row, hrow, l, hreads, hpos, hsingle⟩

end ScriptUnit

/-- The invocation is written in a text, on the line with its number: that line counts, and has
the keyword and the name. -/
def Invocation.StandsIn (i : Invocation) (source : String) : Prop :=
  ∃ row ∈ SourceLine.codeLines source, row.2 = i.line ∧ ∃ l, SourceLine.Reads row l ∧
    l.keyword = some i.kind.keyword ∧ l.operands.head?.map (·.text) = some i.name

theorem ScriptUnit.standsIn {catalogue : Catalogue} {source : String} {u : ScriptUnit}
    (h : ScriptUnit.compile catalogue source = .ok u) {i : Invocation} (hi : i ∈ u.invocations) :
    i.StandsIn source := by
  rw [ScriptUnit.invocations_eq] at hi
  rcases List.mem_filterMap.mp hi with ⟨⟨pos, cmd⟩, hpc, hcmd⟩
  rcases single_of_compile h _ hpc with ⟨row, hrow, l, hreads, hpos, hsingle⟩
  have hnumber : row.2 = pos.line := by
    have hrowPos := congrArg Position.line hreads.1
    rw [hpos] at hrowPos
    exact hrowPos.symm
  -- Of the lines that are commands by themselves, two forms invoke.
  cases hsingle with
  | define _ _ _ => cases hcmd
  | clear _ _ _ => cases hcmd
  | clearAll _ _ => cases hcmd
  | function _ _ _ _ => cases hcmd
  | invoke hkeyword hoperands _ =>
    cases hcmd
    exact ⟨row, hrow, hnumber, l, hreads, hkeyword, by rw [hoperands]; rfl⟩
  | invokeFor hkeyword hoperands _ _ =>
    cases hcmd
    exact ⟨row, hrow, hnumber, l, hreads, hkeyword, by rw [hoperands]; rfl⟩

/-! ## Linking -/

namespace Program

/-- A text compiles by itself, and invokes a script that is none of its sub-scripts. -/
def Invokes (catalogue : Catalogue) (source : String) (i : Invocation) : Prop :=
  ∃ u, ScriptUnit.compile catalogue source = .ok u ∧ i ∈ u.externals

/-- How an error comes about when a text is compiled: from the text by itself, from a name that
it invokes, or from a script that it invokes. `active` are the names of the scripts that are being
compiled around it. -/
inductive Traced (catalogue : Catalogue) (find? : String → Option String) :
    List String → String → CompileError → Prop
  | own {active : List String} {source : String} {e : CompileError}
      (h : ScriptUnit.compile catalogue source = .error e) : Traced catalogue find? active source e
  | unresolved {active : List String} {source : String} {i : Invocation}
      (h : Invokes catalogue source i) :
      Traced catalogue find? active source (.unresolved i.line i.kind i.name)
  | cyclic {active : List String} {source : String} {i : Invocation}
      (h : Invokes catalogue source i) (hactive : i.name ∈ active) :
      Traced catalogue find? active source (.cyclic i.line i.kind i.name)
  | through {active : List String} {source text : String} {i : Invocation} {cause : CompileError}
      (h : Invokes catalogue source i) (htext : find? i.name = some text)
      (hcause : Traced catalogue find? (i.name :: active) text cause) :
      Traced catalogue find? active source (cause.within i)

variable {catalogue : Catalogue} {find? : String → Option String}

theorem Invokes.standsIn {source : String} {i : Invocation} (h : Invokes catalogue source i) :
    i.StandsIn source := by
  rcases h with ⟨u, hu, hi⟩
  exact ScriptUnit.standsIn hu (List.mem_of_mem_filter hi)

theorem Invokes.external {source : String} {i : Invocation} (h : Invokes catalogue source i) :
    i.external = true := by
  rcases h with ⟨u, hu, hi⟩
  exact (List.mem_filter.mp hi).2

theorem Invokes.needs {name text : String} {i : Invocation} (h : Invokes catalogue text i)
    (htext : find? name = some text) : Needs catalogue find? name i.name := by
  rcases h with ⟨u, hu, hi⟩
  exact needs_of_external (unitOf?_eq_some.mpr ⟨text, htext, hu⟩) hi

/-- Why a script cannot be added. -/
theorem add_eq_error {link : Linker} {active : List String} {units : Keyed String ScriptUnit}
    {i : Invocation} {e : CompileError} (h : add catalogue find? link active units i = .error e) :
    (e = .cyclic i.line i.kind i.name ∧ i.name ∈ active) ∨
    e = .unresolved i.line i.kind i.name ∨
    ∃ text cause, find? i.name = some text ∧ e = cause.within i ∧
      (ScriptUnit.compile catalogue text = .error cause ∨
        ∃ inner, ScriptUnit.compile catalogue text = .ok inner ∧
          link (i.name :: active) inner units = .error cause) := by
  unfold add at h
  split at h
  · cases h
  split at h
  · next hactive =>
    cases h
    exact .inl ⟨rfl, by simpa using hactive⟩
  cases htext : find? i.name with
  | none =>
    rw [htext] at h
    cases h
    exact .inr (.inl rfl)
  | some text =>
    simp only [htext] at h
    refine .inr (.inr ⟨text, ?_⟩)
    cases hinner : ScriptUnit.compile catalogue text with
    | error cause =>
      rw [hinner] at h
      cases h
      exact ⟨cause, rfl, rfl, .inl rfl⟩
    | ok inner =>
      cases hlink : link (i.name :: active) inner units with
      | error cause =>
        simp only [hinner, hlink, bind, Except.bind] at h
        cases h
        exact ⟨cause, rfl, rfl, .inr ⟨inner, rfl, hlink⟩⟩
      | ok mid =>
        simp only [hinner, hlink, bind, Except.bind] at h
        cases h

theorem foldlM_eq_error {α β ε : Type} {f : β → α → Except ε β} {items : List α} {b : β} {e : ε}
    (h : items.foldlM f b = .error e) : ∃ a ∈ items, ∃ mid, f mid a = .error e := by
  induction items generalizing b with
  | nil => cases h
  | cons a rest ih =>
    rw [List.foldlM_cons] at h
    cases hfirst : f b a with
    | error cause =>
      rw [hfirst] at h
      cases h
      exact ⟨a, by simp, b, hfirst⟩
    | ok mid =>
      rw [hfirst] at h
      rcases ih h with ⟨a', ha', mid', hmid'⟩
      exact ⟨a', by simp [ha'], mid', hmid'⟩

/-- Linking what a text needs fails with an error that comes about from its invocations. -/
theorem link_traced {depth : Nat} {active : List String} {source : String} {unit : ScriptUnit}
    (hunit : ScriptUnit.compile catalogue source = .ok unit) {units : Keyed String ScriptUnit}
    {e : CompileError} (h : link catalogue find? depth active unit units = .error e) :
    Traced catalogue find? active source e := by
  induction depth generalizing active source unit units e with
  | zero =>
    unfold link at h
    cases hext : unit.externals with
    | nil =>
      rw [hext] at h
      cases h
    | cons i rest =>
      rw [hext] at h
      cases h
      exact .unresolved ⟨unit, hunit, by simp [hext]⟩
  | succ depth ih =>
    rw [link] at h
    rcases foldlM_eq_error h with ⟨i, hi, mid, hmid⟩
    have hinvokes : Invokes catalogue source i := ⟨unit, hunit, hi⟩
    rcases add_eq_error hmid with ⟨rfl, hactive⟩ | rfl | ⟨text, cause, htext, rfl, hcause⟩
    · exact .cyclic hinvokes hactive
    · exact .unresolved hinvokes
    · refine .through hinvokes htext ?_
      rcases hcause with hown | ⟨inner, hinner, hlink⟩
      · exact .own hown
      · exact ih hinner hlink

/-- An error that is not of a cycle names a line of the text that counts. -/
theorem Traced.line {active : List String} {source : String} {e : CompileError}
    (h : Traced catalogue find? active source e) (hcyclic : ¬ e.IsCyclic) :
    ∃ row ∈ SourceLine.codeLines source, row.2 = e.line := by
  have hinvoked : ∀ i, Invokes catalogue source i →
      ∃ row ∈ SourceLine.codeLines source, row.2 = i.line := by
    intro i hi
    rcases hi.standsIn with ⟨row, hrow, hnumber, -⟩
    exact ⟨row, hrow, hnumber⟩
  cases h with
  | own h =>
    rcases ScriptUnit.compile_eq_error h with ⟨row, hrow, habout⟩
    exact ⟨row, hrow, habout.line_eq.symm⟩
  | @unresolved _ _ i h => exact hinvoked i h
  | cyclic h hactive => exact absurd trivial hcyclic
  | @through _ _ _ i cause h _ _ =>
    have hcause : ¬ cause.IsCyclic := by
      intro hc
      rw [CompileError.within_cyclic hc] at hcyclic
      exact hcyclic hc
    rw [CompileError.within_eq_external hcause]
    exact hinvoked i h

/-- An error of another script is at the invocation of that script. -/
theorem Traced.external {active : List String} {source : String} {line : Nat} {name : String}
    {cause : CompileError} (h : Traced catalogue find? active source (.external line name cause)) :
    ∃ kind text, Invokes catalogue source ⟨line, kind, name, true⟩ ∧ find? name = some text ∧
      Traced catalogue find? (name :: active) text cause := by
  generalize he : CompileError.external line name cause = e at h
  cases h with
  | own h =>
    subst he
    rcases ScriptUnit.compile_eq_error h with ⟨row, -, habout⟩
    exact habout.elim
  | unresolved h => cases he
  | cyclic h hactive => cases he
  | @through _ _ text i inner h htext hcause =>
    have hinner : ¬ inner.IsCyclic := by
      intro hc
      rw [CompileError.within_cyclic hc] at he
      rw [← he] at hc
      exact hc
    rw [CompileError.within_eq_external hinner] at he
    cases he
    have hexternal := h.external
    rcases i with ⟨line, kind, name, external⟩
    obtain rfl : external = true := hexternal
    exact ⟨kind, text, h, htext, hcause⟩

/-- An error of a cycle names the line of an invocation, in the text itself if that invokes an
active name, and else in the text of a script that is reached from it. -/
theorem Traced.cycle {active : List String} {source : String} {e : CompileError}
    (h : Traced catalogue find? active source e) (hcyclic : e.IsCyclic) :
    ∃ i text, e = .cyclic i.line i.kind i.name ∧ Invokes catalogue text i ∧
      ((text = source ∧ i.name ∈ active) ∨
        ∃ first script, Invokes catalogue source first ∧
          ReflTransGen (Needs catalogue find?) first.name script ∧ find? script = some text ∧
          (i.name ∈ active ∨ TransGen (Needs catalogue find?) i.name i.name)) := by
  induction h with
  | @own _ source e h =>
    rcases ScriptUnit.compile_eq_error h with ⟨row, -, habout⟩
    exact absurd hcyclic habout.not_isCyclic
  | unresolved h => exact hcyclic.elim
  | @cyclic _ source i h hactive => exact ⟨i, source, rfl, h, .inl ⟨rfl, hactive⟩⟩
  | @through active source text i cause h htext _ ih =>
    have hcause : cause.IsCyclic := by
      by_contra hc
      rw [CompileError.within_eq_external hc] at hcyclic
      exact hcyclic
    rw [CompileError.within_cyclic hcause]
    rcases ih hcause with
      ⟨j, inner, heq, hj, ⟨rfl, hmem⟩ | ⟨first, script, hfirst, hpath, hscript, hmem⟩⟩
    · -- The script that is invoked here closes the cycle itself.
      refine ⟨j, inner, heq, hj, .inr ⟨i, i.name, h, .refl, htext, ?_⟩⟩
      rcases List.mem_cons.mp hmem with hname | hmem
      · have hneeds := hj.needs htext
        rw [← hname] at hneeds
        exact .inr (.single hneeds)
      · exact .inl hmem
    · have hreach : ReflTransGen (Needs catalogue find?) i.name script :=
        .head (hfirst.needs htext) hpath
      refine ⟨j, inner, heq, hj, .inr ⟨i, script, h, hreach, hscript, ?_⟩⟩
      rcases hmem with hmem | hmem
      · rcases List.mem_cons.mp hmem with hname | hmem
        · rw [← hname] at hreach
          exact .inr (.tail' hreach (hj.needs hscript))
        · exact .inl hmem
      · exact .inr hmem

/-- Whatever scripts the resolvers know, an error of compiling a text comes about as `Traced`
says. Unless a script needs itself, the error names a line of that same text, which is neither
blank nor a comment; if another script is at fault, at whatever depth, it is the line that invokes
the script through which the fault is reached. If a script needs itself, the error names the line
that closes the cycle, in the text of a script that is needed. -/
theorem compile_error_traced {depth : Nat} {source : String} {e : CompileError}
    (h : compileWith catalogue find? depth source = .error e) :
    Traced catalogue find? [] source e ∧
    (¬ e.IsCyclic → ∃ row ∈ SourceLine.codeLines source, row.2 = e.line) ∧
    (∀ line name cause, e = .external line name cause →
      ∃ kind text, Invocation.StandsIn ⟨line, kind, name, true⟩ source ∧
        find? name = some text ∧ Traced catalogue find? [name] text cause) ∧
    (∀ line kind name, e = .cyclic line kind name →
      ∃ main script text, ScriptUnit.compile catalogue source = .ok main ∧
        Reaches catalogue find? main script ∧ find? script = some text ∧
        Invocation.StandsIn ⟨line, kind, name, true⟩ text ∧
        TransGen (Needs catalogue find?) name name) := by
  have htraced : Traced catalogue find? [] source e := by
    unfold compileWith at h
    cases hmain : ScriptUnit.compile catalogue source with
    | error cause =>
      rw [hmain] at h
      cases h
      exact .own hmain
    | ok main =>
      rw [hmain] at h
      cases hlink : link catalogue find? depth [] main [] with
      | ok units =>
        simp only [hlink, bind, Except.bind] at h
        cases h
      | error cause =>
        simp only [hlink, bind, Except.bind] at h
        cases h
        exact link_traced hmain hlink
  refine ⟨htraced, htraced.line, ?_, ?_⟩
  · rintro line name cause rfl
    rcases htraced.external with ⟨kind, text, hinvokes, htext, hcause⟩
    exact ⟨kind, text, hinvokes.standsIn, htext, hcause⟩
  · rintro line kind name rfl
    rcases htraced.cycle trivial with ⟨i, text, heq, hi, hplace⟩
    have hexternal := hi.external
    rcases i with ⟨line', kind', name', external⟩
    obtain rfl : external = true := hexternal
    cases heq
    -- At the top no script is active, so the cycle is closed in another script.
    rcases hplace with ⟨-, hnone⟩ | ⟨first, script, ⟨main, hmain, hfirst⟩, hpath, hscript, hcycle⟩
    · cases hnone
    · have hreaches : Reaches catalogue find? main script :=
        ⟨first.name, (ScriptUnit.calls_iff hmain).mpr ⟨first, hfirst, rfl⟩, hpath⟩
      rcases hcycle with hnone | hcycle
      · cases hnone
      · exact ⟨main, script, text, hmain, hreaches, hscript, hi.standsIn, hcycle⟩

/-- Two scripts, of which the first needs the second, and a function that nobody knows in the
second. -/
def nestedFault : Library := [[("a", "call b")], [("b", "\nnope")]]

/-- The fault is two scripts away, and the error is at the one line of the text that counts. -/
theorem compile_nestedFault :
    compile .empty nestedFault "#\n\ncall a" =
      .error (.external 3 "a" (.external 1 "b" (.unknownFunction ⟨2, "nope"⟩ "nope" 0))) ∧
    (∃ row ∈ SourceLine.codeLines "#\n\ncall a", row.2 = 3) ∧
    ∃ kind, Invocation.StandsIn ⟨3, kind, "a", true⟩ "#\n\ncall a" := by
  have hcompile : compile .empty nestedFault "#\n\ncall a" =
      .error (.external 3 "a" (.external 1 "b" (.unknownFunction ⟨2, "nope"⟩ "nope" 0))) := by cbv
  have htraced := compile_error_traced hcompile
  rcases htraced.2.2.1 _ _ _ rfl with ⟨kind, -, hstands, -⟩
  exact ⟨hcompile, htraced.2.1 (fun h => h), kind, hstands⟩

/-- A script that needs itself, in its third line. -/
def selfNeeding : Library := [[("a", "\n\ncall a")]]

/-- Where a script needs itself, the error names a line that the text does not have. -/
theorem cyclic_line_elsewhere :
    compile .empty selfNeeding "call a" = .error (.cyclic 3 .call "a") ∧
    ¬ ∃ row ∈ SourceLine.codeLines "call a", row.2 = (CompileError.cyclic 3 .call "a").line := by
  constructor
  · cbv
  · decide

end Program

end MarkupScript
