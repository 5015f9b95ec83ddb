import MarkupScript.Proofs.Script.Blocks
import MarkupScript.Proofs.Script.Lines
import Mathlib.Algebra.GroupWithZero.Nat
import Mathlib.Data.List.Perm.Basic

/-!
# Every line of a script is used once

A line that counts starts a statement, ends a loop, starts a later branch of a choice, or opens
or closes a sub-script. Compiling gives one statement for each line of the first kind and uses
up the others.

* `SourceLine.Starts`: the line starts a statement, told by its keyword.
* `Derivation.pos_parts`, `Derivation.length_lines`: the lines of a derivation and the statements
  of its tree.
* `CutLines.covers_of_cut`: cutting out the sub-scripts loses no line and keeps the order.
* `ScriptUnit.lines_accounted`: the account of a whole script text.
-/

namespace MarkupScript

/-! ## Lines that start a statement -/

namespace SourceLine

/-- The keywords of lines that start no statement. -/
def closingWords : List String := ["end", "elseIf", "else", "sub", "endSub"]

/-- The line starts a statement. -/
def Starts (l : SourceLine) : Prop :=
  ∀ k ∈ closingWords, l.keyword ≠ some k

instance (l : SourceLine) : Decidable l.Starts :=
  inferInstanceAs (Decidable (∀ _ ∈ _, _))

theorem starts_of_keyword {l : SourceLine} {k : String} (h : l.keyword = some k)
    (hk : k ∉ closingWords) : l.Starts := by
  intro other hother heq
  have hsame : k = other := Option.some.inj (h.symm.trans heq)
  exact hk (hsame ▸ hother)

theorem not_starts_of_keyword {l : SourceLine} {k : String} (h : l.keyword = some k)
    (hk : k ∈ closingWords) : ¬ l.Starts := by
  intro hstarts
  exact hstarts k hk h

end SourceLine

theorem Compiler.Single.starts {c : Compiler} {l : SourceLine} {cmd : Command}
    (h : c.Single l cmd) : l.Starts := by
  cases h with
  | define hkeyword _ _ => exact SourceLine.starts_of_keyword hkeyword (by decide)
  | clear hkeyword _ _ => exact SourceLine.starts_of_keyword hkeyword (by decide)
  | clearAll hkeyword _ => exact SourceLine.starts_of_keyword hkeyword (by decide)
  | @invoke kind _ hkeyword _ _ =>
    exact SourceLine.starts_of_keyword hkeyword (by cases kind <;> decide)
  | @invokeFor kind _ _ hkeyword _ _ _ =>
    exact SourceLine.starts_of_keyword hkeyword (by cases kind <;> decide)
  | function hkeyword _ _ _ =>
    -- A function is called by a name that is no keyword at all.
    intro k hk
    refine hkeyword k ?_
    have hsub : ∀ w ∈ SourceLine.closingWords, w ∈ keywords := by decide
    exact hsub k hk

/-! ## The lines of a derivation -/

namespace Statement

def isLoop : Statement → Bool
  | loop _ _ _ _ => true
  | command _ _ | choice _ _ => false

/-- The number of branches after the first. -/
def laterBranches : Statement → Nat
  | choice _ branches => branches.length - 1
  | command _ _ | loop _ _ _ _ => 0

end Statement

mutual

/-- The statements of a tree stand, in this order, where the lines stand that start one. -/
theorem Derivation.pos_parts {c : Compiler} : ∀ {d : Derivation}, d.Valid c →
    d.statement.parts.map Statement.pos = (d.lines.filter (·.Starts)).map SourceLine.pos
  | .single l cmd, h => by
    rw [Derivation.Valid] at h
    simp [Derivation.statement, Derivation.lines, Statement.parts, Statement.pos, h.starts]
  | .loop first name set body last, h => by
    rw [Derivation.Valid] at h
    rcases h with ⟨hfirst, hbody, -, hlast⟩
    have hstarts : first.Starts := SourceLine.starts_of_keyword hfirst.1 (by decide)
    have hends : ¬ last.Starts := SourceLine.not_starts_of_keyword hlast.1 (by decide)
    simp [Derivation.statement, Derivation.lines, Statement.parts, Statement.pos, hstarts, hends,
      Derivation.pos_partsAll hbody]
  | .choice first condition d more, h => by
    rw [Derivation.Valid] at h
    rcases h with ⟨hfirst, hcommand, -, hmore⟩
    have hstarts : first.Starts := SourceLine.starts_of_keyword hfirst.1 (by decide)
    simp [Derivation.statement, Derivation.lines, Statement.parts, Statement.partsBranches,
      Statement.pos, hstarts, Derivation.pos_parts hcommand, Alternatives.pos_parts hmore]

theorem Derivation.pos_partsAll {c : Compiler} : ∀ {ds : List Derivation},
    Derivation.ValidAll c ds → (Statement.partsAll (Derivation.statements ds)).map Statement.pos =
      ((Derivation.linesAll ds).filter (·.Starts)).map SourceLine.pos
  | [], _ => by simp [Derivation.statements, Derivation.linesAll, Statement.partsAll]
  | d :: rest, h => by
    rw [Derivation.ValidAll] at h
    simp [Derivation.statements, Derivation.linesAll, Statement.partsAll,
      Derivation.pos_parts h.1, Derivation.pos_partsAll h.2]

theorem Alternatives.pos_parts {c : Compiler} : ∀ {a : Alternatives}, a.Valid c →
    (Statement.partsBranches a.branches).map Statement.pos =
      (a.lines.filter (·.Starts)).map SourceLine.pos
  | .none, _ => by simp [Alternatives.branches, Alternatives.lines, Statement.partsBranches]
  | .elseIf l condition d more, h => by
    rw [Alternatives.Valid] at h
    rcases h with ⟨hline, hcommand, -, hmore⟩
    have hnot : ¬ l.Starts := SourceLine.not_starts_of_keyword hline.1 (by decide)
    simp [Alternatives.branches, Alternatives.lines, Statement.partsBranches, hnot,
      Derivation.pos_parts hcommand, Alternatives.pos_parts hmore]
  | .otherwise l d, h => by
    rw [Alternatives.Valid] at h
    rcases h with ⟨hline, hcommand, -⟩
    have hnot : ¬ l.Starts := SourceLine.not_starts_of_keyword hline.1 (by decide)
    simp [Alternatives.branches, Alternatives.lines, Statement.partsBranches, hnot,
      Derivation.pos_parts hcommand]

end

/-- The lines that some statements take beyond those that start one: the last line of each loop,
and the first line of each later branch. -/
def Statement.extraLines (parts : List Statement) : Nat :=
  parts.countP isLoop + (parts.map laterBranches).sum

namespace Statement

theorem extraLines_append (xs ys : List Statement) :
    extraLines (xs ++ ys) = extraLines xs + extraLines ys := by
  rw [extraLines, extraLines, extraLines, List.countP_append, List.map_append, List.sum_append]
  omega

theorem extraLines_command (pos : Position) (c : Command) : extraLines [command pos c] = 0 := rfl

theorem extraLines_loop (pos : Position) (name : String) (set : Argument) (body : List Statement)
    (parts : List Statement) :
    extraLines (loop pos name set body :: parts) = extraLines parts + 1 := by
  simp only [extraLines, List.countP_cons, isLoop, List.map_cons, List.sum_cons, laterBranches,
    if_true]
  omega

theorem extraLines_choice (pos : Position) (first : Option Argument × Statement)
    (others : List (Option Argument × Statement)) (parts : List Statement) :
    extraLines (choice pos (first :: others) :: parts) = extraLines parts + others.length := by
  simp [extraLines, isLoop, laterBranches]
  omega

end Statement

mutual

/-- A command is written on one line for each statement and on the lines beyond these. -/
theorem Derivation.length_lines : ∀ d : Derivation,
    d.lines.length = d.statement.count + Statement.extraLines d.statement.parts
  | .single l cmd => by
    simp [Derivation.statement, Derivation.lines, Statement.count, Statement.parts,
      Statement.extraLines_command]
  | .loop first name set body last => by
    have hbody := Derivation.length_linesAll body
    simp only [Derivation.statement, Derivation.lines, Statement.count, Statement.parts,
      Statement.extraLines_loop, List.length_cons, List.length_append, List.length_nil]
    omega
  | .choice first condition d more => by
    have hcommand := Derivation.length_lines d
    have hmore := Alternatives.length_lines more
    simp only [Derivation.statement, Derivation.lines, Statement.count, Statement.countBranches,
      Statement.parts, Statement.partsBranches, Statement.extraLines_choice,
      Statement.extraLines_append, List.length_cons, List.length_append]
    omega

theorem Derivation.length_linesAll : ∀ ds : List Derivation,
    (Derivation.linesAll ds).length = Statement.countAll (Derivation.statements ds) +
      Statement.extraLines (Statement.partsAll (Derivation.statements ds))
  | [] => by
    simp [Derivation.statements, Derivation.linesAll, Statement.countAll, Statement.partsAll,
      Statement.extraLines]
  | d :: rest => by
    have hcommand := Derivation.length_lines d
    have hrest := Derivation.length_linesAll rest
    simp only [Derivation.statements, Derivation.linesAll, Statement.countAll, Statement.partsAll,
      Statement.extraLines_append, List.length_append]
    omega

theorem Alternatives.length_lines : ∀ a : Alternatives,
    a.lines.length = a.branches.length + Statement.countBranches a.branches +
      Statement.extraLines (Statement.partsBranches a.branches)
  | .none => by
    simp [Alternatives.branches, Alternatives.lines, Statement.countBranches,
      Statement.partsBranches, Statement.extraLines]
  | .elseIf l condition d more => by
    have hcommand := Derivation.length_lines d
    have hmore := Alternatives.length_lines more
    simp only [Alternatives.branches, Alternatives.lines, Statement.countBranches,
      Statement.partsBranches, Statement.extraLines_append, List.length_cons, List.length_append]
    omega
  | .otherwise l d => by
    have hcommand := Derivation.length_lines d
    simp only [Alternatives.branches, Alternatives.lines, Statement.countBranches,
      Statement.partsBranches, List.append_nil, List.length_cons, List.length_nil]
    omega

end

/-! ## Blocks -/

/-- The statements of some bodies account for the lines they were compiled from. -/
structure Accounts (lines : List SourceLine) (bodies : List (List Statement)) : Prop where
  positions : (bodies.flatMap Statement.partsAll).map Statement.pos =
    (lines.filter (·.Starts)).map SourceLine.pos
  length : lines.length =
    (bodies.map Statement.countAll).sum +
      Statement.extraLines (bodies.flatMap Statement.partsAll)

namespace Accounts

theorem nil : Accounts [] [] := ⟨rfl, rfl⟩

theorem append {lines lines' : List SourceLine} {bodies bodies' : List (List Statement)}
    (h : Accounts lines bodies) (h' : Accounts lines' bodies') :
    Accounts (lines ++ lines') (bodies ++ bodies') where
  positions := by
    rw [List.flatMap_append, List.map_append, h.positions, h'.positions, List.filter_append,
      List.map_append]
  length := by
    rw [List.flatMap_append, Statement.extraLines_append, List.map_append, List.sum_append,
      List.length_append, h.length, h'.length]
    omega

end Accounts

theorem Compiler.accounts_of_block {c : Compiler} {lines : List SourceLine}
    {body : List Statement} (htokens : ∀ l ∈ lines, l.tokens ≠ [])
    (h : c.block lines = .ok body) : Accounts lines [body] := by
  rcases (derived_of_from c _).2.2 htokens h with ⟨ds, ⟨hvalid, rfl⟩, rfl⟩
  constructor
  · simpa using Derivation.pos_partsAll hvalid
  · simpa using Derivation.length_linesAll ds

/-! ## Sub-scripts -/

namespace CutLines

/-- Cutting the lines has used each of them once: some open or close a sub-script, the others go
to the body or to a sub-script, in their order. -/
structure Covers (p : CutLines) (lines : List SourceLine) : Prop where
  split : ∃ marks : List SourceLine,
    lines.Perm (marks ++ (p.main ++ p.subs.flatMap (·.2))) ∧ (∀ l ∈ marks, ¬ l.Starts) ∧
      marks.length = 2 * p.subs.length
  main : p.main.Sublist lines
  subs : ∀ sub ∈ p.subs, sub.2.Sublist lines

/-- The lines of a sub-script that has been opened. -/
def pending : Option OpenSub → List SourceLine
  | none => []
  | some sub => sub.start :: sub.lines

theorem Covers.nil : Covers {} [] where
  split := ⟨[], .nil, by simp, rfl⟩
  main := .slnil
  subs := by simp

/-- A line of the body. -/
theorem Covers.line {p : CutLines} {lines : List SourceLine} (h : p.Covers lines)
    (l : SourceLine) : Covers { p with main := l :: p.main } (l :: lines) where
  split := by
    rcases h.split with ⟨marks, hperm, hmarks, hlength⟩
    refine ⟨marks, ?_, hmarks, hlength⟩
    exact (hperm.cons l).trans List.perm_middle.symm
  main := h.main.cons_cons l
  subs := fun sub hsub => (h.subs sub hsub).cons l

open scoped List in
/-- A sub-script that is closed, with the lines after it. -/
theorem Covers.sub {p : CutLines} {lines : List SourceLine} (h : p.Covers lines)
    {sub : OpenSub} (hstart : ¬ sub.start.Starts) {l : SourceLine} (hl : ¬ l.Starts) :
    Covers { p with subs := (sub.name, sub.lines) :: p.subs }
      (sub.start :: sub.lines ++ l :: lines) where
  split := by
    rcases h.split with ⟨marks, hperm, hmarks, hlength⟩
    refine ⟨sub.start :: l :: marks, ?_, ?_, ?_⟩
    · -- The lines of the sub-script go behind those of the body.
      calc sub.start :: sub.lines ++ l :: lines
        _ ~ sub.start :: l :: (sub.lines ++ lines) := List.perm_middle.cons _
        _ ~ sub.start :: l :: (sub.lines ++ (marks ++ (p.main ++ p.subs.flatMap (·.2)))) :=
          ((hperm.append_left _).cons _).cons _
        _ ~ sub.start :: l :: (marks ++ (sub.lines ++ (p.main ++ p.subs.flatMap (·.2)))) :=
          ((List.perm_append_comm_assoc _ _ _).cons _).cons _
        _ ~ sub.start :: l :: (marks ++ (p.main ++ (sub.lines ++ p.subs.flatMap (·.2)))) :=
          (((List.perm_append_comm_assoc _ _ _).append_left _).cons _).cons _
    · intro other hother
      rcases List.mem_cons.mp hother with rfl | hother
      · exact hstart
      rcases List.mem_cons.mp hother with rfl | hother
      · exact hl
      · exact hmarks other hother
    · simp only [List.length_cons, hlength]
      omega
  main := (h.main.cons l).trans (List.sublist_append_right _ _)
  subs := by
    intro s hs
    rcases List.mem_cons.mp hs with rfl | hs
    · exact ((List.Sublist.refl _).cons sub.start).trans (List.sublist_append_left _ _)
    · exact ((h.subs s hs).cons l).trans (List.sublist_append_right _ _)

/-- What cutting does with the next line: it opens a sub-script or closes the one that is open,
or it joins that one, or the body. -/
theorem cut_cons {seen : List String} {sub? : Option OpenSub} {l : SourceLine}
    {rest : List SourceLine} {p : CutLines} (h : cut seen sub? (l :: rest) = .ok p) :
    (l.keyword = some "sub" ∧ sub? = none ∧ ∃ name,
      cut (name :: seen) (some { start := l, name }) rest = .ok p) ∨
    (l.keyword = some "endSub" ∧ ∃ sub others, sub? = some sub ∧ cut seen none rest = .ok others ∧
      p = { others with subs := (sub.name, sub.lines) :: others.subs }) ∨
    (∃ sub, sub? = some sub ∧
      cut seen (some { sub with lines := sub.lines ++ [l] }) rest = .ok p) ∨
    (sub? = none ∧ ∃ others, cut seen none rest = .ok others ∧
      p = { others with main := l :: others.main }) := by
  unfold cut at h
  split at h
  · next heq => cases heq
  · next heq => cases heq
  · next heq =>
    cases heq
    split at h
    · cases h
    · next hkeyword =>
      rcases bind_eq_ok h with ⟨name, -, hcut⟩
      exact .inl ⟨hkeyword, rfl, name, hcut⟩
    · next hkeyword =>
      split at h
      · cases h
      split at h
      · cases h
      · next sub =>
        rcases bind_eq_ok h with ⟨others, hothers, hparts⟩
        cases hparts
        exact .inr (.inl ⟨hkeyword, sub, others, rfl, hothers, rfl⟩)
    · exact .inr (.inr (.inl ⟨_, rfl, h⟩))
    · rcases bind_eq_ok h with ⟨others, hothers, hparts⟩
      cases hparts
      exact .inr (.inr (.inr ⟨rfl, others, hothers, rfl⟩))

/-- Cutting uses each line once, those of the sub-script that is open included. -/
theorem covers_of_cut {lines : List SourceLine} {p : CutLines} {seen : List String}
    {sub? : Option OpenSub} (h : cut seen sub? lines = .ok p)
    (hopen : ∀ sub ∈ sub?, ¬ sub.start.Starts) : p.Covers (pending sub? ++ lines) := by
  induction lines generalizing seen sub? p with
  | nil =>
    cases sub? with
    | none =>
      cases h
      exact Covers.nil
    | some sub => cases h
  | cons l rest ih =>
    rcases cut_cons h with ⟨hkeyword, rfl, name, hcut⟩ |
      ⟨hkeyword, sub, others, rfl, hothers, rfl⟩ | ⟨sub, rfl, hcut⟩ | ⟨rfl, others, hothers, rfl⟩
    · have hl : ¬ l.Starts := SourceLine.not_starts_of_keyword hkeyword (by decide)
      exact ih hcut (by simpa using hl)
    · have hl : ¬ l.Starts := SourceLine.not_starts_of_keyword hkeyword (by decide)
      exact (ih hothers (by simp)).sub (hopen sub rfl) hl
    · have hcovers := ih hcut (by simpa using hopen)
      simpa [pending] using hcovers
    · exact (ih hothers (by simp)).line l

end CutLines

namespace ScriptUnit

/-- The bodies of a unit: its own and those of its sub-scripts. -/
def bodies (u : ScriptUnit) : List (List Statement) :=
  u.body :: u.subs.map (·.2)

/-- All statements of a unit, also those inside others; a statement stands before those inside. -/
def statements (u : ScriptUnit) : List Statement :=
  u.bodies.flatMap Statement.partsAll

/-- Each sub-script accounts for its lines, and so do all of them together. -/
theorem accounts_of_compileSubs {c : Compiler} {parts : List (String × List SourceLine)}
    {subs : Keyed String (List Statement)}
    (htokens : ∀ part ∈ parts, ∀ l ∈ part.2, l.tokens ≠ [])
    (h : compileSubs c parts = .ok subs) :
    Accounts (parts.flatMap (·.2)) (subs.map (·.2)) ∧ subs.length = parts.length ∧
      ∀ sub ∈ subs, ∃ part ∈ parts, Accounts part.2 [sub.2] := by
  induction parts generalizing subs with
  | nil =>
    cases h
    exact ⟨Accounts.nil, rfl, by simp⟩
  | cons part rest ih =>
    rcases bind_eq_ok h with ⟨body, hbody, h⟩
    rcases bind_eq_ok h with ⟨others, hothers, h⟩
    cases h
    have hfirst := Compiler.accounts_of_block (htokens part List.mem_cons_self) hbody
    have hrest := fun p hp => htokens p (List.mem_cons_of_mem part hp)
    rcases ih hrest hothers with ⟨haccounts, hlength, hall⟩
    refine ⟨hfirst.append haccounts, ?_, ?_⟩
    · rw [List.length_cons, List.length_cons, hlength]
    · intro sub hsub
      rcases List.mem_cons.mp hsub with rfl | hsub
      · exact ⟨part, List.mem_cons_self, hfirst⟩
      · rcases hall sub hsub with ⟨p, hp, hsubAccounts⟩
        exact ⟨p, List.mem_cons_of_mem part hp, hsubAccounts⟩

/-- The statements of a body stand in the order of the text. -/
theorem increasing_of_accounts {lines part : List SourceLine} {body : List Statement}
    (hincreasing : (lines.map (·.pos.line)).Pairwise (· < ·)) (hpart : part.Sublist lines)
    (h : Accounts part [body]) :
    ((Statement.partsAll body).map (·.pos.line)).Pairwise (· < ·) := by
  have hnumbers : (Statement.partsAll body).map (·.pos.line) =
      (part.filter (·.Starts)).map (·.pos.line) := by
    have hpositions := congrArg (List.map Position.line) h.positions
    simp only [List.flatMap_cons, List.flatMap_nil, List.append_nil, List.map_map] at hpositions
    exact hpositions
  rw [hnumbers]
  exact hincreasing.sublist ((List.filter_sublist.trans hpart).map _)

/-- Each line of a text that compiles is used once, if it is neither blank nor a comment. The
statements of the body and of the sub-scripts, also those inside others, have different line
numbers; they stand at the lines with another keyword than `end`, `elseIf`, `else`, `sub` and
`endSub`, each with the text of its line. In each body they stand in the order of the text. What
is left are the last lines of loops, the first lines of later branches, and two lines for each
sub-script. -/
theorem lines_accounted {catalogue : Catalogue} {source : String} {u : ScriptUnit}
    (h : ScriptUnit.compile catalogue source = .ok u) :
    ∃ lines, List.Forall₂ SourceLine.Reads (SourceLine.codeLines source) lines ∧
      (u.statements.map (·.pos.line)).Nodup ∧
      (∀ pos, (∃ s ∈ u.statements, s.pos = pos) ↔ ∃ l ∈ lines, l.Starts ∧ l.pos = pos) ∧
      (∀ body ∈ u.bodies, ((Statement.partsAll body).map (·.pos.line)).Pairwise (· < ·)) ∧
      (SourceLine.codeLines source).length =
        (u.bodies.map Statement.countAll).sum + u.statements.countP Statement.isLoop +
          (u.statements.map Statement.laterBranches).sum + 2 * u.subs.length := by
  rcases bind_eq_ok h with ⟨lines, hread, h⟩
  rcases bind_eq_ok h with ⟨parts, hcut, h⟩
  dsimp only at h
  rcases bind_eq_ok h with ⟨subs, hsubs, h⟩
  rcases bind_eq_ok h with ⟨body, hbody, h⟩
  cases h
  have htokens := SourceLine.tokens_ne_nil_of_read hread
  have hincreasing := SourceLine.increasing_read hread
  have hcovers : parts.Covers lines := CutLines.covers_of_cut hcut (by simp)
  rcases hcovers.split with ⟨marks, hperm, hmarks, hmarksLength⟩
  have hmain := Compiler.accounts_of_block (fun l hl => htokens l (hcovers.main.subset hl)) hbody
  have hsubTokens : ∀ part ∈ parts.subs, ∀ l ∈ part.2, l.tokens ≠ [] :=
    fun part hpart l hl => htokens l ((hcovers.subs part hpart).subset hl)
  rcases accounts_of_compileSubs hsubTokens hsubs with ⟨hsubAccounts, hsubLength, hsubAll⟩
  have hall := hmain.append hsubAccounts
  -- Among the lines that start a statement there are none that open or close a sub-script.
  have hstarts : (lines.filter (·.Starts)).Perm
      ((parts.main ++ parts.subs.flatMap (·.2)).filter (·.Starts)) := by
    have hfiltered := hperm.filter (fun l => decide l.Starts)
    have hnone : marks.filter (fun l => decide l.Starts) = [] := by
      simpa [List.filter_eq_nil_iff] using hmarks
    rwa [List.filter_append, hnone, List.nil_append] at hfiltered
  have hpositions : ((lines.filter (·.Starts)).map SourceLine.pos).Perm
      ((ScriptUnit.statements { body, subs }).map Statement.pos) := by
    have hmapped := hstarts.map SourceLine.pos
    rwa [← hall.positions] at hmapped
  refine ⟨lines, SourceLine.forall₂_read hread, ?_, ?_, ?_, ?_⟩
  · have hnumbers := hpositions.map Position.line
    rw [List.map_map, List.map_map] at hnumbers
    refine hnumbers.nodup_iff.mp ?_
    have hsorted :=
      hincreasing.sublist ((List.filter_sublist (p := fun l => decide l.Starts)).map _)
    exact hsorted.imp Nat.ne_of_lt
  · intro pos
    have hmem := hpositions.mem_iff (a := pos)
    simp only [List.mem_map, List.mem_filter, decide_eq_true_eq, and_assoc] at hmem
    exact hmem.symm
  · intro part hpart
    rcases List.mem_cons.mp hpart with rfl | hpart
    · exact increasing_of_accounts hincreasing hcovers.main hmain
    · rcases List.mem_map.mp hpart with ⟨sub, hsub, rfl⟩
      rcases hsubAll sub hsub with ⟨p, hp, haccounts⟩
      exact increasing_of_accounts hincreasing (hcovers.subs p hp) haccounts
  · have hbodies : ScriptUnit.bodies { body, subs } = [body] ++ subs.map (·.2) := rfl
    rw [(SourceLine.forall₂_read hread).length_eq, hperm.length_eq, List.length_append,
      hmarksLength, hall.length, ← hsubLength, Statement.extraLines, ScriptUnit.statements, hbodies]
    dsimp only
    omega

/-- A choice in a loop in a sub-script, after a comment. -/
def outline : ScriptUnit where
  body := []
  subs :=
    [("s",
      [.loop { line := 3, text := "for $x $y" } "$x" (.variableRef "$y")
        [.choice { line := 4, text := "if $x" }
          [(some (.variableRef "$x"),
            .command { line := 5, text := "call s" } (.invoke .call "s" none false))]]])]

def outlineText : String :=
  "#\nsub s\nfor $x $y\nif $x\ncall s\nend $x\nendSub"

theorem lines_accounted_outline :
    ScriptUnit.compile .empty outlineText = .ok outline ∧
      outline.statements.map (·.pos.line) = [3, 4, 5] ∧
      (SourceLine.codeLines outlineText).length = 3 + 1 + 0 + 2 * 1 := by
  have hcompile : ScriptUnit.compile .empty outlineText = .ok outline := by cbv
  rcases lines_accounted hcompile with ⟨lines, -, -, -, -, hlength⟩
  exact ⟨hcompile, by decide, hlength⟩

end ScriptUnit

end MarkupScript
