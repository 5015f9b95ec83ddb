import MarkupScript.Script.Block

/-!
# The grammar of blocks

A block is a sequence of commands. A command is a line by itself; or a `for` line, a block in
which no loop is over the same variable, and the `end` line of that variable; or an `if` line
with a command, any number of `elseIf` lines with a command each, and at most one `else` line
with a command at the end, where none of these commands is a choice itself.

* `Compiler.Single`: which lines are commands by themselves, and what they say.
* `Derivation`: how a command is derived, with the lines it is written on.
* `Derivation.Valid`: the derivation follows the rules.
* `Compiler.Derives`: a block is derived from its lines.
* `Derivation.eq_of_statement_eq`: a derivation is known from its tree and its lines.
-/

namespace MarkupScript

/-! ## Statements inside statements -/

namespace Statement

mutual

/-- A statement and all statements inside it, in the order of their lines. -/
def parts : Statement → List Statement
  | command pos c => [command pos c]
  | loop pos name set body => loop pos name set body :: partsAll body
  | choice pos branches => choice pos branches :: partsBranches branches

def partsAll : List Statement → List Statement
  | [] => []
  | s :: rest => parts s ++ partsAll rest

def partsBranches : List (Option Argument × Statement) → List Statement
  | [] => []
  | (_, s) :: rest => parts s ++ partsBranches rest

end

/-- The variable of a loop. -/
def loopName? : Statement → Option String
  | loop _ name _ _ => some name
  | command _ _ | choice _ _ => none

@[simp] theorem loopName?_command (pos : Position) (c : Command) :
    (command pos c).loopName? = none := rfl

@[simp] theorem loopName?_loop (pos : Position) (name : String) (set : Argument)
    (body : List Statement) : (loop pos name set body).loopName? = some name := rfl

@[simp] theorem loopName?_choice (pos : Position) (branches : List (Option Argument × Statement)) :
    (choice pos branches).loopName? = none := rfl

end Statement

/-! ## Lines -/

/-- The token names a variable. -/
def Token.IsVariable (t : Token) : Prop :=
  t.kind = .plain ∧ ∃ c rest, t.text.toList = '$' :: c :: rest

/-- The token can name a script. -/
def Token.IsScriptName (t : Token) : Prop :=
  ∀ c ∈ ['$', '(', '{'], t.text.toList.head? ≠ some c

namespace Argument

/-- A script can be invoked for a set or for what a variable holds. -/
def IsScope : Argument → Prop
  | annotationSet _ | variableRef _ => True
  | literal _ | expression _ => False

/-- A loop can be over all but literal text. -/
def IsLoopSet : Argument → Prop
  | annotationSet _ | variableRef _ | expression _ => True
  | literal _ => False

/-- A condition is an expression or a variable. -/
def IsCondition : Argument → Prop
  | expression _ | variableRef _ => True
  | literal _ | annotationSet _ => False

end Argument

namespace SourceLine

/-- A line that starts a loop. -/
def IsFor (l : SourceLine) (name : String) (set : Argument) : Prop :=
  l.keyword = some "for" ∧ ∃ v s, l.operands = [v, s] ∧ v.IsVariable ∧ v.text = name ∧
    Argument.ofToken s = set ∧ set.IsLoopSet

/-- A line that ends the loop over a variable. -/
def IsEnd (l : SourceLine) (name : String) : Prop :=
  l.keyword = some "end" ∧ ∃ t, l.operands = [t] ∧ t.text = name

/-- A line that gives a condition. -/
def IsTest (l : SourceLine) (keyword : String) (condition : Argument) : Prop :=
  l.keyword = some keyword ∧ ∃ t, l.operands = [t] ∧ Argument.ofToken t = condition ∧
    condition.IsCondition

/-- A line that starts the last branch of a choice. -/
def IsElse (l : SourceLine) : Prop :=
  l.keyword = some "else" ∧ l.operands = []

end SourceLine

/-- A line is a command by itself. -/
inductive Compiler.Single (c : Compiler) (l : SourceLine) : Command → Prop
  | define {v value : Token} (hkeyword : l.keyword = some "def")
      (hoperands : l.operands = [v, value]) (hv : v.IsVariable) :
      Single c l (.define v.text (.ofToken value))
  | clear {v : Token} (hkeyword : l.keyword = some "clearDef") (hoperands : l.operands = [v])
      (hv : v.IsVariable) : Single c l (.clear v.text)
  | clearAll (hkeyword : l.keyword = some "clearDefs") (hoperands : l.operands = []) :
      Single c l .clearAll
  | invoke {kind : InvokeKind} {name : Token} (hkeyword : l.keyword = some kind.keyword)
      (hoperands : l.operands = [name]) (hname : name.IsScriptName) :
      Single c l (.invoke kind name.text none (!c.subs.contains name.text))
  | invokeFor {kind : InvokeKind} {name scope : Token} (hkeyword : l.keyword = some kind.keyword)
      (hoperands : l.operands = [name, scope]) (hname : name.IsScriptName)
      (hscope : (Argument.ofToken scope).IsScope) :
      Single c l
        (.invoke kind name.text (some (.ofToken scope)) (!c.subs.contains name.text))
  | function {name : Token} {args : List Token} {d : Descriptor}
      (hkeyword : ∀ k ∈ keywords, l.keyword ≠ some k) (htokens : l.tokens = name :: args)
      (hresolve : c.catalogue.resolve name.text args.length = some d)
      (harity : d.arity ≤ args.length) : Single c l (.function d (args.map Argument.ofToken))

/-! ## Derivations -/

mutual

/-- How a command is derived, with the lines it is written on. -/
inductive Derivation where
  | single (line : SourceLine) (command : Command)
  | loop (first : SourceLine) (name : String) (set : Argument) (body : List Derivation)
      (last : SourceLine)
  | choice (first : SourceLine) (condition : Argument) (command : Derivation)
      (more : Alternatives)

/-- How the branches of a choice after its first are derived. -/
inductive Alternatives where
  | none
  | elseIf (line : SourceLine) (condition : Argument) (command : Derivation)
      (more : Alternatives)
  | otherwise (line : SourceLine) (command : Derivation)

end

/-- The command is a choice. -/
def Derivation.IsChoice : Derivation → Prop
  | .choice _ _ _ _ => True
  | .single _ _ | .loop _ _ _ _ _ => False

mutual

/-- The lines that a command is written on. -/
def Derivation.lines : Derivation → List SourceLine
  | .single l _ => [l]
  | .loop first _ _ body last => first :: (Derivation.linesAll body ++ [last])
  | .choice first _ d more => first :: (d.lines ++ more.lines)

def Derivation.linesAll : List Derivation → List SourceLine
  | [] => []
  | d :: rest => d.lines ++ Derivation.linesAll rest

def Alternatives.lines : Alternatives → List SourceLine
  | .none => []
  | .elseIf l _ d more => l :: (d.lines ++ more.lines)
  | .otherwise l d => l :: d.lines

end

mutual

/-- The tree of a derivation. -/
def Derivation.statement : Derivation → Statement
  | .single l c => .command l.pos c
  | .loop first name set body _ => .loop first.pos name set (Derivation.statements body)
  | .choice first condition d more =>
    .choice first.pos ((some condition, d.statement) :: more.branches)

def Derivation.statements : List Derivation → List Statement
  | [] => []
  | d :: rest => d.statement :: Derivation.statements rest

def Alternatives.branches : Alternatives → List (Option Argument × Statement)
  | .none => []
  | .elseIf _ condition d more => (some condition, d.statement) :: more.branches
  | .otherwise _ d => [(none, d.statement)]

end

mutual

/-- The derivation follows the rules of the grammar. -/
def Derivation.Valid (c : Compiler) : Derivation → Prop
  | .single l command => c.Single l command
  | .loop first name set body last =>
    first.IsFor name set ∧ Derivation.ValidAll c body ∧
      (∀ s ∈ Statement.partsAll (Derivation.statements body), s.loopName? ≠ some name) ∧
      last.IsEnd name
  | .choice first condition d more =>
    first.IsTest "if" condition ∧ d.Valid c ∧ ¬ d.IsChoice ∧ more.Valid c

def Derivation.ValidAll (c : Compiler) : List Derivation → Prop
  | [] => True
  | d :: rest => d.Valid c ∧ Derivation.ValidAll c rest

def Alternatives.Valid (c : Compiler) : Alternatives → Prop
  | .none => True
  | .elseIf l condition d more =>
    l.IsTest "elseIf" condition ∧ d.Valid c ∧ ¬ d.IsChoice ∧ more.Valid c
  | .otherwise l d => l.IsElse ∧ d.Valid c ∧ ¬ d.IsChoice

end

/-- A block is derived from the lines that it is written on. -/
def Compiler.Derives (c : Compiler) (lines : List SourceLine) (ds : List Derivation) : Prop :=
  Derivation.ValidAll c ds ∧ Derivation.linesAll ds = lines

/-! ## Derivations and their trees -/

mutual

/-- A derivation is known from its tree and the lines it starts with: the tree tells how many of
the lines belong to each of its parts. -/
theorem Derivation.eq_of_statement_eq : ∀ {d d' : Derivation} {after after' : List SourceLine},
    d.statement = d'.statement → d.lines ++ after = d'.lines ++ after' → d = d' ∧ after = after'
  | .single l cmd, .single l' cmd', after, after', hs, hl => by
    simp only [Derivation.statement, Statement.command.injEq] at hs
    simp only [Derivation.lines, List.cons_append, List.nil_append, List.cons.injEq] at hl
    obtain ⟨rfl, rfl⟩ := hl
    rw [hs.2]
    exact ⟨rfl, rfl⟩
  | .loop first name set body last, .loop first' name' set' body' last', after, after', hs, hl => by
    simp only [Derivation.statement, Statement.loop.injEq] at hs
    simp only [Derivation.lines, List.cons_append, List.append_assoc, List.nil_append,
      List.cons.injEq] at hl
    obtain ⟨-, rfl, rfl, hbody⟩ := hs
    obtain ⟨rfl, hrest⟩ := hl
    obtain ⟨rfl, hend⟩ := Derivation.eq_of_statements_eq hbody hrest
    obtain ⟨rfl, rfl⟩ := List.cons.inj hend
    exact ⟨rfl, rfl⟩
  | .choice first condition d more, .choice first' condition' d' more', after, after', hs, hl => by
    simp only [Derivation.statement, Statement.choice.injEq, List.cons.injEq, Prod.mk.injEq,
      Option.some.injEq] at hs
    simp only [Derivation.lines, List.cons_append, List.append_assoc, List.cons.injEq] at hl
    obtain ⟨-, ⟨rfl, hcommand⟩, hmore⟩ := hs
    obtain ⟨rfl, hrest⟩ := hl
    obtain ⟨rfl, htail⟩ := Derivation.eq_of_statement_eq hcommand hrest
    obtain ⟨rfl, rfl⟩ := Alternatives.eq_of_branches_eq hmore htail
    exact ⟨rfl, rfl⟩
  | .single _ _, .loop _ _ _ _ _, _, _, hs, _ => by simp [Derivation.statement] at hs
  | .single _ _, .choice _ _ _ _, _, _, hs, _ => by simp [Derivation.statement] at hs
  | .loop _ _ _ _ _, .single _ _, _, _, hs, _ => by simp [Derivation.statement] at hs
  | .loop _ _ _ _ _, .choice _ _ _ _, _, _, hs, _ => by simp [Derivation.statement] at hs
  | .choice _ _ _ _, .single _ _, _, _, hs, _ => by simp [Derivation.statement] at hs
  | .choice _ _ _ _, .loop _ _ _ _ _, _, _, hs, _ => by simp [Derivation.statement] at hs

theorem Derivation.eq_of_statements_eq : ∀ {ds ds' : List Derivation}
    {after after' : List SourceLine}, Derivation.statements ds = Derivation.statements ds' →
      Derivation.linesAll ds ++ after = Derivation.linesAll ds' ++ after' →
      ds = ds' ∧ after = after'
  | [], [], after, after', _, hl => by
    simp only [Derivation.linesAll, List.nil_append] at hl
    exact ⟨rfl, hl⟩
  | d :: rest, d' :: rest', after, after', hs, hl => by
    simp only [Derivation.statements, List.cons.injEq] at hs
    simp only [Derivation.linesAll, List.append_assoc] at hl
    obtain ⟨rfl, hrest⟩ := Derivation.eq_of_statement_eq hs.1 hl
    obtain ⟨rfl, rfl⟩ := Derivation.eq_of_statements_eq hs.2 hrest
    exact ⟨rfl, rfl⟩
  | [], _ :: _, _, _, hs, _ => by simp [Derivation.statements] at hs
  | _ :: _, [], _, _, hs, _ => by simp [Derivation.statements] at hs

theorem Alternatives.eq_of_branches_eq : ∀ {a a' : Alternatives}
    {after after' : List SourceLine}, a.branches = a'.branches →
      a.lines ++ after = a'.lines ++ after' → a = a' ∧ after = after'
  | .none, .none, after, after', _, hl => by
    simp only [Alternatives.lines, List.nil_append] at hl
    exact ⟨rfl, hl⟩
  | .elseIf l condition d more, .elseIf l' condition' d' more', after, after', hs, hl => by
    simp only [Alternatives.branches, List.cons.injEq, Prod.mk.injEq, Option.some.injEq] at hs
    simp only [Alternatives.lines, List.cons_append, List.append_assoc, List.cons.injEq] at hl
    obtain ⟨⟨rfl, hcommand⟩, hmore⟩ := hs
    obtain ⟨rfl, hrest⟩ := hl
    obtain ⟨rfl, htail⟩ := Derivation.eq_of_statement_eq hcommand hrest
    obtain ⟨rfl, rfl⟩ := Alternatives.eq_of_branches_eq hmore htail
    exact ⟨rfl, rfl⟩
  | .otherwise l d, .otherwise l' d', after, after', hs, hl => by
    simp only [Alternatives.branches, List.cons.injEq, Prod.mk.injEq, true_and, and_true] at hs
    simp only [Alternatives.lines, List.cons_append, List.cons.injEq] at hl
    obtain ⟨rfl, hrest⟩ := hl
    obtain ⟨rfl, rfl⟩ := Derivation.eq_of_statement_eq hs hrest
    exact ⟨rfl, rfl⟩
  | .none, .elseIf _ _ _ _, _, _, hs, _ => by simp [Alternatives.branches] at hs
  | .none, .otherwise _ _, _, _, hs, _ => by simp [Alternatives.branches] at hs
  | .elseIf _ _ _ _, .none, _, _, hs, _ => by simp [Alternatives.branches] at hs
  | .elseIf _ _ _ _, .otherwise _ _, _, _, hs, _ => by simp [Alternatives.branches] at hs
  | .otherwise _ _, .none, _, _, hs, _ => by simp [Alternatives.branches] at hs
  | .otherwise _ _, .elseIf _ _ _ _, _, _, hs, _ => by simp [Alternatives.branches] at hs

end

end MarkupScript
