import MarkupScript.Function.Catalogue
import MarkupScript.Script.Source

/-!
# From lines to statements

A block is a sequence of statements. A loop runs from its `for` line to the first
line that ends a loop over its variable. An `if` line, an `elseIf` line and an `else`
line are each followed by one statement, which is no choice itself.

* `Compiler.block` compiles the lines of a block.
-/

namespace MarkupScript

/-- What lines are compiled against: the functions, and the names of the sub-scripts
of the unit. -/
structure Compiler where
  catalogue : Catalogue
  subs : List String := []

namespace Compiler

/-! ## Lines -/

/-- The name of the variable that a token is. -/
def variableName (l : SourceLine) (token : Option Token) : Except CompileError String :=
  match token with
  | none => l.fault .missingVariable
  | some t =>
    match t.kind, t.text.toList with
    | .plain, '$' :: _ :: _ => .ok t.text
    | _, _ => l.fault (.notAVariable t.text)

def define (l : SourceLine) : Except CompileError Command := do
  let name ← variableName l l.operands.head?
  match l.operands with
  | [_, value] => return .define name (.ofToken value)
  | _ => l.fault .defineShape

def clear (l : SourceLine) : Except CompileError Command := do
  let name ← variableName l l.operands.head?
  match l.operands with
  | [_] => return .clear name
  | _ => l.fault .clearShape

def clearAll (l : SourceLine) : Except CompileError Command :=
  match l.operands with
  | [] => .ok .clearAll
  | _ => l.fault .clearAllShape

/-- Whether a token can be the name of a script. -/
def isScriptName (name : String) : Bool :=
  match name.toList with
  | '$' :: _ | '(' :: _ | '{' :: _ => false
  | _ => true

/-- The scope of an invocation: a set or a variable. -/
def scope (l : SourceLine) (token : Option Token) : Except CompileError (Option Argument) :=
  match token.map Argument.ofToken with
  | none => .ok none
  | some (.annotationSet text) => .ok (some (.annotationSet text))
  | some (.variableRef name) => .ok (some (.variableRef name))
  | some other => l.fault (.notAScope other.text)

/-- An invocation of a script. The names of the unit's sub-scripts are known before any of
its lines is compiled, so it is settled here whether the script is one of them or is to
be looked for in a library. No later pass has to fill in where an invocation leads. -/
def invoke (c : Compiler) (kind : InvokeKind) (l : SourceLine) : Except CompileError Command :=
  match l.operands with
  | name :: rest =>
    if 1 < rest.length then l.fault (.invokeShape kind)
    else if !isScriptName name.text then l.fault (.notAScriptName name.text)
    else do
      let scope ← scope l rest.head?
      return .invoke kind name.text scope (!c.subs.contains name.text)
  | [] => l.fault (.invokeShape kind)

def function (c : Compiler) (l : SourceLine) : Except CompileError Command :=
  let name := (l.tokens.head?.map (·.text)).getD ""
  let args := l.operands.map Argument.ofToken
  match c.catalogue.resolve name args.length with
  | none => .error (.unknownFunction l.pos name args.length)
  | some d =>
    if args.length < d.arity then l.fault (.missingArguments d.usage d.arity args.length)
    else .ok (.function d args)

/-- Compiles a line that is a statement by itself. -/
def command (c : Compiler) (l : SourceLine) : Except CompileError Command :=
  match l.keyword with
  | some "def" => define l
  | some "clearDef" => clear l
  | some "clearDefs" => clearAll l
  | some "call" => c.invoke .call l
  | some "include" => c.invoke .inclusion l
  | some "end" => .error (.unmatched l.pos "end")
  | some "elseIf" => .error (.unmatched l.pos "elseIf")
  | some "else" => .error (.unmatched l.pos "else")
  | some "sub" => .error (.unmatched l.pos "sub")
  | some "endSub" => .error (.unmatched l.pos "endSub")
  | _ => c.function l

/-- The variable and the set of a `for` line. -/
def loopHead (l : SourceLine) : Except CompileError (String × Argument) := do
  let name ← variableName l l.operands.head?
  match l.operands with
  | [_, set] =>
    match Argument.ofToken set with
    | .literal _ => l.fault .loopOverLiteral
    | set => return (name, set)
  | _ => l.fault .loopShape

/-- Whether a line ends the loop over a variable. -/
def endsLoop (name : String) (l : SourceLine) : Bool :=
  l.keyword = some "end" && l.operands.map (·.text) = [name]

/-- The lines before and after the first that ends the loop over a variable. -/
def cutLoop (name : String) : List SourceLine → Option (List SourceLine × List SourceLine)
  | [] => none
  | l :: rest =>
    if endsLoop name l then some ([], rest)
    else (cutLoop name rest).map fun (body, after) => (l :: body, after)

/-- The condition of an `if` or `elseIf` line. -/
def condition (l : SourceLine) (keyword : String) : Except CompileError Argument :=
  match l.operands with
  | [token] =>
    match Argument.ofToken token with
    | .expression text => .ok (.expression text)
    | .variableRef name => .ok (.variableRef name)
    | _ => l.fault .notACondition
  | _ => l.fault (.conditionShape keyword)

/-- The condition of a line that starts a branch; `else` has none. -/
def branchHead (l : SourceLine) (keyword : String) : Except CompileError (Option Argument) :=
  if keyword = "else" then
    match l.operands with
    | [] => .ok none
    | _ => l.fault .conditionOfElse
  else do
    let condition ← condition l keyword
    return some condition

/-- The keyword of a line that starts a branch. -/
def branchKeyword? (l : SourceLine) : Option String :=
  match l.keyword with
  | some "if" => some "if"
  | some "elseIf" => some "elseIf"
  | some "else" => some "else"
  | _ => none

/-- After the line that starts a branch comes a line that starts none. -/
def checkBranchBody (l : SourceLine) (keyword : String) (rest : List SourceLine) :
    Except CompileError Unit :=
  match rest with
  | [] => l.fault (.noCommand keyword)
  | next :: _ =>
    match branchKeyword? next with
    | some other => l.fault (.controlAfter keyword other)
    | none => .ok ()

/-! ## Blocks -/

mutual

/-- Compiles the statement that starts with a line, and gives the lines after it. The
first argument bounds the depth of the recursion; every step takes a line. -/
def statementFrom (c : Compiler) :
    Nat → SourceLine → List SourceLine → Except CompileError (Statement × List SourceLine)
  | 0, l, _ => .error (.unmatched l.pos "")
  | fuel + 1, l, rest =>
    match l.keyword with
    | some "for" => do
      let (name, set) ← loopHead l
      match cutLoop name rest with
      | none => .error (.unmatched l.pos "for")
      | some (body, after) =>
        let body ← c.blockFrom fuel body
        return (.loop l.pos name set body, after)
    | some "if" => do
      let (branches, after) ← c.branchesFrom fuel l "if" rest
      return (.choice l.pos branches, after)
    | _ => do
      let command ← c.command l
      return (.command l.pos command, rest)

/-- Compiles a branch that starts with the line `l`, and those after it. -/
def branchesFrom (c : Compiler) :
    Nat → SourceLine → String → List SourceLine →
      Except CompileError (List (Option Argument × Statement) × List SourceLine)
  | 0, l, _, _ => .error (.unmatched l.pos "")
  | fuel + 1, l, keyword, rest => do
    let condition ← branchHead l keyword
    checkBranchBody l keyword rest
    match rest with
    | [] => l.fault (.noCommand keyword)
    | first :: rest =>
      let (statement, after) ← c.statementFrom fuel first rest
      match after with
      | next :: others =>
        match next.keyword with
        | some "elseIf" =>
          if condition.isNone then next.fault .elseIfAfterElse
          else
            let (branches, after) ← c.branchesFrom fuel next "elseIf" others
            return ((condition, statement) :: branches, after)
        | some "else" =>
          if condition.isNone then next.fault .secondElse
          else
            let (branches, after) ← c.branchesFrom fuel next "else" others
            return ((condition, statement) :: branches, after)
        | _ => return ([(condition, statement)], after)
      | [] => return ([(condition, statement)], [])

/-- Compiles the statements of a block. -/
def blockFrom (c : Compiler) : Nat → List SourceLine → Except CompileError (List Statement)
  | _, [] => .ok []
  | 0, l :: _ => .error (.unmatched l.pos "")
  | fuel + 1, l :: rest => do
    let (statement, after) ← c.statementFrom fuel l rest
    let statements ← c.blockFrom fuel after
    return statement :: statements

end

/-- Compiles the lines of a block. Every two levels of the recursion take a line. -/
def block (c : Compiler) (lines : List SourceLine) : Except CompileError (List Statement) :=
  c.blockFrom (2 * lines.length + 1) lines

end Compiler

end MarkupScript
