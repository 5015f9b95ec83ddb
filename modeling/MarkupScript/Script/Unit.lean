import MarkupScript.Script.Block

/-!
# Compiling one script text

The lines between `sub` and `endSub` are cut out of a script as its sub-scripts; the
rest is its body.

* `ScriptUnit.compile` compiles a text without looking at the scripts it invokes.
-/

namespace MarkupScript

/-- A sub-script that has been opened: its first line, its name, and its lines so far. -/
structure OpenSub where
  start : SourceLine
  name : String
  lines : List SourceLine := []

/-- The lines of a script, those of its sub-scripts set apart. -/
structure CutLines where
  main : List SourceLine := []
  subs : List (String × List SourceLine) := []

namespace CutLines

/-- The name that a `sub` line gives. -/
def subName (seen : List String) (l : SourceLine) : Except CompileError String :=
  match l.operands with
  | [name] =>
    if seen.contains name.text then .error (.duplicateSub l.pos.line name.text)
    else .ok name.text
  | _ => l.fault .subShape

/-- Sets the lines of sub-scripts apart. `seen` are the names given so far. -/
def cut (seen : List String) : Option OpenSub → List SourceLine → Except CompileError CutLines
  | none, [] => .ok {}
  | some sub, [] => .error (.unmatched sub.start.pos "sub")
  | sub?, l :: rest =>
    match l.keyword, sub? with
    | some "sub", some _ => l.fault .nestedSub
    | some "sub", none => do
      let name ← subName seen l
      cut (name :: seen) (some { start := l, name }) rest
    | some "endSub", sub? =>
      if !l.operands.isEmpty then l.fault .endSubShape
      else
        match sub? with
        | none => .error (.unmatched l.pos "endSub")
        | some sub => do
          let others ← cut seen none rest
          return { others with subs := (sub.name, sub.lines) :: others.subs }
    | _, some sub => cut seen (some { sub with lines := sub.lines ++ [l] }) rest
    | _, none => do
      let others ← cut seen none rest
      return { others with main := l :: others.main }

end CutLines

namespace ScriptUnit

/-- Compiles sub-scripts in order. -/
def compileSubs (c : Compiler) :
    List (String × List SourceLine) → Except CompileError (Keyed String (List Statement))
  | [] => .ok []
  | (name, lines) :: rest => do
    let body ← c.block lines
    let others ← compileSubs c rest
    return (name, body) :: others

/-- Compiles a script text. -/
def compile (catalogue : Catalogue) (source : String) : Except CompileError ScriptUnit := do
  let lines ← SourceLine.read source
  let parts ← CutLines.cut [] none lines
  let c : Compiler := { catalogue, subs := parts.subs.map (·.1) }
  let subs ← compileSubs c parts.subs
  let body ← c.block parts.main
  return { body, subs }

end ScriptUnit

end MarkupScript
