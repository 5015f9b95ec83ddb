import MarkupScript.Library
import MarkupScript.Script.Unit

/-!
# Compiling a program

The library scripts that a script invokes are compiled with it, each once. A script
that needs itself, through whatever other scripts, is refused.

* `Program.compile` compiles a text with all that it needs of a library.
-/

namespace MarkupScript.Program

/-- Adds a library script, and with `link` all that it needs, to those compiled. `active`
are the names of the scripts being compiled around it. -/
def add (catalogue : Catalogue) (find? : String → Option String)
    (link : List String → ScriptUnit → Keyed String ScriptUnit →
      Except CompileError (Keyed String ScriptUnit))
    (active : List String) (units : Keyed String ScriptUnit) (i : Invocation) :
    Except CompileError (Keyed String ScriptUnit) :=
  if Keyed.has units i.name then .ok units
  else if active.contains i.name then .error (.cyclic i.line i.kind i.name)
  else
    match find? i.name with
    | none => .error (.unresolved i.line i.kind i.name)
    | some text =>
      let linked : Except CompileError (Keyed String ScriptUnit) := do
        let inner ← ScriptUnit.compile catalogue text
        let units ← link (i.name :: active) inner units
        return Keyed.put units i.name inner
      linked.mapError (·.within i)

/-- Adds the library scripts that a unit needs to those compiled, where scripts may need
each other to a depth. At the bottom none may be needed. -/
def link (catalogue : Catalogue) (find? : String → Option String) :
    Nat → List String → ScriptUnit → Keyed String ScriptUnit →
      Except CompileError (Keyed String ScriptUnit)
  | 0, _, unit, units =>
    match unit.externals with
    | [] => .ok units
    | i :: _ => .error (.unresolved i.line i.kind i.name)
  | depth + 1, active, unit, units =>
    unit.externals.foldlM (add catalogue find? (link catalogue find? depth) active) units

/-- Compiles a script text with all that it needs of the scripts that `find?` knows,
where these may need each other to a depth. -/
def compileWith (catalogue : Catalogue) (find? : String → Option String) (depth : Nat)
    (source : String) : Except CompileError Program := do
  let main ← ScriptUnit.compile catalogue source
  let units ← link catalogue find? depth [] main []
  return { main, units }

/-- Compiles a script text with all that it needs of a library. Scripts that are being
compiled inside each other have different names, so the number of names is depth
enough. -/
def compile (catalogue : Catalogue) (library : Library) (source : String) :
    Except CompileError Program :=
  compileWith catalogue library.find? (library.names.length + 1) source

end MarkupScript.Program
