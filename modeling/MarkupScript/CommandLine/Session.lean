import MarkupScript.CommandLine.Help
import MarkupScript.CommandLine.Listing
import MarkupScript.Files.Shelf
import MarkupScript.Function.Standard
import MarkupScript.Run.Program
import MarkupScript.Run.ScriptError

/-!
# Carrying out a command line

A command reads what it needs, does its work, prints, and only then saves. If
anything goes wrong it prints the error and saves nothing.

* `Request.perform` carries out a request, `session` a whole command line.
-/

namespace MarkupScript.CommandLine

/-- What a command leaves: what it printed, and the error that ended it if one did. -/
structure Report where
  printed : String := ""
  error : Option ScriptError := none

/-- The end of a command as its caller sees it. -/
structure Output where
  exit : Nat := 0
  stdout : String := ""
  stderr : String := ""
deriving Repr, DecidableEq

/-- The output of a command. -/
def Report.output (r : Report) : Output :=
  match r.error with
  | none => { stdout := r.printed }
  | some e => { exit := e.exitCode, stdout := r.printed, stderr := s!"Error: {e.message}\n" }

section

variable {m : Type → Type} [Monad m]

/-- The scripts that a task may invoke. -/
def libraryOf (fs : FileSystem m) (env : Environment) (dirs : List String) : m Library := do
  let settings ← Settings.load fs env.home
  Library.ofSettings fs (settings.withScriptDirs dirs)

/-- Reads and compiles a script. -/
def loadProgram (fs : FileSystem m) (env : Environment) (catalogue : Catalogue) (script : String)
    (dirs : List String) : m (Except ScriptError Program) := do
  let library ← libraryOf fs env dirs
  match ← fs.read script with
  | .error e => return .error (.file e)
  | .ok source => return (Program.compile catalogue library source).mapError .compile

/-- Reads a document. -/
def loadDocument (fs : FileSystem m) (ids : IdSupply) (path : String) :
    m (Except ScriptError Document) := do
  match ← fs.read path with
  | .error e => return .error (.document (.file e.message))
  | .ok text => return (Document.parse text ids).mapError .document

/-- Saves a document, if that is asked for. -/
def saveDocument (fs : FileSystem m) (d : Document) :
    Option String → m (Except ScriptError Unit)
  | none => pure (.ok ())
  | some path => do
    let saved ← fs.write path d.print
    return saved.mapError fun e => .document (.file e.message)

/-- The variables that a task defines. -/
def RunTask.bindings (task : RunTask) : Bindings :=
  task.defines.foldl (fun b (name, value) => b.set name (.string value)) .empty

/-- What is printed of the document in the end. -/
def RunTask.finalText (task : RunTask) (d : Document) : String :=
  if task.printDocument then d.print ++ "\n" else ""

/-- Runs a script on a document. -/
def RunTask.perform (fs : FileSystem m) (env : Environment) (ids : IdSupply)
    (catalogue : Catalogue) (format : Format) (task : RunTask) : m Report := do
  match ← loadProgram fs env catalogue task.script task.scriptDirs with
  | .error e => return { error := some e }
  | .ok program =>
    match ← loadDocument fs ids task.document with
    | .error e => return { error := some e }
    | .ok d =>
      let outcome := program.run catalogue d d.root task.bindings
      let printed := format.results outcome.trace
      match outcome.stop with
      | some stop => return { printed, error := some (.execution stop) }
      | none =>
        match ← saveDocument fs outcome.document task.output with
        | .error e => return { printed, error := some e }
        | .ok () => return { printed := printed ++ task.finalText outcome.document }

/-- Compiles a script and prints what it consists of. -/
def performCheck (fs : FileSystem m) (env : Environment) (catalogue : Catalogue)
    (format : Format) (script : String) (dirs : List String) : m Report := do
  match ← loadProgram fs env catalogue script dirs with
  | .error e => return { error := some e }
  | .ok program => return { printed := format.summary program.main }

/-- Carries out a task with the standard functions. -/
def Request.perform (fs : FileSystem m) (env : Environment) (ids : IdSupply)
    (request : Request) : m Report := do
  match Catalogue.withStandard [] with
  | .error e => return { error := some (.registry e) }
  | .ok catalogue =>
    match request.task with
    | .run task => task.perform fs env ids catalogue request.format
    | .check script dirs => performCheck fs env catalogue request.format script dirs
    | .functions => return { printed := request.format.functions catalogue.descriptors }

/-- The file that a log is written to. -/
def logPath (path : String) : String :=
  let folder := FilePath.folder path
  FilePath.join (if folder = "" then "." else folder) ((FilePath.name? path).getD "annoscript.log")

/-- Makes the log file, and its folder if that is needed. -/
def openLog (fs : FileSystem m) (path : String) : m (Except FileError Unit) := do
  let path := logPath path
  match ← fs.touch path with
  | .ok () => return .ok ()
  | .error _ =>
    match ← fs.makeFolder (FilePath.folder path) with
    | .ok () => fs.touch path
    | .error e => return .error e

/-- Makes the log file of a request, if it has one. -/
def Request.openLog (fs : FileSystem m) (request : Request) : m (Except FileError Unit) :=
  match request.logFile with
  | none => pure (.ok ())
  | some path => CommandLine.openLog fs path

/-- What is printed in place of a request. -/
def Interrupt.output (env : Environment) : Interrupt → Output
  | .usage => { exit := 2, stderr := helpText env .program }
  | .help topic => { stdout := helpText env topic }
  | .version => { stdout := versionText }

/-- Carries out a command line. -/
def session (fs : FileSystem m) (env : Environment) (ids : IdSupply) (args : List String) :
    m Output := do
  match Request.parse env args with
  | .error interrupt => return interrupt.output env
  | .ok request =>
    match ← request.openLog fs with
    | .error e => return { exit := 101, stderr := s!"cannot open the log file: {e.message}\n" }
    | .ok () =>
      let report ← request.perform fs env ids
      return report.output

end

end MarkupScript.CommandLine
