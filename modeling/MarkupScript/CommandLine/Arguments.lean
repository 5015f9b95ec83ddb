import MarkupScript.Text.Blank
import MarkupScript.Text.Search

/-!
# Command-line arguments

A command line names a task with its options. Options stand before or after the
operand of a task; those for all tasks may stand before the task too. An option that
takes a value has it in the same word (`--name=value`, `-nvalue`, `-n=value`) or in
the next, which then does not start with a dash unless it is a dash. After `--` there
are operands only.

A value in a word of its own is looked at when the next option or operand comes, or at
the end. So it does not stand in the way of a question for help after the name of a task.

* `Request.parse` reads the words of a command line.
-/

namespace MarkupScript.CommandLine

/-- How results are printed. -/
inductive Format where
  | text
  | json
deriving Repr, DecidableEq

/-- What is taken from the variables of the environment. -/
structure Environment where
  /-- The home folder. -/
  home : Option String := none
  /-- Folders searched for scripts, with colons between them. -/
  scriptDirs : Option String := none
  logFile : Option String := none
  /-- Text is not to be styled, unless this is empty. -/
  plainText : Option String := none
  /-- Text is to be styled, unless this is empty. -/
  styledText : Option String := none
deriving Repr, DecidableEq

/-- Whether texts for the user are styled. -/
def Environment.isStyled (env : Environment) : Bool :=
  env.plainText.getD "" = "" && env.styledText.getD "" ≠ ""

/-- A script to run on a document. -/
structure RunTask where
  script : String
  document : String
  /-- Where the edited document is saved. -/
  output : Option String := none
  /-- Whether the edited document is printed. -/
  printDocument : Bool := false
  /-- Variables with their values, in the order given. -/
  defines : List (String × String) := []
  /-- Folders searched for scripts before those of the settings. -/
  scriptDirs : List String := []
deriving Repr, DecidableEq

/-- What is to be done. -/
inductive Task where
  /-- Runs a script on a document. -/
  | run (task : RunTask)
  /-- Compiles a script. -/
  | check (script : String) (scriptDirs : List String)
  /-- Lists the functions. -/
  | functions
deriving Repr, DecidableEq

/-- A command line that could be read. -/
structure Request where
  format : Format := .text
  logFile : Option String := none
  task : Task
deriving Repr, DecidableEq

/-- The name of a task. -/
inductive TaskName where
  | run
  | check
  | functions
deriving Repr, DecidableEq

def TaskName.ofWord? : String → Option TaskName
  | "run" => some run
  | "check" => some check
  | "functions" => some functions
  | _ => none

/-- What help is asked about. -/
inductive Topic where
  /-- The whole command line. -/
  | program
  | task (name : TaskName)
  /-- The word `help` itself. -/
  | help
deriving Repr, DecidableEq

def Topic.ofWord? (word : String) : Option Topic :=
  if word = "help" then some help else (TaskName.ofWord? word).map task

/-- Why a command line is no request. -/
inductive Interrupt where
  /-- It is not well formed. -/
  | usage
  /-- It asks for help. -/
  | help (topic : Topic)
  /-- It asks for the version. -/
  | version
deriving Repr, DecidableEq

/-! ## Options -/

inductive OptionKey where
  | format
  | logFile
  | document
  | output
  | printDocument
  | define
  | scriptDir
  | help
  | version
deriving Repr, DecidableEq

namespace OptionKey

/-- The name after two dashes. -/
def long : OptionKey → String
  | format => "format"
  | logFile => "log-file"
  | document => "document"
  | output => "output"
  | printDocument => "print-document"
  | define => "define"
  | scriptDir => "script-dir"
  | help => "help"
  | version => "version"

/-- The letter after one dash. -/
def short? : OptionKey → Option Char
  | format => some 'f'
  | document => some 'd'
  | output => some 'o'
  | define => some 'D'
  | help => some 'h'
  | version => some 'V'
  | logFile | printDocument | scriptDir => none

def takesValue : OptionKey → Bool
  | printDocument | help | version => false
  | _ => true

/-- Whether an option may be given several times. -/
def repeats : OptionKey → Bool
  | define | scriptDir => true
  | _ => false

/-- The options before the task. -/
def general : List OptionKey := [format, logFile, help, version]

/-- The options after the name of a task. -/
def ofTask : TaskName → List OptionKey
  | .run => [format, logFile, help, document, output, printDocument, define, scriptDir]
  | .check => [format, logFile, help, scriptDir]
  | .functions => [format, logFile, help]

end OptionKey

/-! ## Values -/

def Format.ofWord? : String → Option Format
  | "text" => some text
  | "json" => some json
  | _ => none

/-- A path; it is not empty. -/
def path? (word : String) : Option String := if word = "" then none else some word

/-- Paths with colons between them. -/
def paths? (word : String) : Option (List String) := (word.splitOn ":").mapM path?

/-- A variable and its value, from `name=value`. Dollar signs before the name may be
left out. -/
def define? (word : String) : Option (String × String) := do
  let (name, value) ← Text.splitOnce? ['='] word.toList
  match (Text.trimChars name).dropWhile (· = '$') with
  | [] => none
  | name => some (String.ofList ('$' :: name), String.ofList value)

/-- Whether an option may have a value. -/
def OptionKey.accepts (key : OptionKey) (value : String) : Bool :=
  match key with
  | format => (Format.ofWord? value).isSome
  | logFile | document | output => (path? value).isSome
  | define => (define? value).isSome
  | scriptDir => (paths? value).isSome
  | printDocument | help | version => true

/-! ## Words -/

/-- What was read from words: options with their values, and operands, in order. -/
structure Words where
  options : List (OptionKey × String) := []
  operands : List String := []
  /-- The option that was read last, if its value has not been looked at. -/
  pending : Option (OptionKey × String) := none
deriving Repr, DecidableEq

namespace Words

/-- The values of an option. -/
def values (w : Words) (key : OptionKey) : List String :=
  w.options.filterMap fun o => if o.1 = key then some o.2 else none

def value? (w : Words) (key : OptionKey) : Option String := (w.values key).head?

def has (w : Words) (key : OptionKey) : Bool := w.options.any (·.1 = key)

/-- Adds an option. Its value has to fit, and most options are given once. -/
def add (w : Words) (key : OptionKey) (value : String) : Except Interrupt Words :=
  if !key.accepts value || (w.has key && !key.repeats) then .error .usage
  else .ok { w with options := w.options ++ [(key, value)] }

/-- Adds the pending option. -/
def settle (w : Words) : Except Interrupt Words :=
  match w.pending with
  | none => .ok w
  | some (key, value) => { w with pending := none }.add key value

/-- Takes an option whose value is in the next word. -/
def postpone (w : Words) (key : OptionKey) (value : String) : Except Interrupt Words := do
  let w ← w.settle
  return { w with pending := some (key, value) }

/-- Takes an option whose value is in the same word, or that has none. Help and version
end the reading. -/
def option (w : Words) (topic : Topic) (key : OptionKey) (value : String) :
    Except Interrupt Words := do
  let w ← w.settle
  match key with
  | .help => .error (.help topic)
  | .version => .error .version
  | key => w.add key value

/-- Takes an operand; a task has at most `room`. -/
def operand (w : Words) (room : Nat) (value : String) : Except Interrupt Words := do
  let w ← w.settle
  if value = "" || room ≤ w.operands.length then .error .usage
  else .ok { w with operands := w.operands ++ [value] }

end Words

/-- A word by its form. -/
inductive WordForm where
  /-- Two dashes alone. -/
  | separator
  /-- Two dashes and a name, with a value or without. -/
  | long (name : String) (value : Option String)
  /-- A dash and a letter, with what comes after it. -/
  | short (letter : Char) (rest : String)
  | plain
deriving Repr, DecidableEq

def WordForm.ofWord (word : String) : WordForm :=
  match word.toList with
  | ['-', '-'] => separator
  | '-' :: '-' :: rest =>
    match Text.splitOnce? ['='] rest with
    | some (name, value) => long (String.ofList name) (some (String.ofList value))
    | none => long (String.ofList rest) none
  | '-' :: letter :: rest => short letter (String.ofList rest)
  | _ => plain

/-- The value in the same word as a short option. -/
def attached? (rest : String) : Option String :=
  match rest.toList with
  | [] => none
  | '=' :: value => some (String.ofList value)
  | _ => some rest

/-- An option found in a word, with its value if the word has one. -/
def findOption (keys : List OptionKey) :
    WordForm → Except Interrupt (Option (OptionKey × Option String))
  | .long name value =>
    match keys.find? (·.long = name) with
    | some key => if value.isSome && !key.takesValue then .error .usage else .ok (some (key, value))
    | none => .error .usage
  | .short letter rest =>
    match keys.find? (·.short? = some letter) with
    | some key => .ok (some (key, attached? rest))
    | none => .error .usage
  | _ => .ok none

/-- Reads words with these options. Stops at the first word that is no option and names
a task, if a task is looked for, and gives the words from there on. -/
def readWords (keys : List OptionKey) (topic : Topic) (room : Nat)
    (stopAt : String → Bool) : Words → List String → Except Interrupt (Words × List String)
  | w, [] => .ok (w, [])
  | w, word :: rest =>
    match WordForm.ofWord word with
    | .separator => do
      let w ← rest.foldlM (fun w value => w.operand room value) w
      return (w, [])
    | .plain =>
      if stopAt word then .ok (w, word :: rest)
      else do
        let w ← w.operand room word
        readWords keys topic room stopAt w rest
    | form => do
      match ← findOption keys form with
      | none => .error .usage
      | some (key, some value) =>
        let w ← w.option topic key value
        readWords keys topic room stopAt w rest
      | some (key, none) =>
        if key.takesValue then
          match rest with
          | value :: rest =>
            if WordForm.ofWord value = .plain then
              let w ← w.postpone key value
              readWords keys topic room stopAt w rest
            else .error .usage
          | [] => .error .usage
        else
          let w ← w.option topic key ""
          readWords keys topic room stopAt w rest

/-! ## Requests -/

/-- The folders for scripts: those given, or else those of the environment. -/
def scriptDirs (env : Environment) (w : Words) : Except Interrupt (List String) :=
  let words := match w.values .scriptDir, env.scriptDirs with
    | [], some word => [word]
    | words, _ => words
  match words.mapM paths? with
  | some dirs => .ok dirs.flatten
  | none => .error .usage

/-- The task that words after its name describe. -/
def taskOf (env : Environment) (name : TaskName) (w : Words) : Except Interrupt Task :=
  match name, w.operands with
  | .run, [script] => do
    let some document := w.value? .document | .error .usage
    let scriptDirs ← scriptDirs env w
    return .run
      { script, document, output := w.value? .output, printDocument := w.has .printDocument,
        defines := (w.values .define).filterMap define?, scriptDirs }
  | .check, [script] => do
    let scriptDirs ← scriptDirs env w
    return .check script scriptDirs
  | .functions, [] => .ok .functions
  | _, _ => .error .usage

/-- Checks the log file of the environment. It counts wherever none is given. -/
def checkLogFile (env : Environment) (general own : Words) : Except Interrupt Unit :=
  if env.logFile = some "" && !(general.has .logFile && own.has .logFile) then .error .usage
  else .ok ()

/-- What the words after `help` ask for. -/
def helpTopic : List String → Interrupt
  | [] => .help .program
  | [word] => ((Topic.ofWord? word).map Interrupt.help).getD .usage
  | _ => .usage

/-- Whether a word is the name of a task or asks for help. -/
def isTaskWord (word : String) : Bool := (Topic.ofWord? word).isSome

/-- Reads a command line. Of an option for all tasks, what stands after the name of the
task comes first. -/
def Request.parse (env : Environment) (args : List String) : Except Interrupt Request := do
  let (general, rest) ← readWords OptionKey.general .program 0 isTaskWord {} args
  match rest with
  | [] => .error .usage
  | word :: rest =>
    match TaskName.ofWord? word with
    | none => .error (helpTopic rest)
    | some name =>
      let room := if name = .functions then 0 else 1
      let (own, _) ← readWords (OptionKey.ofTask name) (.task name) room (fun _ => false) {} rest
      let own ← own.settle
      let general ← general.settle
      let task ← taskOf env name own
      checkLogFile env general own
      let format := (own.value? .format).or (general.value? .format)
      let logFile := (own.value? .logFile).or (general.value? .logFile)
      return { format := (format.bind Format.ofWord?).getD .text,
               logFile := logFile.or env.logFile, task }

end MarkupScript.CommandLine
