import MarkupScript.CommandLine.Arguments
import MarkupScript.Text.Terminal

/-!
# Help and version

The texts for a user who asks how the command line is written. Words that are written as
they stand are in bold letters; without styles the same text is shown plain.
-/

namespace MarkupScript.CommandLine

/-- The line that names the program and its version. -/
def versionText : String := "annoscript 0.1.0\n"

def blanks (n : Nat) : String := String.ofList (List.replicate n ' ')

/-- Starts the lines of a text after the first with blanks. -/
def hang (indent : Nat) (text : String) : String :=
  ("\n" ++ blanks indent).intercalate (text.splitOn "\n")

/-- How many characters of a styled text are shown. -/
def shownWidth (text : String) : Nat := (Text.plain text).length

/-- Two columns: a term and what it means. -/
def columns (rows : List (String × String)) : List String :=
  let width := rows.foldl (fun width row => max width (shownWidth row.1)) 0
  rows.map fun (term, meaning) =>
    "  " ++ term ++ blanks (width - shownWidth term + 2) ++ hang (width + 4) meaning

/-- How a variable of the environment is set. -/
def shownVariable (name : String) (value : Option String) : String :=
  let value := value.getD ""
  s!" [env: {name}={value}]"

/-! ## Options -/

/-- What stands for the value of an option. -/
def OptionKey.placeholder? : OptionKey → Option String
  | format => some "<FORMAT>"
  | logFile => some "<LOG_FILE>"
  | document => some "<DOCUMENT>"
  | output => some "<OUTPUT>"
  | define => some "<DEFINES>"
  | scriptDir => some "<DIRS>"
  | printDocument | help | version => none

/-- An option as it is written, by its long name. -/
def OptionKey.longTerm (key : OptionKey) : String :=
  Text.bold ("--" ++ key.long) ++
    match key.placeholder? with
    | some value => " " ++ value
    | none => ""

/-- An option as it is written, by both names. -/
def OptionKey.term (key : OptionKey) : String :=
  match key.short? with
  | some letter => Text.bold (String.ofList ['-', letter]) ++ ", " ++ key.longTerm
  | none => blanks 4 ++ key.longTerm

def OptionKey.meaning (env : Environment) : OptionKey → String
  | format => "Output format: text or json [default: text] [possible values: text, json]"
  | logFile =>
    "Write logs to this file instead of stderr" ++ shownVariable "ANNOSCRIPT_LOG_FILE" env.logFile
  | document => "JSON document to edit"
  | output => "Write the edited document to this path"
  | printDocument => "Print the edited document to stdout after the results"
  | define => "Predefine a variable, as NAME=VALUE"
  | scriptDir =>
    "Directory searched for scripts named by `call` and `include`" ++
      shownVariable "ANNOSCRIPT_SCRIPT_DIRS" env.scriptDirs
  | help => "Print help"
  | version => "Print version"

def TaskName.about : TaskName → String
  | run => "Compile a script and run it against a document"
  | check => "Compile a script without running it"
  | functions => "List the registered editing functions"

/-- What the word `help` is for. -/
def helpAbout : String := "Print this message or the help of the given subcommand(s)"

/-- The options of a topic in the order in which they are listed. -/
def listedOptions : Topic → List OptionKey
  | .program => [.format, .logFile, .help, .version]
  | .task .run =>
    [.document, .format, .logFile, .output, .printDocument, .define, .scriptDir, .help]
  | .task .check => [.format, .scriptDir, .logFile, .help]
  | .task .functions => [.format, .logFile, .help]
  | .help => []

/-- The tasks, as listed. -/
def listedTasks : List (String × String) :=
  [(Text.bold "run", TaskName.run.about), (Text.bold "check", TaskName.check.about),
    (Text.bold "functions", TaskName.functions.about), (Text.bold "help", helpAbout)]

/-- A part of a help text: a title over its lines. Without lines there is none. -/
def titled (title : String) (lines : List String) : List String :=
  if lines.isEmpty then [] else ["", Text.heading title] ++ lines

/-- What help starts with: what something is for and how it is written, which are the
words as they stand and what follows them. -/
def usageHead (about words following : String) : List String :=
  [about, "", Text.heading "Usage:" ++ " " ++ Text.bold words ++ " " ++ following]

/-- The operand of a task that works on a script. -/
def scriptOperand : List String := columns [("<SCRIPT>", "Path to the script file")]

/-- What the lines before the options say. -/
def helpHead : Topic → List String
  | .program =>
    usageHead "Compile and run annoscript batch edit scripts" "annoscript" "[OPTIONS] <COMMAND>" ++
      titled "Commands:" (columns listedTasks)
  | .task .run =>
    usageHead TaskName.run.about "annoscript run"
        ("[OPTIONS] " ++ OptionKey.document.longTerm ++ " <SCRIPT>") ++
      titled "Arguments:" scriptOperand
  | .task .check =>
    usageHead TaskName.check.about "annoscript check" "[OPTIONS] <SCRIPT>" ++
      titled "Arguments:" scriptOperand
  | .task .functions => usageHead TaskName.functions.about "annoscript functions" "[OPTIONS]"
  | .help =>
    usageHead helpAbout "annoscript help" "[COMMAND]..." ++
      titled "Arguments:" (columns [("[COMMAND]...", "Print help for the subcommand(s)")])

/-- The help on a topic with its styles. -/
def styledHelp (env : Environment) (topic : Topic) : String :=
  let rows := (listedOptions topic).map fun key => (key.term, key.meaning env)
  "\n".intercalate (helpHead topic ++ titled "Options:" (columns rows)) ++ "\n"

/-- The help on a topic. -/
def helpText (env : Environment) (topic : Topic) : String :=
  if env.isStyled then styledHelp env topic else Text.plain (styledHelp env topic)

end MarkupScript.CommandLine
