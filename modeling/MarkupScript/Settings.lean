import MarkupScript.Files.Basic
import MarkupScript.Json.Reader
import MarkupScript.Json.Writer

/-!
# Settings

The settings of a user: where scripts are searched, and how their files end. They are
stored in the home folder. What cannot be read counts as the default.

* `Settings.load` and `Settings.save` read and write them.
-/

namespace MarkupScript

structure Settings where
  /-- Folders searched for scripts, in order. -/
  scriptDirs : List String := []
  /-- The ending of script files, without the dot. -/
  extension : String := "ans"
deriving Repr, DecidableEq

namespace Settings

/-- Puts folders before those of the settings. -/
def withScriptDirs (s : Settings) (dirs : List String) : Settings :=
  { s with scriptDirs := dirs ++ s.scriptDirs }

/-! ## Text -/

def readDirs? : Option Json → Option (List String)
  | none => some []
  | some json => json.array?.bind fun items => items.mapM Json.string?

def readExtension? : Option Json → Option String
  | none => some "ans"
  | some json => json.string?

def ofJson? (json : Json) : Option Settings :=
  match Json.record? ["script_dirs", "extension"] json with
  | some [dirs, extension] => do
    let scriptDirs ← readDirs? dirs
    let extension ← readExtension? extension
    return { scriptDirs, extension }
  | _ => none

def toJson (s : Settings) : Json :=
  .object [("script_dirs", .array (s.scriptDirs.map .string)), ("extension", .string s.extension)]

/-- Reads the text of settings. -/
def parse? (text : String) : Option Settings := (Json.parse? text).bind ofJson?

/-- Writes the text of settings. -/
def print (s : Settings) : String := s.toJson.pretty

/-! ## Files -/

/-- The folder of the settings below the home folder. -/
def folder (home : String) : String := FilePath.join home ".annoscript"

def path (home : String) : String := FilePath.join (folder home) "config.json"

variable {m : Type → Type} [Monad m]

/-- The settings in the home folder, if there is one. -/
def load (fs : FileSystem m) : Option String → m Settings
  | none => pure {}
  | some home => do
    match ← fs.read (path home) with
    | .ok text => return (parse? text).getD {}
    | .error _ => return {}

/-- Stores settings in the home folder. -/
def save (fs : FileSystem m) (home : String) (s : Settings) : m (Except FileError Unit) := do
  match ← fs.makeFolder (folder home) with
  | .error e => return .error e
  | .ok () => fs.write (path home) s.print

end Settings

end MarkupScript
