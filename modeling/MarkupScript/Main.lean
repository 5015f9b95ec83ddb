import MarkupScript.CommandLine.Session

/-!
# The program

Gives the commands the files of the machine, new ids and the words of the command
line.
-/

namespace MarkupScript.CommandLine

/-- An error of the system with its number. -/
def systemError (code : UInt32) (details : String) : FileError :=
  match code.toNat with
  | 2 => .notFound
  | 17 => .alreadyExists
  | 20 => .notFolder
  | 21 => .isFolder
  | 36 => .nameTooLong
  | n => .other s!"{details} (os error {n})"

def fileError : IO.Error → FileError
  | .alreadyExists _ code details | .invalidArgument _ code details
  | .permissionDenied _ code details | .resourceExhausted _ code details
  | .inappropriateType _ code details | .noSuchThing _ code details
  | .interrupted _ code details | .noFileOrDirectory _ code details
  | .otherError code details | .resourceBusy code details | .resourceVanished code details
  | .unsupportedOperation code details | .hardwareFault code details
  | .unsatisfiedConstraints code details | .illegalOperation code details
  | .protocolError code details | .timeExpired code details => systemError code details
  | .unexpectedEof => .other "end of file"
  | .userError text => .other text

/-- Does something with a file and gives an error as a value. -/
def attempt {α : Type} (action : IO α) : IO (Except FileError α) := do
  match ← action.toBaseIO with
  | .ok a => return .ok a
  | .error e => return .error (fileError e)

/-- The text of a file, which has to be UTF-8. -/
def readText (path : String) : IO String := do
  match String.fromUTF8? (← IO.FS.readBinFile path) with
  | some text => return text
  | none => throw (.userError "stream did not contain valid UTF-8")

/-- The names in a folder. -/
def folderNames (path : String) : IO (List String) := do
  let folder ← IO.FS.realPath (if path = "" then "." else path)
  return (← folder.readDir).toList.map (·.fileName)

/-- The files of the machine. -/
def machineFiles : FileSystem IO where
  read path := attempt (readText path)
  write path text := attempt (IO.FS.writeFile path text)
  touch path := attempt (IO.FS.withFile path .append fun _ => pure ())
  makeFolder path := attempt (IO.FS.createDirAll path)
  names path := do
    match ← attempt (folderNames path) with
    | .ok names => return names
    | .error _ => return []

/-- Ids with random first half; the second half counts on from a random number. -/
def randomIds : IO IdSupply := do
  let bit (k : Nat) : Nat := 1 <<< k
  let front ← IO.rand 0 (bit 60 - 1)
  let back ← IO.rand 0 (bit 61 - 1)
  -- The version is 4 and the variant 2, as for ids made at random.
  let high := front / bit 12 * bit 16 + 4 * bit 12 + front % bit 12
  return { sequence := fun n => ⟨BitVec.ofNat 128 (high * bit 64 + bit 63 + (back + n) % bit 62)⟩ }

/-- What the variables of the environment say. -/
def readEnvironment : IO Environment := do
  let home ← IO.getEnv "HOME"
  let scriptDirs ← IO.getEnv "ANNOSCRIPT_SCRIPT_DIRS"
  let logFile ← IO.getEnv "ANNOSCRIPT_LOG_FILE"
  let plainText ← IO.getEnv "NO_COLOR"
  let styledText ← IO.getEnv "CLICOLOR_FORCE"
  return { home := home.filter (· ≠ ""), scriptDirs, logFile, plainText, styledText }

end MarkupScript.CommandLine

open MarkupScript.CommandLine in
def main (args : List String) : IO UInt32 := do
  let output ← session machineFiles (← readEnvironment) (← randomIds) args
  IO.print output.stdout
  IO.eprint output.stderr
  return output.exit.toUInt32
