/-!
# Files

What a command does with files: it reads and writes them as whole texts, lists
folders and makes folders. A file system offers these in some monad.
-/

namespace MarkupScript

/-- Why something cannot be done with a file. -/
inductive FileError where
  | notFound
  | alreadyExists
  | notFolder
  | isFolder
  | nameTooLong
  /-- Something else, as the system words it. -/
  | other (text : String)
deriving Repr, DecidableEq

def FileError.message : FileError → String
  | notFound => "No such file or directory (os error 2)"
  | alreadyExists => "File exists (os error 17)"
  | notFolder => "Not a directory (os error 20)"
  | isFolder => "Is a directory (os error 21)"
  | nameTooLong => "File name too long (os error 36)"
  | other text => text

/-- What can be done with files, in a monad. Paths are relative to the working
folder or absolute. -/
structure FileSystem (m : Type → Type) where
  /-- The text of a file. -/
  read : String → m (Except FileError String)
  /-- Makes a text that of a file, new or not. -/
  write : String → String → m (Except FileError Unit)
  /-- Makes an empty file unless there is one. -/
  touch : String → m (Except FileError Unit)
  /-- Makes a folder, and those it lies in, unless they are there. -/
  makeFolder : String → m (Except FileError Unit)
  /-- The names in a folder; none if it cannot be read. -/
  names : String → m (List String)

namespace FilePath

/-- The pieces of a path between slashes, empty ones left out. -/
def parts (path : String) : List String :=
  ((path.toList.splitOn '/').map String.ofList).filter (· ≠ "")

def isAbsolute (path : String) : Bool := path.toList.head? = some '/'

def endsInSlash (path : String) : Bool := path.toList.getLast? = some '/'

/-- The path of a name in a folder. -/
def join (folder name : String) : String :=
  if isAbsolute name then name
  else if folder = "" || endsInSlash folder then folder ++ name
  else folder ++ "/" ++ name

/-- Pieces without those that mean the folder itself, a first one of a relative path
apart. -/
def plainParts (path : String) : List String :=
  match isAbsolute path, parts path with
  | false, "." :: rest => "." :: rest.filter (· ≠ ".")
  | _, parts => parts.filter (· ≠ ".")

/-- The folder of a path: all but its last piece. The root lies in none. -/
def folder (path : String) : String :=
  let pieces := plainParts path
  let front := "/".intercalate pieces.dropLast
  if isAbsolute path && !pieces.isEmpty then "/" ++ front else front

/-- The name that a path ends in, if its last piece is a name. -/
def name? (path : String) : Option String :=
  match (plainParts path).getLast? with
  | some "." | some ".." | none => none
  | some name => some name

end FilePath

end MarkupScript
