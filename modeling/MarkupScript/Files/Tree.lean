import MarkupScript.Files.Basic
import MarkupScript.Keyed

/-!
# Trees of files

A tree of files, as a value. A place in the tree is the list of names that leads to it
from the root. Paths start at the root or at the working folder.

* `FileTree.read`, `FileTree.write`: the operations on a tree.
* `FileTree.system` is the file system whose state is a tree.
-/

namespace MarkupScript

/-- Texts by place, and folders. A place above a file or a folder is a folder too. -/
structure FileTree where
  files : Keyed (List String) String := []
  folders : List (List String) := []
  /-- The working folder. -/
  working : List String := []
  /-- Files that stay empty, whatever is written to them. -/
  sinks : List (List String) := []
deriving DecidableEq

namespace FileTree

/-- The text of the file at a place. -/
def file? (t : FileTree) (place : List String) : Option String :=
  if t.sinks.contains place then some "" else Keyed.get? t.files place

/-- The folders that are named by the tree. -/
def namedFolders (t : FileTree) : List (List String) := t.working :: t.folders

/-- All places named by the tree. -/
def places (t : FileTree) : List (List String) :=
  Keyed.keys t.files ++ t.sinks ++ t.namedFolders

/-- Whether there is a folder at a place. -/
def isFolder (t : FileTree) (place : List String) : Bool :=
  place.isEmpty || t.namedFolders.contains place ||
    t.places.any fun other => place.isPrefixOf other && place ≠ other

/-- Makes a text that of the file at a place. -/
def insert (t : FileTree) (place : List String) (text : String) : FileTree :=
  if t.sinks.contains place then t else { t with files := Keyed.put t.files place text }

/-- Names have at most this many bytes. -/
def maxName : Nat := 255

/-- One step along a path. Nothing is above the root. -/
def step (place : List String) (part : String) : Except FileError (List String) :=
  if part = "." then .ok place
  else if part = ".." then .ok place.dropLast
  else if maxName < part.utf8ByteSize then .error .nameTooLong
  else .ok (place ++ [part])

/-- Makes sure that there is a folder at a place. -/
def enter (t : FileTree) (place : List String) : Except FileError Unit :=
  if t.isFolder place then .ok ()
  else if (t.file? place).isSome then .error .notFolder
  else .error .notFound

/-- Follows a path from a place; wherever a step starts is a folder. -/
def walk (t : FileTree) : List String → List String → Except FileError (List String)
  | place, [] => .ok place
  | place, part :: rest => do
    t.enter place
    let place ← step place part
    t.walk place rest

/-- Paths have fewer bytes than this. -/
def maxPath : Nat := 4096

/-- Where a path starts. -/
def start (t : FileTree) (path : String) : List String :=
  if FilePath.isAbsolute path then [] else t.working

/-- The pieces of a path that can be followed. -/
def route (path : String) : Except FileError (List String) :=
  if path = "" then .error .notFound
  else if maxPath ≤ path.utf8ByteSize then .error .nameTooLong
  else .ok (FilePath.parts path)

/-- The place that a path means, whether there is something or not. -/
def locate (t : FileTree) (path : String) : Except FileError (List String) := do
  t.walk (t.start path) (← route path)

/-- The text of a file. -/
def read (t : FileTree) (path : String) : Except FileError String := do
  let place ← t.locate path
  match t.file? place with
  | some text => if FilePath.endsInSlash path then .error .notFolder else .ok text
  | none => if t.isFolder place then .error .isFolder else .error .notFound

/-- The place of a file to write. A path that ends in a slash is that of a folder,
whatever its last name. -/
def target (t : FileTree) (path : String) : Except FileError (List String) := do
  let parts ← route path
  let folder ← t.walk (t.start path) parts.dropLast
  t.enter folder
  if FilePath.endsInSlash path then .error .isFolder
  else
    let place ← t.walk folder (parts.drop (parts.length - 1))
    if t.isFolder place then .error .isFolder else .ok place

/-- Makes a text that of a file. -/
def write (t : FileTree) (path text : String) : Except FileError FileTree := do
  let place ← t.target path
  return t.insert place text

/-- Makes an empty file unless there is one. -/
def touch (t : FileTree) (path : String) : Except FileError FileTree := do
  let place ← t.target path
  return if (t.file? place).isSome then t else t.insert place ""

/-- Makes the folders along a path from a place. -/
def makeFolders (t : FileTree) : List String → List String → Except FileError FileTree
  | _, [] => .ok t
  | place, part :: rest => do
    let next ← step place part
    if t.isFolder next then t.makeFolders next rest
    else if (t.file? next).isSome then
      if rest.isEmpty then .error .alreadyExists else .error .notFolder
    else makeFolders { t with folders := t.folders ++ [next] } next rest

/-- Makes a folder, and those it lies in, unless they are there. -/
def makeFolder (t : FileTree) (path : String) : Except FileError FileTree :=
  t.makeFolders (t.start path) (FilePath.parts path)

/-- The first name of a place below a folder. -/
def nameBelow? (folder place : List String) : Option String :=
  if folder.isPrefixOf place then (place.drop folder.length).head? else none

/-- The names in a folder. -/
def names (t : FileTree) (path : String) : List String :=
  match if path = "" then .ok t.working else t.locate path with
  | .ok place => (t.places.filterMap (nameBelow? place)).eraseDups
  | .error _ => []

/-- Changes the tree if that can be done. -/
def change (f : FileTree → Except FileError FileTree) : StateM FileTree (Except FileError Unit) :=
  fun t =>
    match f t with
    | .ok t => (.ok (), t)
    | .error e => (.error e, t)

/-- The file system whose state is a tree. -/
def system : FileSystem (StateM FileTree) where
  read path := fun t => (t.read path, t)
  write path text := change (·.write path text)
  touch path := change (·.touch path)
  makeFolder path := change (·.makeFolder path)
  names path := fun t => (t.names path, t)

end FileTree

end MarkupScript
