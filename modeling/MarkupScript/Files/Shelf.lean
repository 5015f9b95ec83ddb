import MarkupScript.Library
import MarkupScript.Settings

/-!
# Folders of scripts

A folder is a shelf of scripts: the script `name` is the file with that name and the
ending of scripts. Names are never paths, and none starts with a dot.

* `Library.ofSettings` is the library of the folders in settings.
-/

namespace MarkupScript

namespace Shelf

/-- Whether a name can be that of a script in a folder. -/
def isPlain (name : String) : Bool :=
  !name.toList.contains '/' && !name.toList.contains '\\' && name.toList.head? ≠ some '.'

/-- The ending of script files with its dot; none if the extension is empty. -/
def ending (extension : String) : String := if extension = "" then "" else "." ++ extension

/-- The name of the script that a name in a folder belongs to. If the extension goes
through a folder, the name in the folder ends where the extension has a slash. -/
def nameOf? (extension entry : String) : Option String :=
  let last := (ending extension).toList.takeWhile (· ≠ '/')
  if last.isSuffixOf entry.toList then
    let name := String.ofList (entry.toList.take (entry.toList.length - last.length))
    if isPlain name then some name else none
  else none

variable {m : Type → Type} [Monad m]

/-- The scripts of these names that can be read in a folder. -/
def ofNames (fs : FileSystem m) (extension folder : String) : List String → m Shelf
  | [] => pure []
  | name :: rest => do
    let text ← fs.read (FilePath.join folder (name ++ ending extension))
    let others ← ofNames fs extension folder rest
    match text with
    | .ok text => return (name, text) :: others
    | .error _ => return others

/-- The scripts in a folder. The empty name is tried in any case: with an extension
that has a slash, its path may lead through the folder itself or the one above. -/
def ofFolder (fs : FileSystem m) (extension folder : String) : m Shelf := do
  let entries ← fs.names folder
  ofNames fs extension folder ("" :: entries.filterMap (nameOf? extension)).eraseDups

end Shelf

/-- The library of the folders in settings. -/
def Library.ofSettings {m : Type → Type} [Monad m] (fs : FileSystem m) (s : Settings) :
    m Library :=
  s.scriptDirs.mapM (Shelf.ofFolder fs s.extension)

end MarkupScript
