import MarkupScript.Files.Basic
import MarkupScript.Function.Catalogue
import MarkupScript.Run.Error
import MarkupScript.Script.Error

/-!
# Errors of all stages

What can go wrong from the text of a script to the document that it edits.
-/

namespace MarkupScript

inductive ScriptError where
  | compile (e : CompileError)
  | execution (stop : Stop)
  | document (e : DocumentError)
  | registry (e : RegistryError)
  | file (e : FileError)

namespace ScriptError

def message : ScriptError → String
  | compile e => s!"compile error: {e.message}"
  | execution stop => s!"runtime error: {stop.message}"
  | document e => s!"document error: {e.message}"
  | registry e => s!"registry error: {e.message}"
  | file e => s!"IO error: {e.message}"

/-- The exit code of a command that ends with the error. -/
def exitCode : ScriptError → Nat
  | registry _ => 1
  | compile _ => 2
  | execution _ => 3
  | file _ => 4
  | document _ => 5

end ScriptError

end MarkupScript
