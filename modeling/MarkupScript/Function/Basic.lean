import MarkupScript.Bindings
import MarkupScript.Document.Edit

/-!
# Functions

A function has a name, a list of parameters, and something that it does to a
document. A scalar parameter takes one value, a set parameter a whole set of
annotations. One name may belong to several functions with different numbers of
parameters.
-/

namespace MarkupScript

/-- What a parameter takes. -/
inductive ParameterType where
  /-- One value. -/
  | scalar
  /-- A set of annotations as a whole. -/
  | annotationSet
deriving Repr, DecidableEq

/-- The name of a type of parameter. -/
def ParameterType.name : ParameterType → String
  | scalar => "scalar"
  | annotationSet => "annotation set"

/-- A parameter of a function. -/
structure Parameter where
  name : String
  type : ParameterType
  description : String := ""
deriving Repr, DecidableEq

/-- The name and the parameters of a function. -/
structure Descriptor where
  name : String
  description : String := ""
  params : List Parameter
deriving Repr, DecidableEq

namespace Descriptor

def arity (d : Descriptor) : Nat := d.params.length

/-- The name with the parameters after it. -/
def usage (d : Descriptor) : String :=
  d.params.foldl (fun text p => text ++ s!" <{p.name}>") d.name

end Descriptor

/-- Why a function fails. -/
inductive FunctionError where
  /-- The values do not make a valid combination. -/
  | invalidParameters (message : String)
  /-- The document refused the edit. -/
  | document (message : String)
deriving Repr, DecidableEq

def FunctionError.message : FunctionError → String
  | invalidParameters message => s!"invalid parameters: {message}"
  | document message => s!"document error: {message}"

/-- What a function is given: the scope it works in, one value for each parameter,
and the bindings of the call. -/
structure Call where
  scope : AnnotationId
  params : List Value
  bindings : Bindings

/-- A change of a document that may fail. What was done before a failure stays. -/
abbrev Editing := EStateM FunctionError Document

/-- A function: it does something to the document and gives a line for the trace, or
none. -/
structure Function where
  descriptor : Descriptor
  process : Call → Editing (Option String)

end MarkupScript
