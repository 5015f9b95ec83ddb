import MarkupScript.Function.Catalogue

/-!
# The standard functions

The functions that every script can use: they edit the annotations of a set one
after another, in the order of the set, and stop at the first that the document
refuses.
-/

namespace MarkupScript

/-- What is wrong with a parameter of a standard function. -/
inductive ParameterFault where
  /-- The parameter is not a set of annotations. -/
  | notASet (index : Nat) (typeName : String)
  /-- There is no such parameter. -/
  | missing (index : Nat)
  /-- The parameter has no character but blanks. -/
  | blank (what : String)
deriving Repr, DecidableEq

/-- Parameters are counted from one. -/
def ParameterFault.message : ParameterFault → String
  | notASet index typeName =>
    s!"parameter {index + 1} must be an annotation set, got a {typeName}"
  | missing index => s!"missing parameter {index + 1}"
  | blank what => s!"{what} must not be empty"

namespace Standard

/-! ## Parameters -/

def setAt (params : List Value) (index : Nat) : Except ParameterFault (List AnnotationId) :=
  match params[index]? with
  | some (.annotations ids) => .ok ids
  | some other => .error (.notASet index other.typeName)
  | none => .error (.missing index)

def textAt (params : List Value) (index : Nat) : Except ParameterFault String :=
  match params[index]? with
  | some value => .ok value.text
  | none => .error (.missing index)

def nameAt (params : List Value) (index : Nat) (what : String) :
    Except ParameterFault String :=
  match textAt params index with
  | .ok text => if Text.isBlankText text then .error (.blank what) else .ok text
  | .error fault => .error fault

/-- Goes on with a parameter, or fails with what is wrong with it. -/
def given {α : Type} (parameter : Except ParameterFault α) : Editing α :=
  match parameter with
  | .ok value => pure value
  | .error fault => throw (.invalidParameters fault.message)

/-! ## Edits of a set -/

/-- Does an edit of one annotation, and counts it if it counts. -/
def editOne (edit : Document → AnnotationId → Except DocumentError (Document × Bool))
    (id : AnnotationId) : Editing Nat := fun d =>
  match edit d id with
  | .ok (d, counts) => .ok (if counts then 1 else 0) d
  | .error e => .error (.document e.message) d

/-- Does an edit of each annotation in turn, and gives how many counted. -/
def editEach (edit : Document → AnnotationId → Except DocumentError (Document × Bool)) :
    List AnnotationId → Editing Nat
  | [] => pure 0
  | id :: rest => do
    let first ← editOne edit id
    let others ← editEach edit rest
    return first + others

/-- An edit that always counts. -/
def counted (edit : Document → AnnotationId → Except DocumentError Document)
    (d : Document) (id : AnnotationId) : Except DocumentError (Document × Bool) :=
  (edit d id).map fun d => (d, true)

/-! ## The functions -/

def target : Parameter :=
  { name := "target", type := .annotationSet, description := "annotations to edit" }

def scalar (name description : String) : Parameter :=
  { name, type := .scalar, description }

def rename : Function where
  descriptor :=
    { name := "rename", description := "Change the type of annotations"
      params := [target, scalar "type" "new annotation type"] }
  process call := do
    let ids ← given (setAt call.params 0)
    let kind ← given (nameAt call.params 1 "type")
    let _ ← editEach (counted fun d id => d.rename call.scope id kind) ids
    return some s!"renamed {ids.length} annotation(s) to '{kind}'"

def setAttribute : Function where
  descriptor :=
    { name := "setAttribute", description := "Set an attribute on annotations"
      params := [target, scalar "name" "attribute name", scalar "value" "attribute value"] }
  process call := do
    let ids ← given (setAt call.params 0)
    let name ← given (nameAt call.params 1 "attribute name")
    let value ← given (textAt call.params 2)
    let _ ← editEach (counted fun d id => d.setAttribute call.scope id name value) ids
    return some s!"set {name}='{value}' on {ids.length} annotation(s)"

/-- Only annotations that have the attribute count. -/
def removeAttribute : Function where
  descriptor :=
    { name := "removeAttribute", description := "Remove an attribute from annotations"
      params := [target, scalar "name" "attribute name"] }
  process call := do
    let ids ← given (setAt call.params 0)
    let name ← given (nameAt call.params 1 "attribute name")
    let remove (d : Document) (id : AnnotationId) :=
      (d.removeAttribute call.scope id name).map fun after =>
        (after, (d.attribute? call.scope id name).isSome)
    let removed ← editEach remove ids
    return some s!"removed {name} from {removed} annotation(s)"

/-- Annotations without the source attribute are passed over. -/
def copyAttribute : Function where
  descriptor :=
    { name := "copyAttribute", description := "Copy an attribute's value to another attribute"
      params := [target, scalar "from" "source attribute", scalar "to" "destination attribute"] }
  process call := do
    let ids ← given (setAt call.params 0)
    let source ← given (nameAt call.params 1 "source attribute")
    let destination ← given (nameAt call.params 2 "destination attribute")
    let copy (d : Document) (id : AnnotationId) :=
      match d.attribute? call.scope id source with
      | some value => counted (fun d id => d.setAttribute call.scope id destination value) d id
      | none => .ok (d, false)
    let copied ← editEach copy ids
    return some s!"copied {source} to {destination} on {copied} annotation(s)"

def delete : Function where
  descriptor :=
    { name := "delete", description := "Remove annotations, moving their children up"
      params := [target] }
  process call := do
    let ids ← given (setAt call.params 0)
    let _ ← editEach (counted fun d id => d.delete call.scope id) ids
    return some s!"deleted {ids.length} annotation(s)"

def annotate : Function where
  descriptor :=
    { name := "annotate", description := "Wrap annotations in a new annotation"
      params := [target, scalar "type" "type of the new annotation"] }
  process call := do
    let ids ← given (setAt call.params 0)
    let kind ← given (nameAt call.params 1 "type")
    let wrap (d : Document) (id : AnnotationId) := (·.2) <$> d.wrap call.scope id kind
    let _ ← editEach (counted wrap) ids
    return some s!"annotated {ids.length} annotation(s) as '{kind}'"

def print : Function where
  descriptor :=
    { name := "print", description := "Add a line to the result trace"
      params := [scalar "value" "text to print"] }
  process call := do
    let text ← given (textAt call.params 0)
    return some text

/-- The standard functions in their order. -/
def functions : List Function :=
  [rename, setAttribute, removeAttribute, copyAttribute, delete, annotate, print]

end Standard

/-- A catalogue of the standard functions and others registered after them. -/
def Catalogue.withStandard (others : List Function) : Except RegistryError Catalogue :=
  match Catalogue.registerAll (Standard.functions ++ others) .empty with
  | .ok _ c => .ok c
  | .error e _ => .error e

end MarkupScript
