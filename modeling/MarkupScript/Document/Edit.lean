import MarkupScript.Document.Basic

/-!
# Edits of a document

Annotations in the scope can be renamed, given other attributes or another value,
deleted, and wrapped in a new annotation. The children of a deleted annotation take
its place. The root of the document can be neither deleted nor wrapped.

* `Document.apply` does one `Edit`, so that a sequence of edits is a list.
-/

namespace MarkupScript

namespace Table

/-- Changes the entry of an annotation. -/
def update (table : Table) (id : AnnotationId) (f : Entry → Entry) : Table :=
  table.map fun row => if row.1 = id then (row.1, f row.2) else row

/-- Makes `parent` the parent of some annotations. -/
def adopt (table : Table) (parent : AnnotationId) (ids : List AnnotationId) : Table :=
  table.map fun row =>
    if row.1 ∈ ids then (row.1, { row.2 with parent := some parent }) else row

/-- Puts `replacement` in the place of `id`. -/
def splice (id : AnnotationId) (replacement : List AnnotationId) :
    List AnnotationId → List AnnotationId
  | [] => []
  | other :: rest =>
    if other = id then replacement ++ rest else other :: splice id replacement rest

/-- Puts `replacement` in the place of `id` among the children of `parent`. -/
def replaceChild (table : Table) (parent id : AnnotationId) (replacement : List AnnotationId) :
    Table :=
  table.update parent fun entry =>
    { entry with children := splice id replacement entry.children }

end Table

namespace Document

/-- Changes the entry of an annotation in the scope. -/
def updateEntry (d : Document) (scope id : AnnotationId) (f : Entry → Entry) :
    Except DocumentError Document :=
  match d.entry? scope id with
  | some _ => .ok { d with table := d.table.update id f }
  | none => .error (.unknownId id)

/-- Gives an annotation another type. -/
def rename (d : Document) (scope id : AnnotationId) (kind : String) :
    Except DocumentError Document :=
  d.updateEntry scope id fun entry => { entry with kind }

/-- Sets an attribute. One that is there keeps its place. -/
def setAttribute (d : Document) (scope id : AnnotationId) (name value : String) :
    Except DocumentError Document :=
  d.updateEntry scope id fun entry =>
    { entry with attributes := Keyed.put entry.attributes name value }

/-- Removes an attribute. -/
def removeAttribute (d : Document) (scope id : AnnotationId) (name : String) :
    Except DocumentError Document :=
  d.updateEntry scope id fun entry =>
    { entry with attributes := Keyed.erase entry.attributes name }

/-- Gives an annotation a value of its own, or none. -/
def setValue (d : Document) (scope id : AnnotationId) (value : Option String) :
    Except DocumentError Document :=
  d.updateEntry scope id fun entry => { entry with value }

/-- The parent of an annotation that can be deleted or wrapped. -/
def editableParent (d : Document) (scope id : AnnotationId) :
    Except DocumentError AnnotationId :=
  if !d.contains scope id then .error (.unknownId id)
  else if id = d.root then .error .rootEdit
  else
    match (Keyed.get? d.table id).bind (·.parent) with
    | some parent => .ok parent
    | none => .error .rootEdit

/-- Removes an annotation and moves its children into its place. -/
def delete (d : Document) (scope id : AnnotationId) : Except DocumentError Document := do
  let parent ← d.editableParent scope id
  match Keyed.get? d.table id with
  | none => .error (.unknownId id)
  | some entry =>
    let table := Table.adopt (Keyed.erase d.table id) parent entry.children
    if Keyed.has table parent then
      return { d with table := table.replaceChild parent id entry.children }
    else .error (.unknownId parent)

/-- Puts a new annotation between an annotation and its parent, and gives its id. -/
def wrap (d : Document) (scope id : AnnotationId) (kind : String) :
    Except DocumentError (AnnotationId × Document) := do
  let parent ← d.editableParent scope id
  let (wrapper, ids) := d.ids.take
  if Keyed.has d.table parent then
    let table := (d.table.replaceChild parent id [wrapper]).adopt wrapper [id]
    let entry : Entry := { kind, parent := some parent, children := [id] }
    return (wrapper, { d with table := Keyed.put table wrapper entry, ids })
  else .error (.unknownId parent)

end Document

/-- One edit of one annotation. -/
inductive Edit where
  | rename (kind : String)
  | setAttribute (name value : String)
  | removeAttribute (name : String)
  | setValue (value : Option String)
  | delete
  | wrap (kind : String)
deriving Repr, DecidableEq

namespace Document

/-- Does an edit of an annotation in the scope. -/
def apply (d : Document) (scope id : AnnotationId) : Edit → Except DocumentError Document
  | .rename kind => d.rename scope id kind
  | .setAttribute name value => d.setAttribute scope id name value
  | .removeAttribute name => d.removeAttribute scope id name
  | .setValue value => d.setValue scope id value
  | .delete => d.delete scope id
  | .wrap kind => (·.2) <$> d.wrap scope id kind

end Document

end MarkupScript
