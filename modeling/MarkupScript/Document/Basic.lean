import MarkupScript.Document.Node

/-!
# Documents

A document is a tree of annotations kept as a table: each annotation has an entry
with its parent and its children. It is read through a *scope*, the annotation
whose subtree is in view; what is outside the scope is as if it were not there.

* `Document.ofNode` builds a document from a tree, `Document.toNode` gives the tree
  back.
* `Document.contains`, `descendants`, `valueOf` and the like read through a scope.
-/

namespace MarkupScript

/-- The entry of an annotation in the table of a document. -/
structure Entry where
  kind : String
  attributes : Keyed String String := []
  value : Option String := none
  parent : Option AnnotationId
  children : List AnnotationId
deriving DecidableEq

/-- The table of a document. -/
abbrev Table := Keyed AnnotationId Entry

/-- A document: its root, its table, and where the ids of new annotations come from. -/
structure Document where
  root : AnnotationId
  table : Table
  ids : IdSupply

/-- Why a document cannot be built or edited. -/
inductive DocumentError where
  /-- The text is not a document. -/
  | malformed
  /-- The file cannot be read or written. -/
  | file (message : String)
  /-- The annotation is not in the document or not in the scope. -/
  | unknownId (id : AnnotationId)
  /-- The root of a document stays where it is. -/
  | rootEdit
  /-- Two annotations have one id. -/
  | duplicateId (id : AnnotationId)
deriving DecidableEq

def DocumentError.message : DocumentError → String
  | malformed => "invalid document JSON: not a document"
  | file message => s!"IO error: {message}"
  | unknownId id => s!"annotation {id.text} is not part of this document"
  | rootEdit => "the root annotation cannot be deleted or wrapped"
  | duplicateId id => s!"duplicate annotation id {id.text}"

namespace Table

/-! ## From and to trees -/

mutual

/-- Adds a node and what is below it, in document order. -/
def insert (table : Table) (parent : Option AnnotationId) :
    Node → Except DocumentError Table
  | ⟨id, kind, attributes, value, children⟩ =>
    if Keyed.has table id then .error (.duplicateId id)
    else
      let entry : Entry :=
        { kind, attributes, value, parent, children := children.map (·.id) }
      insertAll (Keyed.put table id entry) id children

/-- Adds the children of `parent`. -/
def insertAll (table : Table) (parent : AnnotationId) :
    List Node → Except DocumentError Table
  | [] => .ok table
  | node :: rest => do
    let table ← insert table (some parent) node
    insertAll table parent rest

end

/-- The tree below an annotation, to a depth of at most `fuel`. -/
def exportTo (table : Table) : Nat → AnnotationId → Option Node
  | 0, _ => none
  | fuel + 1, id =>
    (Keyed.get? table id).map fun entry =>
      { id, kind := entry.kind, attributes := entry.attributes, value := entry.value
        children := entry.children.filterMap (exportTo table fuel) }

/-- The tree below an annotation. A table of `n` entries is at most `n` deep. -/
def exportNode (table : Table) (id : AnnotationId) : Option Node :=
  exportTo table table.length id

/-! ## Walks -/

/-- Walks from `id` to its parents for at most `fuel` steps, looking for `ancestor`. -/
def climb (table : Table) (ancestor : AnnotationId) : Nat → AnnotationId → Bool
  | 0, _ => false
  | fuel + 1, id =>
    if id = ancestor then true
    else
      match (Keyed.get? table id).bind (·.parent) with
      | some parent => climb table ancestor fuel parent
      | none => false

/-- Whether `id` is `ancestor` or below it. An annotation is within itself even if
it is not in the table. -/
def isWithin (table : Table) (id ancestor : AnnotationId) : Bool :=
  climb table ancestor (table.length + 1) id

/-- The annotations below `id` in document order, to a depth of at most `fuel`. -/
def descendTo (table : Table) : Nat → AnnotationId → List AnnotationId
  | 0, _ => []
  | fuel + 1, id =>
    match Keyed.get? table id with
    | some entry => entry.children.flatMap fun child => child :: descendTo table fuel child
    | none => []

/-- The annotations below `id` in document order. -/
def descendants (table : Table) (id : AnnotationId) : List AnnotationId :=
  descendTo table table.length id

/-- The text of an annotation, to a depth of at most `fuel`. -/
def contentTo (table : Table) : Nat → AnnotationId → String
  | 0, _ => ""
  | fuel + 1, id =>
    match Keyed.get? table id with
    | some entry =>
      match entry.value with
      | some value => value
      | none => String.join (entry.children.map (contentTo table fuel))
    | none => ""

/-- The text of an annotation: its own value or else the texts of its children. -/
def content (table : Table) (id : AnnotationId) : String :=
  contentTo table table.length id

end Table

namespace Document

/-- Builds a document from a tree. -/
def ofNode (node : Node) (ids : IdSupply) : Except DocumentError Document := do
  let table ← Table.insert [] none node
  return { root := node.id, table, ids }

/-- The whole document as a tree. -/
def toNode (d : Document) : Node :=
  (d.table.exportNode d.root).getD { id := d.root, kind := "" }

/-- Reads the text of a document. -/
def parse (text : String) (ids : IdSupply) : Except DocumentError Document :=
  match Node.parse? text ids with
  | some (node, ids) => ofNode node ids
  | none => .error .malformed

/-- Writes the text of a document. -/
def print (d : Document) : String := d.toNode.print

/-! ## Reading through a scope -/

/-- Whether `id` is in the scope. -/
def contains (d : Document) (scope id : AnnotationId) : Bool :=
  d.table.isWithin id scope

/-- The entry of an annotation in the scope. -/
def entry? (d : Document) (scope id : AnnotationId) : Option Entry :=
  if d.contains scope id then Keyed.get? d.table id else none

/-- The type of an annotation. -/
def kind? (d : Document) (scope id : AnnotationId) : Option String :=
  (d.entry? scope id).map (·.kind)

/-- The value of an attribute. -/
def attribute? (d : Document) (scope id : AnnotationId) (name : String) : Option String :=
  (d.entry? scope id).bind fun entry => Keyed.get? entry.attributes name

/-- The attributes of an annotation in order. -/
def attributes (d : Document) (scope id : AnnotationId) : Keyed String String :=
  ((d.entry? scope id).map (·.attributes)).getD []

/-- The children of an annotation in order. -/
def children (d : Document) (scope id : AnnotationId) : List AnnotationId :=
  ((d.entry? scope id).map (·.children)).getD []

/-- The parent of an annotation. The scope itself has none. -/
def parent? (d : Document) (scope id : AnnotationId) : Option AnnotationId :=
  if id = scope then none else (d.entry? scope id).bind (·.parent)

/-- All annotations below one in document order. -/
def descendants (d : Document) (scope id : AnnotationId) : List AnnotationId :=
  if d.contains scope id then d.table.descendants id else []

/-- The text of an annotation. -/
def valueOf (d : Document) (scope id : AnnotationId) : Option String :=
  if d.contains scope id then some (d.table.content id) else none

/-- The scope narrowed to an annotation in it. -/
def narrow? (d : Document) (scope id : AnnotationId) : Option AnnotationId :=
  if d.contains scope id then some id else none

end Document

end MarkupScript
