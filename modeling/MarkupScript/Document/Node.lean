import MarkupScript.Document.Id
import MarkupScript.Json.Reader
import MarkupScript.Json.Writer
import MarkupScript.Keyed

/-!
# Annotations as trees

A node is an annotation with all that is below it. It is how a document is
exchanged: as a value, and as JSON text.

* `Node.preorder` lists the annotations of a node in document order.
* `Node.toJson` and `Node.ofJson?` write and read a node.
-/

namespace MarkupScript

/-- An annotation and its subtree: a type, attributes in order, a value of its own
or none, and children in order. -/
structure Node where
  id : AnnotationId
  kind : String
  attributes : Keyed String String := []
  value : Option String := none
  children : List Node := []

namespace Node

mutual

/-- The ids of a node in document order: a node stands before its children. -/
def preorder : Node → List AnnotationId
  | ⟨id, _, _, _, children⟩ => id :: preorderAll children

/-- The ids of several nodes in document order. -/
def preorderAll : List Node → List AnnotationId
  | [] => []
  | node :: rest => preorder node ++ preorderAll rest

end

/-! ## JSON -/

/-- The fields of a node in their order. -/
def fieldNames : List String := ["id", "type", "attributes", "value", "children"]

mutual

/-- A node as an object. Attributes, a value and children that are not there are
left out. -/
def toJson : Node → Json
  | ⟨id, kind, attributes, value, children⟩ =>
    .object <|
      [("id", .string id.text), ("type", .string kind)] ++
      (if attributes.isEmpty then []
        else [("attributes", .object (attributes.map fun (name, value) => (name, .string value)))]) ++
      (value.toList.map fun text => ("value", .string text)) ++
      (if children.isEmpty then [] else [("children", .array (toJsonAll children))])

def toJsonAll : List Node → List Json
  | [] => []
  | node :: rest => toJson node :: toJsonAll rest

end

/-- Reads the id of a node; a node without one gets the next of the supply. -/
def readId : Option Json → StateT IdSupply Option AnnotationId
  | none => fun ids => some ids.take
  | some (.string text) => fun ids => (AnnotationId.parse? text).map fun id => (id, ids)
  | some _ => fun _ => none

/-- Reads attributes: an object of strings. Of a repeated name the last value stands
at the first place. -/
def readAttributes? : Option Json → Option (Keyed String String)
  | none => some []
  | some (.object fields) =>
    (fields.mapM fun (field : String × Json) =>
      field.2.string?.map fun text => (field.1, text)).map Keyed.ofList
  | some _ => none

/-- Reads a value: a string or null. -/
def readValue? : Option Json → Option (Option String)
  | none | some .null => some none
  | some (.string text) => some (some text)
  | some _ => none

/-- The number of objects and arrays that may be open at one time. -/
def maxDepth : Nat := 127

/-- Reads a node that may open `room` objects and arrays. -/
def ofJson? : Nat → Json → StateT IdSupply Option Node
  | 0, _ => fun _ => none
  | room + 1, json => do
    match Json.record? fieldNames json with
    | some [id, kind, attributes, value, children] =>
      let id ← readId id
      let kind ← (kind.bind Json.string? : Option String)
      -- Attributes and children open one more.
      if room = 0 && (attributes.isSome || children.isSome) then failure
      let attributes ← (readAttributes? attributes : Option _)
      let value ← (readValue? value : Option _)
      match children, room with
      | none, _ => return { id, kind, attributes, value }
      | some (.array items), room + 1 =>
        let children ← items.mapM (ofJson? room)
        return { id, kind, attributes, value, children }
      | some _, _ => failure
    | _ => failure

/-- Reads the text of a node. -/
def parse? (text : String) : StateT IdSupply Option Node := do
  let json ← (Json.parse? text : Option Json)
  ofJson? maxDepth json

/-- Writes the text of a node. -/
def print (node : Node) : String := node.toJson.pretty

end Node

end MarkupScript
