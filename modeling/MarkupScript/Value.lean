import MarkupScript.Document.Id
import MarkupScript.Decimal.Text
import MarkupScript.Text.Blank

/-!
# Values

Variables hold, and expressions give, a truth value, a number, a text or a set of
annotations. Each can be seen as text, as a number and as a truth value.
-/

namespace MarkupScript

/-- A value of a script. A set of annotations keeps its order, and an annotation
may be in it more than once. -/
inductive Value where
  | boolean (b : Bool)
  | number (x : Float)
  | string (s : String)
  | annotations (ids : List AnnotationId)

namespace Value

/-- The text of a value. A set is counted, not listed. -/
def text : Value → String
  | boolean b => if b then "true" else "false"
  | number x => Decimal.write x
  | string s => s
  | annotations ids => s!"[{ids.length} annotations]"

/-- The truth of a value: numbers but zero and not-a-number are true, texts and
sets are true if they are not empty. -/
def truth : Value → Bool
  | boolean b => b
  | number x => x != 0.0 && !x.isNaN
  | string s => !s.isEmpty
  | annotations ids => !ids.isEmpty

/-- The number of a value: a text is read without the blanks around it, a set is
counted. -/
def toNumber : Value → Float
  | boolean b => if b then 1.0 else 0.0
  | number x => x
  | string s => (Decimal.readChars? (Text.trimChars s.toList)).getD Decimal.notANumber
  | annotations ids => Float.ofNat ids.length

/-- The annotations of a set. -/
def annotations? : Value → Option (List AnnotationId)
  | annotations ids => some ids
  | _ => none

def isAnnotations (v : Value) : Bool :=
  v.annotations?.isSome

/-- The name of the kind of value. -/
def typeName : Value → String
  | boolean _ => "boolean"
  | number _ => "number"
  | string _ => "string"
  | annotations _ => "annotation set"

end Value

end MarkupScript
