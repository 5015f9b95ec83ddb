import MarkupScript.Keyed
import MarkupScript.Value

/-!
# Bindings of variables

Variables are bound in levels. Reading a variable goes from the innermost level
outward; writing and removing touch the innermost level alone.

* `get?_set`, `get?_push`: how reading follows writing and opening a level.
-/

namespace MarkupScript

/-- The innermost level and the levels around it, the nearest first. Each level
keeps the order in which its variables were bound. -/
structure Bindings where
  own : Keyed String Value := []
  outer : List (Keyed String Value) := []

namespace Bindings

/-- No variables at a single level. -/
def empty : Bindings := {}

/-- The value of a variable at the nearest of some levels. -/
def find? : List (Keyed String Value) → String → Option Value
  | [], _ => none
  | level :: rest, name =>
    match Keyed.get? level name with
    | some value => some value
    | none => find? rest name

/-- The value of a variable. -/
def get? (b : Bindings) (name : String) : Option Value :=
  find? (b.own :: b.outer) name

def has (b : Bindings) (name : String) : Bool :=
  (b.get? name).isSome

/-- Binds a variable at the innermost level. -/
def set (b : Bindings) (name : String) (value : Value) : Bindings :=
  { b with own := Keyed.put b.own name value }

/-- Removes a variable from the innermost level. -/
def remove (b : Bindings) (name : String) : Bindings :=
  { b with own := Keyed.erase b.own name }

/-- Removes all variables of the innermost level. -/
def clear (b : Bindings) : Bindings :=
  { b with own := [] }

/-- The variables of the innermost level in the order in which they were bound. -/
def names (b : Bindings) : List String :=
  Keyed.keys b.own

def size (b : Bindings) : Nat := b.own.length

def isEmpty (b : Bindings) : Bool := b.own.isEmpty

/-- Opens a new innermost level. -/
def push (b : Bindings) : Bindings :=
  { own := [], outer := b.own :: b.outer }

/-- The level around the innermost one, with all around it. -/
def parent? (b : Bindings) : Option Bindings :=
  match b.outer with
  | [] => none
  | own :: outer => some { own, outer }

theorem get?_eq (b : Bindings) (name : String) :
    b.get? name = (Keyed.get? b.own name).or (find? b.outer name) := by
  cases h : Keyed.get? b.own name <;> simp [get?, find?, h]

@[simp] theorem get?_set (b : Bindings) (name other : String) (value : Value) :
    (b.set name value).get? other = if name = other then some value else b.get? other := by
  by_cases h : name = other <;> simp [get?_eq, set, h]

@[simp] theorem get?_push (b : Bindings) (name : String) :
    b.push.get? name = b.get? name := rfl

end Bindings

end MarkupScript
