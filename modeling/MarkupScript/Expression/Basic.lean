/-!
# Expressions and paths

An expression computes a value from numbers, texts, variables and paths. A path
selects annotations step by step, starting from the scope or from the annotations
of a variable; a last step may select attribute values instead.
-/

namespace MarkupScript

/-- The binary operators. -/
inductive Operator where
  | or
  | and
  | eq
  | ne
  | lt
  | le
  | gt
  | ge
  | add
  | sub
  | mul
  | div
  | mod
deriving Repr, DecidableEq

/-- How strongly an operator binds. Operators of one strength group to the left. -/
def Operator.precedence : Operator → Nat
  | or => 1
  | and => 2
  | eq | ne => 3
  | lt | le | gt | ge => 4
  | add | sub => 5
  | mul | div | mod => 6

/-- Where a step goes from an annotation. -/
inductive Axis where
  | child
  | descendant
  | parent
  | self
deriving Repr, DecidableEq

/-- Which names a step takes. -/
inductive NameTest where
  | any
  | named (name : String)
deriving Repr, DecidableEq

namespace NameTest

def ofText (text : String) : NameTest :=
  if text = "*" then any else named text

def accepts : NameTest → String → Bool
  | any, _ => true
  | named expected, name => expected = name

end NameTest

/-- What further narrows the annotations that a step takes. -/
inductive Predicate where
  /-- The attribute is there. -/
  | has (name : String)
  /-- The attribute is there, with this value or, if negated, another. -/
  | compare (name value : String) (negated : Bool)
  /-- The annotation is the n-th, counted from one. -/
  | position (n : Nat)
deriving Repr, DecidableEq

/-- One step of a path. -/
inductive Step where
  | nodes (axis : Axis) (test : NameTest) (predicates : List Predicate)
  | attributes (test : NameTest)
deriving Repr, DecidableEq

/-- Where a path starts. -/
inductive PathStart where
  /-- The annotation of the scope. -/
  | context
  /-- The annotations that a variable holds. -/
  | fromVariable (name : String)
deriving Repr, DecidableEq

/-- A path. -/
structure Path where
  start : PathStart
  steps : List Step
deriving Repr, DecidableEq

/-- An expression. -/
inductive Expr where
  | number (x : Float)
  | text (s : String)
  | var (name : String)
  | path (p : Path)
  | neg (e : Expr)
  | binary (op : Operator) (left right : Expr)
  | call (name : String) (args : List Expr)

end MarkupScript
