import MarkupScript.Function.Basic

/-!
# The catalogue of functions

Functions are registered under their name. No two of one name have the same number
of parameters, and none has the name of a keyword.

* `Catalogue.register` adds a function or says why it cannot.
* `Catalogue.lookup` finds the function that a call means.
-/

namespace MarkupScript

/-- The keywords of the script language. -/
def keywords : List String :=
  ["for", "end", "if", "elseIf", "else", "sub", "endSub", "def", "clearDef", "clearDefs",
    "call", "include"]

def isKeyword (name : String) : Bool := keywords.contains name

/-- Why a function cannot be registered. -/
inductive RegistryError where
  /-- The name is a keyword. -/
  | reservedName (name : String)
  /-- The name has a function with that number of parameters. -/
  | duplicateArity (name : String) (arity : Nat)
deriving Repr, DecidableEq

def RegistryError.message : RegistryError → String
  | reservedName name => s!"'{name}' is a reserved keyword"
  | duplicateArity name arity =>
    s!"function '{name}' with {arity} parameter(s) is already registered"

/-- Functions by name; names, and functions of one name, in the order in which they
were registered. -/
structure Catalogue where
  functions : Keyed String (List Function) := []

namespace Catalogue

/-- No functions. -/
def empty : Catalogue := {}

/-- The functions of a name. -/
def overloads (c : Catalogue) (name : String) : List Function :=
  (Keyed.get? c.functions name).getD []

/-- The function of a name with a number of parameters. -/
def ofArity? (c : Catalogue) (name : String) (arity : Nat) : Option Function :=
  (c.overloads name).find? fun f => f.descriptor.arity = arity

/-- The catalogue with an entry for a name. A name that had none gets an empty one. -/
def withEntry (c : Catalogue) (name : String) : Catalogue :=
  { functions := Keyed.put c.functions name (c.overloads name) }

/-- Adds a function. Its name gets an entry first, and then the functions of the name
are looked through. -/
def register (f : Function) : EStateM RegistryError Catalogue Unit := fun c =>
  let name := f.descriptor.name
  if isKeyword name then .error (.reservedName name) c
  else
    let c := c.withEntry name
    if (c.ofArity? name f.descriptor.arity).isSome then
      .error (.duplicateArity name f.descriptor.arity) c
    else .ok () { functions := Keyed.put c.functions name (c.overloads name ++ [f]) }

/-- Adds functions one after another up to the first that cannot be added. Those
before it stay. -/
def registerAll : List Function → EStateM RegistryError Catalogue Unit
  | [] => pure ()
  | f :: rest => do
    register f
    registerAll rest

/-- The function that a call with `count` arguments means: one with as many
parameters, or else the only one of the name. -/
def lookup (c : Catalogue) (name : String) (count : Nat) : Option Function :=
  (c.ofArity? name count).or <|
    match c.overloads name with
    | [only] => some only
    | _ => none

/-- The descriptor that a call with `count` arguments means. -/
def resolve (c : Catalogue) (name : String) (count : Nat) : Option Descriptor :=
  (c.lookup name count).map (·.descriptor)

/-- The function that a descriptor stands for. -/
def implementation (c : Catalogue) (d : Descriptor) : Option Function :=
  c.ofArity? d.name d.arity

/-- All descriptors, those of one name together. -/
def descriptors (c : Catalogue) : List Descriptor :=
  c.functions.flatMap fun entry => entry.2.map (·.descriptor)

/-- The number of functions. -/
def size (c : Catalogue) : Nat :=
  c.descriptors.length

def isEmpty (c : Catalogue) : Bool := c.functions.isEmpty

end Catalogue

end MarkupScript
