/-!
# Symbols and types

The sources come with the meaning of every name and with a table of all types.

**Results.** `Symbol` is what a name stands for; `TypeTable` holds the types by number, and
`TypeInfo.implements` says whether a type has the methods of an interface.
-/

namespace DefUse
namespace Source

/-- The number of a type in the table of types. -/
abbrev TypeId := Nat

/-- How a function is attached to a type. -/
inductive Receiver where
  /-- The function is no method. -/
  | none
  /-- The method is called on a pointer. -/
  | pointer
  /-- The method belongs to an interface. -/
  | interface
  /-- The method is called on a value. -/
  | value
  deriving DecidableEq, Repr

/-- A declared function or method. -/
structure Function where
  /-- The full name. -/
  full : String
  /-- The full name of the generic function that it is an instance of, or else its own. -/
  generic : String
  /-- The path of the package that declares it. -/
  package : Option String
  /-- How it is attached to a type. -/
  receiver : Receiver
  deriving DecidableEq, Repr

/-- What a name stands for. -/
inductive Symbol where
  /-- A variable, a parameter or a field, declared at a position. -/
  | variable (name : String) (pos : Int) (isField : Bool)
  /-- A function or method. -/
  | function (f : Function)
  /-- A function that is part of the language. -/
  | builtin (name : String)
  /-- Anything else: a type, a package, a constant. -/
  | other
  deriving DecidableEq, Repr

/-- A method, by its identity and its signature. -/
abbrev Method := String × String

/-- What a type is made of. -/
inductive Shape where
  /-- A pointer. -/
  | pointer (target : TypeId)
  /-- A slice, an array or a map, with its elements. -/
  | indexed (element : TypeId)
  /-- A structure, with the names and types of its fields. -/
  | struct (fields : List (String × TypeId))
  /-- An interface, with its methods; it may restrict types by more than methods. -/
  | interface (methodsOnly : Bool) (methods : List Method)
  /-- Any other type. -/
  | other
  deriving DecidableEq, Repr

/-- A type. -/
structure TypeInfo where
  /-- Its text. -/
  text : String := ""
  /-- What it is made of. -/
  shape : Shape := .other
  /-- It has parameters that are not filled in. -/
  generic : Bool := false
  /-- The methods of its values. -/
  valueMethods : List Method := []
  /-- The methods of pointers to its values. -/
  pointerMethods : List Method := []
  deriving DecidableEq, Repr

namespace TypeInfo

def isInterface (t : TypeInfo) : Bool :=
  match t.shape with
  | .interface .. => true
  | _ => false

/-- The methods that a type must have to be used through this one, if they are all that matters
and there are any. -/
def demands (t : TypeInfo) : Option (List Method) :=
  match t.shape with
  | .interface true (m :: ms) => some (m :: ms)
  | _ => none

/-- Values of the type, or pointers to them, have the given methods. -/
def hasMethods (t : TypeInfo) (methods : List Method) : Bool :=
  methods.all (t.valueMethods.contains ·) || methods.all (t.pointerMethods.contains ·)

/-- The type is a concrete type with all the methods. -/
def implements (t : TypeInfo) (methods : List Method) : Bool :=
  !t.isInterface && !t.generic && t.hasMethods methods

end TypeInfo

abbrev TypeTable := Array TypeInfo

namespace TypeTable

def get (types : TypeTable) (id : TypeId) : TypeInfo := types[id]?.getD {}

/-- The target of a pointer; other types stay as they are. -/
def target (types : TypeTable) (id : TypeId) : TypeId :=
  match (types.get id).shape with
  | .pointer t => t
  | _ => id

/-- The type of the elements of a slice, array or map, or of one behind a pointer. -/
def element? (types : TypeTable) (id : TypeId) : Option TypeId :=
  match (types.get (types.target id)).shape with
  | .indexed t => some t
  | _ => none

/-- The type of the field at a position of a structure, or of one behind a pointer. -/
def field? (types : TypeTable) (id : TypeId) (i : Nat) : Option TypeId :=
  match (types.get (types.target id)).shape with
  | .struct fields => fields[i]?.map Prod.snd
  | _ => none

/-- The type that is reached through the fields at the given positions. -/
def descend? (types : TypeTable) : TypeId → List Nat → Option TypeId
  | id, [] => some id
  | id, i :: rest => (types.field? id i).bind (types.descend? · rest)

end TypeTable

/-- What a selection picks. -/
inductive SelectionKind where
  /-- A field. -/
  | field
  /-- A method together with its receiver. -/
  | method
  /-- A method as a function of its receiver. -/
  | methodExpr
  deriving DecidableEq, Repr

/-- The meaning of a selection `x.name`. -/
structure Selection where
  /-- What it picks. -/
  kind : SelectionKind
  /-- The type of `x`. -/
  receiver : TypeId
  /-- The positions of the fields on the way; the last one is that of the thing picked. -/
  path : List Nat
  /-- The name of the thing picked. -/
  name : String
  /-- The thing picked. -/
  symbol : Symbol
  deriving DecidableEq, Repr

end Source
end DefUse
