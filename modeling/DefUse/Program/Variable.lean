/-!
# Variables

A variable is a location that a program point may write or read: a local variable, a field, the
bucket of all array elements of one element type, or an object of a type outside the program.

**Results.** `Variable.mayEqual` says whether two variables may be the same location;
`Variable.less` orders variables by kind, scope, name and exactness.
-/

namespace DefUse

/-- The kind of a variable, by its code; only the first four codes have a meaning. -/
structure VarKind where
  /-- The code of the kind. -/
  code : UInt8
  deriving DecidableEq, Repr

namespace VarKind

/-- A local variable or a formal parameter. -/
def localVar : VarKind := ⟨0⟩

/-- A field of a declaring type. -/
def field : VarKind := ⟨1⟩

/-- All elements of the arrays of one element type. -/
def element : VarKind := ⟨2⟩

/-- An object owned by code outside the program. -/
def object : VarKind := ⟨3⟩

def render (k : VarKind) : String :=
  if k = localVar then "local"
  else if k = field then "field"
  else if k = element then "array"
  else if k = object then "object"
  else "kind(" ++ toString k.code.toNat ++ ")"

end VarKind

/-- A location that program points write and read. -/
structure Variable where
  /-- The kind of location. -/
  kind : VarKind := .localVar
  /-- The local name, the field name, the element type or the type of the object. -/
  name : String := ""
  /-- The owner: the procedure of a local variable, the declaring type of a field. -/
  scope : String := ""
  /-- Of objects: the type itself is meant, and none of its subtypes. -/
  exactType : Bool := false
  deriving DecidableEq, Repr

namespace Variable

/-- The variable that stands for "no plain variable". -/
def zero : Variable := {}

/-- The local variable with a name and a scope. -/
def ofLocal (scope name : String) : Variable :=
  { kind := .localVar, name, scope }

/-- The field with a name and a declaring type. -/
def ofField (owner name : String) : Variable :=
  { kind := .field, name, scope := owner }

/-- The elements of arrays of an element type. -/
def ofElement (elementType : String) : Variable :=
  { kind := .element, name := elementType }

def ofObject (type : String) (exactType : Bool) : Variable :=
  { kind := .object, name := type, exactType }

/-- The variable stands for "no plain variable". -/
def isZero (v : Variable) : Bool := v = zero

def isLocal (v : Variable) : Bool := v.kind = .localVar

/-- The variable lives on the heap. -/
def isHeap (v : Variable) : Bool := !v.isLocal

/-- The element types whose arrays may hold anything. -/
def anyElement : List String := ["any", "interface\x7b\x7d"]

/-- Two variables may be the same location. -/
def mayEqual (v w : Variable) : Bool :=
  if v.kind ≠ w.kind then false
  else if v.kind = .element then
    v.name = w.name || anyElement.contains v.name || anyElement.contains w.name
  else if v.kind = .object then v.name = w.name
  else v.name = w.name && v.scope = w.scope

/-- Variables in order of kind, scope, name and exactness. -/
def less (v w : Variable) : Bool :=
  if v.kind ≠ w.kind then v.kind.code < w.kind.code
  else if v.scope ≠ w.scope then v.scope < w.scope
  else if v.name ≠ w.name then v.name < w.name
  else !v.exactType && w.exactType

def render (v : Variable) : String :=
  if v.kind = .localVar then v.name
  else if v.kind = .field then v.scope ++ "." ++ v.name
  else if v.kind = .element then "[]" ++ v.name
  else if v.exactType then "obj(" ++ v.name ++ ")"
  else "obj(" ++ v.name ++ "+)"

end Variable

end DefUse
