import DefUse.Document.Basic

/-!
# Looking into documents

**Results.** `Doc.get` gives the value of a field, and the other functions read scalars and lists.
What is missing or of another kind reads as empty.  `Doc.depth` says how deep a document is nested.
-/

namespace DefUse

namespace Doc

/-- The value of a field; a field that is missing has none. -/
def get (doc : Doc) (key : String) : Doc :=
  match doc with
  | .record fields => (fields.lookup key).getD .null
  | _ => .null

def has (doc : Doc) (key : String) : Bool :=
  match doc.get key with
  | .null => false
  | _ => true

def toItems : Doc → List Doc
  | .list items => items
  | _ => []

def toText : Doc → String
  | .text s => s
  | _ => ""

def toInt : Doc → Int
  | .int n => n
  | _ => 0

def toNat (doc : Doc) : Nat := doc.toInt.toNat

def toFlag : Doc → Bool
  | .flag b => b
  | _ => false

def at? (doc : Doc) (i : Nat) : Doc := (doc.toItems[i]?).getD .null

def items (doc : Doc) (key : String) : List Doc := (doc.get key).toItems

def str (doc : Doc) (key : String) : String := (doc.get key).toText

/-- The value of a field, read by a function, if it is there. -/
def opt {α : Type} (doc : Doc) (key : String) (f : Doc → α) : Option α :=
  match doc.get key with
  | .null => none
  | d => some (f d)

mutual

/-- How deep lists and records are nested. -/
def depth : Doc → Nat
  | .list items => depthOfItems items + 1
  | .record fields => depthOfFields fields + 1
  | _ => 0

def depthOfItems : List Doc → Nat
  | [] => 0
  | doc :: rest => max doc.depth (depthOfItems rest)

def depthOfFields : List (String × Doc) → Nat
  | [] => 0
  | (_, doc) :: rest => max doc.depth (depthOfFields rest)

end

end Doc

end DefUse
