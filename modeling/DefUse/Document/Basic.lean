/-!
# Documents

Reports are written in two formats that share one shape: a tree of scalars, lists and records.

A key may be written more than once.  Every value is put into the place of the one before, so a
record keeps the fields that are not written again, and a list keeps the items behind its end: they
come to light again when a longer list is read into its place.

**Results.** `Doc` is that tree.  `Dialect` holds the choices on which readers of the two formats
differ, `Refill` is a list with the items behind its end, and `Reader` puts the parts of a tree into
the fields of a structure.
-/

namespace DefUse

/-- A document: scalars, lists and records with named fields. -/
inductive Doc where
  /-- No value. -/
  | null
  /-- A truth value. -/
  | flag (b : Bool)
  /-- A signed integer of 64 bits. -/
  | int (n : Int)
  /-- A text. -/
  | text (s : String)
  /-- A list of documents. -/
  | list (items : List Doc)
  /-- Named documents in the order in which they are written. -/
  | record (fields : List (String × Doc))
  /-- A well-formed value that fits no field of a report, such as a fraction. -/
  | other
  deriving Repr, Inhabited

namespace Doc

/-- How a format reads the values of fields. -/
structure Dialect where
  /-- Whether a written key names the field. -/
  names : String → String → Bool
  /-- A missing value clears a scalar or a record; otherwise it leaves it as it is. -/
  nullClears : Bool
  /-- A record may be a list of the values of all its fields. -/
  positional : Bool
  /-- An empty list drops the items behind the end of the list in its place. -/
  emptyDrops : Bool

/-- A list in a place into which lists are read one after the other. -/
structure Refill (α : Type) where
  /-- The list that was read last. -/
  items : List α := []
  /-- The items of longer lists behind its end. -/
  spare : List α := []
  deriving DecidableEq, Repr

/-- Puts a document into a place that holds a value already, if it fits there. -/
abbrev Reader (α : Type) := α → Doc → Option α

namespace Reader

variable {σ : Type}

/-- A scalar of which `pick` reads the written form. -/
def scalar {α : Type} (d : Dialect) (zero : α) (pick : Doc → Option α) : Reader α :=
  fun old doc =>
    match doc with
    | .null => some (if d.nullClears then zero else old)
    | doc => pick doc

def text (d : Dialect) : Reader String :=
  scalar d "" fun
    | .text s => some s
    | _ => none

def flag (d : Dialect) : Reader Bool :=
  scalar d false fun
    | .flag b => some b
    | _ => none

def int (d : Dialect) : Reader Int :=
  scalar d 0 fun
    | .int n => some n
    | _ => none

/-- The items of a list, each put into the place of the old item at its position. -/
def items {α : Type} (item : Reader α) (zero : α) : List α → List Doc → Option (List α)
  | _, [] => some []
  | old, doc :: rest => do
    let x ← item (old.head?.getD zero) doc
    let xs ← items item zero old.tail rest
    return x :: xs

/-- The items of a list, each put into the place of the old one at its position, and what is left
behind them. -/
def refill {α : Type} (d : Dialect) (item : Reader α) (zero : α) (old : Refill α)
    (docs : List Doc) : Option (Refill α) := do
  let places := old.items ++ old.spare
  let fresh ← items item zero places docs
  return { items := fresh
           spare := if d.emptyDrops && docs.isEmpty then [] else places.drop docs.length }

/-- A list of texts that may be missing.  A missing value removes it in the dialects in which such
a value leaves scalars, and leaves it in the others. -/
def texts? (d : Dialect) : Reader (Option (Refill String)) :=
  fun old doc =>
    match doc with
    | .null => some (if d.nullClears then old else none)
    | .list docs => (refill d (text d) "" (old.getD {}) docs).map some
    | _ => none

def list? {α : Type} (d : Dialect) (item : Reader α) (zero : α) : Reader (Option (Refill α)) :=
  fun old doc =>
    match doc with
    | .null => some none
    | .list docs => (refill d item zero (old.getD {}) docs).map some
    | _ => none

def optional {α : Type} (item : Reader α) (zero : α) : Reader (Option α) :=
  fun old doc =>
    match doc with
    | .null => some none
    | doc => (item (old.getD zero) doc).map some

/-- A field of a structure: its name and how a document is put into it. -/
abbrev Field (σ : Type) := String × Reader σ

/-- Puts a named document into the field that it names, if there is one. -/
def assign (d : Dialect) (fields : List (Field σ)) (s : σ) (entry : String × Doc) : Option σ :=
  match fields.find? (fun f => d.names f.1 entry.1) with
  | some f => f.2 s entry.2
  | none => some s

/-- A structure with the given fields, all of which are empty in `zero`. -/
def record (d : Dialect) (fields : List (Field σ)) (zero : σ) : Reader σ :=
  fun old doc =>
    match doc with
    | .null => some (if d.nullClears then zero else old)
    | .record entries => entries.foldlM (assign d fields) old
    | .list docs =>
      if !d.positional then none
      else if docs.isEmpty then some zero
      else if docs.length ≠ fields.length then none
      else (fields.zip docs).foldlM (fun s (f, doc) => f.2 s doc) old
    | _ => none

end Reader
end Doc
end DefUse
