import DefUse.Document.Basic
import DefUse.Text.Utf8

/-!
# Documents as octets

Every value starts with an octet that tells its kind and, for small values, its size; larger sizes
and numbers follow it, the greatest octet first.

**Assumption.** The encoder and the decoder of reports are a library that is not part of the
program.  They are taken to follow the format as it is defined here: the shortest form is written,
every form is read, and fields are read as the dialect says.

**Results.** `Doc.MessagePack.render` writes a document with the shortest form of each value, and
`Doc.MessagePack.parse` reads every form.  `Doc.MessagePack.dialect` says how fields are read:
keys are exact, a missing value clears a field, a record may be a list of all its fields, and an
empty list keeps the items behind its end.
-/

namespace DefUse
namespace Doc
namespace MessagePack

/-- The last `width` octets of a number, the greatest first. -/
def bigEndian : Nat → Nat → List UInt8
  | 0, _ => []
  | width + 1, n => bigEndian width (n / 256) ++ [UInt8.ofNat (n % 256)]

/-- The number that octets write, the greatest first. -/
def natOf (octets : List UInt8) : Nat := octets.foldl (fun n b => 256 * n + b.toNat) 0

/-- The least number that needs more than `width` octets. -/
def span (width : Nat) : Nat := Nat.pow 256 width

/-- A code followed by a number of the given width. -/
def coded (code : UInt8) (width n : Nat) : List UInt8 := code :: bigEndian width n

def renderInt (n : Int) : List UInt8 :=
  let m := n.toNat
  let low (width : Nat) : Nat := (n % (span width : Int)).toNat
  if 0 ≤ n then
    if m < 0x80 then [UInt8.ofNat m]
    else if m < span 1 then coded 0xcc 1 m
    else if m < span 2 then coded 0xcd 2 m
    else if m < span 4 then coded 0xce 4 m
    else coded 0xcf 8 m
  else if -0x20 ≤ n then [UInt8.ofNat (low 1)]
  else if -0x80 ≤ n then coded 0xd0 1 (low 1)
  else if -0x8000 ≤ n then coded 0xd1 2 (low 2)
  else if -0x80000000 ≤ n then coded 0xd2 4 (low 4)
  else coded 0xd3 8 (low 8)

def renderText (s : String) : List UInt8 :=
  let octets := Text.Utf8.encode s
  let n := octets.length
  let header :=
    if n < 0x20 then [UInt8.ofNat (0xa0 + n)]
    else if n < span 1 then coded 0xd9 1 n
    else if n < span 2 then coded 0xda 2 n
    else coded 0xdb 4 n
  header ++ octets

/-- The start of a list or a record of `n` items, given its three codes. -/
def header (small : UInt8) (medium large : UInt8) (n : Nat) : List UInt8 :=
  if n < 0x10 then [small + UInt8.ofNat n]
  else if n < span 2 then coded medium 2 n
  else coded large 4 n

mutual

def render : Doc → List UInt8
  | .null => [0xc0]
  | .flag b => [if b then 0xc3 else 0xc2]
  | .int n => renderInt n
  | .text s => renderText s
  | .other => [0xc0]
  | .list items => header 0x90 0xdc 0xdd items.length ++ renderItems items
  | .record fields => header 0x80 0xde 0xdf fields.length ++ renderFields fields

def renderItems : List Doc → List UInt8
  | [] => []
  | doc :: rest => render doc ++ renderItems rest

def renderFields : List (String × Doc) → List UInt8
  | [] => []
  | (key, doc) :: rest => renderText key ++ render doc ++ renderFields rest

end

def take? (n : Nat) (octets : List UInt8) : Option (List UInt8 × List UInt8) :=
  let taken := octets.take n
  if taken.length = n then some (taken, octets.drop n) else none

/-- A number of `width` octets, and the rest. -/
def nat? (width : Nat) (octets : List UInt8) : Option (Nat × List UInt8) :=
  (take? width octets).map fun (taken, rest) => (natOf taken, rest)

/-- The integer of `width` octets that has the same remainder as a number. -/
def signed (width n : Nat) : Int := Int.bmod n (span width)

def text? (n : Nat) (octets : List UInt8) : Option (Doc × List UInt8) :=
  (take? n octets).map fun (taken, rest) => (.text (String.ofList (Text.Utf8.lossy taken)), rest)

/-- `n` items, and the rest. -/
def many {α : Type} (item : List UInt8 → Option (α × List UInt8)) :
    Nat → List UInt8 → Option (List α × List UInt8)
  | 0, octets => some ([], octets)
  | n + 1, octets => do
    let (x, rest) ← item octets
    let (xs, rest) ← many item n rest
    return (x :: xs, rest)

/-- The key that a document is, if it can be one. -/
def key? : Doc → Option String
  | .text s => some s
  | .null => some ""
  | _ => none

/-- The record with the given keys and values; it fits nowhere if a key is no text. -/
def recordOf (entries : List (Doc × Doc)) : Doc :=
  match entries.mapM fun (k, v) => (key? k).map (·, v) with
  | some fields => .record fields
  | none => .other

/-- What stands after a code. -/
inductive Form where
  /-- A value that the code is. -/
  | whole (doc : Doc)
  /-- A number, read by the given function. -/
  | number (width : Nat) (read : Nat → Doc)
  /-- A text with so many octets. -/
  | text (n : Nat)
  /-- A text after the number of its octets. -/
  | longText (width : Nat)
  /-- A list of so many items. -/
  | list (n : Nat)
  /-- A list after the number of its items. -/
  | longList (width : Nat)
  /-- A record of so many fields. -/
  | record (n : Nat)
  /-- A record after the number of its fields. -/
  | longRecord (width : Nat)
  /-- A tagged value of so many octets. -/
  | tagged (n : Nat)
  /-- A tagged value after the number of its octets. -/
  | longTagged (width : Nat)

/-- The form of the value that starts with a code; one code has none. -/
def form? (code : UInt8) : Option Form :=
  let n := code.toNat
  if n < 0x80 then some (.whole (.int n))
  else if n < 0x90 then some (.record (n - 0x80))
  else if n < 0xa0 then some (.list (n - 0x90))
  else if n < 0xc0 then some (.text (n - 0xa0))
  else if 0xe0 ≤ n then some (.whole (.int (n - 0x100)))
  else
    match n with
    | 0xc0 => some (.whole .null)
    | 0xc2 => some (.whole (.flag false))
    | 0xc3 => some (.whole (.flag true))
    | 0xc4 => some (.longText 1)
    | 0xc5 => some (.longText 2)
    | 0xc6 => some (.longText 4)
    | 0xc7 => some (.longTagged 1)
    | 0xc8 => some (.longTagged 2)
    | 0xc9 => some (.longTagged 4)
    | 0xca => some (.number 4 fun _ => .other)
    | 0xcb => some (.number 8 fun _ => .other)
    | 0xcc => some (.number 1 fun m => .int m)
    | 0xcd => some (.number 2 fun m => .int m)
    | 0xce => some (.number 4 fun m => .int m)
    | 0xcf => some (.number 8 fun m => .int (signed 8 m))
    | 0xd0 => some (.number 1 fun m => .int (signed 1 m))
    | 0xd1 => some (.number 2 fun m => .int (signed 2 m))
    | 0xd2 => some (.number 4 fun m => .int (signed 4 m))
    | 0xd3 => some (.number 8 fun m => .int (signed 8 m))
    | 0xd4 => some (.tagged 1)
    | 0xd5 => some (.tagged 2)
    | 0xd6 => some (.tagged 4)
    | 0xd7 => some (.tagged 8)
    | 0xd8 => some (.tagged 16)
    | 0xd9 => some (.longText 1)
    | 0xda => some (.longText 2)
    | 0xdb => some (.longText 4)
    | 0xdc => some (.longList 2)
    | 0xdd => some (.longList 4)
    | 0xde => some (.longRecord 2)
    | 0xdf => some (.longRecord 4)
    | _ => none

/-- A tagged value of `n` octets after its tag, and the rest. -/
def tagged? (n : Nat) (octets : List UInt8) : Option (Doc × List UInt8) :=
  (take? (n + 1) octets).map fun (_, rest) => (.other, rest)

/-- A value in which lists and records are nested less than `depth` deep, and the rest. -/
def value? : Nat → List UInt8 → Option (Doc × List UInt8)
  | 0, _ => none
  | _ + 1, [] => none
  | depth + 1, code :: octets =>
    let list? (n : Nat) (octets : List UInt8) : Option (Doc × List UInt8) :=
      (many (value? depth) n octets).map fun (xs, rest) => (.list xs, rest)
    let pair? (octets : List UInt8) : Option ((Doc × Doc) × List UInt8) := do
      let (key, rest) ← value? depth octets
      let (doc, rest) ← value? depth rest
      return ((key, doc), rest)
    let record? (n : Nat) (octets : List UInt8) : Option (Doc × List UInt8) :=
      (many pair? n octets).map fun (xs, rest) => (recordOf xs, rest)
    match form? code with
    | none => none
    | some (.whole doc) => some (doc, octets)
    | some (.number width read) => (nat? width octets).map fun (m, rest) => (read m, rest)
    | some (.text n) => text? n octets
    | some (.longText width) => (nat? width octets).bind fun (n, rest) => text? n rest
    | some (.list n) => list? n octets
    | some (.longList width) => (nat? width octets).bind fun (n, rest) => list? n rest
    | some (.record n) => record? n octets
    | some (.longRecord width) => (nat? width octets).bind fun (n, rest) => record? n rest
    | some (.tagged n) => tagged? n octets
    | some (.longTagged width) => (nat? width octets).bind fun (n, rest) => tagged? n rest

/-- The document at the front of octets, and the rest.  Every list or record that is open takes an
octet, so that their number bounds how deep values are nested. -/
def parse (octets : List UInt8) : Option (Doc × List UInt8) := value? octets.length octets

def dialect : Dialect where
  names field key := field == key
  nullClears := true
  positional := true
  emptyDrops := false

end MessagePack
end Doc
end DefUse
