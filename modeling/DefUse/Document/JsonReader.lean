import DefUse.Document.Basic
import DefUse.Text.Hex

/-!
# Documents from indented text

A document is read from the front of a text, and what follows it is not looked at.

**Results.** `Doc.Json.parse` reads a document; `Doc.Json.dialect` says how its fields are read:
keys ignore case, and a missing value leaves a field as it is.
-/

namespace DefUse
namespace Doc
namespace Json

def isGap (c : Char) : Bool := c = ' ' || c = '\t' || c = '\n' || c = '\r'

def skipGaps (cs : List Char) : List Char := cs.dropWhile isGap

/-- The characters that stand for a letter after a backslash. -/
def shortUnescapes : List (Char × Char) :=
  [('"', '"'), ('\\', '\\'), ('/', '/'), ('b', Char.ofNat 0x08), ('f', Char.ofNat 0x0c),
    ('n', '\n'), ('r', '\r'), ('t', '\t')]

/-- The number that four hexadecimal digits write, and the rest. -/
def unit? : List Char → Option (Nat × List Char)
  | a :: b :: c :: d :: rest =>
    if [a, b, c, d].all Text.isHex then some (Text.hexValue [a, b, c, d], rest) else none
  | _ => none

/-- The character that stands where a unit is half a character without its other half. -/
def replacement : Char := Char.ofNat 0xfffd

/-- The second half of a character whose first half is `high`, and the rest. -/
def pair? (high : Nat) : List Char → Option (Char × List Char)
  | '\\' :: 'u' :: rest =>
    match unit? rest with
    | some (low, rest) =>
      if 0xd800 ≤ high && high < 0xdc00 && 0xdc00 ≤ low && low < 0xe000 then
        some (Char.ofNat (0x10000 + (high - 0xd800) * 0x400 + (low - 0xdc00)), rest)
      else none
    | none => none
  | _ => none

/-- The character after `\u` and the rest: one unit, or two that make one character. -/
def numbered? (cs : List Char) : Option (Char × List Char) :=
  match unit? cs with
  | none => none
  | some (n, rest) =>
    if 0xd800 ≤ n && n < 0xe000 then some ((pair? n rest).getD (replacement, rest))
    else some (Char.ofNat n, rest)

/-- The character at the front of a text between quotes, and the rest. -/
def character? : List Char → Option (Char × List Char)
  | [] => none
  | '\\' :: 'u' :: rest => numbered? rest
  | '\\' :: letter :: rest => (shortUnescapes.lookup letter).map (·, rest)
  | c :: rest => if c = '\\' || c.toNat < 0x20 then none else some (c, rest)

/-- The characters up to the closing quote, and the rest. -/
def characters : Nat → List Char → Option (List Char × List Char)
  | 0, _ => none
  | _ + 1, '"' :: rest => some ([], rest)
  | fuel + 1, cs => do
    let (c, rest) ← character? cs
    let (s, rest) ← characters fuel rest
    return (c :: s, rest)

def quoted? : List Char → Option (String × List Char)
  | '"' :: rest => (characters (rest.length + 1) rest).map fun (s, rest) => (String.ofList s, rest)
  | _ => none

/-- The digits at the front of a text, and the rest. -/
def digits (cs : List Char) : List Char × List Char := cs.span Char.isDigit

/-- The digits of a whole number without needless zeros, and the rest. -/
def whole? (cs : List Char) : Option (List Char × List Char) :=
  match digits cs with
  | ([], _) => none
  | ('0' :: _, _) => some (['0'], cs.drop 1)
  | found => some found

/-- The text after the digits of a fraction, if there is one; `none` if its digits are missing. -/
def fraction? : List Char → Option (Bool × List Char)
  | '.' :: rest =>
    match digits rest with
    | ([], _) => none
    | (_, rest) => some (true, rest)
  | rest => some (false, rest)

/-- The text after an exponent, if there is one; `none` if its digits are missing. -/
def exponent? : List Char → Option (Bool × List Char)
  | c :: rest =>
    if c = 'e' || c = 'E' then
      let rest :=
        match rest with
        | '+' :: rest => rest
        | '-' :: rest => rest
        | rest => rest
      match digits rest with
      | ([], _) => none
      | (_, rest) => some (true, rest)
    else some (false, c :: rest)
  | [] => some (false, [])

/-- The number that decimal digits write. -/
def decimal (ds : List Char) : Nat :=
  ds.foldl (fun n c => 10 * n + (c.toNat - '0'.toNat)) 0

/-- The least and the greatest integer of a report. -/
def fits (n : Int) : Bool := -0x8000000000000000 ≤ n && n < 0x8000000000000000

def number? (cs : List Char) : Option (Doc × List Char) := do
  let (negative, cs) :=
    match cs with
    | '-' :: rest => (true, rest)
    | cs => (false, cs)
  let (ds, rest) ← whole? cs
  let (fractional, rest) ← fraction? rest
  let (scaled, rest) ← exponent? rest
  let n : Int := if negative then -(decimal ds) else decimal ds
  return (if !fractional && !scaled && fits n then .int n else .other, rest)

/-- What follows a fixed word at the front of a text. -/
def after? (word : String) (cs : List Char) : Option (List Char) :=
  if word.toList.isPrefixOf cs then some (cs.drop word.length) else none

/-- What follows an item of a list or a record: the rest after a comma, or after the end. -/
inductive Following where
  /-- Another item follows. -/
  | more (rest : List Char)
  /-- The list or record ends. -/
  | done (rest : List Char)

/-- What follows an item, `close` being the mark of the end. -/
def following? (close : Char) (cs : List Char) : Option Following :=
  match skipGaps cs with
  | c :: rest =>
    if c = ',' then some (.more rest) else if c = close then some (.done rest) else none
  | [] => none

/-- One or more items up to the mark of the end. -/
def sequence {α : Type} (item : List Char → Option (α × List Char)) (close : Char) :
    Nat → List Char → Option (List α × List Char)
  | 0, _ => none
  | fuel + 1, cs => do
    let (x, rest) ← item (skipGaps cs)
    match ← following? close rest with
    | .done rest => return ([x], rest)
    | .more rest =>
      let (xs, rest) ← sequence item close fuel rest
      return (x :: xs, rest)

/-- Any number of items up to the mark of the end. -/
def items {α : Type} (item : List Char → Option (α × List Char)) (close : Char)
    (cs : List Char) : Option (List α × List Char) :=
  match skipGaps cs with
  | c :: rest => if c = close then some ([], rest) else sequence item close cs.length cs
  | [] => none

def field? (value : List Char → Option (Doc × List Char)) (cs : List Char) :
    Option ((String × Doc) × List Char) := do
  let (key, rest) ← quoted? cs
  match skipGaps rest with
  | ':' :: rest =>
    let (doc, rest) ← value (skipGaps rest)
    return ((key, doc), rest)
  | _ => none

/-- A value in which lists and records are nested at most `depth` deep. -/
def value? : Nat → List Char → Option (Doc × List Char)
  | depth, cs =>
    match cs with
    | [] => none
    | c :: rest =>
      if c = '"' then (quoted? cs).map fun (s, rest) => (.text s, rest)
      else if c = '[' || c = '\x7b' then
        match depth with
        | 0 => none
        | depth + 1 =>
          if c = '[' then (items (value? depth) ']' rest).map fun (xs, rest) => (.list xs, rest)
          else
            (items (field? (value? depth)) '\x7d' rest).map fun (xs, rest) => (.record xs, rest)
      else if c = 'n' then (after? "null" cs).map (.null, ·)
      else if c = 't' then (after? "true" cs).map (.flag true, ·)
      else if c = 'f' then (after? "false" cs).map (.flag false, ·)
      else number? cs

/-- How deep lists and records may be nested. -/
def maxDepth : Nat := 10000

/-- The document at the front of a text, and the rest. -/
def parse (cs : List Char) : Option (Doc × List Char) := value? maxDepth (skipGaps cs)

/-- A letter without its case; two characters outside the alphabet count as letters of it. -/
def foldCase (c : Char) : Char :=
  if c.toNat = 0x17f then 's'
  else if c.toNat = 0x212a then 'k'
  else c.toLower

def foldKey (s : String) : List Char := s.toList.map foldCase

def dialect : Dialect where
  names field key := foldKey field == foldKey key
  nullClears := false
  positional := false
  emptyDrops := true

end Json
end Doc
end DefUse
