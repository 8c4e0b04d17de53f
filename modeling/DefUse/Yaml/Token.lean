import DefUse.Yaml.Readable
import DefUse.Yaml.ScalarText
import DefUse.Yaml.TagText

/-!
# Tokens of markup

**Input.** The text of a document.

**Algorithm.** The text is cut into tokens from left to right.  Indentation opens and closes blocks.
A token that may turn out to be a key is remembered; when a colon follows in the same line, the
mark of a key is put before it.  Tokens are only cut off when they are asked for, so a mistake in
the text does not matter before its place is reached.

**Results.** `Scanner.ofText` starts with a text, and `Scanner.supply` cuts off tokens until a token
and the two after it are known, and whether the first of them is a key.
-/

namespace DefUse
namespace Yaml

/-- A token. -/
inductive Token where
  | streamEnd
  | version (major minor : Nat)
  | tagHandle (handle start : String)
  | documentStart
  | documentEnd
  | blockSequence
  | blockMapping
  | blockEnd
  | flowSequence
  | flowSequenceEnd
  | flowMapping
  | flowMappingEnd
  | blockEntry
  | flowEntry
  | key
  | value
  | alias (name : String)
  | anchor (name : String)
  | tag (handle suffix : String)
  | scalar (text : String) (isPlain : Bool)
  deriving DecidableEq, Repr

/-- A token that may turn out to be a key. -/
structure PendingKey where
  /-- It may still be a key. -/
  possible : Bool := false
  /-- It must be a key, since nothing else can stand there. -/
  required : Bool := false
  /-- The number of the token. -/
  number : Nat := 0
  /-- The line in which the token starts. -/
  line : Nat := 0
  /-- The column in which the token starts. -/
  column : Nat := 0
  /-- The number of characters before the token. -/
  index : Nat := 0

/-- A text that is partly cut into tokens. -/
structure Scanner where
  /-- Where the rest of the text starts. -/
  place : Cursor
  /-- The number of characters of the text. -/
  size : Nat
  /-- What follows the text cannot be read. -/
  cut : Bool := false
  /-- While fewer characters than these were passed, the first character of a line is passed over
  without being looked at. -/
  marked : Nat := 0
  /-- The tokens so far. -/
  tokens : Array Token := #[]
  /-- How many brackets and braces are open. -/
  flow : Nat := 0
  /-- The indentation of the innermost block; `-1` outside of all blocks. -/
  indent : Int := -1
  /-- The indentations around it, innermost first. -/
  outer : List Int := []
  /-- A key may start here. -/
  keyAllowed : Bool := true
  /-- The possible key outside of all brackets and inside each open one, innermost last. -/
  keys : Array PendingKey := #[{}]
  /-- The tokens that are waited for, by number, and the brackets that were open before each. -/
  watched : List (Nat × Nat) := []

def maxNesting : Nat := 10000

namespace Scanner

/-- The start of a text.  A second mark of the byte order at the front spoils the lines of the first
block of the text. -/
def ofText (text : String) : Scanner :=
  let r := Readable.ofText text
  { place := { rest := r.chars }
    size := r.chars.length + 1
    cut := r.cut
    marked := if r.chars.head? = some byteOrderMark then r.first else 0 }

def push (s : Scanner) (t : Token) : Scanner := { s with tokens := s.tokens.push t }

def key (s : Scanner) : PendingKey := s.keys.back?.getD {}

def setKey (s : Scanner) (k : PendingKey) : Scanner := { s with keys := s.keys.pop.push k }

/-- A token is not waited for any more. -/
def unwatch (s : Scanner) (number : Nat) : Scanner :=
  { s with watched := s.watched.filter fun (other, _) => other ≠ number }

def clearKey (s : Scanner) : Scanner :=
  (s.setKey { s.key with possible := false }).unwatch s.key.number

/-- Gives up the innermost possible key, which is an error if it must be one. -/
def dropKey (s : Scanner) : Option Scanner :=
  if !s.key.possible then some s
  else if s.key.required then none
  else some s.clearKey

/-- Remembers that the next token may be a key. -/
def saveKey (s : Scanner) : Option Scanner :=
  if !s.keyAllowed then some s
  else do
    let s ← s.dropKey
    let k : PendingKey :=
      { possible := true
        required := s.flow = 0 && s.indent = s.place.column
        number := s.tokens.size
        line := s.place.line
        column := s.place.column
        index := s.place.index }
    return { s.setKey k with watched := (k.number, s.flow) :: s.watched }

/-- How far the colon after a key may be. -/
def maxKeyLength : Nat := 1024

/-- Whether a possible key can still be one; an error if it must be one and cannot. -/
def keyStands? (s : Scanner) (k : PendingKey) : Option Bool :=
  if !k.possible then some false
  else if k.line < s.place.line || k.index + maxKeyLength < s.place.index then
    if k.required then none else some false
  else some true

/-- Opens a block if the column is further right than the indentation.  The token is put at the
given number, or at the end. -/
def roll (s : Scanner) (column : Nat) (number : Option Nat) (t : Token) : Option Scanner :=
  if s.flow > 0 || s.indent ≥ column then some s
  else if s.outer.length ≥ maxNesting then none
  else
    some { s with
      outer := s.indent :: s.outer
      indent := column
      tokens := s.tokens.insertIdxIfInBounds (number.getD s.tokens.size) t }

/-- Closes the blocks that are further right than a column, at most so many. -/
def unrollAt (column : Int) : Nat → Scanner → Scanner
  | 0, s => s
  | n + 1, s =>
    if s.indent > column then
      unrollAt column n
        { s.push .blockEnd with indent := s.outer.headD (-1), outer := s.outer.tail }
    else s

/-- Closes the blocks that are further right than a column. -/
def unroll (s : Scanner) (column : Int) : Scanner :=
  if s.flow > 0 then s else unrollAt column (s.outer.length + 1) s

/-- Passes blanks, comments and line ends.  Tabs are no blanks where a key may start. -/
def skipGap : Nat → Scanner → Scanner
  | 0, s => s
  | fuel + 1, s =>
    let tabs := s.flow > 0 || !s.keyAllowed
    let c := if s.place.column = 0 && s.place.index < s.marked then s.place.skip 1 else s.place
    let c := (c.takeWhile fun ch => ch = ' ' || (tabs && ch = '\t')).2
    let c := if c.sees '#' then c.skipComments s.size else c
    match c.peek with
    | some ch =>
      if isBreak ch then
        skipGap fuel { s with place := c.skipLine, keyAllowed := s.keyAllowed || s.flow = 0 }
      else { s with place := c }
    | none => { s with place := c }

def mark (s : Scanner) (t : Token) (n : Nat) : Scanner :=
  { s.push t with place := s.place.skip n }

def finish (s : Scanner) : Scanner := { s with place := s.place.skipLineComment }

/-- The end of the text, which ends its line too. -/
def streamEnd (s : Scanner) : Option Scanner := do
  let c := s.place
  let place := if c.column = 0 then c else { c with column := 0, line := c.line + 1 }
  let s ← ({ s with place }.unroll (-1)).dropKey
  return { s.push .streamEnd with keyAllowed := false }

def documentMark (s : Scanner) (t : Token) : Option Scanner := do
  let s ← (s.unroll (-1)).dropKey
  return { s with keyAllowed := false }.mark t 3

def flowStart (s : Scanner) (t : Token) : Option Scanner := do
  let s ← s.saveKey
  if s.flow ≥ maxNesting then none
  let k : PendingKey := { number := s.tokens.size }
  return { s with flow := s.flow + 1, keys := s.keys.push k, keyAllowed := true }.mark t 1

def flowEnd (s : Scanner) (t : Token) : Option Scanner := do
  let s ← s.dropKey
  let s :=
    if s.flow > 0 then { s.unwatch s.key.number with flow := s.flow - 1, keys := s.keys.pop }
    else s
  return { s with keyAllowed := false }.mark t 1

def flowEntry (s : Scanner) : Option Scanner := do
  let s ← s.dropKey
  return { s with keyAllowed := true }.mark .flowEntry 1

def blockEntry (s : Scanner) : Option Scanner := do
  if s.flow = 0 && !s.keyAllowed then none
  let s ← (← s.roll s.place.column none .blockSequence).dropKey
  return { s with keyAllowed := true }.mark .blockEntry 1

def explicitKey (s : Scanner) : Option Scanner := do
  if s.flow = 0 && !s.keyAllowed then none
  let s ← (← s.roll s.place.column none .blockMapping).dropKey
  return { s with keyAllowed := s.flow = 0 }.mark .key 1

/-- A colon after a key. -/
def value (s : Scanner) : Option Scanner := do
  let k := s.key
  if ← s.keyStands? k then
    let s := { s with tokens := s.tokens.insertIdxIfInBounds k.number .key }
    let s ← s.roll k.column (some k.number) .blockMapping
    return { s.clearKey with keyAllowed := false }.mark .value 1
  else
    let s := s.setKey { k with possible := false }
    if s.flow = 0 && !s.keyAllowed then none
    let s ← s.roll s.place.column none .blockMapping
    return { s with keyAllowed := s.flow = 0 }.mark .value 1

/-- The characters that may follow the name of an anchor. -/
def afterAnchor (ch : Option Char) : Bool :=
  isEdge ch || ch.any fun c => ['?', ':', ',', ']', '\x7d', '%', '@', Char.ofNat 0x60].contains c

def anchor (s : Scanner) (make : String → Token) : Option Scanner := do
  let s ← s.saveKey
  let (name, c) := (s.place.skip 1).takeWhile isNameChar
  if name.isEmpty || !afterAnchor c.peek then none
  return { s.push (make (String.ofList name)) with place := c, keyAllowed := false }

def tag (s : Scanner) : Option Scanner := do
  let s ← s.saveKey
  let (h, suffix, c) ← tagParts s.place
  if !isEdge c.peek then none
  return { s.push (.tag h suffix) with place := c, keyAllowed := false }

def blockScalar (s : Scanner) (literal : Bool) : Option Scanner := do
  let s ← s.dropKey
  let (text, c) ← blockText literal s.indent (s.place.skip 1)
  return { s.push (.scalar (String.ofList text) false) with place := c, keyAllowed := true }

def quotedScalar (s : Scanner) (single : Bool) : Option Scanner := do
  let s ← s.saveKey
  let (text, c) ← quoted single s.place
  return { s.push (.scalar (String.ofList text) false) with place := c, keyAllowed := false }

/-- A plain scalar.  A comment only follows it in the same line if the line did not end. -/
def plainScalar (s : Scanner) : Option Scanner := do
  let s ← s.saveKey
  let (text, c, broken) ← plain (s.flow > 0) (s.indent + 1).toNat s.place
  let s := { s.push (.scalar (String.ofList text) true) with place := c, keyAllowed := broken }
  return if broken then s else s.finish

def number? (c : Cursor) : Option (Nat × Cursor) :=
  let (digits, c) := c.takeWhile Char.isDigit
  if digits.isEmpty || digits.length > 2 then none
  else some (digits.foldl (fun n d => 10 * n + (d.toNat - '0'.toNat)) 0, c)

/-- The token of a directive with a name, at the place after the name. -/
def directiveToken? (name : List Char) (c : Cursor) : Option (Token × Cursor) := do
  let c := c.skipBlanks
  if name = "YAML".toList then
    let (major, c) ← number? c
    if !c.sees '.' then none
    let (minor, c) ← number? (c.skip 1)
    return (.version major minor, c)
  else if name = "TAG".toList then
    if !c.sees '!' then none
    let (h, c) := handle c
    if !(h = ['!'] || isClosedHandle h) || !(c.peek.any isBlank) then none
    let (start, c) ← address? c.skipBlanks
    if !isEdge c.peek then none
    return (.tagHandle (String.ofList h) (String.ofList start), c)
  else none

def directive (s : Scanner) : Option Scanner := do
  let s ← (s.unroll (-1)).dropKey
  let (name, c) := (s.place.skip 1).takeWhile isNameChar
  if name.isEmpty || !isEdge c.peek then none
  let (t, c) ← directiveToken? name c
  let c ← c.finishLine?
  return { s.push t with place := c, keyAllowed := false }

/-- The characters that start no plain scalar on their own. -/
def indicators : List Char :=
  ['-', '?', ':', ',', '[', ']', '\x7b', '\x7d', '#', '&', '*', '!', '|', '>', '\'', '"', '%', '@',
    Char.ofNat 0x60]

/-- A plain scalar starts with the character, given the one after it. -/
def startsPlain (flow : Bool) (ch : Char) (after : Option Char) : Bool :=
  !(isEdge (some ch) || indicators.contains ch) || (ch = '-' && !after.any isBlank) ||
    (!flow && (ch = '?' || ch = ':') && !isEdge after)

/-- The token that starts with a character, and those that its place makes necessary.  A comment
that follows in the same line is passed, except after a dash or a mark between documents. -/
def fetchAt (s : Scanner) (ch : Char) : Option Scanner :=
  let after := s.place.peekAt 1
  let inFlow : Bool := s.flow > 0
  if s.place.column = 0 && ch = '%' then s.directive
  else if s.place.atMarker then
    s.documentMark (if ch = '-' then .documentStart else .documentEnd)
  else if ch = '-' && isEdge after then s.blockEntry
  else if ch = '|' && !inFlow then s.blockScalar true
  else if ch = '>' && !inFlow then s.blockScalar false
  else if startsPlain inFlow ch after then s.plainScalar
  else
    finish <$>
      if ch = '[' then s.flowStart .flowSequence
      else if ch = '\x7b' then s.flowStart .flowMapping
      else if ch = ']' then s.flowEnd .flowSequenceEnd
      else if ch = '\x7d' then s.flowEnd .flowMappingEnd
      else if ch = ',' then s.flowEntry
      else if ch = '?' && (inFlow || isEdge after) then s.explicitKey
      else if ch = ':' && (inFlow || isEdge after) then s.value
      else if ch = '*' then s.anchor .alias
      else if ch = '&' then s.anchor .anchor
      else if ch = '!' then s.tag
      else if ch = '\'' then s.quotedScalar true
      else if ch = '"' then s.quotedScalar false
      else none

/-- The number of characters that are looked at before a token is read. -/
def reach : Nat := 4

/-- The next token, and those that its place makes necessary. -/
def fetch (s : Scanner) : Option Scanner := do
  let s := skipGap s.size s
  let short := (s.place.rest.drop (reach - 1)).isEmpty
  if s.cut && short then none
  match s.place.peek with
  | none => s.streamEnd
  | some ch =>
    let marked := if s.place.index + reach > s.marked then 0 else s.marked
    let s ← fetchAt ({ s with marked }.unroll s.place.column) ch
    if s.cut && s.place.rest.all isBlank then none
    return s

/-- The token with a number and the two after it are known, and it is known whether the first one is
a key; an error if it must be one and cannot. -/
def supplied? (s : Scanner) (number : Nat) : Option Bool :=
  if number + 2 < s.tokens.size then
    match s.watched.lookup number with
    | none => some true
    | some level => (s.keyStands? (s.keys[level]?.getD {})).map (!·)
  else some false

/-- Cuts off tokens until those from a number on are supplied.  The tokens before it are not waited
for any more. -/
def supply (number : Nat) : Nat → Scanner → Option Scanner
  | 0, _ => none
  | fuel + 1, s => do
    if ← s.supplied? number then
      return { s with watched := s.watched.filter fun (other, _) => number ≤ other }
    supply number fuel (← s.fetch)

end Scanner
end Yaml
end DefUse
