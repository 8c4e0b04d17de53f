import DefUse.Text.Hex
import DefUse.Yaml.Cursor

/-!
# The texts of scalars

**Results.** `plain`, `quoted` and `blockText` read the three forms of scalars from a place on.
-/

namespace DefUse
namespace Yaml

/-- The marks that end a plain scalar inside brackets. -/
def flowMarks : List Char := [',', '?', '[', ']', '\x7b', '\x7d']

/-- The number of characters up to a blank or a mark that ends a plain scalar. -/
def segmentLength (flow : Bool) : List Char → Nat
  | [] => 0
  | c :: rest =>
    if isEdge (some c) || (c = ':' && isEdge rest.head?) || (flow && flowMarks.contains c) then 0
    else segmentLength flow rest + 1

/-- The rest of a plain scalar after some text and a gap: its text, the place after it, and whether
the line ended before that place. -/
def plainFrom (flow : Bool) (least : Nat) :
    Nat → Cursor → List Char → Gap → Option (List Char × Cursor × Bool)
  | 0, c, text, gap => some (text, c, gap.broken)
  | fuel + 1, c, text, gap =>
    if c.atMarker || c.sees '#' then some (text, c, gap.broken)
    else
      let n := segmentLength flow c.rest
      if n = 0 then some (text, c, gap.broken)
      else
        let text := text ++ gap.join ++ c.rest.take n
        let c := c.skip n
        match c.peek with
        | none => some (text, c, false)
        | some ch =>
          if !(isBlank ch || isBreak ch) then some (text, c, false)
          else
            match Gap.scan least (c.rest.length + 1) c {} with
            | none => none
            | some (gap, c) =>
              if !flow && c.column < least then some (text, c, gap.broken)
              else plainFrom flow least fuel c text gap

/-- A plain scalar whose further lines start at the column `least` or later. -/
def plain (flow : Bool) (least : Nat) (c : Cursor) : Option (List Char × Cursor × Bool) :=
  plainFrom flow least (c.rest.length + 1) c [] {}

/-- The characters that stand for a letter after a backslash. -/
def escapes : List (Char × Nat) :=
  [('0', 0), ('a', 0x07), ('b', 0x08), ('t', 0x09), ('\t', 0x09), ('n', 0x0a), ('v', 0x0b),
    ('f', 0x0c), ('r', 0x0d), ('e', 0x1b), (' ', 0x20), ('"', 0x22), ('\'', 0x27), ('\\', 0x5c),
    ('N', 0x85), ('_', 0xa0), ('L', 0x2028), ('P', 0x2029)]

/-- The number of hexadecimal digits after a letter. -/
def hexWidth? : Char → Option Nat
  | 'x' => some 2
  | 'u' => some 4
  | 'U' => some 8
  | _ => none

/-- The character after a backslash, at the place of the backslash. -/
def escaped? (c : Cursor) : Option (Char × Cursor) := do
  let letter ← c.peekAt 1
  match hexWidth? letter with
  | none =>
    let n ← escapes.lookup letter
    return (Char.ofNat n, c.skip 2)
  | some width =>
    let digits := (c.rest.drop 2).take width
    if digits.length = width && digits.all Text.isHex then
      let n := Text.hexValue digits
      if n.isValidChar then some (Char.ofNat n, c.skip (2 + width)) else none
    else none

/-- The characters of one line of a scalar between quotes, and whether the line end after them is
escaped. -/
def quotedSegment (single : Bool) : Nat → Cursor → Option (List Char × Cursor × Bool)
  | 0, c => some ([], c, false)
  | fuel + 1, c =>
    match c.peek with
    | none => some ([], c, false)
    | some ch =>
      if isBlank ch || isBreak ch then some ([], c, false)
      else if single && ch = '\'' then
        if c.peekAt 1 = some '\'' then do
          let (text, c, joined) ← quotedSegment single fuel (c.skip 2)
          return ('\'' :: text, c, joined)
        else some ([], c, false)
      else if !single && ch = '"' then some ([], c, false)
      else if !single && ch = '\\' then
        if (c.peekAt 1).any isBreak then some ([], (c.skip 1).skipLine, true)
        else do
          let (x, c) ← escaped? c
          let (text, c, joined) ← quotedSegment single fuel c
          return (x :: text, c, joined)
      else do
        let (text, c, joined) ← quotedSegment single fuel (c.skip 1)
        return (ch :: text, c, joined)

/-- The rest of a scalar between quotes, and the place after the closing quote. -/
def quotedFrom (single : Bool) : Nat → Cursor → List Char → Option (List Char × Cursor)
  | 0, _, _ => none
  | fuel + 1, c, text =>
    if c.atMarker || c.rest.isEmpty then none
    else
      match quotedSegment single (c.rest.length + 1) c with
      | none => none
      | some (segment, c, joined) =>
        let text := text ++ segment
        if c.sees (if single then '\'' else '"') then some (text, c.skip 1)
        else
          match Gap.scan 0 (c.rest.length + 1) c { broken := joined } with
          | none => none
          | some (gap, c) => quotedFrom single fuel c (text ++ gap.join)

/-- A scalar between quotes, at the place of the opening quote. -/
def quoted (single : Bool) (c : Cursor) : Option (List Char × Cursor) :=
  quotedFrom single (c.rest.length + 1) (c.skip 1) []

/-- What happens to the line ends after the text of a block. -/
inductive Chomp where
  /-- They are dropped. -/
  | strip
  /-- One stays. -/
  | clip
  /-- All stay. -/
  | keep
  deriving DecidableEq, Repr

def chomp? : Option Char → Option Chomp
  | some '+' => some .keep
  | some '-' => some .strip
  | _ => none

def increment? (ch : Option Char) : Option Nat :=
  match ch with
  | some d => if d.isDigit then some (d.toNat - '0'.toNat) else none
  | none => none

/-- The marks after the sign of a block: its chomping, its indentation if given, and the rest. -/
def blockHeader? (c : Cursor) : Option (Chomp × Option Nat × Cursor) := do
  let (chomp, increment, c) :=
    match chomp? c.peek, increment? c.peek with
    | some chomp, _ =>
      match increment? (c.peekAt 1) with
      | some n => (chomp, some n, c.skip 2)
      | none => (chomp, none, c.skip 1)
    | none, some n =>
      match chomp? (c.peekAt 1) with
      | some chomp => (chomp, some n, c.skip 2)
      | none => (Chomp.clip, some n, c.skip 1)
    | none, none => (Chomp.clip, none, c)
  if increment = some 0 then none
  let c ← c.finishLine?
  return (chomp, increment, c)

/-- Passes the indentation of lines without text, and gives their line ends and the greatest column
met.  Without a known indentation every blank counts as indentation. -/
def blockGap (indent : Option Nat) :
    Nat → Cursor → List Char → Nat → Option (List Char × Nat × Cursor)
  | 0, c, breaks, widest => some (breaks, widest, c)
  | fuel + 1, c, breaks, widest =>
    let open' : Bool := indent.all (c.column < ·)
    if c.sees ' ' && open' then blockGap indent fuel (c.skip 1) breaks widest
    else
      let widest := max widest c.column
      if c.sees '\t' && open' then none
      else
        match c.peek with
        | none => some (breaks, widest, c)
        | some ch =>
          if isBreak ch then blockGap indent fuel c.skipLine (breaks ++ [lineEnd ch]) widest
          else some (breaks, widest, c)

/-- The lines of a block and its last line ends. -/
structure BlockText where
  /-- The text so far. -/
  text : List Char := []
  /-- The line end after it. -/
  last : List Char := []
  /-- The line ends of the lines without text after it. -/
  more : List Char := []
  /-- The last line starts with a blank. -/
  blank : Bool := false

def blockLines (literal : Bool) (indent : Nat) :
    Nat → Cursor → BlockText → Option (BlockText × Cursor)
  | 0, c, b => some (b, c)
  | fuel + 1, c, b =>
    if c.column ≠ indent || c.rest.isEmpty then some (b, c)
    else
      let blank := c.peek.any isBlank
      let joint : List Char :=
        if !literal && !b.blank && !blank && b.last = ['\n'] then
          (if b.more.isEmpty then [' '] else [])
        else b.last
      let (line, c) := c.takeWhile fun ch => !isBreak ch
      let text := b.text ++ joint ++ b.more ++ line
      let (last, c) :=
        match c.peek with
        | some ch => ([lineEnd ch], c.skipLine)
        | none => ([], c)
      match blockGap (some indent) (c.rest.length + 1) c [] 0 with
      | none => none
      | some (more, _, c) => blockLines literal indent fuel c { text, last, more, blank }

/-- The text of a block, at the place after its sign; `outer` is the indentation around it. -/
def blockText (literal : Bool) (outer : Int) (c : Cursor) : Option (List Char × Cursor) := do
  let (chomp, increment, c) ← blockHeader? c
  let fixed := increment.map fun n => if outer ≥ 0 then outer.toNat + n else n
  let (more, widest, c) ← blockGap fixed (c.rest.length + 1) c [] 0
  let indent := fixed.getD (max widest (max (outer + 1).toNat 1))
  let (b, c) ← blockLines literal indent (c.rest.length + 1) c { more }
  let tail :=
    match chomp with
    | .strip => []
    | .clip => b.last
    | .keep => b.last ++ b.more
  return (b.text ++ tail, c)

end Yaml
end DefUse
