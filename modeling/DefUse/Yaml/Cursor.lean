/-!
# Walking through a text

**Results.** `Cursor` is a place in a text with its line and column.  `Gap` is a run of blanks and
line ends between two parts of a text; `Gap.join` says what is left of it when lines are joined.
-/

namespace DefUse
namespace Yaml

def isBlank (c : Char) : Bool := c = ' ' || c = '\t'

def isBreak (c : Char) : Bool :=
  c = '\n' || c = '\r' || c.toNat = 0x85 || c.toNat = 0x2028 || c.toNat = 0x2029

/-- A blank, a line end or the end of the text. -/
def isEdge : Option Char → Bool
  | none => true
  | some c => isBlank c || isBreak c

def isLineEdge : Option Char → Bool
  | none => true
  | some c => isBreak c

def isNameChar (c : Char) : Bool := c.isAlphanum || c = '_' || c = '-'

/-- The characters that a line end leaves in a text. -/
def lineEnd (c : Char) : Char :=
  if c = '\r' || c.toNat = 0x85 then '\n' else c

/-- A place in a text. -/
structure Cursor where
  /-- The text from the place on. -/
  rest : List Char
  /-- The number of characters before the place. -/
  index : Nat := 0
  /-- The number of lines before the place. -/
  line : Nat := 0
  /-- The number of characters before the place in its line. -/
  column : Nat := 0

namespace Cursor

def peek (c : Cursor) : Option Char := c.rest.head?

def peekAt (c : Cursor) (n : Nat) : Option Char := c.rest[n]?

def sees (c : Cursor) (ch : Char) : Bool := c.peek = some ch

/-- The place some characters further, in the same line. -/
def skip (c : Cursor) (n : Nat) : Cursor :=
  { c with rest := c.rest.drop n, index := c.index + n, column := c.column + n }

def skipLine (c : Cursor) : Cursor :=
  let n := if c.sees '\r' && c.peekAt 1 = some '\n' then 2 else 1
  { rest := c.rest.drop n, index := c.index + n, line := c.line + 1, column := 0 }

/-- The characters from the place on that pass a test, and the place after them. -/
def takeWhile (c : Cursor) (test : Char → Bool) : List Char × Cursor :=
  let taken := c.rest.takeWhile test
  (taken, c.skip taken.length)

def skipBlanks (c : Cursor) : Cursor := (c.takeWhile isBlank).2

def skipToLineEnd (c : Cursor) : Cursor := (c.takeWhile fun ch => !isBreak ch).2

/-- The place is before a mark between documents. -/
def atMarker (c : Cursor) : Bool :=
  c.column = 0 && ("---".toList.isPrefixOf c.rest || "...".toList.isPrefixOf c.rest) &&
    isEdge (c.peekAt 3)

/-- The place after so many blanks and line ends at most. -/
def skipGap : Nat → Cursor → Cursor
  | 0, c => c
  | fuel + 1, c =>
    match c.peek with
    | some ch =>
      if isBlank ch then skipGap fuel (c.skip 1)
      else if isBreak ch then skipGap fuel c.skipLine
      else c
    | none => c

/-- How far ahead a comment is looked for. -/
def commentReach : Nat := 512

/-- The place at the end of the comments that start here.  A comment in a further line goes with
them if only blanks and line ends stand before it. -/
def skipComments : Nat → Cursor → Cursor
  | 0, c => c
  | fuel + 1, c =>
    let c := c.skipToLineEnd
    let gap := (c.rest.takeWhile fun ch => isBlank ch || ch = '\n' || ch = '\r').length
    if gap < commentReach && c.peekAt gap = some '#' then skipComments fuel (c.skipGap gap) else c

/-- The place at the end of the comment that follows in the same line, if there is one. -/
def skipLineComment (c : Cursor) : Cursor :=
  let (blanks, after) := c.takeWhile isBlank
  if blanks.length < commentReach && after.sees '#' then after.skipToLineEnd else c

/-- The place after blanks and a comment, if the line ends there; the line end is passed too. -/
def finishLine? (c : Cursor) : Option Cursor :=
  let c := c.skipBlanks
  let c := if c.sees '#' then c.skipToLineEnd else c
  match c.peek with
  | none => some c
  | some ch => if isBreak ch then some c.skipLine else none

end Cursor

/-- Blanks and line ends between two parts of a text. -/
structure Gap where
  /-- The blanks, if there is no line end. -/
  blanks : List Char := []
  /-- The first line end. -/
  first : List Char := []
  /-- The other line ends. -/
  more : List Char := []
  /-- The line ended. -/
  broken : Bool := false

namespace Gap

/-- What a gap leaves in the text: blanks stay, one line end becomes a blank, and of several the
first one is dropped. -/
def join (g : Gap) : List Char :=
  if !g.broken then g.blanks
  else if g.first = ['\n'] then (if g.more.isEmpty then [' '] else g.more)
  else g.first ++ g.more

/-- Passes a gap.  A tab before the column `least` of a further line is an error. -/
def scan (least : Nat) : Nat → Cursor → Gap → Option (Gap × Cursor)
  | 0, c, g => some (g, c)
  | fuel + 1, c, g =>
    match c.peek with
    | none => some (g, c)
    | some ch =>
      if isBlank ch then
        if !g.broken then scan least fuel (c.skip 1) { g with blanks := g.blanks ++ [ch] }
        else if ch = '\t' && c.column < least then none
        else scan least fuel (c.skip 1) g
      else if isBreak ch then
        if g.broken then
          scan least fuel c.skipLine { g with more := g.more ++ [lineEnd ch] }
        else
          scan least fuel c.skipLine { first := [lineEnd ch], broken := true }
      else some (g, c)

end Gap

end Yaml
end DefUse
