/-!
# Positions in source files

The files of a program share one line of numbered positions.  A file owns the positions from its
base on, one for each octet and one for its end.

**Results.** `Files.position` gives the file, line and column of a position.
-/

namespace DefUse
namespace Source

/-- A source file and the positions that belong to it. -/
structure File where
  /-- The name of the file. -/
  name : String
  /-- Its first position. -/
  base : Int
  /-- The number of its octets. -/
  size : Int
  /-- Where its lines start, counted from the base. -/
  lines : List Int
  deriving DecidableEq, Repr

/-- A place in a file, as it is shown. -/
structure Position where
  /-- The name of the file. -/
  file : String := ""
  /-- The line, from one on; zero if the place is unknown. -/
  line : Int := 0
  /-- The column, from one on, in octets. -/
  column : Int := 0
  deriving DecidableEq, Repr

def Position.isKnown (p : Position) : Bool := p.line > 0

/-- The last part of the name of a file; an empty name is the current folder. -/
def baseName (name : String) : String :=
  let trimmed := (name.toList.reverse.dropWhile (· = '/')).takeWhile (· ≠ '/')
  if name.isEmpty then "."
  else if trimmed.isEmpty then "/"
  else String.ofList trimmed.reverse

/-- A place with the last part of the name of its file. -/
def Position.label (p : Position) : String :=
  baseName p.file ++ ":" ++ toString p.line ++ ":" ++ toString p.column

namespace File

def owns (f : File) (pos : Int) : Bool := f.base ≤ pos && pos ≤ f.base + f.size

/-- The place of a position that the file owns. -/
def position (f : File) (pos : Int) : Position :=
  let offset := pos - f.base
  let before := f.lines.takeWhile (· ≤ offset)
  { file := f.name
    line := before.length
    column := offset - before.getLastD 0 + 1 }

end File

abbrev Files := List File

/-- The place of a position; a position that no file owns is unknown. -/
def Files.position (files : Files) (pos : Int) : Position :=
  match files.find? (·.owns pos) with
  | some f => f.position pos
  | none => {}

end Source
end DefUse
