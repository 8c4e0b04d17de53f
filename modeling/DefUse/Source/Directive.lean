import DefUse.Source.Position
import DefUse.Text.Blank

/-!
# Directives in comments

A comment can tell the analysis to ignore a line.

**Results.** `Directive.parse?` reads a comment; `Directives.ignores` says whether a line is
ignored: the comment stands on the line or on the one above it.
-/

namespace DefUse
namespace Source

/-- The text after the first occurrence of a mark. -/
def after? (mark : List Char) : List Char → Option (List Char)
  | [] => if mark.isEmpty then some [] else none
  | c :: rest =>
    if mark.isPrefixOf (c :: rest) then some ((c :: rest).drop mark.length)
    else after? mark rest

/-- The kind of the directive that tells to ignore a line. -/
def ignoreKind : String := "ignore"

/-- The kind of the directive in a comment, if it holds one. -/
def directive? (comment : String) : Option String := do
  let rest ← after? "dua:".toList comment.toList
  if Text.trimChars rest = ignoreKind.toList then some ignoreKind else none

/-- A directive at a line of a file. -/
structure Directive where
  /-- The name of the file. -/
  file : String
  /-- The line. -/
  line : Int
  /-- What it tells. -/
  kind : String
  deriving DecidableEq, Repr

/-- Six digits or more. -/
def padLine (n : Int) : String :=
  let digits := (toString n.natAbs).toList
  let width := if n < 0 then 5 else 6
  (if n < 0 then "-" else "") ++
    String.ofList (List.replicate (width - digits.length) '0' ++ digits)

def Directive.render (d : Directive) : String := d.file ++ ":" ++ padLine d.line ++ ":" ++ d.kind

/-- The directives of a program; of two at the same line the later one counts. -/
abbrev Directives := List Directive

namespace Directives

def find? (ds : Directives) (file : String) (line : Int) : Option Directive :=
  ds.findRev? fun d => d.file = file && d.line = line

def ignores (ds : Directives) (p : Position) : Bool :=
  [p.line, p.line - 1].any fun line => (ds.find? p.file line).any (·.kind = ignoreKind)

end Directives

end Source
end DefUse
