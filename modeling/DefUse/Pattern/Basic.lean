import DefUse.Text.Fold

/-!
# Patterns

A pattern describes texts.  Matching follows the positions of a text that a pattern can lead to
from a set of positions, so that it needs no search with backing up.

**Results.** `Pattern.advance` gives the positions that a pattern leads to, and `Pattern.search`
says whether some part of a text matches.
-/

namespace DefUse

/-- A set of characters, by ranges of their numbers. -/
abbrev Ranges := List (Nat × Nat)

/-- A part of a class of characters. -/
structure ClassItem where
  /-- The characters outside the ranges are meant. -/
  negated : Bool
  /-- The ranges. -/
  ranges : Ranges
  deriving DecidableEq, Repr

/-- A pattern. -/
inductive Pattern where
  /-- The empty text. -/
  | empty
  /-- A character, possibly of either case. -/
  | literal (n : Nat) (fold : Bool)
  /-- A character of a class, or outside of it. -/
  | oneOf (negated fold : Bool) (items : List ClassItem)
  /-- Any character; a new line only if `newline` is set. -/
  | any (newline : Bool)
  /-- The start of the text, or of a line. -/
  | start (line : Bool)
  /-- The end of the text, or of a line. -/
  | stop (line : Bool)
  /-- A place between a character of a word and one of none, or any other place. -/
  | boundary (negated : Bool)
  /-- One pattern after the other. -/
  | concat (first second : Pattern)
  /-- One of two patterns. -/
  | either (first second : Pattern)
  /-- A pattern at least `least` times, and at most `most` times if there is a bound. -/
  | repeated (least : Nat) (most : Option Nat) (inner : Pattern)
  deriving DecidableEq, Repr

namespace ClassItem

/-- The ranges hold a character, or one that differs from it by case if `fold` is set. -/
def holds (fold : Bool) (ranges : Ranges) (n : Nat) : Bool :=
  (if fold then Text.foldClass n else [n]).any fun m =>
    ranges.any fun (lo, hi) => lo ≤ m && m ≤ hi

def accepts (fold : Bool) (item : ClassItem) (n : Nat) : Bool :=
  holds fold item.ranges n != item.negated

end ClassItem

namespace Pattern

/-- The texts of patterns one after the other. -/
def concatAll : List Pattern → Pattern
  | [] => empty
  | [p] => p
  | p :: rest => concat p (concatAll rest)

def eitherOf : List Pattern → Pattern
  | [] => empty
  | [p] => p
  | p :: rest => either p (eitherOf rest)

/-- A letter, a digit or the underscore. -/
def isWord (n : Nat) : Bool :=
  (0x30 ≤ n && n ≤ 0x39) || (0x41 ≤ n && n ≤ 0x5a) || n = 0x5f || (0x61 ≤ n && n ≤ 0x7a)

def newlineNumber : Nat := 0x0a

/-- Moves over one character of a text that passes a test. -/
def overOne (text : Array Nat) (test : Nat → Bool) (places : List Nat) : List Nat :=
  places.filterMap fun i =>
    match text[i]? with
    | some n => if test n then some (i + 1) else none
    | none => none

/-- The character before a place is part of a word. -/
def wordBefore (text : Array Nat) (i : Nat) : Bool := 0 < i && (text[i - 1]?).any isWord

/-- The character after a place is part of a word. -/
def wordAfter (text : Array Nat) (i : Nat) : Bool := (text[i]?).any isWord

/-- Does something to a set of places a number of times, and collects what is met on the way. -/
def collect (f : List Nat → List Nat) : Nat → List Nat → List Nat
  | 0, places => places
  | n + 1, places => (places ++ collect f n (f places)).eraseDups

/-- Adds to a set of places what they lead to, until nothing is new. -/
def saturate (f : List Nat → List Nat) : Nat → List Nat → List Nat
  | 0, places => places
  | n + 1, places =>
    let fresh := (f places).filter (!places.contains ·)
    if fresh.isEmpty then places else saturate f n (places ++ fresh.eraseDups)

/-- The places that a pattern leads to from a set of places of a text. -/
def advance (text : Array Nat) : Pattern → List Nat → List Nat
  | empty, places => places
  | literal n fold, places =>
    overOne text (fun m => if fold then Text.sameLetter m n else m = n) places
  | oneOf negated fold items, places =>
    overOne text (fun m => items.any (·.accepts fold m) != negated) places
  | any newline, places => overOne text (fun m => newline || m ≠ newlineNumber) places
  | start line, places =>
    places.filter fun i => i = 0 || (line && text[i - 1]? = some newlineNumber)
  | stop line, places =>
    places.filter fun i => i = text.size || (line && text[i]? = some newlineNumber)
  | boundary negated, places =>
    places.filter fun i => (wordBefore text i != wordAfter text i) != negated
  | concat first second, places => advance text second (advance text first places)
  | either first second, places =>
    (advance text first places ++ advance text second places).eraseDups
  | repeated least most inner, places =>
    let step := fun (places : List Nat) => (advance text inner places).eraseDups
    let reached := Nat.repeat step least places
    match most with
    | some n => collect step (n - least) reached
    | none => saturate step (text.size + 1) reached

/-- Some part of the text matches the pattern. -/
def search (p : Pattern) (text : String) : Bool :=
  let numbers := (text.toList.map Char.toNat).toArray
  !(p.advance numbers (List.range (numbers.size + 1))).isEmpty

/-- The bounds of nested repetitions do not multiply to more than a limit. -/
def fits : Nat → Pattern → Bool
  | limit, repeated least most inner =>
    let m := most.getD least
    if most = some 0 then true
    else m ≤ limit && fits (if m = 0 then limit else limit / m) inner
  | limit, concat first second => fits limit first && fits limit second
  | limit, either first second => fits limit first && fits limit second
  | _, _ => true

end Pattern
end DefUse
