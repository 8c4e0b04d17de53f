import DefUse.Pattern.Basic

/-!
# How large patterns are

A pattern may nest only so deep, and the steps that its repetitions unfold to are bounded, as are
the letters and the ends of ranges that it lists.  Depth and steps belong to a normal form: letters
one after the other are one part, a sequence in a sequence is part of the outer one, and so are
alternatives of alternatives; alternatives that are single characters are one class.

**Results.** `Extent` holds the numbers of a pattern; `Extent.sequence`, `Extent.choice`,
`Extent.group` and `Extent.repeated` give those of larger patterns.
-/

namespace DefUse

/-- What a pattern is in its normal form. -/
inductive PatternForm where
  /-- Letters, possibly of either case. -/
  | letters (fold : Bool)
  /-- One character of several. -/
  | oneOf
  /-- The empty text. -/
  | empty
  /-- Parts one after the other. -/
  | sequence
  /-- Alternatives. -/
  | choice
  /-- Anything else. -/
  | other
  deriving DecidableEq, Repr

/-- How large a pattern is. -/
structure Extent where
  /-- What it is. -/
  form : PatternForm := .other
  /-- How deep it nests. -/
  height : Nat := 1
  /-- The greatest height of its parts. -/
  inner : Nat := 0
  /-- The number of steps that it unfolds to. -/
  size : Nat := 1
  deriving DecidableEq, Repr

namespace Extent

def letter (fold : Bool) : Extent := { form := .letters fold }

def isLetters (e : Extent) : Bool :=
  match e.form with
  | .letters _ => true
  | _ => false

/-- A single character stands for the pattern. -/
def isSingle (e : Extent) : Bool :=
  match e.form with
  | .letters _ => e.size = 1
  | .oneOf => true
  | _ => false

def totalSize (es : List Extent) : Nat := es.foldl (fun n e => n + e.size) 0

/-- The greatest height, where parts of the given form count by their own parts. -/
def reach (form : PatternForm) (es : List Extent) : Nat :=
  es.foldl (fun n e => max n (if e.form = form then e.inner else e.height)) 0

def joinLetters : List Extent → List Extent
  | a :: b :: rest =>
    match a.form, joinLetters (b :: rest) with
    | .letters fold, next :: more =>
      if next.form = .letters fold then { next with size := a.size + next.size } :: more
      else a :: next :: more
    | _, joined => a :: joined
  | es => es

/-- Alternatives with neighbouring single characters, and neighbouring empty texts, joined. -/
def joinSingles : List Extent → List Extent
  | a :: b :: rest =>
    match joinSingles (b :: rest) with
    | next :: more =>
      if a.isSingle && next.isSingle then { form := .oneOf } :: more
      else if a.form = .empty && next.form = .empty then next :: more
      else a :: next :: more
    | [] => [a]
  | es => es

def sequence (es : List Extent) : Extent :=
  match joinLetters es with
  | [] => { form := .empty }
  | [e] => e
  | es =>
    let inner := reach .sequence es
    { form := .sequence, height := inner + 1, inner, size := totalSize es }

def choice (es : List Extent) : Extent :=
  match joinSingles es with
  | [] => {}
  | [e] => e
  | es =>
    let inner := reach .choice es
    { form := .choice, height := inner + 1, inner, size := totalSize es + es.length - 1 }

def group (e : Extent) : Extent := { height := e.height + 1, size := e.size + 2 }

/-- A pattern at least `least` times, and at most `most` times if there is a bound. -/
def repeated (least : Nat) (most : Option Nat) (e : Extent) : Extent :=
  let size :=
    match least, most with
    | 0, none => e.size + 2
    | 1, none => e.size + 1
    | n, none => n * e.size + 1
    | n, some m => m * e.size + (m - n)
  { height := e.height + 1, size := max 1 size }

def maxHeight : Nat := 1000

/-- How many steps a pattern may unfold to. -/
def maxSize : Nat := 3355443

/-- How many letters and ends of ranges a pattern may list. -/
def maxMarks : Nat := 33554432

end Extent
end DefUse
