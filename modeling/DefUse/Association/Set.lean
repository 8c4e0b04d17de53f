import DefUse.Association.Basic
import DefUse.Fault
import DefUse.Graph.Reach
import DefUse.Sorted

/-!
# Sets of associations

A set lists its associations in the order in which they were added, at most one for a definition
and a use.  It also holds the pairs of a definition and a use that it reaches inside its basic
block.

**Results.** `AssociationSet.add` refuses a second association of the same ends;
`AssociationSet.backwardSlice` and `AssociationSet.forwardSlice` follow associations and pairs of a
block from uses to definitions and from definitions to uses.
-/

namespace DefUse

/-- Associations in the order of their addition, and the pairs inside basic blocks. -/
structure AssociationSet where
  /-- The associations. -/
  items : List Association := []
  /-- The definitions with the uses that they reach inside their basic block. -/
  sameBlock : List (Def × Use) := []
  deriving DecidableEq, Repr

namespace AssociationSet

/-- The association of a definition and a use. -/
def lookup? (s : AssociationSet) (d : Def) (u : Use) : Option Association :=
  s.items.find? fun a => a.definition = d && a.use = u

/-- The set with one more association, unless it has one of the same ends. -/
def add (s : AssociationSet) (a : Association) : Except Violation AssociationSet :=
  match s.lookup? a.definition a.use with
  | some _ => .error (.duplicate a)
  | none => .ok { s with items := s.items ++ [a] }

/-- The set with more associations, up to the first one that is refused. -/
def addAll (s : AssociationSet) (items : List Association) : Except Violation AssociationSet :=
  items.foldlM add s

def at? (s : AssociationSet) (i : Int) : Except Fault Association :=
  fetch s.items.toArray i

def ofDef (s : AssociationSet) (d : Def) : List Association :=
  s.items.filter (·.definition = d)

def ofUse (s : AssociationSet) (u : Use) : List Association :=
  s.items.filter (·.use = u)

def count (s : AssociationSet) (c : Classification) : Nat :=
  s.items.countP (·.classification = c)

/-- The pairs of a definition and a use that it reaches directly. -/
def pairs (s : AssociationSet) : List (Def × Use) :=
  s.items.map (fun a => (a.definition, a.use)) ++ s.sameBlock

/-- The definitions that reach a use directly. -/
def defsInto (s : AssociationSet) (u : Use) : List Def :=
  (s.pairs.filter (·.2 = u)).map Prod.fst

/-- The uses that a definition reaches directly. -/
def usesOutOf (s : AssociationSet) (d : Def) : List Use :=
  (s.pairs.filter (·.1 = d)).map Prod.snd

def usesAt (s : AssociationSet) (site : Point) : List Use :=
  (s.pairs.map Prod.snd).filter (·.site = site)

def defsAt (s : AssociationSet) (site : Point) : List Def :=
  (s.pairs.map Prod.fst).filter (·.site = site)

/-- Uses lead to the uses at the points of the definitions that reach them. -/
def useGraph (s : AssociationSet) (u : Use) : Digraph Use where
  nodes := distinct (u :: s.pairs.map Prod.snd)
  succs := fun u => distinct ((s.defsInto u).flatMap fun d => s.usesAt d.site)

/-- Definitions lead to the definitions at the points of the uses that they reach. -/
def defGraph (s : AssociationSet) (d : Def) : Digraph Def where
  nodes := distinct (d :: s.pairs.map Prod.fst)
  succs := fun d => distinct ((s.usesOutOf d).flatMap fun u => s.defsAt u.site)

/-- The definitions that the value of a use depends on, in order. -/
def backwardSlice (s : AssociationSet) (u : Use) : List Def :=
  sortDistinct Def.less (((s.useGraph u).reach [u]).flatMap s.defsInto)

/-- The uses that depend on the value of a definition, in order. -/
def forwardSlice (s : AssociationSet) (d : Def) : List Use :=
  sortDistinct Use.less (((s.defGraph d).reach [d]).flatMap s.usesOutOf)

/-- The uses that a definition reaches inside its basic block, in order. -/
def sameBlockUses (s : AssociationSet) (d : Def) : List Use :=
  sortDistinct Use.less ((s.sameBlock.filter (·.1 = d)).map Prod.snd)

end AssociationSet

end DefUse
