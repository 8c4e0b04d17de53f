import DefUse.Association.Set

/-!
# Statistics of an analysis

**Results.** `Stats.ofSet` counts associations by grade and kind; `Stats.summary` is the line that
tells the result of an analysis.
-/

namespace DefUse

/-- The numbers that sum up an analysis. -/
structure Stats where
  /-- The procedures analysed. -/
  procedures : Int := 0
  /-- The associations found. -/
  associations : Int := 0
  /-- Those that are inferrable. -/
  definite : Int := 0
  /-- Those that are inferrable unless a possible kill was covered. -/
  conditional : Int := 0
  /-- Those that are not inferrable. -/
  nonInferrable : Int := 0
  /-- Those on the heap. -/
  heap : Int := 0
  /-- Those between two procedures. -/
  interprocedural : Int := 0
  /-- Those with a path expression. -/
  pathExpressions : Int := 0
  /-- Those with a path warning. -/
  pathWarnings : Int := 0
  /-- Path expressions were asked for and not computed. -/
  pathsSkipped : Bool := false
  deriving DecidableEq, Repr

namespace Stats

/-- The numbers of a set of associations, of which some have path expressions. -/
def ofSet (set : AssociationSet) (procedures pathExpressions : Nat) (pathsSkipped : Bool) :
    Stats where
  procedures := procedures
  associations := set.items.length
  definite := set.count .definite
  conditional := set.count .conditional
  nonInferrable := set.count .nonInferrable
  heap := set.items.countP (·.heap)
  interprocedural := set.items.countP (·.isInterprocedural)
  pathExpressions := pathExpressions
  pathWarnings := set.items.countP (·.pathWarning)
  pathsSkipped := pathsSkipped

def summary (s : Stats) : String :=
  s!"{s.associations} DUAs in {s.procedures} procedures: {s.definite} definitely inferrable, " ++
  s!"{s.conditional} conditionally inferrable, {s.nonInferrable} non-inferrable; " ++
  s!"{s.heap} heap, {s.interprocedural} interprocedural; " ++
  s!"{s.pathExpressions} path expressions, {s.pathWarnings} with warnings"

end Stats

end DefUse
