import DefUse.Program.Point

/-!
# Oracles on the order of execution

The analysis asks an oracle which points may execute after which others.

**Results.** `Oracle.null` knows nothing; `Oracle.ofFacts` knows the listed facts.
-/

namespace DefUse

/-- Answers to questions on the order of execution of two points. -/
structure Oracle where
  /-- Some execution may go from the first point to the second, through one or more edges.  If the
  flag is off, only walks inside the procedure count. -/
  reaches : Point → Point → Bool → Bool
  /-- Every walk from the entry to the second point visits the first. -/
  dominates : Point → Point → Bool
  /-- Every walk from the second point to the exit visits the first. -/
  postdominates : Point → Point → Bool

namespace Oracle

/-- The oracle that knows nothing. -/
def null : Oracle where
  reaches := fun _ _ _ => false
  dominates := fun _ _ => false
  postdominates := fun _ _ => false

/-- The oracle that knows the listed facts and no others. -/
def ofFacts (reaches dominates postdominates : List (Point × Point)) : Oracle where
  reaches := fun a b _ => reaches.contains (a, b)
  dominates := fun a b => dominates.contains (a, b)
  postdominates := fun a b => postdominates.contains (a, b)

end Oracle

end DefUse
