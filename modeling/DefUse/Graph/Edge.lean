/-!
# Edges

**Results.** `Edge.less` orders edges by source, then by target; `Edge.render` writes them with an
arrow.
-/

namespace DefUse

/-- An edge of a control-flow graph. -/
structure Edge where
  /-- The node it leaves. -/
  source : Int
  /-- The node it enters. -/
  target : Int
  deriving DecidableEq, Repr

namespace Edge

def ofPair (p : Int × Int) : Edge := ⟨p.1, p.2⟩

/-- Edges in order of their source, then of their target. -/
def less (a b : Edge) : Bool :=
  if a.source ≠ b.source then a.source < b.source else a.target < b.target

/-- The ends of an edge with an arrow between them. -/
def render (e : Edge) : String :=
  toString e.source ++ "->" ++ toString e.target

end Edge

end DefUse
