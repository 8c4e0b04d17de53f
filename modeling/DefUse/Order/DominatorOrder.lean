import DefUse.Graph.DominatorTree
import DefUse.Program.Basic

/-!
# Dominance from numbered dominator trees

**Input.** A checked program and a search for immediate dominators.

**Results.** `DominatorOrder.ofProgram` numbers two trees for every procedure: the dominators from
the entry, and the dominators from the exit with every edge turned round.  Points of different
procedures are never ordered by dominance.
-/

namespace DefUse

/-- The numbered dominator trees of a program. -/
structure DominatorOrder where
  /-- The dominators of the nodes of each procedure. -/
  dominators : Array DominatorTree
  /-- The post-dominators of the nodes of each procedure. -/
  postdominators : Array DominatorTree
  deriving DecidableEq, Repr

namespace DominatorOrder

def ofProgram (search : DominatorSearch) (prog : Program) : DominatorOrder :=
  { dominators := prog.procs.map fun f => .ofGraph search f.graph entryId
    postdominators := prog.procs.map fun f => .ofGraph search f.graph.reverse exitId }

/-- The answer of the tree of the procedure that both points are in. -/
def lookup (trees : Array DominatorTree) (a b : Point) : Except Fault Bool := do
  if a.proc ≠ b.proc then return false
  let tree ← fetch trees a.proc
  tree.dominates? a.node b.node

/-- Every walk from the entry to `b` visits `a`. -/
def dominates? (o : DominatorOrder) (a b : Point) : Except Fault Bool :=
  lookup o.dominators a b

/-- Every walk from `b` to the exit visits `a`. -/
def postdominates? (o : DominatorOrder) (a b : Point) : Except Fault Bool :=
  lookup o.postdominators a b

end DominatorOrder

end DefUse
