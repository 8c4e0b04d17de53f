import DefUse.Graph.Reach

/-!
# Dominance

A node dominates another one if both are reachable from the root and every walk from the root to
the second one visits the first: without the edges into the first node, the second one is out of
reach.

**Results.** `Digraph.dominated` lists the nodes that a node dominates; turned round, the same
function gives post-dominance.
-/

namespace DefUse
namespace Digraph

variable {α : Type} [DecidableEq α]

/-- The nodes reachable from the root without visiting `a`. -/
def reachAvoiding (g : Digraph α) (root a : α) : List α :=
  (g.avoid a).reach ([root].filter (· ≠ a))

/-- The nodes that `a` dominates, in the order of the search from the root. -/
def dominated (g : Digraph α) (root a : α) : List α :=
  let reachable := g.reach [root]
  if a ∈ reachable then
    let free := g.reachAvoiding root a
    reachable.filter (· ∉ free)
  else []

end Digraph
end DefUse
