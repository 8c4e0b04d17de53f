import DefUse.Graph.Edge
import DefUse.Graph.Reach

/-!
# Back edges

**Input.** A graph and a root.

**Algorithm.** One depth-first search.  A node is open from its visit until all its successors
have been looked at; an edge to an open node is a back edge.

**Results.** `Digraph.backEdges` lists the back edges in the order in which the search meets them.
-/

namespace DefUse
namespace Digraph

/-- What a depth-first search has seen so far. -/
structure DepthSearch (α : Type) where
  /-- The visited nodes, the latest first. -/
  visited : List α := []
  /-- The visited nodes that are no longer open, the latest first. -/
  closed : List α := []
  /-- The back edges, the latest first. -/
  back : List (α × α) := []

namespace DepthSearch

variable {α : Type} [DecidableEq α]

/-- Visits a node and what it leads to, at most `depth` edges deep. -/
def visit (succs : α → List α) : Nat → α → DepthSearch α → DepthSearch α
  | 0, _, s => s
  | depth + 1, v, s =>
    let s := (succs v).foldl
      (fun s w =>
        if w ∉ s.visited then visit succs depth w s
        else if w ∈ s.closed then s
        else { s with back := (v, w) :: s.back })
      { s with visited := v :: s.visited }
    { s with closed := v :: s.closed }

end DepthSearch

variable {α : Type} [DecidableEq α]

def depthSearch (g : Digraph α) (root : α) : DepthSearch α :=
  ({} : DepthSearch α).visit g.succs (g.nodes.length + 1) root

/-- The back edges of the search from a root, in the order in which it meets them. -/
def backEdges (g : Digraph α) (root : α) : List (α × α) :=
  (g.depthSearch root).back.reverse

/-- The first visited node that is not below `n`, or has no row, as a fault. -/
def visitFault (n : Nat) (rows : Array (List Int)) (visited : List Int) : Option Fault :=
  visited.findSome? fun (v : Int) =>
    if 0 ≤ v ∧ v < n then (if (item? rows v).isNone then some ⟨v, rows.size⟩ else none)
    else some ⟨v, n⟩

/-- The back edges of a graph with `n` nodes given as a table; a visited node that is not below
`n`, or has no row, is a fault. -/
def tableBackEdges? (n : Nat) (rows : Array (List Int)) (root : Int) :
    Except Fault (List Edge) :=
  let s := (ofTable rows).depthSearch root
  match visitFault n rows s.visited.reverse with
  | some e => .error e
  | none => .ok (s.back.reverse.map Edge.ofPair)

end Digraph
end DefUse
