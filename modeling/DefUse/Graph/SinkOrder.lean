import DefUse.Graph.Digraph

/-!
# Orders in which edges lead back

The numbering of paths is given the sort it visits the nodes with.  A sort lists the nodes of a
graph so that every edge leads on, and gives nothing if there is a cycle.

**Input.** A graph.

**Algorithm.** Repeatedly place the first node all of whose successors are placed.

**Results.** `Digraph.sinkOrder?` places every node after all its successors, and gives nothing if
the graph has a cycle; `Digraph.topologicalOrder?` is the sort made from it.
-/

namespace DefUse
namespace Digraph

variable {α : Type} [DecidableEq α]

/-- Places nodes whose successors are all placed until none is left or none can be placed. -/
def placeSinks (succs : α → List α) : Nat → List α → List α → Option (List α)
  | _, [], placed => some placed.reverse
  | 0, _ :: _, _ => none
  | steps + 1, v :: left, placed =>
    match (v :: left).find? fun u => (succs u).all (· ∈ placed) with
    | some u => placeSinks succs steps ((v :: left).erase u) (u :: placed)
    | none => none

/-- The nodes, each after its successors; nothing if there is a cycle. -/
def sinkOrder? (g : Digraph α) : Option (List α) :=
  placeSinks g.succs g.nodes.length g.nodes []

/-- The nodes, each before its successors; nothing if there is a cycle. -/
def topologicalOrder? (g : Digraph α) : Option (List α) :=
  g.sinkOrder?.map List.reverse

end Digraph

/-- A search for an order of the nodes of a graph in which every edge leads on. -/
abbrev TopologicalSort := Digraph Int → Option (List Int)

end DefUse
