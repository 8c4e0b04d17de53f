import DefUse.Bits
import DefUse.Graph.Digraph
import DefUse.Graph.Edge
import DefUse.Iterate

/-!
# Backward flow equations

**Input.** A graph whose nodes generate and block items and whose edges generate items.

**Algorithm.** With `out n` the union over the successors `s` of `n` of `in s` and of what the edge
from `n` to `s` generates, and `in n` what `n` generates together with what of `out n` it does not
block, rounds visit the nodes in a given order until no set changes.

**Results.** `FlowProblem.solve` is the least solution, whatever the order of the visits.
-/

namespace DefUse

/-- A problem whose items flow against the edges of a graph. -/
structure FlowProblem where
  /-- The graph, with the nodes `0, 1, …` in order. -/
  graph : Digraph Int
  /-- The number of items. -/
  width : Nat
  /-- The items that each node generates. -/
  gen : Array Bits
  /-- The items that each node blocks. -/
  kill : Array Bits
  /-- The items that an edge generates. -/
  edgeGen : List (Edge × Bits) := []

namespace FlowProblem

def setAt (p : FlowProblem) (table : Array Bits) (v : Int) : Bits :=
  (item? table v).getD (.empty p.width)

/-- What an edge generates. -/
def edgeItems (p : FlowProblem) (u v : Int) : Bits :=
  (p.edgeGen.lookup ⟨u, v⟩).getD (.empty p.width)

/-- The items that flow into the end of a node. -/
def out (p : FlowProblem) (table : Array Bits) (v : Int) : Bits :=
  (p.graph.succs v).foldl
    (fun items s => (items.union (p.setAt table s)).union (p.edgeItems v s))
    (.empty p.width)

/-- The items at the start of a node. -/
def transfer (p : FlowProblem) (table : Array Bits) (v : Int) : Bits :=
  (p.setAt p.gen v).union ((p.out table v).diff (p.setAt p.kill v))

def round (p : FlowProblem) (order : List Int) (table : Array Bits) : Array Bits :=
  order.foldl (fun table v => store table v (p.transfer table v)) table

def start (p : FlowProblem) : Array Bits :=
  Array.replicate p.graph.nodes.length (.empty p.width)

/-- The items at the start of every node, found by visits in the given order. -/
def solve (p : FlowProblem) (order : List Int) : Array Bits :=
  stabilize (p.round order) (p.graph.nodes.length * p.width + 1) p.start

/-- The items that flow into the end of every node. -/
def solveOut (p : FlowProblem) (order : List Int) : Array Bits :=
  let table := p.solve order
  (p.graph.nodes.map (p.out table)).toArray

end FlowProblem

end DefUse
