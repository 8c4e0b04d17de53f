import DefUse.Graph.Digraph
import DefUse.Iterate

/-!
# Numbered dominator trees

**Input.** A graph, a root and a search for immediate dominators.

**Algorithm.** Loops are dropped from the graph.  Every node but the root becomes a child of its
immediate dominator.  The tree is then traversed from the root with a stack of frames: a frame
enters the next child of its node, or leaves its node if there are no more.  Nodes are numbered
in the order in which they are entered and, apart from that, in the order in which they are left.

**Results.** `DominatorTree.dominates?` compares the numbers of two nodes: the first one dominates
the second one if it is entered no later and left no earlier.
-/

namespace DefUse
namespace Digraph

/-- The graph without the edges from a node to itself. -/
def withoutLoops {α : Type} [DecidableEq α] (g : Digraph α) : Digraph α where
  nodes := g.nodes
  succs := fun v => (g.succs v).filter (· ≠ v)

end Digraph

/-- A search for immediate dominators, given a graph, a root and a node. -/
abbrev DominatorSearch := Digraph Int → Int → Int → Option Int

/-- The tree in which every node but the root is a child of its immediate dominator. -/
def dominatorTree (search : DominatorSearch) (g : Digraph Int) (root : Int) : Digraph Int where
  nodes := g.nodes
  succs := fun d => g.nodes.filter fun v => v ≠ root ∧ search g root v = some d

/-- A node that was entered and not left yet. -/
structure Frame where
  /-- The node. -/
  node : Int
  /-- The number of its children that were entered. -/
  next : Nat
  deriving DecidableEq, Repr

/-- The numbers of the nodes of a tree and the state of the traversal that assigns them. -/
structure Traversal where
  /-- The numbers in the order of entering; -1 for a node outside the tree. -/
  pre : Array Int
  /-- The numbers in the order of leaving. -/
  post : Array Int
  /-- How many nodes were entered. -/
  entered : Nat
  /-- How many nodes were left. -/
  left : Nat
  /-- The nodes entered and not left, the last one first. -/
  stack : List Frame
  deriving DecidableEq, Repr

namespace Traversal

/-- Enters a node on top of some frames. -/
def enter (s : Traversal) (v : Int) (below : List Frame) : Traversal :=
  { s with
    pre := store s.pre v s.entered
    entered := s.entered + 1
    stack := ⟨v, 0⟩ :: below }

/-- Leaves a node on top of some frames. -/
def leave (s : Traversal) (v : Int) (below : List Frame) : Traversal :=
  { s with
    post := store s.post v s.left
    left := s.left + 1
    stack := below }

/-- The top frame enters its next child, or leaves its node if there is none. -/
def step (tree : Digraph Int) (s : Traversal) : Option Traversal :=
  match s.stack with
  | [] => none
  | top :: below =>
    match (tree.succs top.node)[top.next]? with
    | some child => some (s.enter child (⟨top.node, top.next + 1⟩ :: below))
    | none => some (s.leave top.node below)

def start (n : Nat) : Traversal :=
  { pre := Array.replicate n (-1)
    post := Array.replicate n 0
    entered := 0
    left := 0
    stack := [] }

/-- Traverses a tree from its root; every node is entered and left once at most. -/
def run (tree : Digraph Int) (root : Int) : Traversal :=
  let n := tree.nodes.length
  runSteps (step tree) (2 * n) ((start n).enter root [])

end Traversal

/-- The numbers of the nodes of a dominator tree. -/
structure DominatorTree where
  /-- The numbers in the order of entering; -1 for a node outside the tree. -/
  pre : Array Int
  /-- The numbers in the order of leaving. -/
  post : Array Int
  deriving DecidableEq, Repr

namespace DominatorTree

def ofGraph (search : DominatorSearch) (g : Digraph Int) (root : Int) : DominatorTree :=
  let numbered := Traversal.run (dominatorTree search g.withoutLoops root) root
  { pre := numbered.pre
    post := numbered.post }

/-- The first node dominates the second one; nodes outside the tree dominate nothing and are
dominated by nothing. -/
def dominates? (t : DominatorTree) (a b : Int) : Except Fault Bool := do
  let first ← fetch t.pre a
  if first < 0 then return false
  let second ← fetch t.pre b
  if second < 0 then return false
  if second < first then return false
  return (← fetch t.post b) ≤ (← fetch t.post a)

end DominatorTree
end DefUse
