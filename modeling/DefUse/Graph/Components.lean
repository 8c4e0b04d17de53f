import DefUse.Graph.Reach

/-!
# Strongly connected components

**Input.** A graph and a list of roots.

**Algorithm.** One depth-first search.  Nodes get visit numbers, and wait on a stack until the
search has returned to the first node of their component: a node from which no waiting node with
a smaller number is reachable.  That node and everything above it on the stack is a component.

**Results.** `Digraph.components` lists the components of what the roots reach, each after the
components that it leads to.
-/

namespace DefUse
namespace Digraph

/-- What the search for components has seen so far. -/
structure ComponentSearch (α : Type) where
  /-- The visited nodes, the latest first. -/
  visited : List α := []
  /-- The visited nodes that belong to no finished component, the latest first. -/
  waiting : List α := []
  /-- The finished components, the latest first. -/
  finished : List (List α) := []

namespace ComponentSearch

variable {α : Type} [DecidableEq α]

def number (s : ComponentSearch α) (v : α) : Nat :=
  s.visited.reverse.idxOf v

/-- Visits a node. -/
def enter (s : ComponentSearch α) (v : α) : ComponentSearch α :=
  { s with visited := v :: s.visited, waiting := v :: s.waiting }

/-- Makes a component of the waiting nodes down to `v`. -/
def close (s : ComponentSearch α) (v : α) : ComponentSearch α :=
  { s with
    waiting := (s.waiting.dropWhile (· ≠ v)).drop 1
    finished := (s.waiting.takeWhile (· ≠ v) ++ [v]) :: s.finished }

/-- Visits a node and what it leads to, at most `depth` edges deep.  The number returned is the
least one of a waiting node known to be reachable from it. -/
def visit (succs : α → List α) : Nat → α → ComponentSearch α → Nat × ComponentSearch α
  | 0, v, s => (s.number v, s)
  | depth + 1, v, s =>
    let own := s.visited.length
    let (low, s) := (succs v).foldl
      (fun (low, s) w =>
        if w ∉ s.visited then
          let (found, s) := visit succs depth w s
          (min low found, s)
        else if w ∈ s.waiting then (min low (s.number w), s)
        else (low, s))
      (own, s.enter v)
    if low = own then (own, s.close v) else (low, s)

end ComponentSearch

variable {α : Type} [DecidableEq α]

/-- The search for components from every root that was not visited before. -/
def componentSearch (g : Digraph α) (roots : List α) : ComponentSearch α :=
  roots.foldl
    (fun s v =>
      if v ∈ s.visited then s else (s.visit g.succs (g.nodes.length + 1) v).2)
    {}

/-- The strongly connected components of what the roots reach. -/
def components (g : Digraph α) (roots : List α) : List (List α) :=
  (g.componentSearch roots).finished.reverse

/-- The components of a graph given as a table; a visited node without a row is a fault. -/
def tableComponents? (rows : Array (List Int)) (roots : List Int) :
    Except Fault (List (List Int)) :=
  let s := (ofTable rows).componentSearch roots
  match missingRow rows s.visited.reverse with
  | some e => .error e
  | none => .ok s.finished.reverse

end Digraph
end DefUse
