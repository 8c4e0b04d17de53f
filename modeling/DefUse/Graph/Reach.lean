import DefUse.Bits
import DefUse.Graph.Digraph

/-!
# Search from a list of nodes

**Input.** A graph and the nodes to start from.

**Algorithm.** First in, first out: the head of the list of nodes to visit is visited unless it
was visited before, and its successors are put at the end of the list.  Every visited node puts
its successors there once, so the number of edges bounds the number of steps.

**Results.** `Digraph.reach` lists the nodes reached in the order of the visits;
`Digraph.closure?` gives for every node of a table the set of nodes that one or more edges lead to.
-/

namespace DefUse
namespace Digraph

section Search

variable {α : Type} [DecidableEq α]

/-- Visits the listed nodes and what they lead to, in at most the given number of steps. -/
def explore (succs : α → List α) : Nat → List α → List α → List α
  | 0, _, seen => seen
  | _ + 1, [], seen => seen
  | steps + 1, v :: todo, seen =>
    if v ∈ seen then explore succs steps todo seen
    else explore succs steps (todo ++ succs v) (seen ++ [v])

/-- The nodes that zero or more edges lead to from the listed ones, in the order of the visits. -/
def reach (g : Digraph α) (start : List α) : List α :=
  explore g.succs (start.length + g.edgeCount) start []

/-- The nodes that one or more edges lead to. -/
def reachFrom (g : Digraph α) (v : α) : List α :=
  g.reach (g.succs v)

end Search

/-- The first node of a list that has no row in a table, as a fault. -/
def missingRow (rows : Array (List Int)) (visited : List Int) : Option Fault :=
  (visited.find? fun v => (item? rows v).isNone).map fun v => ⟨v, rows.size⟩

/-- The sets of nodes that one or more edges lead to, for the first `n` nodes of a table.  Sets
have length `n`, or more if a node beyond `n` is reached; a node without a row is a fault. -/
def closure? (n : Nat) (rows : Array (List Int)) : Except Fault (List Bits) :=
  let g := ofTable rows
  let reached := (positions n).map fun v => (v, g.reachFrom v)
  match missingRow rows (reached.flatMap fun (v, found) => v :: found) with
  | some e => .error e
  | none => .ok (reached.map fun (_, found) => Bits.ofList n (found.map Int.toNat))

end Digraph
end DefUse
