import DefUse.Program.Edit
import DefUse.Source.Effects

/-!
# Procedures of flow graphs

Every step of a block that is marked as live is a node, and such a block without steps is a node of
its own.  The nodes of a block follow each other; the last one leads to the first nodes of the
blocks that follow, or to the exit.

**Results.** `Layout.ofBlocks` places blocks among the nodes; `Layout.procedure` is the procedure of
placed blocks, given the node of each step, and `MarkedGraph.procedure` that of the live blocks.
-/

namespace DefUse

namespace Node

/-- The node with a variable read, if it is not read already. -/
def useOnce (n : Node) (v : Variable) : Node := if v ∈ n.uses then n else n.use [v]

/-- The node with a variable written, if it is not written already. -/
def defineOnce (n : Node) (v : Variable) : Node := if v ∈ n.defs then n else n.define [v]

/-- The node with one more effect of its step. -/
def absorb (n : Node) : Source.Effect → Node
  | .use v => n.useOnce v
  | .define v => n.defineOnce v
  | .call callee args => n.call callee args
  | .mention _ => n

end Node

namespace Procedure

/-- The procedure with more edges; edges with an end outside of it are not completed. -/
def addEdges (f : Procedure) (edges : List (Int × Int)) : Procedure :=
  edges.foldl (fun f (u, v) => (f.addEdge u v).1) f

end Procedure

namespace Source

/-- A block placed among the nodes of a procedure. -/
structure Placed where
  /-- The number of the block. -/
  number : Nat
  /-- The block. -/
  block : Block
  /-- The position of its first node. -/
  first : Nat

namespace Placed

def width (p : Placed) : Nat := max 1 p.block.steps.length

def last (p : Placed) : Nat := p.first + p.width - 1

/-- The block decides where control goes. -/
def branches (p : Placed) : Bool := p.block.succs.length > 1

/-- The nodes of the block, without edges; `make` gives the node of a step. -/
def nodes (p : Placed) (make : Step → Node) : List Node :=
  if p.block.steps.isEmpty then
    [{ label := "block " ++ toString p.number, predicate := p.branches }]
  else
    p.block.steps.zipIdx.map fun (s, i) =>
      { make s with predicate := p.branches && i + 1 = p.block.steps.length }

/-- The edges between the nodes of the block. -/
def chain (p : Placed) : List (Int × Int) :=
  (List.range (p.width - 1)).map fun (i : Nat) => ((p.first + i : Int), (p.first + i + 1 : Int))

end Placed

/-- The blocks that control can get to, placed one after the other. -/
abbrev Layout := List Placed

namespace Layout

/-- Places blocks from a position on. -/
def place : Nat → List (Nat × Block) → Layout
  | _, [] => []
  | first, (number, block) :: rest =>
    let p : Placed := { number, block, first }
    p :: place (first + p.width) rest

/-- Places the blocks with the given numbers after the entry and the exit. -/
def ofBlocks (g : FlowGraph) (numbers : List Nat) : Layout :=
  place 2 (numbers.filterMap fun b => g[b]?.map (b, ·))

/-- Places the live blocks of a flow graph. -/
def ofGraph (m : MarkedGraph) : Layout := ofBlocks m.graph m.numbers

/-- The first node of the block with a number. -/
def start (l : Layout) (b : Nat) : Int :=
  ((l.find? (·.number = b)).map fun p => (p.first : Int)).getD 0

/-- The edges out of a block: to the blocks that follow, or to the exit. -/
def exits (l : Layout) (p : Placed) : List (Int × Int) :=
  if p.block.succs.isEmpty then [((p.last : Int), exitId)]
  else p.block.succs.map fun b => ((p.last : Int), l.start b)

/-- The edges of the procedure, in the order in which they are recorded. -/
def edges (l : Layout) : List (Int × Int) :=
  l.flatMap Placed.chain ++ [(entryId, l.start 0)] ++ l.flatMap l.exits

/-- The entry, the exit and the nodes of placed blocks, without edges. -/
def bare (l : Layout) (name : String) (params : List Variable) (make : Step → Node) : Procedure where
  name := name
  params := params
  nodes := ({ label := "entry" } :: { label := "exit" } ::
    l.flatMap fun p => p.nodes make : List Node).toArray

/-- The procedure of placed blocks, given the node of each step. -/
def procedure (l : Layout) (name : String) (params : List Variable) (make : Step → Node) :
    Procedure :=
  (l.bare name params make).addEdges l.edges

end Layout

/-- The procedure of the live blocks of a flow graph, given the node of each step. -/
def MarkedGraph.procedure (m : MarkedGraph) (name : String) (params : List Variable)
    (make : Step → Node) : Procedure :=
  (Layout.ofGraph m).procedure name params make

end Source
end DefUse
