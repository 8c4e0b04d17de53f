import DefUse.Bits
import DefUse.Graph.BackEdges
import DefUse.Graph.SinkOrder
import DefUse.Program.Basic

/-!
# Numbered paths

An execution of a procedure is a sequence of acyclic paths.  The acyclic graph has the edges of the
procedure but its back edges; for every back edge it has an edge from the entry to the target and
one from the source to the exit, and for every call site an edge from its node to the exit.  The
paths from the entry to the exit are numbered from zero.

**Input.** A sort of acyclic graphs, a procedure and a bound on the number of paths, in 64-bit
arithmetic.

**Algorithm.** From the exit backwards every node gets the number of paths from it to the exit; the
edges out of a node share that range of numbers in order.

**Results.** `Numbering.ofProcedure` numbers the paths; `Numbering.edges?` gives the path with a
number and `Numbering.encode?` the number of a path.  For every node, edge, call and back edge
there is the set of the paths that pass it.
-/

namespace DefUse

/-- The kind of an edge of the acyclic graph, by its code; only the first four have a meaning. -/
structure PathEdgeKind where
  /-- The code of the kind. -/
  code : UInt8
  deriving DecidableEq, Repr

namespace PathEdgeKind

/-- An edge of the procedure. -/
def real : PathEdgeKind := ⟨0⟩

/-- From the entry to the target of a back edge. -/
def loopEntry : PathEdgeKind := ⟨1⟩

/-- From the source of a back edge to the exit. -/
def loopExit : PathEdgeKind := ⟨2⟩

/-- From a node with a call to the exit. -/
def callExit : PathEdgeKind := ⟨3⟩

def render (k : PathEdgeKind) : String :=
  if k = real then "real"
  else if k = loopEntry then "loop-entry"
  else if k = loopExit then "loop-exit"
  else if k = callExit then "call"
  else "kind(" ++ toString k.code.toNat ++ ")"

end PathEdgeKind

/-- An edge of the acyclic graph. -/
structure PathEdge where
  /-- The node it leaves. -/
  source : Int
  /-- The node it enters. -/
  target : Int
  /-- What it stands for. -/
  kind : PathEdgeKind
  /-- The number of its back edge or call site; -1 for an edge of the procedure. -/
  index : Int
  deriving DecidableEq, Repr

/-- Why the paths of a procedure have no numbers. -/
inductive NumberingError where
  /-- The graph without back edges has a cycle. -/
  | cyclic (proc : String)
  /-- The procedure has more paths than allowed. -/
  | tooManyPaths (proc : String) (bound : Int)
  deriving DecidableEq, Repr

def NumberingError.message : NumberingError → String
  | cyclic proc => s!"procedure {proc}: graph without back edges is cyclic"
  | tooManyPaths proc bound => s!"procedure {proc}: too many acyclic paths (more than {bound})"

namespace Procedure

/-- The back edges of the control-flow graph. -/
def backEdges (f : Procedure) : List Edge :=
  (f.graph.backEdges entryId).map Edge.ofPair

/-- The edges of the acyclic graph out of a node that the entry reaches, in order. -/
def innerEdges (f : Procedure) (back : List Edge) (v : Int) : List PathEdge :=
  let n := f.node v
  (n.succs.filter fun s => ⟨v, s⟩ ∉ back).map (fun s => ⟨v, s, .real, -1⟩) ++
  (back.zipIdx.filter fun (e, _) => e.source = v).map
    (fun (_, i) => ⟨v, exitId, .loopExit, i⟩) ++
  n.calls.zipIdx.map fun (_, i) => ⟨v, exitId, .callExit, i⟩

/-- The edges from the entry to the targets of the back edges. -/
def loopEntries (back : List Edge) : List PathEdge :=
  back.zipIdx.map fun (e, i) => ⟨entryId, e.target, .loopEntry, i⟩

/-- The edges of the acyclic graph out of each node. -/
def pathEdges (f : Procedure) (back : List Edge) : Array (List PathEdge) :=
  let reachable := f.graph.reach [entryId]
  (f.ids.map fun v =>
    (if v ∈ reachable then f.innerEdges back v else []) ++
      (if v = entryId then loopEntries back else [])).toArray

end Procedure

namespace Numbering

/-- The number of paths from a node, in a table that may lack it. -/
def countAt (counts : Array Int64) (v : Int) : Int64 := (item? counts v).getD 0

/-- The first numbers of the ranges of the edges out of a node, and the end of the last range; a
range never ends beyond the limit. -/
def ranges (counts : Array Int64) (limit : Int64) : Int64 → List PathEdge → List Int64 × Int64
  | total, [] => ([], total)
  | total, e :: rest =>
    let next := total + countAt counts e.target
    let (offsets, last) := ranges counts limit (if next > limit then limit else next) rest
    (total :: offsets, last)

/-- The number of paths from every node, up to the limit; the nodes come after their successors. -/
def countPaths (out : Array (List PathEdge)) (limit : Int64) (order : List Int) : Array Int64 :=
  order.foldl
    (fun counts v =>
      store counts v
        (if v = exitId then 1 else (ranges counts limit 0 ((item? out v).getD [])).2))
    (Array.replicate out.size 0)

end Numbering

/-- The connection point of a back edge. -/
structure Connection where
  /-- The back edge. -/
  edge : Edge
  /-- The paths that end by taking the back edge. -/
  incoming : Bits
  /-- The paths that start at its target. -/
  outgoing : Bits
  deriving DecidableEq, Repr

/-- The numbered paths of a procedure. -/
structure Numbering where
  /-- The procedure. -/
  proc : Procedure
  /-- The back edges, in the order of the search. -/
  backEdges : List Edge
  /-- The edges of the acyclic graph out of each node, with the first number of their range. -/
  out : Array (List (PathEdge × Int64))
  /-- The number of paths from each node. -/
  counts : Array Int64
  /-- The paths through each node. -/
  nodePaths : Array Bits
  /-- The paths that end in a call at each node. -/
  callPaths : Array Bits
  /-- The paths that take each edge; a back edge is taken at the end of a path. -/
  edgePaths : List (Edge × Bits)
  /-- The connection points of the back edges. -/
  connections : List Connection

namespace Numbering

/-- The edge whose range holds a number; beyond the last range it is the last edge. -/
def choose (counts : Array Int64) (r : Int64) :
    List (PathEdge × Int64) → Option (PathEdge × Int64)
  | [] => none
  | [last] => some last
  | (e, offset) :: rest =>
    if r < offset + countAt counts e.target then some (e, offset) else choose counts r rest

/-- The edges chosen for a number from a node to the exit, at most the given number of them.  A
node without edges is a fault. -/
def follow (out : Array (List (PathEdge × Int64))) (counts : Array Int64) :
    Nat → Int → Int64 → Except Fault (List PathEdge)
  | 0, _, _ => .ok []
  | steps + 1, v, r =>
    if v = exitId then .ok []
    else
      match choose counts r ((item? out v).getD []) with
      | none => .error ⟨0, 0⟩
      | some (e, offset) => do
        let rest ← follow out counts steps e.target (r - offset)
        return e :: rest

/-- The edges of the path with a number, from the entry to the exit. -/
def pathEdges? (out : Array (List (PathEdge × Int64))) (counts : Array Int64) (id : Int64) :
    Except Fault (List PathEdge) :=
  follow out counts (out.size + 1) entryId id

def allPaths (out : Array (List (PathEdge × Int64))) (counts : Array Int64) (size : Nat) :
    Array (List PathEdge) :=
  ((List.range size).map fun id =>
    match pathEdges? out counts (Int64.ofNat id) with
    | .ok path => path
    | .error _ => []).toArray

/-- The numbers of the paths that have an edge with a property. -/
def pathsWith (paths : Array (List PathEdge)) (p : PathEdge → Bool) : Bits :=
  .ofPred paths.size fun id => (paths[id]?.getD []).any p

/-- The edge stands for an edge of the procedure. -/
def isReal (e : Edge) (x : PathEdge) : Bool :=
  x.kind = .real && x.source = e.source && x.target = e.target

def isLoopExit (i : Nat) (x : PathEdge) : Bool := x.kind = .loopExit && x.index = i

/-- The edge enters at the target of a back edge. -/
def isLoopEntry (i : Nat) (x : PathEdge) : Bool := x.kind = .loopEntry && x.index = i

def isCallExit (v : Int) (x : PathEdge) : Bool := x.kind = .callExit && x.source = v

/-- The paths that take an edge of the procedure. -/
def pathsOfEdge (paths : Array (List PathEdge)) (back : List Edge) (e : Edge) : Bits :=
  pathsWith paths fun x => isReal e x || (e ∈ back && isLoopExit (back.idxOf e) x)

/-- The connection points of the back edges. -/
def connect (paths : Array (List PathEdge)) (back : List Edge) : List Connection :=
  back.zipIdx.map fun (e, i) =>
    ⟨e, pathsWith paths (isLoopExit i), pathsWith paths (isLoopEntry i)⟩

/-- The edges of a procedure, by node and successor. -/
def flowEdges (f : Procedure) : List Edge :=
  f.ids.flatMap fun v => (f.node v).succs.map fun s => ⟨v, s⟩

/-- Numbers the paths of a procedure, if there are no more than the bound. -/
def ofProcedure (sort : TopologicalSort) (f : Procedure) (bound : Int64) :
    Except NumberingError Numbering :=
  let back := f.backEdges
  let edges := f.pathEdges back
  let dag : Digraph Int :=
    { nodes := f.ids, succs := fun v => ((item? edges v).getD []).map PathEdge.target }
  match sort dag with
  | none => .error (.cyclic f.name)
  | some order =>
    let limit := bound + 1
    let counts := countPaths edges limit order.reverse
    let total := countAt counts entryId
    if total > bound then .error (.tooManyPaths f.name bound.toInt)
    else
      let out := edges.map fun es => es.zip (ranges counts limit 0 es).1
      let paths := allPaths out counts total.toInt.toNat
      .ok {
        proc := f
        backEdges := back
        out
        counts
        nodePaths := (f.ids.map fun v =>
          pathsWith paths fun x => v = entryId || x.target = v).toArray
        callPaths := (f.ids.map fun v => pathsWith paths (isCallExit v)).toArray
        edgePaths := (flowEdges f).map fun e => (e, pathsOfEdge paths back e)
        connections := connect paths back }

def numPaths (nb : Numbering) : Int64 := countAt nb.counts entryId

/-- The length of the sets of paths. -/
def size (nb : Numbering) : Nat := nb.numPaths.toInt.toNat

/-- The edges of the path with a number.  A number beyond the paths is followed in the same way. -/
def edges? (nb : Numbering) (id : Int64) : Except Fault (List PathEdge) :=
  pathEdges? nb.out nb.counts id

/-- The first number of the range of an edge among those out of its source. -/
def offset? (nb : Numbering) (e : PathEdge) : Except Fault Int64 := do
  let out ← fetch nb.out e.source
  return (out.lookup e).getD 0

/-- The number of the path with the given edges. -/
def encode? (nb : Numbering) (path : List PathEdge) : Except Fault Int64 :=
  path.foldlM
    (fun id e => do
      let offset ← nb.offset? e
      return id + offset)
    0

/-- The paths that take an edge; none if the procedure lacks the edge. -/
def pathsOf (nb : Numbering) (e : Edge) : Bits :=
  (nb.edgePaths.lookup e).getD (.empty nb.size)

def isBackEdge (nb : Numbering) (e : Edge) : Bool := e ∈ nb.backEdges

/-- The connection point of a back edge. -/
def connection? (nb : Numbering) (e : Edge) : Option Connection :=
  nb.connections.find? (·.edge = e)

end Numbering

end DefUse
