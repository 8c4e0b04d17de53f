import DefUse.Graph.Digraph
import DefUse.Program.Point

/-!
# Programs

A program is a list of procedures.  A procedure is a control-flow graph whose first two nodes are
its entry and its exit.  A node carries the variables it writes and reads, its neighbours and its
call sites.  Procedures and nodes are known by their position.

**Results.** `Program.lookup?` finds a procedure by name; `Procedure.defsOf` and
`Procedure.usesOf` list the definitions and uses at a point.
-/

namespace DefUse

/-- The position of the entry of every procedure. -/
def entryId : Int := 0

/-- The position of the exit of every procedure. -/
def exitId : Int := 1

/-- A call at a node. -/
structure CallSite where
  /-- The name of the procedure called, which need not be part of the program. -/
  callee : String
  /-- The actual arguments; the zero variable stands for anything but a plain variable. -/
  args : List Variable
  deriving DecidableEq, Repr

/-- A node of a control-flow graph. -/
structure Node where
  /-- A description, typically a source position. -/
  label : String := ""
  /-- The variables written. -/
  defs : List Variable := []
  /-- The values written are constants. -/
  constant : Bool := false
  /-- The variables read. -/
  uses : List Variable := []
  /-- The node decides which successor is taken. -/
  predicate : Bool := false
  /-- The node belongs to an exception handler. -/
  handler : Bool := false
  /-- The successors, in order. -/
  succs : List Int := []
  /-- The predecessors, in order. -/
  preds : List Int := []
  /-- The call sites, in the order of evaluation. -/
  calls : List CallSite := []
  deriving DecidableEq, Repr

namespace Node

/-- The node is a predicate with several successors. -/
def isBranch (n : Node) : Bool := n.predicate && n.succs.length > 1

/-- The node may write the location of a variable. -/
def defines (n : Node) (v : Variable) : Bool := n.defs.any (·.mayEqual v)

def define (n : Node) (vars : List Variable) : Node := { n with defs := n.defs ++ vars }

def use (n : Node) (vars : List Variable) : Node := { n with uses := n.uses ++ vars }

def call (n : Node) (callee : String) (args : List Variable) : Node :=
  { n with calls := n.calls ++ [⟨callee, args⟩] }

end Node

/-- A procedure: a control-flow graph with formal parameters. -/
structure Procedure where
  /-- The name, which no other procedure of the program has. -/
  name : String
  /-- The formal parameters; the receiver of a method comes first. -/
  params : List Variable := []
  /-- The nodes, by position. -/
  nodes : Array Node := #[{ label := "entry" }, { label := "exit" }]
  deriving DecidableEq, Repr

namespace Procedure

/-- The positions of the nodes. -/
def ids (f : Procedure) : List Int := positions f.nodes.size

/-- The node at a position; a position outside the procedure has an empty node. -/
def node (f : Procedure) (i : Int) : Node := (item? f.nodes i).getD {}

def graph (f : Procedure) : Digraph Int := .ofTable (f.nodes.map Node.succs)

/-- The definitions at a point of the procedure. -/
def defsOf (f : Procedure) (site : Point) : List Def :=
  let n := f.node site.node
  n.defs.map fun v => ⟨site, v, n.constant⟩

/-- The uses at a point of the procedure: one for each branch if the node is a branch. -/
def usesOf (f : Procedure) (site : Point) : List Use :=
  let n := f.node site.node
  n.uses.flatMap fun v =>
    if n.isBranch then n.succs.map fun s => Use.branch site s v
    else [Use.computation site v]

end Procedure

/-- Who calls whom, by position. -/
structure CallGraph where
  /-- The procedures that each procedure calls. -/
  callees : Array (List Int) := #[]
  /-- The procedures that call each procedure. -/
  callers : Array (List Int) := #[]
  deriving DecidableEq, Repr

/-- A program: procedures, the known subtypes of types, and the call graph of the last check. -/
structure Program where
  /-- The procedures, by position. -/
  procs : Array Procedure := #[]
  /-- The concrete subtypes of a type. -/
  subtypes : List (String × List String) := []
  /-- Who calls whom. -/
  callGraph : CallGraph := {}
  deriving DecidableEq, Repr

namespace Program

/-- The procedure at a position; a position outside the program has one without nodes. -/
def proc (prog : Program) (p : Int) : Procedure :=
  (item? prog.procs p).getD { name := "", nodes := #[] }

/-- The positions of the procedures. -/
def procIds (prog : Program) : List Int := positions prog.procs.size

/-- The position of the procedure with a name. -/
def lookup? (prog : Program) (name : String) : Option Nat :=
  prog.procs.findIdx? (·.name = name)

def callees (prog : Program) (p : Int) : List Int :=
  (item? prog.callGraph.callees p).getD []

def callers (prog : Program) (p : Int) : List Int :=
  (item? prog.callGraph.callers p).getD []

/-- The graph of calls between the procedures. -/
def calls (prog : Program) : Digraph Int where
  nodes := prog.procIds
  succs := prog.callees

/-- The node at a point; a point outside the program has an empty node. -/
def node (prog : Program) (site : Point) : Node :=
  (prog.proc site.proc).node site.node

/-- The procedure at a position of the program. -/
def proc? (prog : Program) (p : Int) : Except Fault Procedure := fetch prog.procs p

def node? (prog : Program) (site : Point) : Except Fault Node := do
  let f ← prog.proc? site.proc
  fetch f.nodes site.node

/-- The text of a node with its procedure and position. -/
def labelText (f : Procedure) (i : Int) (n : Node) : String :=
  f.name ++ "#" ++ toString i ++ "(" ++ n.label ++ ")"

def label? (prog : Program) (site : Point) : Except Fault String := do
  let f ← prog.proc? site.proc
  let n ← fetch f.nodes site.node
  return labelText f site.node n

def label (prog : Program) (site : Point) : String :=
  labelText (prog.proc site.proc) site.node (prog.node site)

/-- The concrete types that a variable of an object type may have. -/
def possibleTypes (prog : Program) (v : Variable) : List String :=
  if v.exactType then [v.name]
  else v.name :: (prog.subtypes.lookup v.name).getD []

end Program

end DefUse
