import DefUse.Program.Finalize

/-!
# Programs from descriptions

A procedure is described by its name, its formals, its nodes and its edges.  The described nodes
come after the entry and the exit, which have descriptions of their own.

**Results.** `Program.ofBlueprints` builds and checks the program of a list of descriptions, or
says what is wrong first.
-/

namespace DefUse

/-- The description of a procedure. -/
structure Blueprint where
  /-- The name. -/
  name : String
  /-- The formal parameters. -/
  params : List Variable := []
  /-- What the entry carries; without a label it keeps its own. -/
  entry : Node := {}
  /-- What the exit carries; without a label it keeps its own. -/
  exit : Node := {}
  /-- The other nodes. -/
  nodes : List Node := []
  /-- The edges, in the order in which they are added. -/
  edges : List (Int × Int) := []
  deriving Repr

/-- Why a described program cannot be built. -/
inductive BuildError where
  /-- Two procedures have the same name. -/
  | duplicate (e : DuplicateName)
  /-- An edge has an end outside its procedure. -/
  | fault (e : Fault)
  /-- The program is flawed. -/
  | flaw (e : Flaw)
  deriving DecidableEq, Repr

def BuildError.message : BuildError → String
  | duplicate e => e.message
  | fault e => e.message
  | flaw e => e.message

namespace Blueprint

/-- A node that keeps its own label if the description has none. -/
def labelled (label : String) (n : Node) : Node :=
  { n with label := if n.label.isEmpty then label else n.label, succs := [], preds := [] }

/-- The procedure of a description without its edges. -/
def bare (b : Blueprint) : Procedure where
  name := b.name
  params := b.params
  nodes := (labelled "entry" b.entry :: labelled "exit" b.exit ::
    b.nodes.map (labelled "")).toArray

/-- Adds edges in order, up to the first fault. -/
def addEdges (f : Procedure) : List (Int × Int) → Except Fault Procedure
  | [] => .ok f
  | (u, v) :: rest =>
    match f.addEdge u v with
    | (f, none) => addEdges f rest
    | (_, some e) => .error e

def procedure (b : Blueprint) : Except Fault Procedure := addEdges b.bare b.edges

end Blueprint

namespace Program

/-- The program with one more described procedure. -/
def addBlueprint (prog : Program) (b : Blueprint) : Except BuildError Program := do
  let prog ← (prog.addProcedure b.name b.params).mapError .duplicate
  let f ← b.procedure.mapError .fault
  return { prog with procs := prog.procs.pop.push f }

/-- The program of a list of descriptions, checked. -/
def ofBlueprints (blueprints : List Blueprint) (subtypes : List (String × List String)) :
    Except BuildError Program := do
  let prog ← blueprints.foldlM addBlueprint { subtypes }
  match prog.finalize with
  | (prog, none) => return prog
  | (_, some e) => throw (.flaw e)

end Program

end DefUse
