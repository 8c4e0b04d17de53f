import DefUse.Program.Basic
import DefUse.Text.Quoted

/-!
# Building programs

Programs are built by adding procedures, then nodes, edges and call sites.  An edge is recorded at
both of its ends and at most once.  An address outside the program is a fault; what was recorded
before the fault stays.

**Results.** `Program.addProcedure`, `Procedure.addNode`, `Procedure.addEdge` and
`Procedure.chain` are the steps by which programs are built.
-/

namespace DefUse

namespace Procedure

def addNode (f : Procedure) (label : String) : Procedure :=
  { f with nodes := f.nodes.push { label } }

def updateNode (f : Procedure) (i : Int) (edit : Node → Node) : Except Fault Procedure := do
  let n ← fetch f.nodes i
  return { f with nodes := store f.nodes i (edit n) }

/-- Records an edge at its source, then at its target, unless the source has it already.  The
fault of an end outside the procedure comes with what was recorded before it. -/
def addEdge (f : Procedure) (source target : Int) : Procedure × Option Fault :=
  match fetch f.nodes source with
  | .error e => (f, some e)
  | .ok n =>
    if target ∈ n.succs then (f, none)
    else
      let nodes := store f.nodes source { n with succs := n.succs ++ [target] }
      match fetch nodes target with
      | .error e => ({ f with nodes }, some e)
      | .ok m =>
        ({ f with nodes := store nodes target { m with preds := m.preds ++ [source] } }, none)

/-- Records the edges between neighbours of a list, up to the first fault. -/
def chain (f : Procedure) : List Int → Procedure × Option Fault
  | u :: v :: rest =>
    match f.addEdge u v with
    | (f, none) => chain f (v :: rest)
    | (f, some e) => (f, some e)
  | _ => (f, none)

end Procedure

/-- A procedure whose name is taken. -/
structure DuplicateName where
  /-- The name asked for. -/
  name : String
  deriving DecidableEq, Repr

def DuplicateName.message (e : DuplicateName) : String :=
  "duplicate procedure " ++ Text.quote e.name

namespace Program

/-- The program with one more procedure, which has an entry and an exit. -/
def addProcedure (prog : Program) (name : String) (params : List Variable) :
    Except DuplicateName Program :=
  match prog.lookup? name with
  | some _ => .error ⟨name⟩
  | none => .ok { prog with procs := prog.procs.push { name, params } }

def updateProc (prog : Program) (p : Int)
    (edit : Procedure → Procedure × Option Fault) : Program × Option Fault :=
  match prog.proc? p with
  | .error e => (prog, some e)
  | .ok f =>
    let (f, fault) := edit f
    ({ prog with procs := store prog.procs p f }, fault)

def updateNode (prog : Program) (site : Point) (edit : Node → Node) : Except Fault Program := do
  let f ← prog.proc? site.proc
  let f ← f.updateNode site.node edit
  return { prog with procs := store prog.procs site.proc f }

/-- Records the subtypes of a type, in place of those recorded before. -/
def setSubtypes (prog : Program) (type : String) (names : List String) : Program :=
  { prog with subtypes := (type, names) :: prog.subtypes.filter (·.1 ≠ type) }

end Program

end DefUse
