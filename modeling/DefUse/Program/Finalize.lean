import DefUse.Program.Edit
import DefUse.Sorted

/-!
# Checking a program

Before a program is analysed it is checked, and its call graph is recorded.  Every procedure has
an entry without predecessors and an exit without successors, and every successor is a node.

**Results.** `Program.finalize` records the call graph and gives the first flaw, if any; the call
graph of a flawed program stops at the flaw.
-/

namespace DefUse

/-- What is wrong with a procedure. -/
inductive Flaw where
  /-- The procedure lacks an entry or an exit. -/
  | noEnds (proc : String)
  /-- The entry has predecessors. -/
  | entryReentered (proc : String)
  /-- The exit has successors. -/
  | exitLeft (proc : String)
  /-- A node has a successor that is no node. -/
  | danglingSuccessor (proc : String) (node succ : Int)
  deriving DecidableEq, Repr

def Flaw.message : Flaw → String
  | noEnds proc => s!"procedure {proc} has no entry or exit node"
  | entryReentered proc => s!"entry of procedure {proc} has predecessors"
  | exitLeft proc => s!"exit of procedure {proc} has successors"
  | danglingSuccessor proc node succ => s!"node {node} of {proc} has an invalid successor {succ}"

namespace Procedure

def isNode (f : Procedure) (i : Int) : Bool := 0 ≤ i && i < f.nodes.size

def succsValid (f : Procedure) (n : Node) : Bool := n.succs.all f.isNode

/-- The first successor that is no node, with its source. -/
def dangling? (f : Procedure) : Option (Int × Int) :=
  f.ids.findSome? fun i => ((f.node i).succs.find? fun s => !f.isNode s).map (i, ·)

/-- The first flaw of the procedure. -/
def flaw? (f : Procedure) : Option Flaw :=
  if f.nodes.size < 2 then some (.noEnds f.name)
  else if !(f.node entryId).preds.isEmpty then some (.entryReentered f.name)
  else if !(f.node exitId).succs.isEmpty then some (.exitLeft f.name)
  else f.dangling?.map fun (i, s) => .danglingSuccessor f.name i s

end Procedure

namespace Program

/-- The procedures that the nodes before the first dangling successor call, in order of the
calls. -/
def callTargets (prog : Program) (f : Procedure) : List Int :=
  let called := (f.nodes.toList.takeWhile f.succsValid).flatMap Node.calls
  distinct ((called.filterMap fun c => prog.lookup? c.callee).map Int.ofNat)

/-- The callees recorded for the procedure that stops the check. -/
def partialCallees (prog : Program) (f : Procedure) : List Int :=
  match f.flaw? with
  | some (.danglingSuccessor ..) => prog.callTargets f
  | _ => []

/-- The callees of every procedure, up to the first flaw. -/
def linkCallees (prog : Program) : Array (List Int) :=
  let sound := (prog.procs.toList.takeWhile (·.flaw?.isNone)).length
  prog.procs.mapIdx fun p f =>
    if p < sound then sortBy (fun (a b : Int) => a < b) (prog.callTargets f)
    else if p = sound then prog.partialCallees f
    else []

/-- The call graph of the procedures up to the first flaw. -/
def link (prog : Program) : CallGraph :=
  let callees := prog.linkCallees
  { callees
    callers := prog.procs.mapIdx fun p _ =>
      prog.procIds.filter fun q => (p : Int) ∈ (item? callees q).getD [] }

/-- The first flaw of the program. -/
def flaw? (prog : Program) : Option Flaw := prog.procs.toList.findSome? Procedure.flaw?

/-- Records the call graph and gives the first flaw. -/
def finalize (prog : Program) : Program × Option Flaw :=
  ({ prog with callGraph := prog.link }, prog.flaw?)

/-- The program was checked, has no flaw and did not change since. -/
def Finalized (prog : Program) : Prop := prog.finalize = (prog, none)

instance (prog : Program) : Decidable prog.Finalized :=
  inferInstanceAs (Decidable (_ = _))

end Program

end DefUse
