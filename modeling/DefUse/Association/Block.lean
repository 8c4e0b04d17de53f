import DefUse.Config.Settings
import DefUse.Graph.Reach
import DefUse.Program.Basic

/-!
# Basic blocks

A basic block is a longest straight sequence of nodes.  A node leads a block if it is the entry,
if it has not exactly one predecessor, or if its predecessor has several successors.

**Results.** `Procedure.blocks` cuts the nodes reachable from the entry into blocks;
`Program.sameBlockPairs` lists the definitions with the uses that they reach inside their block.
-/

namespace DefUse

namespace Procedure

/-- The node leads a block. -/
def isLeader (f : Procedure) (i : Int) : Bool :=
  i = entryId ||
    match (f.node i).preds with
    | [p] => (f.node p).succs.length ≠ 1
    | _ => true

/-- The straight sequence of at most `steps` nodes after a node. -/
def runAfter (f : Procedure) : Nat → Int → List Int
  | 0, _ => []
  | steps + 1, i =>
    match (f.node i).succs with
    | [s] => if f.isLeader s then [] else s :: f.runAfter steps s
    | _ => []

/-- The basic blocks of the nodes reachable from the entry. -/
def blocks (f : Procedure) : List (List Int) :=
  ((f.graph.reach [entryId]).filter f.isLeader).map fun i => i :: f.runAfter f.nodes.size i

/-- The uses at a point, the plain variables passed as arguments included. -/
def usesWithArguments (f : Procedure) (site : Point) : List Use :=
  let passed := (f.node site.node).calls.flatMap CallSite.args
  f.usesOf site ++ (passed.filter fun a => !a.isZero).map (Use.computation site)

end Procedure

namespace Program

/-- The definitions at a point, with the formals at the entry if formals are definitions. -/
def defsAt (prog : Program) (formalsAsDefs : Bool) (site : Point) : List Def :=
  let f := prog.proc site.proc
  let formals := f.params.filter fun v => !v.isZero
  f.defsOf site ++
    if site.node = entryId && formalsAsDefs then
      formals.map fun v => ⟨⟨site.proc, entryId⟩, v, false⟩
    else []

/-- The uses of the following nodes that a definition reaches, up to the first node that may
write its location. -/
def reachedInBlock (f : Procedure) (d : Def) : List Int → List Use
  | [] => []
  | i :: rest =>
    (f.usesWithArguments ⟨d.site.proc, i⟩).filter (·.var.mayEqual d.var) ++
      if (f.node i).defines d.var then [] else reachedInBlock f d rest

/-- The pairs of a block: every definition with the uses that it reaches in the block. -/
def blockPairs (prog : Program) (formalsAsDefs : Bool) (p : Int) : List Int → List (Def × Use)
  | [] => []
  | i :: rest =>
    (prog.defsAt formalsAsDefs ⟨p, i⟩).flatMap (fun d =>
      (reachedInBlock (prog.proc p) d rest).map (d, ·)) ++
    blockPairs prog formalsAsDefs p rest

/-- The definitions of the program with the uses that they reach inside their basic block. -/
def sameBlockPairs (prog : Program) (formalsAsDefs : Bool) : List (Def × Use) :=
  prog.procIds.flatMap fun p =>
    (prog.proc p).blocks.flatMap (prog.blockPairs formalsAsDefs p)

end Program

end DefUse
