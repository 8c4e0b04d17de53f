import DefUse.Graph.Components
import DefUse.Graph.Dominance
import DefUse.Order.Oracle
import DefUse.Program.Basic

/-!
# The order of execution from the graphs of a program

**Input.** A checked program.

**Results.** `GraphOrder.ofProgram` tabulates reachability, dominance and post-dominance inside
every procedure and the procedures on a cycle of calls; `GraphOrder.oracle` answers from the
tables.  A point of another procedure may always be reached between procedures, and every point
of a procedure that can call itself may be reached from every other one.
-/

namespace DefUse

/-- The order of the nodes of one procedure. -/
structure ProcOrder where
  /-- The nodes that one or more edges lead to. -/
  reach : Array (List Int)
  /-- The nodes that each node dominates; none if the entry does not reach it. -/
  dominated : Array (List Int)
  /-- The nodes that each node post-dominates; none if it does not reach the exit. -/
  postdominated : Array (List Int)
  deriving DecidableEq, Repr

namespace ProcOrder

def ofProcedure (f : Procedure) : ProcOrder :=
  let g := f.graph
  let reversed := g.reverse
  { reach := (f.ids.map g.reachFrom).toArray
    dominated := (f.ids.map (g.dominated entryId)).toArray
    postdominated := (f.ids.map (reversed.dominated exitId)).toArray }

end ProcOrder

namespace Program

/-- The procedures that can call themselves, directly or through others. -/
def selfCalling (prog : Program) : List Int :=
  let cyclic := (prog.calls.components prog.procIds).filter (·.length > 1)
  cyclic.flatten ++ prog.procIds.filter fun p => p ∈ prog.callees p

end Program

/-- The order of execution of the points of a program. -/
structure GraphOrder where
  /-- The order of each procedure. -/
  procs : Array ProcOrder
  /-- The procedures that can call themselves. -/
  selfCalling : Array Bool
  deriving DecidableEq, Repr

namespace GraphOrder

/-- The order of execution of the points of a program. -/
def ofProgram (prog : Program) : GraphOrder :=
  let cyclic := prog.selfCalling
  { procs := prog.procs.map ProcOrder.ofProcedure
    selfCalling := (prog.procIds.map fun p => decide (p ∈ cyclic)).toArray }

/-- Some execution may go from `a` to `b`; the tables are consulted at `a` only. -/
def reaches? (o : GraphOrder) (a b : Point) (across : Bool) : Except Fault Bool := do
  if a.proc ≠ b.proc then return across
  if across then
    if ← fetch o.selfCalling a.proc then return true
  let order ← fetch o.procs a.proc
  let found ← fetch order.reach a.node
  return found.contains b.node

/-- The answer of a table of dominated nodes; the second node is looked up only if the first one
dominates itself. -/
def lookupDominated (table : Array (List Int)) (a b : Int) : Except Fault Bool := do
  let row ← fetch table a
  if row.isEmpty then return false
  let _ ← fetch table b
  return row.contains b

/-- Every walk from the entry to `b` visits `a`. -/
def dominates? (o : GraphOrder) (a b : Point) : Except Fault Bool := do
  if a.proc ≠ b.proc then return false
  let order ← fetch o.procs a.proc
  lookupDominated order.dominated a.node b.node

/-- Every walk from `b` to the exit visits `a`. -/
def postdominates? (o : GraphOrder) (a b : Point) : Except Fault Bool := do
  if a.proc ≠ b.proc then return false
  let order ← fetch o.procs a.proc
  lookupDominated order.postdominated a.node b.node

/-- A fault counts as "no". -/
def answer : Except Fault Bool → Bool
  | .ok b => b
  | .error _ => false

/-- The oracle that answers from the tables. -/
def oracle (o : GraphOrder) : Oracle where
  reaches := fun a b across => answer (o.reaches? a b across)
  dominates := fun a b => answer (o.dominates? a b)
  postdominates := fun a b => answer (o.postdominates? a b)

end GraphOrder

end DefUse
