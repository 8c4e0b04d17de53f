import DefUse.Flow.Local
import DefUse.Graph.Components

/-!
# What formal parameters stand for

A variable that is passed to a formal parameter is read where the formal is read, and overwritten
where the formal is overwritten, in the callee or further down.

**Algorithm.** Every formal has a set of uses and a set of definitions.  Procedures wait in a list;
the first one recomputes the sets of its formals from those of the formals that they are passed
to, and if a set grew, its callers join the list.

**Results.** `FormalTable.solve` gives the least sets that are closed under passing, whatever the
order of the list.
-/

namespace DefUse

/-- The uses and the definitions behind a formal parameter. -/
structure FormalSummary where
  /-- The uses that read the value bound to the formal. -/
  uses : List Use := []
  /-- The definitions that overwrite it. -/
  kills : List Def := []
  deriving DecidableEq, Repr

/-- The list with the members of another one that it lacks. -/
def unite {α : Type} [DecidableEq α] (xs ys : List α) : List α :=
  xs ++ (distinct ys).filter (· ∉ xs)

/-- The summaries of the formals of every procedure. -/
abbrev FormalTable := Array (Array FormalSummary)

namespace FormalTable

def summary (t : FormalTable) (x : Formal) : FormalSummary :=
  ((t[x.proc]?.getD #[])[x.index]?).getD {}

/-- The table in which every summary is empty. -/
def start (prog : Program) : FormalTable :=
  prog.procs.map fun f => Array.replicate f.params.length {}

end FormalTable

namespace LocalFlow

/-- The uses that a local use stands for: itself if it is an endpoint, and the uses behind the
formals that it is passed to. -/
def standsFor (fl : LocalFlow) (t : FormalTable) (u : Use) : List Use :=
  (if fl.isEndpoint u then [u] else []) ++ (fl.links u).flatMap fun x => (t.summary x).uses

/-- The definitions of the formals that a local use is passed to. -/
def overwrites (fl : LocalFlow) (t : FormalTable) (u : Use) : List Def :=
  (fl.links u).flatMap fun x => (t.summary x).kills

/-- What a formal stands for, given the summaries of the formals it is passed to. -/
def summarize (fl : LocalFlow) (t : FormalTable) (param : Variable) : FormalSummary :=
  let reached := fl.usesFrom entryId param
  { uses := reached.flatMap (fl.standsFor t)
    kills := fl.defsFrom entryId param ++ reached.flatMap (fl.overwrites t) }

end LocalFlow

namespace FormalTable

/-- A summary with what a procedure adds to it; only local variables are summarised. -/
def growSummary (fl : LocalFlow) (t : FormalTable) (param : Variable) (s : FormalSummary) :
    FormalSummary :=
  if param.isZero || !param.isLocal then s
  else
    let more := fl.summarize t param
    { uses := unite s.uses more.uses, kills := unite s.kills more.kills }

/-- The table after the formals of a procedure, in order, were recomputed. -/
def update (prog : Program) (fl : LocalFlow) (p : Nat) (t : FormalTable) : FormalTable :=
  (prog.proc p).params.zipIdx.foldl
    (fun t (param, i) =>
      t.modify p fun row => row.modify i (growSummary fl t param))
    t

/-- The state of the computation: the waiting procedures, the table and the number of visits. -/
structure Progress where
  /-- The procedures to recompute. -/
  waiting : List Nat
  /-- The summaries found so far. -/
  table : FormalTable
  /-- How many procedures were recomputed. -/
  visits : Nat := 0

/-- Recomputes the first waiting procedure; its callers wait again if a summary grew. -/
def advance (prog : Program) (flows : Array LocalFlow) (s : Progress) : Option Progress :=
  match s.waiting with
  | [] => none
  | p :: waiting =>
    match flows[p]? with
    | none => some { s with waiting, visits := s.visits + 1 }
    | some fl =>
      let table := update prog fl p s.table
      let callers := (prog.callers p).map Int.toNat
      let waiting :=
        if table = s.table then waiting else waiting ++ callers.filter (· ∉ waiting)
      some { waiting, table, visits := s.visits + 1 }

/-- A bound on the number of visits: every growth adds a use or a definition to a summary, and
makes at most every procedure wait again. -/
def visitBound (prog : Program) (flows : Array LocalFlow) (waiting : List Nat) : Nat :=
  let formals := prog.procs.foldl (fun n f => n + f.params.length) 0
  let items := flows.foldl (fun n fl => n + fl.uses.size + fl.defs.size) 0
  waiting.length + formals * items * prog.procs.size + 1

/-- The summaries of all formals, found from the given list of waiting procedures. -/
def solveFrom (prog : Program) (flows : Array LocalFlow) (waiting : List Nat) : Progress :=
  runSteps (advance prog flows) (visitBound prog flows waiting)
    { waiting, table := start prog }

/-- The procedures, callees first. -/
def calleesFirst (prog : Program) : List Nat :=
  ((prog.calls.components prog.procIds).flatten).map Int.toNat

/-- The summaries of all formals, callees first. -/
def solve (prog : Program) (flows : Array LocalFlow) : Progress :=
  solveFrom prog flows (calleesFirst prog)

end FormalTable

end DefUse
