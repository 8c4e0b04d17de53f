import DefUse.Association.Build
import DefUse.Order.GraphOrder
import DefUse.Path.Engine
import DefUse.Stats

/-!
# Analysing a program

**Input.** A checked program, an oracle or none, and the settings.

**Results.** `analyze` gives the associations of the program, their path expressions if they were
asked for, and the statistics, with the events of the analysis.
-/

namespace DefUse

/-- The result of the analysis of a program. -/
structure AnalysisResult where
  /-- The program. -/
  prog : Program
  /-- Its associations. -/
  set : AssociationSet
  /-- The path expressions, with the positions of their associations. -/
  paths : List (Nat × AssociationPaths)
  /-- The statistics. -/
  stats : Stats

/-- Why an analysis was aborted. -/
inductive AnalysisError where
  /-- The books of the analysis contradict each other. -/
  | violation (e : Violation)
  /-- The path expressions could not be computed. -/
  | paths (e : PathError)
  deriving DecidableEq, Repr

def AnalysisError.message : AnalysisError → String
  | violation e => "dua analysis aborted: " ++ e.message
  | paths e => "path expressions failed: " ++ e.message

/-- The oracle of an analysis: the given one, or one computed from the program if the settings
have a use for it. -/
def chooseOracle (prog : Program) (oracle : Option Oracle) (settings : Settings) :
    Oracle × List Log.Event :=
  match oracle with
  | some o => (o, [])
  | none =>
    if settings.orderDisabled then (.null, [])
    else ((GraphOrder.ofProgram prog).oracle, [.orderComputed])

/-- The path expressions of a set, if they are asked for and an order of execution is known. -/
def pathStage (prog : Program) (settings : Settings) (set : AssociationSet) :
    Except PathError (AssociationSet × List (Nat × AssociationPaths) × List Log.Event) :=
  if !settings.pathExpressions then .ok (set, [], [])
  else if settings.orderDisabled then .ok (set, [], [.pathsNeedOrder])
  else do
    let (engine, items, paths) ← ({ prog, settings } : PathEngine).run set.items
    return ({ set with items }, paths, engine.events.reverse ++ [.pathsComputed])

/-- Analyses a checked program. -/
def analyze (prog : Program) (oracle : Option Oracle) (settings : Settings) :
    Except AnalysisError (AnalysisResult × List Log.Event) := do
  let (oracle, orderEvents) := chooseOracle prog oracle settings
  let (set, events) ← (analyzeProgram prog oracle settings).mapError .violation
  let (set, paths, pathEvents) ← (pathStage prog settings set).mapError .paths
  let skipped := settings.pathExpressions && settings.orderDisabled
  let stats := Stats.ofSet set prog.procs.size paths.length skipped
  return ({ prog, set, paths, stats },
    orderEvents ++ events ++ [.associationsComputed] ++ pathEvents ++ [.result stats.summary])

end DefUse
