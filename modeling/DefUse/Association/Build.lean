import DefUse.Association.Heap
import DefUse.Association.Set
import DefUse.Flow.Formals
import DefUse.Log
import DefUse.Order.Oracle

/-!
# The associations of a program

**Input.** A checked program, an oracle on the order of execution and the settings.

**Algorithm.** A local definition is associated with the uses that it reaches, in its own procedure
or behind the formals that its variable is passed to.  An association is inferrable if the
definition is ordered before one of the points where its procedure reads it, unless definitions
of several places reach the use from other procedures or a branch is reached by several
definitions.  Its kills are the definitions that can execute after the definition and reach the
same use.

**Results.** `analyzeProgram` gives the set of all associations, in order, with the events of the
analysis, or a contradiction in its books.
-/

namespace DefUse

/-- What a local definition reaches. -/
structure Reached where
  /-- The definition. -/
  definition : Def
  /-- The uses reached, each with a local use that it is reached through. -/
  pairs : List (Use × Use)
  /-- The definitions of the same variable that can execute after it. -/
  killers : List Def
  deriving DecidableEq, Repr

namespace Reached

def uses (r : Reached) : List Use := sortDistinct Use.less (r.pairs.map Prod.fst)

/-- The local uses that a use is reached through, in order. -/
def witnesses (r : Reached) (u : Use) : List Use :=
  sortDistinct Use.less ((r.pairs.filter (·.1 = u)).map Prod.snd)

end Reached

namespace LocalFlow

/-- What a definition of the procedure reaches, given the summaries of the formals. -/
def reachedBy (fl : LocalFlow) (t : FormalTable) (d : Def) : Reached :=
  let locals := fl.usesFrom d.site.node d.var
  let own := fl.killersOf d
  let remote := sortDistinct Def.less (locals.flatMap (fl.overwrites t))
  { definition := d
    pairs := locals.flatMap fun w => (fl.standsFor t w).map (·, w)
    killers := own ++ remote.filter fun k => k ≠ d && k ∉ own }

end LocalFlow

/-- What the construction of associations works with. -/
structure Analysis where
  /-- The program. -/
  prog : Program
  /-- What is known about the order of execution. -/
  oracle : Oracle
  /-- The settings. -/
  settings : Settings
  /-- The flow of local variables in each procedure. -/
  flows : Array LocalFlow
  /-- What the local definitions reach. -/
  reached : List Reached

namespace Analysis

/-- Some execution may go from one point to another; without reachability, any may. -/
def mayReach (s : Analysis) (a b : Point) : Bool :=
  if s.settings.useReachability then s.oracle.reaches a b true else true

/-- The first point executes before the second whenever both do; without dominance, nothing is
known to. -/
def executesBefore (s : Analysis) (a b : Point) : Bool :=
  s.settings.useDominance && (s.oracle.dominates a b || s.oracle.postdominates b a)

/-- The point belongs to an exception handler. -/
def inHandler (s : Analysis) (site : Point) : Bool := (s.prog.node site).handler

/-- Covering both points tells that the first one executed before the second. -/
def ordered (s : Analysis) (a b : Point) : Bool :=
  if s.inHandler a || s.inHandler b then false
  else s.executesBefore a b && !s.mayReach b a

/-- A kill, when it executes, executes between the definition and every target, and no target
leads back to the definition. -/
def killInOrder (s : Analysis) (d k : Def) (targets : List Point) : Bool :=
  if s.inHandler k.site then false
  else if !s.executesBefore d.site k.site then false
  else targets.all fun t => s.executesBefore k.site t && !s.mayReach t d.site

/-- The number of definitions that reach a use from other procedures. -/
def remoteDefs (s : Analysis) (u : Use) : Nat :=
  s.reached.countP fun r =>
    r.definition.site.proc ≠ u.site.proc && (r.pairs.map Prod.fst).contains u

/-- What the books say about a definition. -/
def reachedBy? (s : Analysis) (d : Def) : Option Reached :=
  s.reached.find? (·.definition = d)

/-- A local use belongs to the procedure of the definition, and is passed on if the use reached
lies in another procedure. -/
def checkWitness (s : Analysis) (d : Def) (u w : Use) : Except Violation Unit :=
  if w.site.proc ≠ d.site.proc then .error (.foreignLocalUse d u w)
  else if u.site.proc = d.site.proc then .ok ()
  else if (((item? s.flows d.site.proc).map (·.links w)).getD []).isEmpty then
    .error (.noArgumentLink d u)
  else .ok ()

/-- A definition reaches a use through local uses of its own procedure, and through arguments if
the use lies in another one. -/
def checkLink (s : Analysis) (d : Def) (u : Use) (witnesses : List Use) : Except Violation Unit :=
  if witnesses.isEmpty then .error (.noLocalUse d u)
  else witnesses.forM (s.checkWitness d u)

/-- The kills of an association: the killers of the definition that reach the same use. -/
def killsOf (s : Analysis) (r : Reached) (u : Use) : Except Violation (List Def) :=
  r.killers.foldlM
    (fun kills k =>
      match s.reachedBy? k with
      | none => .error (.unknownKill k r.definition)
      | some hit =>
        .ok (if (hit.pairs.map Prod.fst).contains u then kills ++ [k] else kills))
    []

/-- The association of a local definition and a use that it reaches. -/
def localAssociation (s : Analysis) (r : Reached) (u : Use) : Except Violation Association := do
  let d := r.definition
  let witnesses := r.witnesses u
  s.checkLink d u witnesses
  let targets := distinct (witnesses.map Use.site)
  let kills ← s.killsOf r u
  return {
    definition := d
    use := u
    localUses := witnesses
    inferrable := targets.any (s.ordered d.site) && s.remoteDefs u ≤ 1
    hardKills := kills.filter fun k => s.killInOrder d k targets
    possibleKills := kills.filter fun k => !s.killInOrder d k targets }

/-- The associations of local variables, in order. -/
def localAssociations (s : Analysis) : Except Violation (List Association) := do
  let sorted := sortBy (fun a b => a.definition.less b.definition) s.reached
  let groups ← sorted.mapM fun r => r.uses.mapM (s.localAssociation r)
  return groups.flatten

end Analysis

/-- A branch that several definitions reach tells nothing about which one it read. -/
def clearPredicates (items : List Association) : List Association :=
  items.map fun a =>
    let rivals := (items.filter fun b =>
      !b.heap && b.use.isPredicate && b.use = a.use).map Association.definition
    if !a.heap && a.use.isPredicate && (distinct rivals).length > 1 then
      { a with inferrable := false }
    else a

/-- The number of associations that lost their inferrability. -/
def clearedCount (before after : List Association) : Nat :=
  (before.zip after).countP fun (a, b) => a.inferrable && !b.inferrable

/-- The flow of local variables of every procedure. -/
def localFlows (prog : Program) (formalsAsDefs : Bool) : Array LocalFlow :=
  (prog.procIds.map (LocalFlow.ofProcedure prog formalsAsDefs)).toArray

/-- The summaries of all formals; none are needed if formals are definitions. -/
def formalProgress (prog : Program) (formalsAsDefs : Bool) (flows : Array LocalFlow) :
    FormalTable.Progress :=
  if formalsAsDefs then { waiting := [], table := .start prog }
  else FormalTable.solve prog flows

/-- Everything that the construction of associations works with. -/
def prepare (prog : Program) (oracle : Oracle) (settings : Settings) :
    Analysis × List Log.Event :=
  let flows := localFlows prog settings.formalsAsDefs
  let progress := formalProgress prog settings.formalsAsDefs flows
  let reached := flows.toList.flatMap fun fl =>
    fl.defs.toList.map (fl.reachedBy progress.table)
  let events := (prog.procs.toList.zip flows.toList).map (fun (f, fl) =>
      Log.Event.localFlow f.name fl.uses.size fl.defs.size) ++
    if settings.formalsAsDefs then [] else [.formalsConverged progress.visits]
  ({ prog, oracle, settings, flows, reached }, events)

/-- The associations of a program, in order, with the events of the analysis. -/
def analyzeProgram (prog : Program) (oracle : Oracle) (settings : Settings) :
    Except Violation (AssociationSet × List Log.Event) := do
  let (s, events) := prepare prog oracle settings
  let localItems ← s.localAssociations
  let heapItems := if settings.localOnly then [] else prog.heapAssociations settings
  let heapEvents := if settings.localOnly then [] else
    [.heapBuilt heapItems.length (prog.heapDefs settings).length (prog.heapUses settings).length]
  let sorted := sortBy Association.less (localItems ++ heapItems)
  let set ← AssociationSet.addAll
    { sameBlock := prog.sameBlockPairs settings.formalsAsDefs } sorted
  let items := clearPredicates set.items
  return ({ set with items },
    events ++ heapEvents ++
      [.predicatesCleared (clearedCount set.items items), .collected items.length prog.procs.size])

end DefUse
