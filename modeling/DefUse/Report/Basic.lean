import DefUse.Analyze

/-!
# Reports

**Input.** The result of an analysis.

**Results.** `Report.ofResult` lists the associations with their program points by label, the path
expressions and the statistics.
-/

namespace DefUse

/-- The path expression of an association in a report; one that was read may lack a list. -/
structure ReportPaths where
  /-- The expression. -/
  expr : String := ""
  /-- The edges into loops that it does not account for. -/
  incoming : Option (List String) := none
  /-- The edges out of loops that it does not account for. -/
  departing : Option (List String) := none
  deriving DecidableEq, Repr

/-- An association in a report; one that was read may lack a list. -/
structure ReportEntry where
  /-- The variable. -/
  var : String := ""
  /-- The kind of the variable. -/
  kind : String := ""
  /-- The label of the definition. -/
  definition : String := ""
  /-- The label of the use. -/
  use : String := ""
  /-- The use decides a branch. -/
  predicateUse : Bool := false
  /-- The label of the node that the branch leads to. -/
  branch : String := ""
  /-- The grade of the association. -/
  classification : String := ""
  /-- The variable lives on the heap. -/
  heap : Bool := false
  /-- The ends lie in different procedures. -/
  interprocedural : Bool := false
  /-- The labels of the uses through which the use is reached. -/
  localUses : Option (List String) := none
  /-- The labels of the hard kills. -/
  hardKills : Option (List String) := none
  /-- The labels of the possible kills. -/
  possibleKills : Option (List String) := none
  /-- Some way into or out of a loop is not accounted for. -/
  pathWarning : Bool := false
  /-- The path expression, if it was computed. -/
  paths : Option ReportPaths := none
  deriving DecidableEq, Repr

/-- The result of an analysis as it is written down. -/
structure Report where
  /-- The statistics. -/
  stats : Stats := {}
  /-- The associations in their order; a report that was read may have no list at all. -/
  entries : Option (List ReportEntry) := none
  deriving DecidableEq, Repr

namespace Report

def labels (prog : Program) (defs : List Def) : List String :=
  defs.map fun d => prog.label d.site

def pathsOf (p : AssociationPaths) : ReportPaths where
  expr := p.expr.top.render
  incoming := some (p.incoming.map Edge.render)
  departing := some (p.departing.map Edge.render)

def entryOf (prog : Program) (a : Association) (paths : Option AssociationPaths) :
    ReportEntry where
  var := a.definition.var.render
  kind := a.definition.var.kind.render
  definition := prog.label a.definition.site
  use := prog.label a.use.site
  predicateUse := a.use.kind = .predicate
  branch := if a.use.kind = .predicate then prog.label ⟨a.use.site.proc, a.use.succ⟩ else ""
  classification := a.classification.render
  heap := a.heap
  interprocedural := a.isInterprocedural
  localUses := some (a.localUses.map fun u => prog.label u.site)
  hardKills := some (labels prog a.hardKills)
  possibleKills := some (labels prog a.possibleKills)
  pathWarning := a.pathWarning
  paths := paths.map pathsOf

def ofResult (r : AnalysisResult) : Report where
  stats := r.stats
  entries := some <| r.set.items.zipIdx.map fun (a, i) => entryOf r.prog a (r.paths.lookup i)

end Report
end DefUse
