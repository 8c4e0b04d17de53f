import DefUse.Document.Basic
import DefUse.Report.Basic

/-!
# Reports as documents

Flags that are off, empty lists, an empty branch and missing path expressions are left out.  While a
report is read, its lists keep the items behind their ends; the drafts hold them.

**Results.** `Report.toDoc` is the document of a report, and `Report.ofDoc?` reads a report from a
document of either format.
-/

namespace DefUse

open Doc (Dialect Reader Refill)

namespace Doc

/-- A text that is written even if it is empty. -/
def textField (key s : String) : List (String × Doc) := [(key, .text s)]

def textField? (key s : String) : List (String × Doc) :=
  if s.isEmpty then [] else [(key, .text s)]

def flagField? (key : String) (b : Bool) : List (String × Doc) :=
  if b then [(key, .flag b)] else []

/-- A list of texts that is left out if it is missing or empty. -/
def textsField? (key : String) (xs : Option (List String)) : List (String × Doc) :=
  let items := xs.getD []
  if items.isEmpty then [] else [(key, .list (items.map .text))]

end Doc

namespace Stats

def toDoc (s : Stats) : Doc :=
  .record [
    ("procedures", .int s.procedures), ("duas", .int s.associations),
    ("definite", .int s.definite), ("conditional", .int s.conditional),
    ("nonInferrable", .int s.nonInferrable), ("heap", .int s.heap),
    ("interprocedural", .int s.interprocedural), ("pathExpressions", .int s.pathExpressions),
    ("pathWarnings", .int s.pathWarnings), ("pathsSkipped", .flag s.pathsSkipped)]

def fields (d : Dialect) : List (Reader.Field Stats) := [
  ("procedures", fun s x => return { s with procedures := ← Reader.int d s.procedures x }),
  ("duas", fun s x => return { s with associations := ← Reader.int d s.associations x }),
  ("definite", fun s x => return { s with definite := ← Reader.int d s.definite x }),
  ("conditional", fun s x => return { s with conditional := ← Reader.int d s.conditional x }),
  ("nonInferrable", fun s x =>
    return { s with nonInferrable := ← Reader.int d s.nonInferrable x }),
  ("heap", fun s x => return { s with heap := ← Reader.int d s.heap x }),
  ("interprocedural", fun s x =>
    return { s with interprocedural := ← Reader.int d s.interprocedural x }),
  ("pathExpressions", fun s x =>
    return { s with pathExpressions := ← Reader.int d s.pathExpressions x }),
  ("pathWarnings", fun s x => return { s with pathWarnings := ← Reader.int d s.pathWarnings x }),
  ("pathsSkipped", fun s x => return { s with pathsSkipped := ← Reader.flag d s.pathsSkipped x })]

def reader (d : Dialect) : Reader Stats := Reader.record d (fields d) {}

end Stats

namespace ReportPaths

def toDoc (p : ReportPaths) : Doc :=
  .record (Doc.textField "expr" p.expr ++ Doc.textsField? "incoming" p.incoming ++
    Doc.textsField? "departing" p.departing)

/-- A path expression that is being read. -/
structure Draft where
  /-- The expression. -/
  expr : String := ""
  /-- The edges into loops. -/
  incoming : Option (Refill String) := none
  /-- The edges out of loops. -/
  departing : Option (Refill String) := none
  deriving DecidableEq, Repr

def Draft.finish (p : Draft) : ReportPaths where
  expr := p.expr
  incoming := p.incoming.map Refill.items
  departing := p.departing.map Refill.items

/-- How the fields of a path expression are read. -/
def fields (d : Dialect) : List (Reader.Field Draft) := [
  ("expr", fun p x => return { p with expr := ← Reader.text d p.expr x }),
  ("incoming", fun p x => return { p with incoming := ← Reader.texts? d p.incoming x }),
  ("departing", fun p x => return { p with departing := ← Reader.texts? d p.departing x })]

def reader (d : Dialect) : Reader Draft := Reader.record d (fields d) {}

end ReportPaths

namespace ReportEntry

def toDoc (e : ReportEntry) : Doc :=
  .record (
    Doc.textField "var" e.var ++ Doc.textField "kind" e.kind ++
    Doc.textField "def" e.definition ++ Doc.textField "use" e.use ++
    Doc.flagField? "predicateUse" e.predicateUse ++ Doc.textField? "branch" e.branch ++
    Doc.textField "classification" e.classification ++ Doc.flagField? "heap" e.heap ++
    Doc.flagField? "interprocedural" e.interprocedural ++
    Doc.textsField? "localUses" e.localUses ++ Doc.textsField? "hardKills" e.hardKills ++
    Doc.textsField? "possibleKills" e.possibleKills ++
    Doc.flagField? "pathWarning" e.pathWarning ++
    match e.paths with
    | none => []
    | some p => [("paths", p.toDoc)])

/-- An association that is being read. -/
structure Draft where
  /-- The fields that are no lists and no path expression. -/
  entry : ReportEntry := {}
  /-- The labels of the uses through which the use is reached. -/
  localUses : Option (Refill String) := none
  /-- The labels of the hard kills. -/
  hardKills : Option (Refill String) := none
  /-- The labels of the possible kills. -/
  possibleKills : Option (Refill String) := none
  /-- The path expression. -/
  paths : Option ReportPaths.Draft := none
  deriving DecidableEq, Repr

def Draft.finish (e : Draft) : ReportEntry :=
  { e.entry with
    localUses := e.localUses.map Refill.items
    hardKills := e.hardKills.map Refill.items
    possibleKills := e.possibleKills.map Refill.items
    paths := e.paths.map ReportPaths.Draft.finish }

def textOf (d : Dialect) (get : ReportEntry → String) (set : ReportEntry → String → ReportEntry) :
    Reader Draft :=
  fun e x => return { e with entry := set e.entry (← Reader.text d (get e.entry) x) }

def flagOf (d : Dialect) (get : ReportEntry → Bool) (set : ReportEntry → Bool → ReportEntry) :
    Reader Draft :=
  fun e x => return { e with entry := set e.entry (← Reader.flag d (get e.entry) x) }

/-- How the fields of an association are read. -/
def fields (d : Dialect) : List (Reader.Field Draft) := [
  ("var", textOf d (·.var) fun e s => { e with var := s }),
  ("kind", textOf d (·.kind) fun e s => { e with kind := s }),
  ("def", textOf d (·.definition) fun e s => { e with definition := s }),
  ("use", textOf d (·.use) fun e s => { e with use := s }),
  ("predicateUse", flagOf d (·.predicateUse) fun e b => { e with predicateUse := b }),
  ("branch", textOf d (·.branch) fun e s => { e with branch := s }),
  ("classification", textOf d (·.classification) fun e s => { e with classification := s }),
  ("heap", flagOf d (·.heap) fun e b => { e with heap := b }),
  ("interprocedural", flagOf d (·.interprocedural) fun e b => { e with interprocedural := b }),
  ("localUses", fun e x => return { e with localUses := ← Reader.texts? d e.localUses x }),
  ("hardKills", fun e x => return { e with hardKills := ← Reader.texts? d e.hardKills x }),
  ("possibleKills", fun e x =>
    return { e with possibleKills := ← Reader.texts? d e.possibleKills x }),
  ("pathWarning", flagOf d (·.pathWarning) fun e b => { e with pathWarning := b }),
  ("paths", fun e x =>
    return { e with paths := ← Reader.optional (ReportPaths.reader d) {} e.paths x })]

def reader (d : Dialect) : Reader Draft := Reader.record d (fields d) {}

end ReportEntry

namespace Report

def toDoc (r : Report) : Doc :=
  .record [
    ("stats", r.stats.toDoc),
    ("duas", match r.entries with
      | none => .null
      | some es => .list (es.map ReportEntry.toDoc))]

/-- A report that is being read. -/
structure Draft where
  /-- The statistics. -/
  stats : Stats := {}
  /-- The associations, if there is a list of them. -/
  entries : Option (Refill ReportEntry.Draft) := none
  deriving DecidableEq, Repr

def Draft.finish (r : Draft) : Report where
  stats := r.stats
  entries := r.entries.map fun es => es.items.map ReportEntry.Draft.finish

def fields (d : Dialect) : List (Reader.Field Draft) := [
  ("stats", fun r x => return { r with stats := ← Stats.reader d r.stats x }),
  ("duas", fun r x =>
    return { r with entries := ← Reader.list? d (ReportEntry.reader d) {} r.entries x })]

/-- The report that a document holds, if its parts fit. -/
def ofDoc? (d : Dialect) (doc : Doc) : Option Report :=
  (Reader.record d (fields d) {} {} doc).map Draft.finish

end Report
end DefUse
