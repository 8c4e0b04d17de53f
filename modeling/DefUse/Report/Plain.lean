import DefUse.Report.Basic
import DefUse.Text.Paint

/-!
# Reports for people

**Results.** `Report.plain` writes a line for each association, with the details below it.
-/

namespace DefUse
namespace Report

open Text (Paint)

def gradeStyle (classification : String) : Paint :=
  if classification = Classification.definite.render then .green
  else if classification = Classification.conditional.render then .yellow
  else .red

/-- An indented line with a title and texts, if there are any. -/
def detailLine (title : String) (xs : Option (List String)) : String :=
  let items := xs.getD []
  if items.isEmpty then "" else "\t" ++ title ++ ": " ++ String.intercalate ", " items ++ "\n"

def plainEntry (painted : Bool) (e : ReportEntry) : String :=
  "[" ++ (gradeStyle e.classification).apply painted e.classification ++ "] " ++ e.kind ++ " " ++
    Paint.cyan.apply painted e.var ++ ": " ++ e.definition ++ " => " ++ e.use ++
    (if e.predicateUse then " -> " ++ e.branch else "") ++
    (if e.pathWarning then " " ++ Paint.yellow.apply painted "(path warning)" else "") ++ "\n" ++
    (if e.interprocedural then detailLine "through" e.localUses else "") ++
    detailLine "hard kills" e.hardKills ++ detailLine "possible kills" e.possibleKills ++
    match e.paths with
    | none => ""
    | some p => "\tpaths: " ++ p.expr ++ "\n"

/-- The report as lines of text, with or without escape sequences for styles. -/
def plain (painted : Bool) (r : Report) : String :=
  Paint.bold.apply painted r.stats.summary ++ "\n" ++
    (if r.stats.pathsSkipped then
      Paint.faint.apply painted "path expressions skipped: no order oracle enabled" ++ "\n"
    else "") ++
    String.join ((r.entries.getD []).map (plainEntry painted))

end Report
end DefUse
