import DefUse.Analyze
import DefUse.Config.Fields
import DefUse.Report.Format
import DefUse.Source.Exchange

/-!
# The command

The command reads the description of checked packages, analyses the packages that are named, and
writes a report.

**Results.** `Command.parse` reads the arguments, `Command.report` gives the report and the lines of
the log, and `Command.target` says where the report goes.
-/

namespace DefUse

/-- What the arguments ask for. -/
structure Command where
  /-- The file with the configuration, if it is not empty. -/
  config : String := ""
  /-- The name of the format of the report. -/
  format : String := "text"
  /-- The file for the report, if it is not empty. -/
  output : String := ""
  /-- The file with the description of the packages. -/
  sources : String := ""
  /-- Path expressions are computed. -/
  paths : Bool := false
  /-- More than results is logged. -/
  verbose : Bool := false
  /-- The packages. -/
  packages : List String := []
  deriving DecidableEq, Repr

/-- What is wrong with the arguments. -/
inductive UsageError where
  /-- No option has this name. -/
  | unknownOption (name : String)
  /-- An option needs a value. -/
  | missingValue (name : String)
  /-- An option has a value that it cannot have. -/
  | badValue (name value : String)
  /-- No package is named. -/
  | noPackages
  deriving DecidableEq, Repr

namespace UsageError

def message : UsageError → String
  | unknownOption name => "flag provided but not defined: -" ++ name
  | missingValue name => "flag needs an argument: -" ++ name
  | badValue name value => "invalid value " ++ Text.quote value ++ " for flag -" ++ name
  | noPackages => "no packages"

end UsageError

namespace Command

/-- How to use the command. -/
def usage : String :=
  "Compute the definition-use associations of your packages.\n" ++
  "Usage:\n" ++
  "    dua [options] <package path(s)>\n" ++
  "Options:\n" ++
  "    -config file    Config file path for the analysis\n" ++
  "    -format name    Report format: text, json or msgpack\n" ++
  "    -o file         Output file of the report\n" ++
  "    -paths          Compute the path expressions of the DUAs\n" ++
  "    -sources file   Description of the checked packages\n" ++
  "    -verbose        Verbose printing on standard output\n"

/-- The name of an option without its dashes, and its value after an equality sign. -/
def splitOption (arg : String) : String × Option String :=
  let cs := (arg.toList.drop 1)
  let cs := if cs.head? = some '-' then cs.drop 1 else cs
  let name := cs.takeWhile (· ≠ '=')
  match cs.drop name.length with
  | [] => (String.ofList name, none)
  | _ :: value => (String.ofList name, some (String.ofList value))

/-- Sets an option that has a text, if there is one with the name. -/
def setText? (c : Command) (name value : String) : Option Command :=
  match name with
  | "config" => some { c with config := value }
  | "format" => some { c with format := value }
  | "o" => some { c with output := value }
  | "sources" => some { c with sources := value }
  | _ => none

/-- Sets an option that is on or off, if there is one with the name. -/
def setFlag? (c : Command) (name : String) (on : Bool) : Option Command :=
  match name with
  | "paths" => some { c with paths := on }
  | "verbose" => some { c with verbose := on }
  | _ => none

/-- The truth value of an option that is on or off. -/
def switch? : Option String → Option Bool
  | none => some true
  | some "true" => some true
  | some "false" => some false
  | some _ => none

/-- Reads the options up to the first package. -/
def parseFrom (c : Command) : List String → Except UsageError Command
  | [] => .error .noPackages
  | arg :: rest =>
    if arg = "--" then .ok { c with packages := rest }
    else if !arg.startsWith "-" || arg = "-" then .ok { c with packages := arg :: rest }
    else
      let (name, value) := splitOption arg
      match c.setFlag? name ((switch? value).getD false), value with
      | some c, value =>
        if (switch? value).isNone then .error (.badValue name (value.getD "")) else parseFrom c rest
      | none, some value =>
        match c.setText? name value with
        | some c => parseFrom c rest
        | none => .error (.unknownOption name)
      | none, none =>
        match rest with
        | [] =>
          if (c.setText? name "").isSome then .error (.missingValue name)
          else .error (.unknownOption name)
        | value :: rest =>
          match c.setText? name value with
          | some c => parseFrom c rest
          | none => .error (.unknownOption name)

def parse (args : List String) : Except UsageError Command := do
  let c ← parseFrom {} args
  if c.packages.isEmpty then throw .noPackages
  return c

/-- The configuration with what the arguments change. -/
def configure (c : Command) (config : Config) : Config :=
  let settings := config.settings
  { config with
    settings :=
      { settings with
        logLevel := if c.verbose then Log.Level.debug.code else settings.logLevel
        pathExpressions := c.paths || settings.pathExpressions } }

/-- The lines about what was replaced in the configuration. -/
def warnings (c : Command) (config : Config) : List Log.Line :=
  config.warnings.map fun w => ⟨.warning, c.config ++ ": " ++ w⟩

/-- Why there is no report. -/
inductive Failure where
  | format (e : ReportError)
  | config (file : String) (e : ConfigError)
  | sources
  | program (e : Source.LoadError)
  | analysis (e : AnalysisError)

namespace Failure

def message : Failure → String
  | format e => e.message
  | config file e => "could not load config " ++ file ++ ": " ++ e.message
  | sources => "could not load program: errors found, exiting"
  | program e => "could not build the program model: " ++ e.message
  | analysis e => "analysis failed: " ++ e.message

end Failure

/-- The report on the packages that a text describes, and the lines of the log. -/
def report (c : Command) (config : Config) (description : String) :
    Except Failure (Report × List Log.Line) := do
  let some (doc, _) := Doc.Json.parse description.toList | throw .sources
  let src := Source.Sources.ofDoc doc
  let directives := src.directives (src.closure c.packages)
  let (prog, modelled) ← (src.load Source.FlowGraph.build Source.Expr.staticCallee? c.packages
    config directives.ignores).mapError .program
  let (result, events) ← (analyze prog none config.settings).mapError .analysis
  return (.ofResult result, (modelled ++ events).map Log.Event.line)

/-- The file for the report, if it does not go to the standard output. -/
def target (c : Command) (config : Config) (format : Format) : Option String :=
  let dir := config.settings.reportsDir
  if !c.output.isEmpty then some c.output
  else if !dir.isEmpty then some (FileName.join dir ("duas" ++ format.extension))
  else none

end Command
end DefUse
