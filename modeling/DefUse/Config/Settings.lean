/-!
# Settings of the analysis

**Results.** `Settings` holds every option with its default value.
-/

namespace DefUse

/-- The bound on the number of paths of a procedure that is used when none is set. -/
def defaultMaxPaths : Int := 4096

/-- The level of logging that is used when none is set: results, warnings and errors. -/
def defaultLogLevel : Int := 3

/-- The options of the analysis. -/
structure Settings where
  /-- Where reports are written. -/
  reportsDir : String := ""
  /-- Which packages are modelled. -/
  packageFilter : String := ""
  /-- Formal parameters are definitions at the entry, and arguments are uses. -/
  formalsAsDefs : Bool := false
  /-- Objects of types outside the program are tracked. -/
  includeObjects : Bool := false
  /-- Only local variables are tracked. -/
  localOnly : Bool := false
  /-- The oracle is asked for reachability. -/
  useReachability : Bool := true
  /-- The oracle is asked for dominance. -/
  useDominance : Bool := true
  /-- Path expressions are computed. -/
  pathExpressions : Bool := false
  /-- The greatest number of paths of a procedure with path expressions. -/
  maxPaths : Int := defaultMaxPaths
  /-- How much is logged. -/
  logLevel : Int := defaultLogLevel
  /-- Warnings are not logged. -/
  silenceWarnings : Bool := false
  /-- The fields that are not tracked. -/
  excludedFields : List String := []
  deriving DecidableEq, Repr

namespace Settings

/-- Nothing is asked of the oracle, so that no order is ever known. -/
def orderDisabled (s : Settings) : Bool := !s.useReachability && !s.useDominance

/-- More than results is logged. -/
def verbose (s : Settings) : Bool := s.logLevel ≥ 4

end Settings

end DefUse
