import DefUse.Config.FileName
import DefUse.Config.Settings
import DefUse.Pattern.Reader
import DefUse.Text.Quoted

/-!
# Configurations

**Results.** `Config` holds settings together with the file that they come from.  `Config.accepts`
says which packages pass its filter, and `Config.normalize` replaces values that cannot be used.
-/

namespace DefUse

/-- Settings that may come from a file. -/
structure Config where
  /-- The settings. -/
  settings : Settings := {}
  /-- The name of the file. -/
  file : String := ""
  /-- The filter for packages, if it is a pattern. -/
  filter : Option Pattern := none
  /-- What was replaced. -/
  warnings : List String := []

namespace Config

/-- The path of a file that is named from the place of the configuration. -/
def resolve (c : Config) (name : String) : String :=
  FileName.join (FileName.parent c.file) name

/-- A package passes the filter.  A filter that is no pattern stands for the texts that start with
it, and without a filter all packages pass. -/
def accepts (c : Config) (package : String) : Bool :=
  match c.filter with
  | some p => p.search package
  | none => package.startsWith c.settings.packageFilter

/-- The filter of a configuration that restricts the packages. -/
def filter? (c : Config) : Option (String → Bool) :=
  if c.settings.packageFilter.isEmpty then none else some c.accepts

def pathsWarning (n : Int) : String :=
  "max-path-ids " ++ toString n ++ " is not positive, using " ++ toString defaultMaxPaths

def filterWarning (filter : String) (e : Pattern.ReadError) : String :=
  "pkg-filter " ++ Text.quote filter ++ " is not a valid regex (" ++ e.message ++
    "), matching it as a package prefix"

/-- A relative directory for reports is meant from the place of the configuration. -/
def placeReports (c : Config) : Config :=
  let dir := c.settings.reportsDir
  if dir.isEmpty || FileName.isAbsolute dir then c
  else { c with settings.reportsDir := c.resolve dir }

/-- A level of logging that is not set is the usual one. -/
def fillLevel (c : Config) : Config :=
  if c.settings.logLevel = 0 then { c with settings.logLevel := defaultLogLevel } else c

/-- A number of paths that is not positive is replaced, with a warning. -/
def fillPaths (c : Config) : Config :=
  if c.settings.maxPaths ≤ 0 then
    { c with
      warnings := c.warnings ++ [pathsWarning c.settings.maxPaths]
      settings.maxPaths := defaultMaxPaths }
  else c

/-- Reads the filter as a pattern; there is a warning if it is none. -/
def readFilter (c : Config) : Config :=
  let filter := c.settings.packageFilter
  if filter.isEmpty then c
  else
    match Pattern.parse filter with
    | .ok p => { c with filter := some p }
    | .error e => { c with warnings := c.warnings ++ [filterWarning filter e] }

/-- Replaces the values that are not set or cannot be used. -/
def normalize (c : Config) : Config := c.placeReports.fillLevel.fillPaths.readFilter

end Config
end DefUse
