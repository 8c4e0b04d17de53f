import DefUse.Config.Basic
import DefUse.Config.FileTree
import DefUse.Yaml.Fields

/-!
# Reading configurations

**Results.** `Config.parse` reads a configuration from a text, `Config.load` from a file, and
`Config.createReports` creates the directory for reports.
-/

namespace DefUse

open Yaml (Reader)

namespace Settings

/-- The names of the options, and how each one is read. -/
def options : List (Reader.Field Settings) := [
  ("reports-dir", fun t s n => return { s with reportsDir := ← Reader.text t s.reportsDir n }),
  ("pkg-filter", fun t s n =>
    return { s with packageFilter := ← Reader.text t s.packageFilter n }),
  ("params-returns-as-defs-uses", fun t s n =>
    return { s with formalsAsDefs := ← Reader.flag t s.formalsAsDefs n }),
  ("include-object-duas", fun t s n =>
    return { s with includeObjects := ← Reader.flag t s.includeObjects n }),
  ("only-local-duas", fun t s n => return { s with localOnly := ← Reader.flag t s.localOnly n }),
  ("use-reachability", fun t s n =>
    return { s with useReachability := ← Reader.flag t s.useReachability n }),
  ("use-dominance", fun t s n =>
    return { s with useDominance := ← Reader.flag t s.useDominance n }),
  ("path-expressions", fun t s n =>
    return { s with pathExpressions := ← Reader.flag t s.pathExpressions n }),
  ("max-path-ids", fun t s n => return { s with maxPaths := ← Reader.integer t s.maxPaths n }),
  ("log-level", fun t s n => return { s with logLevel := ← Reader.integer t s.logLevel n }),
  ("silence-warn", fun t s n =>
    return { s with silenceWarnings := ← Reader.flag t s.silenceWarnings n })]

def sections : List (Reader.Field Settings) := [
  ("options", Reader.record options),
  ("excluded-fields", fun t s n =>
    return { s with excludedFields := ← Reader.texts t s.excludedFields n })]

/-- The settings that a text holds, if it is well formed. -/
def parse? (text : String) : Option Settings := do
  match ← Yaml.Tree.parse? text with
  | none => some {}
  | some t => t.decode? (Reader.record sections) {}

end Settings

/-- Why there is no configuration, or no directory for its reports. -/
inductive ConfigError where
  /-- The file cannot be found. -/
  | unknown (file : String) (cause : FileError)
  /-- The file cannot be read. -/
  | unreadable (file : String) (cause : FileError)
  /-- The text of the file is not well formed. -/
  | malformed (file : String)
  /-- The directory cannot be created. -/
  | noDirectory (path : String) (cause : FileError)
  deriving DecidableEq, Repr

namespace ConfigError

def message : ConfigError → String
  | unknown file cause => "could not read config file: open " ++ file ++ ": " ++ cause.message
  | unreadable file cause => "could not read config file: read " ++ file ++ ": " ++ cause.message
  | malformed file => "could not unmarshal config file " ++ file ++ ": "
  | noDirectory path cause =>
    "could not create directory " ++ path ++ ": mkdir " ++ path ++ ": " ++ cause.message

end ConfigError

namespace Config

/-- The configuration that a text holds; relative names in it are meant from the place of the
file. -/
def parse (file text : String) : Except ConfigError Config :=
  match Settings.parse? text with
  | none => .error (.malformed file)
  | some settings => .ok ({ settings, file } : Config).normalize

def load (files : FileTree) (file : String) : Except ConfigError Config :=
  match files.find file with
  | .error e => .error (.unknown file e)
  | .ok .directory => .error (.unreadable file .isDirectory)
  | .ok (.file text) => parse file text

/-- Creates the directory for reports if there is a name for it; it may be there already. -/
def createReports (c : Config) (files : FileTree) : Except ConfigError FileTree :=
  let dir := c.settings.reportsDir
  if dir.isEmpty then .ok files
  else
    match files.createDirectory dir with
    | .ok files => .ok files
    | .error .alreadyThere => .ok files
    | .error e => .error (.noDirectory dir e)

end Config
end DefUse
