import DefUse.Command

/-!
# The program

Files are read, the command is run on their texts, and the report is written.
-/

namespace DefUse
namespace Command

/-- The configuration of the file that the arguments name. -/
def readConfig (c : Command) : IO (Except Failure Config) := do
  if c.config.isEmpty then return .ok {}
  let text ← IO.FS.readFile c.config
  return (Config.parse c.config text).mapError (.config c.config)

def writeReport (c : Command) (config : Config) (format : Format) (r : Report) : IO Unit := do
  match c.target config format with
  | none =>
    let octets := (r.write true format).toByteArray
    (← IO.getStdout).write octets
  | some path =>
    if c.output.isEmpty then IO.FS.createDirAll config.settings.reportsDir
    IO.FS.writeBinFile path (r.write false format).toByteArray

def run (c : Command) : IO (Except Failure Unit) := do
  match Format.parse c.format with
  | .error e => return .error (.format e)
  | .ok format =>
    match ← c.readConfig with
    | .error e => return .error e
    | .ok config =>
      let config := c.configure config
      let sink : Log.Sink :=
        { level := config.settings.logLevel, silenced := config.settings.silenceWarnings }
      let description ← IO.FS.readFile c.sources
      match c.report config description with
      | .error e => return .error e
      | .ok (r, lines) =>
        IO.eprint (sink.collect (c.warnings config ++ lines))
        c.writeReport config format r
        return .ok ()

end Command
end DefUse

/-- The program: it fails with 2 if the arguments are wrong and with 1 if there is no report. -/
def main (args : List String) : IO UInt32 := do
  match DefUse.Command.parse args with
  | .error e =>
    IO.eprint (e.message ++ "\n" ++ DefUse.Command.usage)
    return 2
  | .ok c =>
    try
      match ← c.run with
      | .ok () => return 0
      | .error e =>
        IO.eprint ("dua: " ++ e.message ++ "\n")
        return 1
    catch e =>
      IO.eprint ("dua: " ++ toString e ++ "\n")
      return 1
