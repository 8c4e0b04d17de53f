import DefUse.Document.Json
import DefUse.Document.JsonReader
import DefUse.Document.MessagePack
import DefUse.Report.Fields
import DefUse.Report.Plain
import DefUse.Text.Quoted

/-!
# Formats of reports

**Results.** `Format.parse?` reads the name of a format; `Report.write` and `Report.read?` write
and read reports.
-/

namespace DefUse

/-- A format of reports. -/
inductive Format where
  /-- Lines of text for people. -/
  | plain
  /-- An indented document of text. -/
  | json
  /-- A document of octets with the same fields. -/
  | messagePack
  deriving DecidableEq, Repr

namespace Format

def name : Format → String
  | plain => "text"
  | json => "json"
  | messagePack => "msgpack"

def all : List Format := [plain, json, messagePack]

def ofName? (s : String) : Option Format := all.find? fun f => f.name = s

/-- A character in lower case, as far as it can be part of the name of a format. -/
def lowerChar (c : Char) : Char :=
  if c.toNat = 0x212a then 'k' else c.toLower

/-- The format with the given name in any case. -/
def parse? (s : String) : Option Format := ofName? (String.ofList (s.toList.map lowerChar))

def extension : Format → String
  | plain => ".txt"
  | json => ".json"
  | messagePack => ".msgpack"

/-- The extension of files in the format with a name; every other name is taken for plain text. -/
def extensionOf (s : String) : String := ((ofName? s).getD plain).extension

end Format

/-- Why a report was not written or read. -/
inductive ReportError where
  /-- No format has this name. -/
  | unknownName (s : String)
  /-- Reports are not written in such a format. -/
  | notWritten (s : String)
  /-- Reports are not read from such a format. -/
  | notRead (s : String)
  /-- The text is no report in the format. -/
  | malformed
  deriving DecidableEq, Repr

def ReportError.message : ReportError → String
  | unknownName s => "unknown format " ++ Text.quote s ++ " (expected text, json or msgpack)"
  | notWritten s => "unknown format " ++ Text.quote s
  | notRead s => "cannot read reports in format " ++ Text.quote s
  | malformed => "failed to decode report: "

namespace Format

def parse (s : String) : Except ReportError Format :=
  match parse? s with
  | some f => .ok f
  | none => .error (.unknownName s)

end Format

namespace Report

def write (r : Report) (painted : Bool) : Format → List UInt8
  | .plain => Text.Utf8.encode (r.plain painted)
  | .json => Text.Utf8.encode (Doc.Json.render r.toDoc)
  | .messagePack => Doc.MessagePack.render r.toDoc

/-- The octets of a report in the format with a name. -/
def writeAs (r : Report) (painted : Bool) (format : String) : Except ReportError (List UInt8) :=
  match Format.ofName? format with
  | some f => .ok (r.write painted f)
  | none => .error (.notWritten format)

/-- The report that octets write as an indented document. -/
def readJson? (octets : List UInt8) : Option Report := do
  let (doc, _) ← Doc.Json.parse (Text.Utf8.lossy octets)
  ofDoc? Doc.Json.dialect doc

/-- The report that octets write as a document of octets. -/
def readMessagePack? (octets : List UInt8) : Option Report := do
  let (doc, _) ← Doc.MessagePack.parse octets
  ofDoc? Doc.MessagePack.dialect doc

/-- The report that octets write in a format, if reports are read from it. -/
def read? (octets : List UInt8) : Format → Option (Option Report)
  | .plain => none
  | .json => some (readJson? octets)
  | .messagePack => some (readMessagePack? octets)

/-- The report that octets write in the format with a name. -/
def readAs (octets : List UInt8) (format : String) : Except ReportError Report :=
  match (Format.ofName? format).bind (read? octets) with
  | none => .error (.notRead format)
  | some none => .error .malformed
  | some (some r) => .ok r

end Report
end DefUse
