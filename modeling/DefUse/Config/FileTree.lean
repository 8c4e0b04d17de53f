import DefUse.Config.FileName

/-!
# Files and directories

**Results.** `FileTree` holds the directories and files below a working directory.  `read`,
`createDirectory` and `kind?` say what the usual operations answer.
-/

namespace DefUse

/-- Why an operation on a path fails. -/
inductive FileError where
  | missing
  | notDirectory
  | isDirectory
  | alreadyThere
  | nameTooLong
  | invalid
  deriving DecidableEq, Repr

namespace FileError

def message : FileError → String
  | missing => "no such file or directory"
  | notDirectory => "not a directory"
  | isDirectory => "is a directory"
  | alreadyThere => "file exists"
  | nameTooLong => "file name too long"
  | invalid => "invalid argument"

end FileError

/-- What stands at a place. -/
inductive FileEntry where
  /-- A directory. -/
  | directory
  /-- A file with its text. -/
  | file (text : String)
  deriving DecidableEq, Repr

/-- A place: names from the working directory or from the top, the last one first.  Names that lead
above the working directory come first in it. -/
structure Place where
  /-- The names start at the top of all places. -/
  absolute : Bool := false
  /-- The names, the last one first. -/
  reversed : List String := []
  deriving DecidableEq, Repr

namespace Place

def step (p : Place) (name : String) : Place :=
  { p with reversed := FileName.step p.absolute p.reversed name }

/-- The place is the working directory, a directory above it, or the top of all places. -/
def isGiven (p : Place) : Bool := p.reversed.all (· = "..")

end Place

/-- The directories and files that are known. -/
structure FileTree where
  /-- What stands at the places, the latest first. -/
  entries : List (Place × FileEntry) := []

namespace FileTree

def get? (t : FileTree) (p : Place) : Option FileEntry :=
  if p.isGiven then some .directory else t.entries.lookup p

def put (t : FileTree) (p : Place) (e : FileEntry) : FileTree :=
  ⟨(p, e) :: t.entries⟩

def maxNameSize : Nat := 255

def maxPathSize : Nat := 4095

/-- Goes on from a place, which must be a directory, by a name. -/
def enter (t : FileTree) (p : Place) (name : String) : Except FileError Place :=
  match t.get? p with
  | none => .error .missing
  | some (.file _) => .error .notDirectory
  | some .directory =>
    if name.utf8ByteSize > maxNameSize then .error .nameTooLong else .ok (p.step name)

/-- Where a path starts. -/
def start (path : String) : Place := { absolute := FileName.isAbsolute path }

def check (path : String) : Except FileError Unit :=
  if path.toList.any (·.toNat = 0) then .error .invalid
  else if path.utf8ByteSize > maxPathSize then .error .nameTooLong
  else if path = "" then .error .missing
  else .ok ()

/-- The place of a path.  Everything before its last name must be there. -/
def locate (t : FileTree) (path : String) : Except FileError Place := do
  check path
  (FileName.names path).foldlM (t.enter) (start path)

def find (t : FileTree) (path : String) : Except FileError FileEntry := do
  match t.get? (← t.locate path) with
  | some e => .ok e
  | none => .error .missing

def withoutEnd (path : String) : String :=
  String.ofList (path.toList.reverse.dropWhile (· = '/')).reverse

/-- Creates a directory, which must not be there, in one that is. -/
def createDirectory (t : FileTree) (path : String) : Except FileError FileTree := do
  check path
  let place ← t.locate (if withoutEnd path = "" then "/" else withoutEnd path)
  match t.get? place with
  | some _ => .error .alreadyThere
  | none => .ok (t.put place .directory)

/-- Adds all directories on the way to a place. -/
def addDirectories (t : FileTree) (p : Place) : List String → FileTree
  | [] => t
  | name :: rest =>
    let p := p.step name
    (if (t.get? p).isSome then t else t.put p .directory).addDirectories p rest

/-- Adds a directory and those on the way to it. -/
def addDirectory (t : FileTree) (path : String) : FileTree :=
  t.addDirectories (start path) (FileName.names path)

/-- Adds a file and the directories on the way to it. -/
def addFile (t : FileTree) (path text : String) : FileTree :=
  let place := (FileName.names path).foldl Place.step (start path)
  (t.addDirectories (start path) (FileName.names (FileName.parent path))).put place (.file text)

def ofLists (directories : List String) (files : List (String × String)) : FileTree :=
  files.foldl (fun t (path, text) => t.addFile path text)
    (directories.foldl addDirectory {})

end FileTree
end DefUse
