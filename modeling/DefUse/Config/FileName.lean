/-!
# Names of files

A path is a list of names between slashes; a slash at its front makes it absolute.

**Results.** `FileName.clean` gives the shortest path to the same place, `FileName.join` continues a
path by another one, and `FileName.parent` drops the last name.
-/

namespace DefUse
namespace FileName

/-- The names between the slashes, empty ones included. -/
def split : List Char → List (List Char)
  | [] => [[]]
  | c :: rest =>
    if c = '/' then [] :: split rest
    else
      match split rest with
      | [] => [[c]]
      | name :: names => (c :: name) :: names

/-- The names of a path, empty ones included. -/
def names (path : String) : List String := (split path.toList).map String.ofList

/-- The path starts at the top of all places. -/
def isAbsolute (path : String) : Bool := path.startsWith "/"

/-- Goes on from a place by a name; the place is given by its names, the last one first. -/
def step (absolute : Bool) (place : List String) (name : String) : List String :=
  if name = "" || name = "." then place
  else if name ≠ ".." then name :: place
  else
    match place with
    | [] => if absolute then [] else [name]
    | last :: before => if last = ".." then name :: place else before

/-- The shortest path to the place of a path. -/
def clean (path : String) : String :=
  let absolute := isAbsolute path
  let joined := "/".intercalate ((names path).foldl (step absolute) []).reverse
  if absolute then "/" ++ joined else if joined = "" then "." else joined

def join (path more : String) : String :=
  clean (if more = "" then path else if path = "" then more else path ++ "/" ++ more)

def parent (path : String) : String :=
  let before := (names path).dropLast
  clean (if before = [""] then "/" else "/".intercalate before)

end FileName
end DefUse
