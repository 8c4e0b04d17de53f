/-!
# Logging

The analysis reports what it does as events.  An event has a level; a log shows the events up to
its level, one line each.  Events that report how long something took leave the time open.

**Results.** `Level` and `Line` are the levels and the lines of a log; `Sink` decides where lines
go; `Event.line` gives the line of an event.  `transcript` is the log of events in which no time is
left, so that two logs of the same run are equal.
-/

namespace DefUse
namespace Log

/-- How important a line is. -/
inductive Level where
  | error
  | warning
  | info
  | debug
  | trace
  deriving DecidableEq, Repr

/-- The least level of a log that shows lines of this level. -/
def Level.code : Level → Int
  | error => 1
  | warning => 2
  | info => 3
  | debug => 4
  | trace => 5

def Level.tag : Level → String
  | error => "[ERROR] "
  | warning => "[WARN] "
  | info => "[INFO] "
  | debug => "[DEBUG] "
  | trace => "[TRACE] "

/-- A line of a log. -/
structure Line where
  /-- How important it is. -/
  level : Level
  /-- What it says. -/
  text : String
  deriving DecidableEq, Repr

/-- A line with its tag and exactly one line end. -/
def Line.render (l : Line) : String :=
  l.level.tag ++ l.text ++ (if l.text.endsWith "\n" then "" else "\n")

/-- Where the lines of a log go. -/
structure Sink where
  /-- Lines above this level are dropped. -/
  level : Int
  /-- Warnings are dropped. -/
  silenced : Bool := false
  /-- All lines go to one place, warnings included. -/
  redirected : Bool := false
  deriving DecidableEq, Repr

def Sink.shows (s : Sink) (level : Level) : Bool :=
  level.code ≤ s.level && (s.redirected || !(s.silenced && level = .warning))

def Sink.collect (s : Sink) (lines : List Line) : String :=
  String.join ((lines.filter fun l => s.shows l.level).map Line.render)

/-- What the analysis reports. -/
inductive Event where
  /-- The order of execution was computed. -/
  | orderComputed
  /-- The uses and definitions of local variables in a procedure were numbered. -/
  | localFlow (proc : String) (uses defs : Nat)
  /-- The uses behind formal parameters were found. -/
  | formalsConverged (visits : Nat)
  /-- The associations on the heap were built. -/
  | heapBuilt (pairs defs uses : Nat)
  /-- Associations that end in a predicate lost their inferrability. -/
  | predicatesCleared (count : Nat)
  /-- The associations were collected. -/
  | collected (count procs : Nat)
  /-- The associations were computed. -/
  | associationsComputed
  /-- Path expressions need an order of execution. -/
  | pathsNeedOrder
  /-- A procedure has too many paths. -/
  | pathsSkipped (reason : String)
  /-- The paths of a procedure were numbered. -/
  | pathsNumbered (proc : String) (paths : Int) (backEdges : Nat)
  /-- The path expressions were computed. -/
  | pathsComputed
  /-- The result of an analysis. -/
  | result (summary : String)
  /-- The body of a procedure was modelled. -/
  | bodyModelled (proc : String) (nodes : Nat)
  /-- The packages were modelled. -/
  | packagesModelled (procs packages : Nat)
  deriving DecidableEq, Repr

namespace Event

def level : Event → Level
  | localFlow .. | formalsConverged .. | predicatesCleared .. | pathsNumbered ..
  | bodyModelled .. => .trace
  | orderComputed | heapBuilt .. | collected .. | associationsComputed | pathsComputed
  | packagesModelled .. => .debug
  | result .. => .info
  | pathsNeedOrder | pathsSkipped .. => .warning

/-- The text of an event; `T` stands for a time. -/
def text : Event → String
  | orderComputed => "order oracle computed in T s"
  | localFlow proc uses defs => s!"{proc}: {uses} local uses, {defs} local defs"
  | formalsConverged visits => s!"formal uses converged after {visits} procedure visits"
  | heapBuilt pairs defs uses => s!"{pairs} heap DUAs from {defs} heap defs and {uses} heap uses"
  | predicatesCleared count => s!"{count} predicate DUAs made non-inferrable"
  | collected count procs => s!"{count} DUAs in {procs} procedures"
  | associationsComputed => "DUAs computed in T s"
  | pathsNeedOrder =>
    "path expressions require the reachability or the dominance oracle, skipping them"
  | pathsSkipped reason => s!"skipping path expressions: {reason}"
  | pathsNumbered proc paths backEdges => s!"{proc}: {paths} paths, {backEdges} back edges"
  | pathsComputed => "path expressions computed in T s"
  | result summary => summary
  | bodyModelled proc nodes => s!"{proc}: {nodes} nodes"
  | packagesModelled procs packages => s!"modeled {procs} procedures of {packages} packages"

def line (e : Event) : Line := ⟨e.level, e.text ++ "\n"⟩

end Event

/-- How many digits follow the point of a time. -/
def timePlaces : Nat := 4

/-- The text after a time, for a text that starts with the point of the time. -/
def afterTime? (cs : List Char) : Option (List Char) :=
  let places := (cs.drop 1).takeWhile Char.isDigit
  let rest := cs.drop (1 + timePlaces)
  if cs.head? = some '.' && places.length = timePlaces && [' ', 's'].isPrefixOf rest then
    some (rest.drop 2)
  else none

/-- A text in which `T` stands for every number of seconds; so many characters are read at most. -/
def withoutTimes : Nat → List Char → List Char
  | 0, cs => cs
  | _ + 1, [] => []
  | fuel + 1, c :: cs =>
    if !c.isDigit then c :: withoutTimes fuel cs
    else
      let digits := (c :: cs).takeWhile Char.isDigit
      let rest := (c :: cs).dropWhile Char.isDigit
      match afterTime? rest with
      | some rest => "T s".toList ++ withoutTimes fuel rest
      | none => digits ++ withoutTimes fuel rest

/-- The log of events at a level, all in one place and without times. -/
def transcript (level : Int) (events : List Event) : String :=
  let text := ({ level, redirected := true } : Sink).collect (events.map Event.line)
  String.ofList (withoutTimes text.length text.toList)

end Log
end DefUse
