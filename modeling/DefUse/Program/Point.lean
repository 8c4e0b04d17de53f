import DefUse.Program.Variable

/-!
# Program points, definitions and uses

A point is a node of a procedure.  A definition writes a variable at a point.  A use reads one:
a computation use at a point, a predicate use on the branch from a point to a successor.

**Results.** `Point.less`, `Def.less` and `Use.less` are the orders in which results are listed.
-/

namespace DefUse

/-- A node of a procedure, both by position. -/
structure Point where
  /-- The position of the procedure. -/
  proc : Int
  /-- The position of the node. -/
  node : Int
  deriving DecidableEq, Repr

namespace Point

/-- Points in order of procedure, then of node. -/
def less (a b : Point) : Bool :=
  if a.proc ≠ b.proc then a.proc < b.proc else a.node < b.node

def render (p : Point) : String :=
  toString p.proc ++ ":" ++ toString p.node

end Point

/-- A definition of a variable at a point. -/
structure Def where
  /-- Where the variable is written. -/
  site : Point
  /-- The variable written. -/
  var : Variable
  /-- The value written is a constant. -/
  constant : Bool := false
  deriving DecidableEq, Repr

namespace Def

/-- Definitions in order of point, variable and constancy. -/
def less (d e : Def) : Bool :=
  if d.site ≠ e.site then d.site.less e.site
  else if d.var ≠ e.var then d.var.less e.var
  else !d.constant && e.constant

def render (d : Def) : String :=
  "def(" ++ d.var.render ++ "@" ++ d.site.render ++ ")"

end Def

/-- The kind of a use, by its code; only the first two codes have a meaning. -/
structure UseKind where
  /-- The code of the kind. -/
  code : UInt8
  deriving DecidableEq, Repr

namespace UseKind

def computation : UseKind := ⟨0⟩

/-- A use in a predicate, attributed to the branch taken. -/
def predicate : UseKind := ⟨1⟩

end UseKind

/-- A use of a variable at a point. -/
structure Use where
  /-- The kind of use. -/
  kind : UseKind
  /-- Where the variable is read. -/
  site : Point
  /-- The successor at the other end of the branch; -1 for a computation. -/
  succ : Int
  /-- The variable read. -/
  var : Variable
  deriving DecidableEq, Repr

namespace Use

/-- The use of a variable in the computation at a point. -/
def computation (site : Point) (var : Variable) : Use :=
  ⟨.computation, site, -1, var⟩

/-- The use of a variable on the branch from a point to a successor. -/
def branch (site : Point) (succ : Int) (var : Variable) : Use :=
  ⟨.predicate, site, succ, var⟩

def isPredicate (u : Use) : Bool := u.kind = .predicate

/-- Uses in order of point, kind, successor and variable. -/
def less (u w : Use) : Bool :=
  if u.site ≠ w.site then u.site.less w.site
  else if u.kind ≠ w.kind then u.kind.code < w.kind.code
  else if u.succ ≠ w.succ then u.succ < w.succ
  else u.var.less w.var

def render (u : Use) : String :=
  if u.isPredicate then
    "puse(" ++ u.var.render ++ "@" ++ u.site.render ++ "->" ++ toString u.succ ++ ")"
  else "cuse(" ++ u.var.render ++ "@" ++ u.site.render ++ ")"

end Use

end DefUse
