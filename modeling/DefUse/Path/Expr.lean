import DefUse.Bits
import DefUse.Graph.Edge
import DefUse.Graph.Reach

/-!
# Path expressions

A path expression says how a use is covered from a point on: by which paths at which nodes, and by
which paths through which back edges, after which the use is covered as a nested expression says.
Nested expressions are known by labels, since they may contain each other.

**Results.** `Expr.merge` is the union, `Expr.restrict` keeps some of the paths and `Expr.extend`
puts a back edge in front; `numberGraph` lists an expression with everything nested in it.
-/

namespace DefUse

/-- A node where a use is covered, with the paths that get there. -/
structure Ending where
  /-- The node. -/
  node : Int
  /-- The paths. -/
  paths : Bits
  deriving DecidableEq, Repr

/-- A back edge, the paths that take it, and the label of what follows. -/
structure Conn (κ : Type) where
  /-- The back edge. -/
  edge : Edge
  /-- The paths that take it. -/
  paths : Bits
  /-- The label of the expression from its target on. -/
  nested : κ
  deriving DecidableEq, Repr

/-- How a use is covered from a point on. -/
structure Expr (κ : Type) where
  /-- Where it is covered before a back edge is taken. -/
  endings : List Ending := []
  /-- The back edges after which it is covered. -/
  conns : List (Conn κ) := []
  deriving DecidableEq, Repr

namespace Expr

variable {κ μ : Type}

/-- The expression of a use that is never covered. -/
def empty : Expr κ := {}

/-- A copy of what may be nothing; the copy of nothing is empty. -/
def copy (e : Option (Expr κ)) : Expr κ := e.getD empty

/-- The use is never covered. -/
def isEmpty (e : Expr κ) : Bool := e.endings.isEmpty && e.conns.isEmpty

/-- The expression of a use at a node, on the given paths. -/
def ending (node : Int) (paths : Bits) : Expr κ :=
  if paths.any then { endings := [⟨node, paths⟩] } else empty

/-- The ending on some of its paths; nothing if none is left. -/
def restrictEnding (paths : Bits) (x : Ending) : Option Ending :=
  let left := x.paths.inter paths
  if left.any then some ⟨x.node, left⟩ else none

/-- The connection on some of its paths; nothing if none is left. -/
def restrictConn (paths : Bits) (c : Conn κ) : Option (Conn κ) :=
  let left := c.paths.inter paths
  if left.any then some ⟨c.edge, left, c.nested⟩ else none

/-- The expression on some of its paths. -/
def restrict (e : Expr κ) (paths : Bits) : Expr κ where
  endings := e.endings.filterMap (restrictEnding paths)
  conns := e.conns.filterMap (restrictConn paths)

/-- Adds an ending to a list sorted by node, joining the paths of one node. -/
def addEnding (x : Ending) : List Ending → List Ending
  | [] => [x]
  | y :: rest =>
    if y.node = x.node then ⟨y.node, y.paths.union x.paths⟩ :: rest
    else if y.node < x.node then y :: addEnding x rest
    else x :: y :: rest

/-- Adds a connection to a list sorted by edge, joining the paths of one edge; the label of the
added connection is kept. -/
def addConn (c : Conn κ) : List (Conn κ) → List (Conn κ)
  | [] => [c]
  | d :: rest =>
    if d.edge = c.edge then ⟨d.edge, d.paths.union c.paths, c.nested⟩ :: rest
    else if d.edge.less c.edge then d :: addConn c rest
    else c :: d :: rest

/-- The union of two expressions; if one is empty, it is the other one. -/
def merge (a b : Expr κ) : Expr κ :=
  if b.isEmpty then a
  else if a.isEmpty then b
  else
    { endings := (a.endings ++ b.endings).foldl (fun acc x => addEnding x acc) []
      conns := (a.conns ++ b.conns).foldl (fun acc c => addConn c acc) [] }

/-- The expression before a back edge that the given paths take, followed by an expression with
the given label. -/
def extend (e : Expr κ) (label : μ) (edge : Edge) (paths : Bits) : Expr μ :=
  if e.isEmpty || !paths.any then empty
  else { conns := [⟨edge, paths, label⟩] }

def mapLabels (f : κ → μ) (e : Expr κ) : Expr μ where
  endings := e.endings
  conns := e.conns.map fun c => ⟨c.edge, c.paths, f c.nested⟩

/-- Two expressions have the same endings and connections with the same paths; what is nested is
not compared. -/
def same (a : Expr κ) (b : Expr μ) : Bool :=
  a.mapLabels (fun _ => ()) = b.mapLabels (fun _ => ())

def allPaths (e : Expr κ) (size : Nat) : Bits :=
  e.conns.foldl (fun acc c => acc.union c.paths)
    (e.endings.foldl (fun acc x => acc.union x.paths) (.empty size))

/-- The text of an expression, without what is nested in it. -/
def render (e : Expr κ) : String :=
  let endings := e.endings.map fun x => "end(" ++ toString x.node ++ ")" ++ x.paths.render
  let conns := e.conns.map fun c => "conn(" ++ c.edge.render ++ ")" ++ c.paths.render
  "\x7b" ++ String.intercalate " " (endings ++ conns) ++ "\x7d"

end Expr

section Graph

variable {κ : Type} [DecidableEq κ]

/-- The expressions nested in the one with a label, itself first, breadth first; labels become
positions in the list. -/
def numberGraph (labels : List κ) (expr : κ → Expr κ) (root : κ) : List (Expr Nat) :=
  let g : Digraph κ := { nodes := labels, succs := fun k => (expr k).conns.map Conn.nested }
  let order := g.reach [root]
  order.map fun k => (expr k).mapLabels order.idxOf

end Graph

end DefUse
