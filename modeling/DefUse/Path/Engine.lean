import DefUse.Association.Set
import DefUse.Config.Settings
import DefUse.Iterate
import DefUse.Log
import DefUse.Path.Expr
import DefUse.Path.Numbering

/-!
# Path expressions of associations

**Input.** The numbered paths of the procedure of a definition, and an association with local uses.

**Algorithm.** Expressions flow against the edges: a node generates endings for the local uses
that it holds, a branch for the predicate uses on it; an edge keeps the paths that take it, and a
back edge becomes a connection; a node that defines the variable lets nothing pass.  Rounds visit
the nodes in a given order until no expression changes.

**Results.** `PathProblem.solve` gives the expression at the start of every node, `pathsOf` the
expression at the end of the definition with the edges of loops that it does not account for;
`PathEngine.run` does this for every association of a set.
-/

namespace DefUse

/-- How a use is covered after a definition, with the expressions after the back edges. -/
structure PathExpr where
  /-- The expression at the end of the definition; labels are numbers of back edges. -/
  top : Expr Nat
  /-- The expression from the target of each back edge on. -/
  nested : Array (Expr Nat)
  deriving DecidableEq, Repr

namespace PathExpr

/-- The expression with a label; without a label it is the one at the end of the definition. -/
def part (x : PathExpr) : Option Nat → Expr (Option Nat)
  | none => x.top.mapLabels some
  | some i => (x.nested[i]?.getD .empty).mapLabels some

def labels (x : PathExpr) : List (Option Nat) :=
  none :: (List.range x.nested.size).map some

/-- The expression with everything nested in it. -/
def graph (x : PathExpr) : List (Expr Nat) := numberGraph x.labels x.part none

/-- The connections that can be taken, each with the expression that follows. -/
def connections (x : PathExpr) : List (Conn Nat × Expr Nat) :=
  let g : Digraph (Option Nat) :=
    { nodes := x.labels, succs := fun k => (x.part k).conns.map Conn.nested }
  (g.reach [none]).flatMap fun k =>
    let e := match k with
      | none => x.top
      | some i => x.nested[i]?.getD .empty
    e.conns.map fun c => (c, x.nested[c.nested]?.getD .empty)

end PathExpr

/-- The path expression of an association and the edges of loops that it does not account for. -/
structure AssociationPaths where
  /-- The expression at the end of the definition. -/
  expr : PathExpr
  /-- Edges into the source of a back edge whose paths do not go on through it. -/
  incoming : List Edge
  /-- Edges out of the target of a back edge whose paths do not cover the use. -/
  departing : List Edge
  deriving DecidableEq, Repr

/-- Some way into or out of a loop is not accounted for. -/
def AssociationPaths.hasWarning (p : AssociationPaths) : Bool :=
  !p.incoming.isEmpty || !p.departing.isEmpty

/-- The equations of path expressions. -/
structure PathProblem where
  /-- The numbered paths. -/
  numbering : Numbering
  /-- The nodes that let nothing pass. -/
  blocked : Int → Bool
  /-- The expressions that the nodes generate. -/
  gen : Int → Expr Unit
  /-- The expressions that branches generate. -/
  edgeGen : Edge → Expr Unit

namespace PathProblem

def exprAt (table : Array (Expr Unit)) (v : Int) : Expr Unit := (item? table v).getD .empty

/-- What comes back along an edge. -/
def along (p : PathProblem) (table : Array (Expr Unit)) (e : Edge) : Expr Unit :=
  let after := exprAt table e.target
  match p.numbering.connection? e with
  | some c => (after.restrict c.outgoing).extend () e c.incoming
  | none => after.restrict (p.numbering.pathsOf e)

def out (p : PathProblem) (table : Array (Expr Unit)) (v : Int) : Expr Unit :=
  (p.numbering.proc.node v).succs.foldl
    (fun acc s => (acc.merge (p.along table ⟨v, s⟩)).merge (p.edgeGen ⟨v, s⟩))
    .empty

def transfer (p : PathProblem) (table : Array (Expr Unit)) (v : Int) : Expr Unit :=
  if p.blocked v then p.gen v else (p.gen v).merge (p.out table v)

def round (p : PathProblem) (order : List Int) (table : Array (Expr Unit)) : Array (Expr Unit) :=
  order.foldl (fun table v => store table v (p.transfer table v)) table

/-- A bound on the number of rounds: every change adds a path to an ending or a connection of a
node. -/
def roundBound (p : PathProblem) : Nat :=
  let n := p.numbering.proc.nodes.size
  n * (n + p.numbering.backEdges.length) * p.numbering.size + 1

/-- The expressions at the start of every node, found by visits in the given order. -/
def solve (p : PathProblem) (order : List Int) : Array (Expr Unit) :=
  stabilize (p.round order) p.roundBound
    (Array.replicate p.numbering.proc.nodes.size .empty)

/-- The path expression at the end of a node, given the expressions at the start of all nodes. -/
def assemble (p : PathProblem) (table : Array (Expr Unit)) (v : Int) : PathExpr :=
  let label (e : Expr Unit) : Expr Nat :=
    { endings := e.endings
      conns := e.conns.map fun c =>
        ⟨c.edge, c.paths, p.numbering.backEdges.idxOf c.edge⟩ }
  { top := label (p.out table v)
    nested := (p.numbering.connections.map fun c =>
      label ((exprAt table c.edge.target).restrict c.outgoing)).toArray }

end PathProblem

namespace Numbering

/-- A definition of the variable stands at the node. -/
def defines (nb : Numbering) (v : Variable) (i : Int) : Bool :=
  (nb.proc.node i).defs.contains v

/-- The paths that a local use ends on: those that end in the call if the use is reached further
down, those that take its branch, or those through its node. -/
def usePaths (nb : Numbering) (a : Association) (w : Use) : Bits :=
  if w ≠ a.use then (item? nb.callPaths w.site.node).getD (.empty nb.size)
  else if w.isPredicate then nb.pathsOf ⟨w.site.node, w.succ⟩
  else (item? nb.nodePaths w.site.node).getD (.empty nb.size)

/-- The local use is covered on its branch. -/
def onBranch (a : Association) (w : Use) : Bool := w = a.use && w.isPredicate

/-- The expressions of the local uses that satisfy a condition. -/
def endingsOf (nb : Numbering) (a : Association) (p : Use → Bool) : Expr Unit :=
  (a.localUses.filter p).foldl
    (fun acc w => acc.merge (.ending w.site.node (nb.usePaths a w)))
    .empty

/-- The equations of the path expression of an association. -/
def problem (nb : Numbering) (a : Association) : PathProblem where
  numbering := nb
  blocked := fun i => i = a.definition.site.node || nb.defines a.definition.var i
  gen := fun i => nb.endingsOf a fun w => !onBranch a w && w.site.node = i
  edgeGen := fun e => nb.endingsOf a fun w =>
    onBranch a w && w.site.node = e.source && w.succ = e.target

/-- The edges into the source of a back edge whose paths do not go on through it. -/
def missedIncoming (nb : Numbering) (c : Conn Nat) : List Edge :=
  let incoming := ((nb.connection? c.edge).map Connection.incoming).getD (.empty nb.size)
  ((nb.proc.node c.edge.source).preds.map fun p => ⟨p, c.edge.source⟩).filter fun e =>
    let bits := (nb.pathsOf e).inter incoming
    bits.any && !(bits.inter c.paths).any

/-- The edges out of the target of a back edge whose paths do not cover the use. -/
def missedDeparting (nb : Numbering) (c : Conn Nat) (after : Expr Nat) : List Edge :=
  let outgoing := ((nb.connection? c.edge).map Connection.outgoing).getD (.empty nb.size)
  let covered := after.allPaths nb.size
  ((nb.proc.node c.edge.target).succs.map fun s => ⟨c.edge.target, s⟩).filter fun e =>
    let bits := (nb.pathsOf e).inter outgoing
    bits.any && !(bits.inter covered).any

/-- The path expression of an association, found by visits in the given order. -/
def pathsInOrder (nb : Numbering) (a : Association) (order : List Int) : AssociationPaths :=
  let p := nb.problem a
  let expr := p.assemble (p.solve order) a.definition.site.node
  let conns := expr.connections
  { expr
    incoming := sortDistinct Edge.less (conns.flatMap fun (c, _) => nb.missedIncoming c)
    departing := sortDistinct Edge.less (conns.flatMap fun (c, e) => nb.missedDeparting c e) }

/-- The path expression of an association; the nodes are visited from the last one to the first. -/
def associationPaths (nb : Numbering) (a : Association) : AssociationPaths :=
  nb.pathsInOrder a nb.proc.ids.reverse

/-- The first node of an association that the procedure lacks, the definition before the local
uses, as a fault. -/
def nodeFault (nb : Numbering) (a : Association) : Option Fault :=
  let nodes := a.definition.site.node ::
    (a.localUses.filter fun w => !onBranch a w).map (·.site.node)
  (nodes.find? fun i => (item? nb.proc.nodes i).isNone).map fun i => ⟨i, nb.proc.nodes.size⟩

end Numbering

/-- Why an association has no path expression. -/
inductive PathError where
  /-- It names a point outside the program. -/
  | fault (e : Fault)
  /-- The paths of its procedure have no numbers. -/
  | numbering (e : NumberingError)
  deriving DecidableEq, Repr

def PathError.message : PathError → String
  | fault e => e.message
  | numbering e => e.message

/-- The computation of path expressions, with the numberings made so far. -/
structure PathEngine where
  /-- The program. -/
  prog : Program
  /-- The settings. -/
  settings : Settings
  /-- The sort that the acyclic graphs are visited with. -/
  sort : TopologicalSort := Digraph.topologicalOrder?
  /-- The numbered paths of the procedures asked for, or why there are none. -/
  known : List (Int × Except NumberingError Numbering) := []
  /-- The events of the computation, the latest first. -/
  events : List Log.Event := []

namespace PathEngine

/-- The bound on the number of paths. -/
def bound (e : PathEngine) : Int64 :=
  Int64.ofInt (if e.settings.maxPaths ≤ 0 then defaultMaxPaths else e.settings.maxPaths)

/-- What numbering a procedure reports: only too many paths are worth a warning. -/
def numberingEvents (f : Procedure) : Except NumberingError Numbering → List Log.Event
  | .ok nb => [.pathsNumbered f.name nb.numPaths.toInt nb.backEdges.length]
  | .error (.tooManyPaths proc bound) =>
    [.pathsSkipped (NumberingError.tooManyPaths proc bound).message]
  | .error (.cyclic _) => []

/-- The numbered paths of a procedure; each procedure is numbered once. -/
def number (e : PathEngine) (p : Int) :
    PathEngine × Except PathError Numbering :=
  match e.known.lookup p with
  | some result => (e, result.mapError .numbering)
  | none =>
    match e.prog.proc? p with
    | .error fault => (e, .error (.fault fault))
    | .ok f =>
      let result := Numbering.ofProcedure e.sort f e.bound
      ({ e with
          known := (p, result) :: e.known
          events := (numberingEvents f result).reverse ++ e.events },
        result.mapError .numbering)

/-- The path expression of an association. -/
def compute (e : PathEngine) (a : Association) :
    PathEngine × Except PathError AssociationPaths :=
  let (e, result) := e.number a.definition.site.proc
  (e, do
    let nb ← result
    match nb.nodeFault a with
    | some fault => .error (.fault fault)
    | none => .ok (nb.associationPaths a))

/-- The path expressions found so far, with the associations after their warnings were set. -/
structure Run where
  /-- The engine. -/
  engine : PathEngine
  /-- The associations, the latest first. -/
  items : List Association := []
  /-- The path expressions with the positions of their associations, the latest first. -/
  paths : List (Nat × AssociationPaths) := []

/-- Computes the path expression of one more association, unless it has no local uses, lives on
the heap or has too many paths. -/
def runStep (r : Run) (a : Association) : Except PathError Run :=
  if a.heap || a.localUses.isEmpty then .ok { r with items := a :: r.items }
  else
    let (engine, result) := r.engine.compute a
    match result with
    | .ok p =>
      .ok {
        engine
        items := { a with pathWarning := p.hasWarning } :: r.items
        paths := (r.items.length, p) :: r.paths }
    | .error (.numbering (.tooManyPaths ..)) => .ok { r with engine, items := a :: r.items }
    | .error err => .error err

/-- The path expressions of the associations of a list, which get their warnings. -/
def run (e : PathEngine) (items : List Association) :
    Except PathError (PathEngine × List Association × List (Nat × AssociationPaths)) := do
  let r ← items.foldlM runStep { engine := e }
  return (r.engine, r.items.reverse, r.paths.reverse)

end PathEngine

end DefUse
