import DefUse.Graph.Reach
import DefUse.Source.Syntax

/-!
# Control flow of function bodies

The analysis is given the procedure that makes the blocks of a body.  It takes from it the blocks,
and a mark on each of them that control can get to.

**Input.** The statements of a body, and a test for functions that never return.

**Algorithm.** Blocks are opened, filled and joined while the statements are walked through once.
The current block takes the next step; a statement that leaves its block opens a new one.  The
blocks of a statement are opened in a fixed order, so that every block has a fixed number.

**Results.** `FlowGraph.ofBody` gives the blocks of a body; `FlowGraph.live` are those that control
can get to; `FlowGraph.build` marks them.
-/

namespace DefUse
namespace Source

/-- What happens at a step of a block. -/
inductive Action where
  /-- Nothing that matters. -/
  | nothing
  /-- Expressions are evaluated. -/
  | read (exprs : List Expr)
  /-- Values are evaluated, then targets written, and before that read if they are updated. -/
  | assign (update : Bool) (targets values : List Expr)
  /-- The variable of a type switch gets the value of its subject. -/
  | bind (pos : Int) (name : String) (subject : Expr)
  /-- The targets of a loop over a value get their first values. -/
  | iterate (subject : Expr) (targets : List Expr)

/-- A step of a block. -/
structure Step where
  /-- Its position. -/
  pos : Int
  /-- What happens. -/
  action : Action

namespace Step

/-- An assignment; the guard of a type switch looks like one. -/
def ofAssign (pos : Int) (op : AssignOp) (targets values : List Expr) : Step :=
  match op, targets, values with
  | .declare, [.name at' text _], [.assertType _ subject none] =>
    ⟨pos, .bind at' text subject⟩
  | op, targets, values => ⟨pos, .assign (op = .update) targets values⟩

def ofExpr (x : Expr) : Step := ⟨x.pos, .read [x]⟩

end Step

/-- A run of steps that are taken one after the other, and where control goes then. -/
structure Block where
  /-- The steps. -/
  steps : List Step := []
  /-- The numbers of the blocks that follow. -/
  succs : List Nat := []

/-- The blocks of a body, by number; control starts in the first one. -/
abbrev FlowGraph := Array Block

/-- The blocks of a body, with a mark on those that control can get to. -/
structure MarkedGraph where
  /-- The blocks. -/
  graph : FlowGraph
  /-- The block with a number is marked. -/
  live : Nat → Bool

/-- The numbers of the marked blocks, in increasing order. -/
def MarkedGraph.numbers (m : MarkedGraph) : List Nat := (List.range m.graph.size).filter m.live

/-- A way to make the blocks of a body, given the test for functions that never return, the
statements and the position where the body ends. -/
abbrev FlowBuilder := (Expr → Bool) → List Stmt → Int → MarkedGraph

/-- Where `break`, `continue` and `fallthrough` lead inside a statement. -/
structure Target where
  /-- Where `break` leads. -/
  stop : Option Nat := none
  /-- Where `continue` leads. -/
  again : Option Nat := none
  /-- Where `fallthrough` leads. -/
  through : Option Nat := none

/-- The blocks of a label. -/
structure LabelBlocks where
  /-- The block of the statement with the label. -/
  start : Nat
  /-- Where `break` with the label leads. -/
  stop : Option Nat := none
  /-- Where `continue` with the label leads. -/
  again : Option Nat := none

/-- The blocks made so far. -/
structure Draft where
  /-- The blocks. -/
  blocks : Array Block := #[{}]
  /-- The number of the current block. -/
  current : Nat := 0
  /-- The labels met so far. -/
  labels : List (String × LabelBlocks) := []
  /-- Where branches lead, innermost first. -/
  targets : List Target := []

namespace Draft

/-- The work of making blocks. -/
abbrev Build := StateM Draft

def new : Build Nat :=
  modifyGet fun d => (d.blocks.size, { d with blocks := d.blocks.push {} })

def enter (b : Nat) : Build Unit := modify fun d => { d with current := b }

/-- Opens a block and makes it the current one. -/
def enterNew : Build Unit := do enter (← new)

def amend (f : Block → Block) : Build Unit :=
  modify fun d => { d with blocks := d.blocks.modify d.current f }

/-- Puts a step at the end of the current block. -/
def add (s : Step) : Build Unit := amend fun b => { b with steps := b.steps ++ [s] }

/-- Control goes from the current block to the given ones. -/
def goto (bs : List Nat) : Build Unit := amend fun b => { b with succs := b.succs ++ bs }

/-- The blocks of a label; its first mention opens the block of its statement. -/
def label (name : String) : Build LabelBlocks := do
  match (← get).labels.lookup name with
  | some found => return found
  | none =>
    let made : LabelBlocks := { start := ← new }
    modify fun d => { d with labels := (name, made) :: d.labels }
    return made

/-- Records where branches with a label lead, if there is one. -/
def bindLabel (name : Option String) (stop : Nat) (again : Option Nat) : Build Unit :=
  match name with
  | none => pure ()
  | some name => modify fun d =>
    { d with labels := d.labels.map fun (other, l) =>
        if other = name then (other, { l with stop := some stop, again }) else (other, l) }

/-- Makes blocks while branches lead to the given places. -/
def inside (t : Target) (body : Build Unit) : Build Unit := do
  modify fun d => { d with targets := t :: d.targets }
  body
  modify fun d => { d with targets := d.targets.tail }

/-- The block that a branch leads to, if it is known. -/
def destination? (kind : BranchKind) (name : Option String) : Build (Option Nat) := do
  match kind, name with
  | .break, some name => return (← label name).stop
  | .continue, some name => return (← label name).again
  | .goto, some name => return some (← label name).start
  | .break, none => return (← get).targets.findSome? (·.stop)
  | .continue, none => return (← get).targets.findSome? (·.again)
  | .fallthrough, _ => return (← get).targets.findSome? (·.through)
  | .goto, none => return none

/-- A branch; what follows it is in a block of its own. -/
def branch (kind : BranchKind) (name : Option String) : Build Unit := do
  let found ← destination? kind name
  let b ← match found with
    | some b => pure b
    | none => new
  goto [b]
  enterNew

/-- Compares the value of a switch with those of a clause. -/
def testCases (body : Nat) : List Expr → Build Unit
  | [] => pure ()
  | x :: rest => do
    let next ← new
    add (.ofExpr x)
    goto [body, next]
    enter next
    testCases body rest

/-- Compares the type of the value of a type switch with those of a clause. -/
def testTypes (body : Nat) : List Expr → Build Unit
  | [] => pure ()
  | _ :: rest => do
    let next ← new
    goto [body, next]
    enter next
    testTypes body rest

def hasFallback : List Clause → Bool
  | [] => false
  | .otherwise _ :: _ => true
  | _ :: rest => hasFallback rest

variable (stops : Expr → Bool)

mutual

/-- Makes the blocks of a statement that may have a label. -/
def stmt (name : Option String) : Stmt → Build Unit
  | .empty pos => add ⟨pos, .nothing⟩
  | .expr pos x => do
    add ⟨pos, .read [x]⟩
    match x with
    | .call _ _ callee _ => if stops callee then enterNew
    | _ => pure ()
  | .send pos channel value => add ⟨pos, .read [channel, value]⟩
  | .step pos target => add ⟨pos, .assign true [target] []⟩
  | .assign pos op targets values => add (.ofAssign pos op targets values)
  | .go pos x | .defer pos x => add ⟨pos, .read [x]⟩
  | .return pos results => do
    add ⟨pos, .read results⟩
    enterNew
  | .branch _ kind target => branch kind target
  | .declare isVar specs =>
    if isVar then specs.forM fun spec => add ⟨spec.pos, .nothing⟩ else pure ()
  | .block body => stmts body
  | .labeled inner s => do
    let l ← label inner
    goto [l.start]
    enter l.start
    stmt (some inner) s
  | .conditional init cond _ _ body otherwise => do
    opt init
    let yes ← new
    let done ← new
    let no ← match otherwise with
      | none => pure done
      | some _ => new
    add (.ofExpr cond)
    goto [yes, no]
    enter yes
    stmts body
    goto [done]
    alternative no done otherwise
    enter done
  | .switch init tag clauses => do
    opt init
    match tag with
    | some x => add (.ofExpr x)
    | none => pure ()
    let done ← new
    bindLabel name done none
    let fallback ← cases done none clauses
    match fallback with
    | none => pure ()
    | some (b, t) => do
      goto [b]
      enter b
      inside t (fallbackBody clauses)
    goto [done]
    enter done
  | .typeSwitch init guard clauses => do
    opt init
    stmt none guard
    let done ← new
    bindLabel name done none
    typeCases done clauses
    inside { stop := some done } (fallbackBody clauses)
    goto [done]
    enter done
  | .select clauses => do
    communications clauses
    let done ← new
    bindLabel name done none
    choices done clauses
    if hasFallback clauses then do
      inside { stop := some done } (fallbackBody clauses)
      goto [done]
    enter done
  | .loop init cond post body => do
    opt init
    let inner ← new
    let done ← new
    let head ← match cond with
      | none => pure inner
      | some _ => new
    let next ← match post with
      | none => pure head
      | some _ => new
    bindLabel name done (some next)
    goto [head]
    enter head
    match cond with
    | none => pure ()
    | some x => do
      add (.ofExpr x)
      goto [inner, done]
      enter inner
    inside { stop := some done, again := some next } (stmts body)
    goto [next]
    advance next head post
    enter done
  | .range subject key value body => do
    let targets := key.toList ++ value.toList
    add ⟨subject.pos, .iterate subject targets⟩
    targets.forM fun x => add ⟨x.pos, .nothing⟩
    let head ← new
    goto [head]
    enter head
    let inner ← new
    let done ← new
    goto [inner, done]
    enter inner
    bindLabel name done (some head)
    inside { stop := some done, again := some head } (stmts body)
    goto [head]
    enter done

/-- Makes the blocks of statements that follow each other. -/
def stmts : List Stmt → Build Unit
  | [] => pure ()
  | s :: rest => do
    stmt none s
    stmts rest

/-- Makes the blocks of a statement, if there is one. -/
def opt : Option Stmt → Build Unit
  | none => pure ()
  | some s => stmt none s

/-- Makes the second part of a conditional, if there is one. -/
def alternative (start done : Nat) : Option Stmt → Build Unit
  | none => pure ()
  | some s => do
    enter start
    stmt none s
    goto [done]

/-- Makes the step between two rounds of a loop, if there is one. -/
def advance (start head : Nat) : Option Stmt → Build Unit
  | none => pure ()
  | some s => do
    enter start
    stmt none s
    goto [head]

/-- Makes the clauses of a switch but the fallback, which is given by its block and the places
that branches lead to in it.  The block of a clause is opened with the one before it. -/
def cases (done : Nat) (prepared : Option Nat) : List Clause → Build (Option (Nat × Target))
  | [] => pure none
  | clause :: rest => do
    let body ← match prepared with
      | some b => pure b
      | none => new
    let next ← match rest with
      | [] => pure done
      | _ :: _ => new
    let t : Target := { stop := some done, through := some next }
    match clause with
    | .cases exprs inner => do
      testCases body exprs
      let test := (← get).current
      enter body
      inside t (stmts inner)
      goto [done]
      enter test
      cases done (some next) rest
    | .otherwise _ => do
      let later ← cases done (some next) rest
      return later.or (some (body, t))
    | .comm .. => cases done (some next) rest

/-- Makes the statements of the last fallback among clauses. -/
def fallbackBody : List Clause → Build Unit
  | [] => pure ()
  | .otherwise body :: rest => if hasFallback rest then fallbackBody rest else stmts body
  | _ :: rest => fallbackBody rest

/-- Makes the clauses of a type switch but the fallback. -/
def typeCases (done : Nat) : List Clause → Build Unit
  | [] => pure ()
  | .cases exprs inner :: rest => do
    let body ← new
    testTypes body exprs
    let test := (← get).current
    enter body
    inside { stop := some done } (stmts inner)
    goto [done]
    enter test
    typeCases done rest
  | _ :: rest => typeCases done rest

/-- Evaluates the communications of a choice. -/
def communications : List Clause → Build Unit
  | [] => pure ()
  | .comm s _ :: rest => do
    stmt none s
    communications rest
  | _ :: rest => communications rest

/-- Makes the clauses of a choice but the fallback.  The first target of a communication that
assigns is evaluated again at the front of its clause. -/
def choices (done : Nat) : List Clause → Build Unit
  | [] => pure ()
  | .comm s inner :: rest => do
    let body ← new
    let next ← new
    goto [body, next]
    enter body
    inside { stop := some done } do
      match s with
      | .assign _ _ (x :: _) _ => add (.ofExpr x)
      | _ => pure ()
      stmts inner
    goto [done]
    enter next
    choices done rest
  | _ :: rest => choices done rest

end

end Draft

namespace FlowGraph

def graph (g : FlowGraph) : Digraph Nat where
  nodes := List.range g.size
  succs := fun b => (g[b]?.map Block.succs).getD []

/-- The numbers of the blocks that control can get to, in increasing order. -/
def live (g : FlowGraph) : List Nat :=
  let reached := g.graph.reach [0]
  (List.range g.size).filter (reached.contains ·)

/-- The blocks of a body.  If control gets to its end, a return stands there. -/
def ofBody (stops : Expr → Bool) (body : List Stmt) (stop : Int) : FlowGraph :=
  let (_, d) := (Draft.stmts stops body).run {}
  let g : FlowGraph := d.blocks
  if g.live.contains d.current then
    g.modify d.current fun b => { b with steps := b.steps ++ [⟨stop - 1, .nothing⟩] }
  else g

/-- The blocks of a body, with a mark on those that control can get to. -/
def build : FlowBuilder := fun stops body stop =>
  let graph := ofBody stops body stop
  let reached := graph.live
  { graph, live := fun b => reached.contains b }

end FlowGraph

end Source
end DefUse
