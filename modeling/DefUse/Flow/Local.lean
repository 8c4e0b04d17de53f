import DefUse.Config.Settings
import DefUse.Flow.Equations
import DefUse.Program.Basic
import DefUse.Sorted

/-!
# The flow of local variables in a procedure

A procedure reads its local variables in the uses of its nodes and in the arguments of its calls.
An argument that is bound to a formal parameter of a procedure of the program is passed through:
by itself it ends no association, but it is linked to the formal.

**Input.** A program, the position of a procedure, and whether formals count as definitions.

**Results.** `LocalFlow.ofProcedure` numbers the reads and the definitions of the local variables
and finds, for the end of every node, the uses that can be reached without passing a definition of
their variable, and the definitions that can be reached.
-/

namespace DefUse

/-- A formal parameter of a procedure, both by position. -/
structure Formal where
  /-- The procedure. -/
  proc : Nat
  /-- The position among its parameters. -/
  index : Nat
  deriving DecidableEq, Repr

/-- A read of a local variable: the use, and the formal that it is passed to, if any. -/
structure Read where
  /-- The use. -/
  use : Use
  /-- The formal that the variable is passed to. -/
  link : Option Formal := none
  deriving DecidableEq, Repr

namespace Program

/-- The formal that the argument at a position of a call is bound to. -/
def boundFormal? (prog : Program) (callee : String) (index : Nat) : Option Formal := do
  let g ← prog.lookup? callee
  let param ← (prog.proc g).params[index]?
  if param.isZero then none else some ⟨g, index⟩

/-- The reads of local variables by the arguments of a call. -/
def argumentReads (prog : Program) (formalsAsDefs : Bool) (site : Point) (c : CallSite) :
    List Read :=
  c.args.zipIdx.filterMap fun (a, i) =>
    if a.isZero || !a.isLocal then none
    else some ⟨.computation site a, if formalsAsDefs then none else prog.boundFormal? c.callee i⟩

/-- The reads of local variables at a point, arguments after uses. -/
def readsAt (prog : Program) (formalsAsDefs : Bool) (site : Point) : List Read :=
  let f := prog.proc site.proc
  let uses := (f.usesOf site).filter (·.var.isLocal)
  let calls := (f.node site.node).calls
  uses.map (⟨·, none⟩) ++ calls.flatMap (prog.argumentReads formalsAsDefs site)

/-- The reads of local variables in a procedure. -/
def reads (prog : Program) (formalsAsDefs : Bool) (p : Int) : List Read :=
  (prog.proc p).ids.flatMap fun i => prog.readsAt formalsAsDefs ⟨p, i⟩

/-- The formals of a procedure as definitions at its entry. -/
def formalDefs (prog : Program) (p : Int) : List Def :=
  ((prog.proc p).params.filter fun v => !v.isZero).map fun v => ⟨⟨p, entryId⟩, v, false⟩

/-- The definitions of local variables in a procedure. -/
def localDefs (prog : Program) (formalsAsDefs : Bool) (p : Int) : List Def :=
  let f := prog.proc p
  let written := f.ids.flatMap fun i => f.defsOf ⟨p, i⟩
  let formals := if formalsAsDefs then prog.formalDefs p else []
  distinct ((written ++ formals).filter (·.var.isLocal))

end Program

/-- The flow of the local variables of a procedure. -/
structure LocalFlow where
  /-- The reads, in order. -/
  reads : List Read
  /-- The distinct uses, by number. -/
  uses : Array Use
  /-- The definitions, by number. -/
  defs : Array Def
  /-- The uses reachable from the end of each node. -/
  usesOut : Array Bits
  /-- The definitions reachable from the end of each node. -/
  defsOut : Array Bits

namespace LocalFlow

/-- The numbers whose entry satisfies a condition. -/
def numbersOf {α : Type} (items : Array α) (p : α → Bool) : Bits :=
  .ofPred items.size fun k => (items[k]?.map p).getD false

/-- The uses reachable from the nodes of a procedure: a node generates its computation uses and
blocks the uses of what it defines, a branch generates its predicate uses. -/
def useProblem (f : Procedure) (uses : Array Use) (defs : Array Def) : FlowProblem where
  graph := f.graph
  width := uses.size
  gen := (f.ids.map fun i =>
    numbersOf uses fun u => !u.isPredicate && u.site.node = i).toArray
  kill := (f.ids.map fun i =>
    let written := (defs.toList.filter (·.site.node = i)).map Def.var
    numbersOf uses fun u => written.contains u.var).toArray
  edgeGen :=
    (distinct ((uses.toList.filter Use.isPredicate).map fun u => ⟨u.site.node, u.succ⟩)).map
      fun (e : Edge) =>
        (e, numbersOf uses fun u => u.isPredicate && u.site.node = e.source && u.succ = e.target)

/-- The definitions reachable from the nodes of a procedure; nothing blocks them. -/
def defProblem (f : Procedure) (defs : Array Def) : FlowProblem where
  graph := f.graph
  width := defs.size
  gen := (f.ids.map fun i => numbersOf defs fun d => d.site.node = i).toArray
  kill := #[]

/-- The flow of the local variables of a procedure, found by visits in the given order. -/
def inOrder (prog : Program) (formalsAsDefs : Bool) (p : Int) (order : List Int) : LocalFlow :=
  let f := prog.proc p
  let reads := prog.reads formalsAsDefs p
  let uses := (distinct (reads.map Read.use)).toArray
  let defs := (prog.localDefs formalsAsDefs p).toArray
  { reads, uses, defs
    usesOut := (useProblem f uses defs).solveOut order
    defsOut := (defProblem f defs).solveOut order }

/-- The flow of the local variables of a procedure; the nodes are visited from the last one to the
first. -/
def ofProcedure (prog : Program) (formalsAsDefs : Bool) (p : Int) : LocalFlow :=
  inOrder prog formalsAsDefs p (prog.proc p).ids.reverse

/-- The use ends associations: it is read without being passed through. -/
def isEndpoint (fl : LocalFlow) (u : Use) : Bool :=
  fl.reads.contains ⟨u, none⟩

/-- The formals that a use is passed to. -/
def links (fl : LocalFlow) (u : Use) : List Formal :=
  fl.reads.filterMap fun r => if r.use = u then r.link else none

/-- The entries whose numbers are in a set. -/
def select {α : Type} (items : Array α) (numbers : Bits) : List α :=
  numbers.toList.filterMap (items[·]?)

/-- The uses of a variable reachable from the end of a node, by increasing number. -/
def usesFrom (fl : LocalFlow) (node : Int) (v : Variable) : List Use :=
  (select fl.uses ((item? fl.usesOut node).getD (.empty 0))).filter (·.var = v)

/-- The definitions of a variable reachable from the end of a node, by increasing number. -/
def defsFrom (fl : LocalFlow) (node : Int) (v : Variable) : List Def :=
  (select fl.defs ((item? fl.defsOut node).getD (.empty 0))).filter (·.var = v)

/-- The other definitions of the same variable that can execute after a definition. -/
def killersOf (fl : LocalFlow) (d : Def) : List Def :=
  (fl.defsFrom d.site.node d.var).filter (· ≠ d)

end LocalFlow

end DefUse
