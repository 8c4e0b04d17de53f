import DefUse.Program.Variable
import DefUse.Source.FlowGraph
import DefUse.Source.Position

/-!
# What a step reads and writes

**Input.** A step of a block and the function that it belongs to.

**Algorithm.** Expressions are visited from the outside in, and calls are recorded when their
parts have been visited.  A local variable that is an argument or the receiver of a call is part
of the call site and no use of its own.  Function literals are skipped.

**Results.** `Scope.exprEffects` and `Scope.effects` list the uses, definitions, call sites and
types that an expression and a step contribute, in order.
-/

namespace DefUse
namespace Source

/-- Something that a step contributes to its node. -/
inductive Effect where
  /-- A variable is read. -/
  | use (v : Variable)
  /-- A variable is written. -/
  | define (v : Variable)
  /-- A procedure is called. -/
  | call (callee : String) (args : List Variable)
  /-- An object of a type outside the program is used. -/
  | mention (type : TypeId)
  deriving DecidableEq, Repr

/-- What an expression is to the expression around it. -/
inductive Role where
  /-- Nothing in particular. -/
  | plain
  /-- An argument or the receiver of a call. -/
  | argument
  /-- What is called. -/
  | callee
  deriving DecidableEq, Repr

/-- The function that a step belongs to. -/
structure Scope where
  /-- The files of the program. -/
  files : Files
  /-- The types of the program. -/
  types : TypeTable
  /-- The packages that are modelled. -/
  modelled : List String
  /-- The full name of the function. -/
  function : String
  /-- Where its declaration starts. -/
  start : Int
  /-- Where its declaration ends. -/
  stop : Int
  /-- The search for the function that a call runs. -/
  callee? : CalleeSearch := Expr.staticCallee?

namespace Scope

/-- The local variable with a name that is declared at a position.  Declarations that hide each
other stand at different positions, so that they have different scopes. -/
def localAt (c : Scope) (name : String) (pos : Int) : Variable :=
  let p := c.files.position pos
  .ofLocal (c.function ++ "@" ++ toString p.line ++ ":" ++ toString p.column) name

/-- The local variable or parameter of the function that a symbol is. -/
def local? (c : Scope) : Symbol → Option Variable
  | .variable name pos isField =>
    if isField || name.isEmpty || name = "_" || pos < c.start || c.stop ≤ pos then none
    else some (c.localAt name pos)
  | _ => none

/-- The local variable that an expression is, possibly between parentheses. -/
def localOf? (c : Scope) (x : Expr) : Option Variable := x.symbol?.bind c.local?

/-- The formal parameter that a symbol is; an unnamed one has no variable. -/
def formal (c : Scope) (s : Symbol) : Variable := (c.local? s).getD .zero

def argument (c : Scope) (x : Expr) : Variable := (c.localOf? x).getD .zero

/-- The field that a selection picks.  A promoted field belongs to the type that declares it. -/
def field? (c : Scope) (s : Selection) : Option Variable :=
  if s.kind ≠ .field then none
  else (c.types.descend? s.receiver s.path.dropLast).map fun owner =>
    .ofField (c.types.get (c.types.target owner)).text s.name

/-- The elements of a value of the given type. -/
def element? (c : Scope) (type : TypeId) : Option Variable :=
  (c.types.element? type).map fun t => .ofElement (c.types.get t).text

def useOf (v : Option Variable) : List Effect := v.toList.map .use

/-- The use of an object by a method outside the modelled packages; a method of pointers also
writes it. -/
def objectAccess (c : Scope) (s : Selection) : List Effect :=
  match s.symbol with
  | .function f =>
    if f.package.any (c.modelled.contains ·) then []
    else
      let type := c.types.target s.receiver
      let info := c.types.get type
      let v := Variable.ofObject info.text (!info.isInterface)
      [.mention type, .use v] ++ if f.receiver = .pointer then [.define v] else []
  | _ => []

/-- The call site of a call, after its parts.  The language's own functions read their arguments;
conversions are no calls. -/
def callEffects (c : Scope) (conversion : Bool) (callee : Expr) (args : List Expr) :
    List Effect :=
  if conversion then []
  else if callee.builtin?.isSome then args.flatMap fun x => useOf (c.localOf? x)
  else
    let name := ((c.callee? callee).map Function.generic).getD ""
    match callee.receiver? with
    | some (x, s) => c.objectAccess s ++ [.call name (c.argument x :: args.map c.argument)]
    | none => [.call name (args.map c.argument)]

mutual

/-- What the evaluation of an expression contributes. -/
def exprEffects (c : Scope) (role : Role) : Expr → List Effect
  | .name _ _ symbol => if role = .argument then [] else useOf (symbol.bind c.local?)
  | .select _ subject member selection =>
    let inner : Role :=
      if role = .callee && selection.any (·.kind = .method) then .argument else .plain
    useOf (selection.bind c.field?) ++ exprEffects c inner subject ++
      useOf (member.bind c.local?)
  | .index _ subject key type =>
    useOf (type.bind c.element?) ++ exprEffects c .plain subject ++ exprEffects c .plain key
  | .instantiate _ subject args =>
    exprEffects c .plain subject ++ partEffects c .plain args
  | .call _ conversion callee args =>
    let inner : Role := if conversion then .plain else .callee
    let outer : Role := if conversion then .plain else .argument
    exprEffects c inner callee ++ partEffects c outer args ++
      c.callEffects conversion callee args
  | .paren _ inner => exprEffects c role inner
  | .assertType _ subject type => exprEffects c .plain subject ++ optEffects c type
  | .function .. => []
  | .compound _ parts => partEffects c .plain parts

/-- What the evaluation of expressions contributes. -/
def partEffects (c : Scope) (role : Role) : List Expr → List Effect
  | [] => []
  | x :: rest => exprEffects c role x ++ partEffects c role rest

/-- What the evaluation of an expression contributes, if there is one. -/
def optEffects (c : Scope) : Option Expr → List Effect
  | none => []
  | some x => exprEffects c .plain x

end

/-- What writing a target contributes; an updated target is also read. -/
def storeEffects (c : Scope) (update : Bool) (target : Expr) : List Effect :=
  let write (v : Variable) : List Effect := (if update then [.use v] else []) ++ [.define v]
  match target.bare with
  | .name _ _ symbol => ((symbol.bind c.local?).map write).getD []
  | .select pos subject member selection =>
    match selection.bind c.field? with
    | some f => c.exprEffects .plain subject ++ write f
    | none => c.exprEffects .plain (.select pos subject member selection)
  | .index _ subject key type =>
    c.exprEffects .plain subject ++ c.exprEffects .plain key ++
      ((type.bind c.element?).map write).getD []
  | x => c.exprEffects .plain x

def effects (c : Scope) : Action → List Effect
  | .nothing => []
  | .read exprs => c.partEffects .plain exprs
  | .assign update targets values =>
    c.partEffects .plain values ++ targets.flatMap (c.storeEffects update)
  | .bind pos name subject =>
    c.exprEffects .plain subject ++ if name = "_" then [] else [.define (c.localAt name pos)]
  | .iterate subject targets =>
    c.exprEffects .plain subject ++ targets.flatMap (c.storeEffects false)

end Scope

end Source
end DefUse
