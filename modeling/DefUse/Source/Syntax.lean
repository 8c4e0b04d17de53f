import DefUse.Source.Symbol

/-!
# Syntax of function bodies

**Results.** `Expr`, `Stmt` and `Clause` are the trees of function bodies.  Names carry what they
stand for.  Kinds of expressions that the analysis does not tell apart, such as operators,
literals and types, are compounds of their parts.
-/

namespace DefUse
namespace Source

/-- What an assignment does to its targets. -/
inductive AssignOp where
  /-- The targets get new values. -/
  | set
  /-- The targets are declared. -/
  | declare
  /-- The targets are read, then written. -/
  | update
  deriving DecidableEq, Repr

/-- Where a branch statement leads. -/
inductive BranchKind where
  | break
  | continue
  | fallthrough
  | goto
  deriving DecidableEq, Repr

mutual

/-- An expression; the number is its position. -/
inductive Expr where
  /-- A name. -/
  | name (pos : Int) (text : String) (symbol : Option Symbol)
  /-- A selection `subject.member`. -/
  | select (pos : Int) (subject : Expr) (member : Option Symbol) (selection : Option Selection)
  /-- An element `subject[key]`; the type is missing if the subject is no value. -/
  | index (pos : Int) (subject key : Expr) (subjectType : Option TypeId)
  /-- A generic function or type with several arguments filled in. -/
  | instantiate (pos : Int) (subject : Expr) (args : List Expr)
  /-- A call or a conversion to a type. -/
  | call (pos : Int) (conversion : Bool) (callee : Expr) (args : List Expr)
  /-- An expression between parentheses. -/
  | paren (pos : Int) (inner : Expr)
  /-- A type assertion; without a type it is the guard of a type switch. -/
  | assertType (pos : Int) (subject : Expr) (type : Option Expr)
  /-- A function literal. -/
  | function (pos : Int) (signature : Expr) (body : List Stmt)
  /-- Any other expression, with its parts in the order in which they are visited. -/
  | compound (pos : Int) (parts : List Expr)

/-- A statement. -/
inductive Stmt where
  /-- Nothing. -/
  | empty (pos : Int)
  /-- An expression that is evaluated for its effect. -/
  | expr (pos : Int) (x : Expr)
  /-- A value sent on a channel. -/
  | send (pos : Int) (channel value : Expr)
  /-- A variable incremented or decremented. -/
  | step (pos : Int) (target : Expr)
  /-- An assignment. -/
  | assign (pos : Int) (op : AssignOp) (targets values : List Expr)
  /-- A call that runs on its own. -/
  | go (pos : Int) (call : Expr)
  /-- A call that runs when the function returns. -/
  | defer (pos : Int) (call : Expr)
  /-- A return. -/
  | return (pos : Int) (results : List Expr)
  /-- A branch, possibly to a label. -/
  | branch (pos : Int) (kind : BranchKind) (label : Option String)
  /-- Declarations, of variables or of other things. -/
  | declare (isVar : Bool) (specs : List Expr)
  /-- A block. -/
  | block (body : List Stmt)
  /-- A statement with a label. -/
  | labeled (label : String) (stmt : Stmt)
  /-- A conditional; the two numbers are the positions where its first block starts and ends. -/
  | conditional (init : Option Stmt) (cond : Expr) (start stop : Int) (body : List Stmt)
      (otherwise : Option Stmt)
  /-- A switch on values. -/
  | switch (init : Option Stmt) (tag : Option Expr) (clauses : List Clause)
  /-- A switch on types. -/
  | typeSwitch (init : Option Stmt) (guard : Stmt) (clauses : List Clause)
  /-- A choice between communications. -/
  | select (clauses : List Clause)
  /-- A loop with a condition. -/
  | loop (init : Option Stmt) (cond : Option Expr) (post : Option Stmt) (body : List Stmt)
  /-- A loop over the elements of a value. -/
  | range (subject : Expr) (key value : Option Expr) (body : List Stmt)

/-- A clause of a switch or a choice. -/
inductive Clause where
  /-- The clause for the given values or types. -/
  | cases (exprs : List Expr) (body : List Stmt)
  /-- The clause for a communication. -/
  | comm (stmt : Stmt) (body : List Stmt)
  /-- The clause for everything else. -/
  | otherwise (body : List Stmt)

end

instance : Inhabited Expr := ⟨.compound 0 []⟩

instance : Inhabited Stmt := ⟨.empty 0⟩

namespace Expr

def pos : Expr → Int
  | name pos .. | select pos .. | index pos .. | instantiate pos .. | call pos ..
  | paren pos .. | assertType pos .. | function pos .. | compound pos .. => pos

/-- An expression without the parentheses around it; the library of syntax trees that a front end
comes with is taken to remove them in this way. -/
def bare : Expr → Expr
  | paren _ inner => inner.bare
  | x => x

/-- The symbol of a name, possibly between parentheses. -/
def symbol? (x : Expr) : Option Symbol :=
  match x.bare with
  | name _ _ symbol => symbol
  | _ => none

/-- The language's own function that a callee is. -/
def builtin? (callee : Expr) : Option String :=
  match callee.symbol? with
  | some (.builtin text) => some text
  | _ => none

/-- What a callee stands for: its own symbol or that of the thing it selects.  Arguments of
generic functions are looked through. -/
def calleeSymbol? (callee : Expr) : Option Symbol :=
  let named : Expr → Option Symbol
    | name _ _ symbol => symbol
    | select _ _ member selection =>
      match selection with
      | some s => some s.symbol
      | none => member
    | _ => none
  match callee.bare with
  | index _ subject _ _ => named subject
  | instantiate _ subject _ => named subject
  | x => named x

/-- A search for the function that a call surely runs, given what is called.  It finds no method of
an interface, and no value that happens to be a function; the library that a front end comes with is
taken to search in this way. -/
def staticCallee? (callee : Expr) : Option Function :=
  match callee.calleeSymbol? with
  | some (.function f) => if f.receiver = .interface then none else some f
  | _ => none

/-- The expression whose method a callee is, with the selection. -/
def receiver? (callee : Expr) : Option (Expr × Selection) :=
  match callee.bare with
  | select _ subject _ (some s) => if s.kind = .method then some (subject, s) else none
  | _ => none

/-- The callee is a function that never returns, as far as a search for functions tells. -/
def neverReturns (callee? : Expr → Option Function) (callee : Expr) : Bool :=
  callee.builtin? = some "panic" ||
    match callee? callee with
    | some f =>
      ["os.Exit", "log.Fatal", "log.Fatalf", "log.Fatalln", "log.Panic", "log.Panicf",
        "log.Panicln"].contains f.full
    | none => false

end Expr

/-- A search for the function that a call surely runs, which the analysis is given. -/
abbrev CalleeSearch := Expr → Option Function

mutual

/-- The expression calls the language's own function with the given name, possibly in a function
literal. -/
def Expr.calls (name : String) : Expr → Bool
  | .name .. => false
  | .select _ subject _ _ => subject.calls name
  | .index _ subject key _ => subject.calls name || key.calls name
  | .instantiate _ subject args => subject.calls name || anyCalls name args
  | .call _ _ callee args =>
    callee.builtin? = some name || callee.calls name || anyCalls name args
  | .paren _ inner => inner.calls name
  | .assertType _ subject type => subject.calls name || optCalls name type
  | .function _ signature body => signature.calls name || anyStmtCalls name body
  | .compound _ parts => anyCalls name parts

/-- One of the expressions calls the function. -/
def anyCalls (name : String) : List Expr → Bool
  | [] => false
  | x :: rest => x.calls name || anyCalls name rest

/-- The expression, if there is one, calls the function. -/
def optCalls (name : String) : Option Expr → Bool
  | none => false
  | some x => x.calls name

def Stmt.calls (name : String) : Stmt → Bool
  | .empty _ | .branch .. => false
  | .expr _ x | .step _ x | .go _ x | .defer _ x => x.calls name
  | .send _ channel value => channel.calls name || value.calls name
  | .assign _ _ targets values => anyCalls name targets || anyCalls name values
  | .return _ results => anyCalls name results
  | .declare _ specs => anyCalls name specs
  | .block body => anyStmtCalls name body
  | .labeled _ s => s.calls name
  | .conditional init cond _ _ body otherwise =>
    optStmtCalls name init || cond.calls name || anyStmtCalls name body ||
      optStmtCalls name otherwise
  | .switch init tag clauses =>
    optStmtCalls name init || optCalls name tag || anyClauseCalls name clauses
  | .typeSwitch init guard clauses =>
    optStmtCalls name init || guard.calls name || anyClauseCalls name clauses
  | .select clauses => anyClauseCalls name clauses
  | .loop init cond post body =>
    optStmtCalls name init || optCalls name cond || optStmtCalls name post ||
      anyStmtCalls name body
  | .range subject key value body =>
    subject.calls name || optCalls name key || optCalls name value || anyStmtCalls name body

/-- One of the statements calls the function. -/
def anyStmtCalls (name : String) : List Stmt → Bool
  | [] => false
  | s :: rest => s.calls name || anyStmtCalls name rest

/-- The statement, if there is one, calls the function. -/
def optStmtCalls (name : String) : Option Stmt → Bool
  | none => false
  | some s => s.calls name

def Clause.calls (name : String) : Clause → Bool
  | .cases exprs body => anyCalls name exprs || anyStmtCalls name body
  | .comm s body => s.calls name || anyStmtCalls name body
  | .otherwise body => anyStmtCalls name body

def anyClauseCalls (name : String) : List Clause → Bool
  | [] => false
  | c :: rest => c.calls name || anyClauseCalls name rest

end

mutual

/-- The first blocks of the conditionals of a statement that ask whether the function recovers
from a failure, by start and end. -/
def Stmt.handlers : Stmt → List (Int × Int)
  | .block body => handlersOf body
  | .labeled _ s => s.handlers
  | .conditional init cond start stop body otherwise =>
    (if optStmtCalls "recover" init || cond.calls "recover" then [(start, stop)] else []) ++
      handlersOf body ++ optHandlers otherwise
  | .switch _ _ clauses | .typeSwitch _ _ clauses | .select clauses => clauseHandlers clauses
  | .loop _ _ _ body | .range _ _ _ body => handlersOf body
  | _ => []

def handlersOf : List Stmt → List (Int × Int)
  | [] => []
  | s :: rest => s.handlers ++ handlersOf rest

/-- The handlers of a statement, if there is one. -/
def optHandlers : Option Stmt → List (Int × Int)
  | none => []
  | some s => s.handlers

def clauseHandlers : List Clause → List (Int × Int)
  | [] => []
  | .cases _ body :: rest | .comm _ body :: rest | .otherwise body :: rest =>
    handlersOf body ++ clauseHandlers rest

end

end Source
end DefUse
