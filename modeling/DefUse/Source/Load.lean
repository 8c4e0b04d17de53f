import DefUse.Config.Basic
import DefUse.Log
import DefUse.Program.Finalize
import DefUse.Source.Directive
import DefUse.Source.Model

/-!
# Programs of packages

**Input.** Packages with their syntax, symbols and types; a way to make the blocks of a body, and a
search for the functions that calls run.

**Results.** `Sources.model` gives the program of a list of packages: a procedure for every function
with a body, and the concrete types of every interface.  `Sources.load` picks the packages first.
-/

namespace DefUse
namespace Source

/-- The declaration of a function. -/
structure Declaration where
  /-- The function, if the declaration is known to declare one. -/
  function : Option Function
  /-- The receiver and the parameters. -/
  params : List Symbol
  /-- Where the declaration starts. -/
  start : Int
  /-- Where it ends. -/
  stop : Int
  /-- The statements of the body and where it ends. -/
  body : Option (List Stmt × Int)

/-- A package. -/
structure Package where
  /-- Its path. -/
  path : String
  /-- The paths of the packages that it imports. -/
  imports : List String := []
  /-- Its symbols and types are known. -/
  checked : Bool := true
  /-- The types that it declares, by name. -/
  named : List TypeId := []
  /-- The comments of its files, with their positions. -/
  comments : List (Int × String) := []
  /-- The functions that it declares. -/
  declarations : List Declaration := []

/-- Packages with the files and types that they refer to. -/
structure Sources where
  /-- The files. -/
  files : Files := []
  /-- The types. -/
  types : TypeTable := #[]
  /-- The packages. -/
  packages : List Package := []

/-- Why packages have no model. -/
inductive LoadError where
  /-- There are no packages. -/
  | noPackages
  /-- No package is picked. -/
  | noMatch (filter : String)
  /-- The symbols and types of a package are missing. -/
  | unchecked (path : String)
  /-- Two functions have the same name. -/
  | duplicate (e : DuplicateName)
  /-- The program is flawed. -/
  | flaw (e : Flaw)
  deriving DecidableEq, Repr

def LoadError.message : LoadError → String
  | noPackages => "no packages"
  | noMatch filter => "no package matches the package filter " ++ Text.quote filter
  | unchecked path => "package " ++ path ++ " is not type-checked"
  | duplicate e => "failed to model " ++ e.name ++ ": " ++ e.message
  | flaw e => "invalid program model: " ++ e.message

/-- A function to model. -/
structure Subject where
  /-- The function. -/
  function : Function
  /-- Its declaration. -/
  declaration : Declaration
  /-- The statements of its body. -/
  body : List Stmt
  /-- Where the body ends. -/
  stop : Int

/-- The function of a declaration that has a body. -/
def Declaration.subject? (d : Declaration) : Option Subject := do
  let f ← d.function
  let (body, stop) ← d.body
  return { function := f, declaration := d, body, stop }

namespace Sources

variable (src : Sources) (build : FlowBuilder) (callee? : CalleeSearch)

def sorted (packages : List Package) : List Package :=
  sortBy (fun a b => a.path < b.path) packages

def scope (modelled : List String) (s : Subject) : Scope where
  files := src.files
  types := src.types
  modelled := modelled
  function := s.function.full
  start := s.declaration.start
  stop := s.declaration.stop
  callee? := callee?

/-- What a step contributes; the steps of ignored lines contribute nothing. -/
def stepEffects (c : Scope) (ignored : Position → Bool) (s : Step) : List Effect :=
  if ignored (c.files.position s.pos) then [] else c.effects s.action

/-- The node of a step; `handlers` are the blocks that run after a failure. -/
def stepNode (c : Scope) (ignored : Position → Bool) (handlers : List (Int × Int)) (s : Step) :
    Node :=
  let n : Node := { label := (c.files.position s.pos).label }
  { (stepEffects c ignored s).foldl Node.absorb n with
    handler := handlers.any fun (start, stop) => start ≤ s.pos && s.pos < stop }

/-- The types that the live steps of a flow graph mention, in order. -/
def mentions (c : Scope) (ignored : Position → Bool) (m : MarkedGraph) : List TypeId :=
  let steps := (Layout.ofGraph m).flatMap fun p => p.block.steps
  (steps.flatMap (stepEffects c ignored)).filterMap fun
    | .mention t => some t
    | _ => none

/-- The procedure of a function, with the types that it mentions. -/
def procedure (modelled : List String) (ignored : Position → Bool) (s : Subject) :
    Procedure × List TypeId :=
  let c := src.scope callee? modelled s
  let m := build (Expr.neverReturns callee?) s.body s.stop
  (m.procedure s.function.full (s.declaration.params.map c.formal)
      (stepNode c ignored (handlersOf s.body)),
    mentions c ignored m)

/-- The types to relate, by their texts; of two with the same text the first counts. -/
def catalogue (ids : List TypeId) : List TypeInfo :=
  let infos := ids.map src.types.get
  let names := sortDistinct (fun a b => a < b) (infos.map TypeInfo.text)
  names.filterMap fun name => infos.find? (·.text = name)

/-- The concrete types of every interface among types. -/
def hierarchy (types : List TypeInfo) : List (String × List String) :=
  types.filterMap fun i => do
    let methods ← i.demands
    match types.filter (·.implements methods) with
    | [] => none
    | found => some (i.text, found.map TypeInfo.text)

/-- The first package whose symbols and types are missing. -/
def unchecked? (packages : List Package) : Option Package := packages.find? fun p => !p.checked

/-- The program of packages, and the events of making it.  `ignored` tells which lines are
ignored. -/
def model (ignored : Position → Bool) (packages : List Package) :
    Except LoadError (Program × List Log.Event) := do
  let packages := sorted packages
  if let some p := unchecked? packages then throw (.unchecked p.path)
  let modelled := packages.map Package.path
  let subjects := packages.flatMap fun p => p.declarations.filterMap Declaration.subject?
  let made := subjects.map (src.procedure build callee? modelled ignored)
  let prog ← made.foldlM
    (fun (prog : Program) (f, _) => (prog.addProcedure f.name f.params).mapError .duplicate) {}
  let types := src.catalogue (packages.flatMap Package.named ++ made.flatMap Prod.snd)
  let prog := { prog with
    procs := (made.map Prod.fst).toArray
    subtypes := hierarchy types }
  match prog.finalize with
  | (_, some e) => throw (.flaw e)
  | (prog, none) =>
    return (prog,
      made.map (fun (f, _) => .bodyModelled f.name f.nodes.size) ++
        [.packagesModelled prog.procs.size packages.length])

def package? (path : String) : Option Package := src.packages.find? (·.path = path)

def imports : Digraph String where
  nodes := src.packages.map Package.path
  succs := fun path => ((src.package? path).map Package.imports).getD []

/-- The packages with the given paths and all that they import. -/
def closure (initial : List String) : List Package :=
  (src.imports.reach initial).filterMap src.package?

/-- The directives in the comments of packages. -/
def directives (packages : List Package) : Directives :=
  packages.flatMap fun p => p.comments.filterMap fun (pos, text) => do
    let place := src.files.position pos
    let kind ← directive? text
    if place.isKnown then some ⟨place.file, place.line, kind⟩ else none

/-- The packages to model: the initial ones if there is no filter, and otherwise all that the
initial ones need and that match it. -/
def select (initial : List String) (filter : Option (String → Bool)) : List Package :=
  (src.closure initial).filter fun p =>
    p.checked &&
      match filter with
      | none => initial.contains p.path
      | some accepts => accepts p.path

/-- The program of the packages picked among the initial ones and all that they import. -/
def load (initial : List String) (config : Config) (ignored : Position → Bool) :
    Except LoadError (Program × List Log.Event) := do
  if initial.isEmpty then throw .noPackages
  match src.select initial config.filter? with
  | [] => throw (.noMatch config.settings.packageFilter)
  | packages => src.model build callee? ignored packages

end Sources

end Source
end DefUse
