import DefUse.Document.Access
import DefUse.Source.Load

/-!
# Sources from documents

Packages come from a front end as one document.  It lists the files, the packages, and two tables
to which the packages refer by number: what names stand for, and types.  A node of a syntax tree is
a record with its kind `k`, its position `p` and its parts by name.

**Results.** `Sources.ofDoc` reads the document.  Parts that are missing are empty.
-/

namespace DefUse

namespace Source
namespace Exchange

def symbol (doc : Doc) : String × Symbol :=
  let name := doc.str "name"
  let receiver : Receiver :=
    match doc.str "recv" with
    | "pointer" => .pointer
    | "interface" => .interface
    | "value" => .value
    | _ => .none
  match doc.str "k" with
  | "var" => (name, .variable name (doc.get "pos").toInt (doc.get "field").toFlag)
  | "func" =>
    (name, .function
      { full := doc.str "full", generic := doc.str "origin"
        package := doc.opt "pkg" Doc.toText, receiver })
  | "builtin" => (name, .builtin name)
  | _ => (name, .other)

def methods (docs : List Doc) : List Method :=
  docs.map fun m => ((m.at? 0).toText, (m.at? 1).toText)

def shape (doc : Doc) : Shape :=
  match doc.str "u" with
  | "pointer" => .pointer (doc.get "elem").toNat
  | "slice" | "array" | "map" => .indexed (doc.get "elem").toNat
  | "struct" => .struct ((doc.items "fields").map fun f => ((f.at? 0).toText, (f.at? 1).toNat))
  | "interface" => .interface (doc.get "methodSet").toFlag (methods (doc.items "methods"))
  | _ => .other

def typeInfo (doc : Doc) : TypeInfo where
  text := doc.str "s"
  shape := shape doc
  generic := (doc.get "generic").toFlag
  valueMethods := methods (doc.items "valueMethods")
  pointerMethods := methods (doc.items "pointerMethods")

abbrev Symbols := Array (String × Symbol)

/-- The symbol with the number in the field `obj`, if there is one. -/
def symbolOf? (symbols : Symbols) (doc : Doc) : Option Symbol :=
  match doc.get "obj" with
  | .int n => symbols[n.toNat]?.map Prod.snd
  | _ => none

def selection (symbols : Symbols) (doc : Doc) : Selection :=
  let (name, symbol) := (symbols[(doc.get "obj").toNat]?).getD ("", .other)
  let kind : SelectionKind :=
    match doc.str "kind" with
    | "field" => .field
    | "method" => .method
    | _ => .methodExpr
  { kind, receiver := (doc.get "recv").toNat, path := (doc.items "index").map Doc.toNat,
    name, symbol }

/-- The parts of the kinds of nodes that are compounds, in the order in which they are visited. -/
def partNames : String → List String
  | "BinaryExpr" => ["X", "Y"]
  | "UnaryExpr" | "StarExpr" => ["X"]
  | "SliceExpr" => ["X", "Low", "High", "Max"]
  | "CompositeLit" => ["Type", "Elts"]
  | "KeyValueExpr" | "MapType" => ["Key", "Value"]
  | "Ellipsis" => ["Elt"]
  | "ArrayType" => ["Len", "Elt"]
  | "ChanType" => ["Value"]
  | "FuncType" => ["TypeParams", "Params", "Results"]
  | "FieldList" => ["List"]
  | "Field" => ["Names", "Type", "Tag"]
  | "StructType" => ["Fields"]
  | "InterfaceType" => ["Methods"]
  | "ValueSpec" => ["Names", "Type", "Values"]
  | "TypeSpec" => ["Name", "TypeParams", "Type"]
  | _ => []

/-- The documents of a part: the items of a list, or the part itself. -/
def partDocs (doc : Doc) (key : String) : List Doc :=
  match doc.get key with
  | .null => []
  | .list items => items
  | d => [d]

def assignOp : String → AssignOp
  | "=" => .set
  | ":=" => .declare
  | _ => .update

def branchKind : String → BranchKind
  | "break" => .break
  | "continue" => .continue
  | "fallthrough" => .fallthrough
  | _ => .goto

mutual

/-- An expression whose node is nested at most `depth` deep. -/
def expr (symbols : Symbols) (depth : Nat) (doc : Doc) : Expr :=
  match depth with
  | 0 => .compound (doc.get "p").toInt []
  | depth + 1 =>
    let pos := (doc.get "p").toInt
    let sub (key : String) : Expr := expr symbols depth (doc.get key)
    let subs (key : String) : List Expr := (doc.items key).map (expr symbols depth)
    match doc.str "k" with
    | "Ident" => .name pos (doc.str "name") (symbolOf? symbols doc)
    | "SelectorExpr" =>
      .select pos (sub "X") (symbolOf? symbols (doc.get "Sel")) (doc.opt "sel" (selection symbols))
    | "IndexExpr" => .index pos (sub "X") (sub "Index") (doc.opt "xtype" Doc.toNat)
    | "IndexListExpr" => .instantiate pos (sub "X") (subs "Indices")
    | "CallExpr" => .call pos (doc.get "conversion").toFlag (sub "Fun") (subs "Args")
    | "ParenExpr" => .paren pos (sub "X")
    | "TypeAssertExpr" => .assertType pos (sub "X") (doc.opt "Type" (expr symbols depth))
    | "FuncLit" =>
      .function pos (sub "Type") (((doc.get "Body").items "List").map (stmt symbols depth))
    | kind =>
      .compound pos (((partNames kind).flatMap (partDocs doc)).map (expr symbols depth))

/-- A statement whose node is nested at most `depth` deep. -/
def stmt (symbols : Symbols) (depth : Nat) (doc : Doc) : Stmt :=
  match depth with
  | 0 => .empty (doc.get "p").toInt
  | depth + 1 =>
    let pos := (doc.get "p").toInt
    let sub (key : String) : Expr := expr symbols depth (doc.get key)
    let subs (key : String) : List Expr := (doc.items key).map (expr symbols depth)
    let optExpr (key : String) : Option Expr := doc.opt key (expr symbols depth)
    let optStmt (key : String) : Option Stmt := doc.opt key (stmt symbols depth)
    let block := doc.get "Body"
    let body : List Stmt := (block.items "List").map (stmt symbols depth)
    let clauses : List Clause := (block.items "List").map (clause symbols depth)
    match doc.str "k" with
    | "ExprStmt" => .expr pos (sub "X")
    | "SendStmt" => .send pos (sub "Chan") (sub "Value")
    | "IncDecStmt" => .step pos (sub "X")
    | "AssignStmt" => .assign pos (assignOp (doc.str "Tok")) (subs "Lhs") (subs "Rhs")
    | "GoStmt" => .go pos (sub "Call")
    | "DeferStmt" => .defer pos (sub "Call")
    | "ReturnStmt" => .return pos (subs "Results")
    | "BranchStmt" =>
      .branch pos (branchKind (doc.str "Tok")) (doc.opt "Label" fun l => l.str "name")
    | "DeclStmt" =>
      let decl := doc.get "Decl"
      .declare (decl.str "Tok" = "var") ((decl.items "Specs").map (expr symbols depth))
    | "BlockStmt" => .block ((doc.items "List").map (stmt symbols depth))
    | "LabeledStmt" =>
      .labeled ((doc.get "Label").str "name") (stmt symbols depth (doc.get "Stmt"))
    | "IfStmt" =>
      .conditional (optStmt "Init") (sub "Cond") (block.get "p").toInt (block.get "e").toInt body
        (optStmt "Else")
    | "SwitchStmt" => .switch (optStmt "Init") (optExpr "Tag") clauses
    | "TypeSwitchStmt" =>
      .typeSwitch (optStmt "Init") (stmt symbols depth (doc.get "Assign")) clauses
    | "SelectStmt" => .select clauses
    | "ForStmt" => .loop (optStmt "Init") (optExpr "Cond") (optStmt "Post") body
    | "RangeStmt" => .range (sub "X") (optExpr "Key") (optExpr "Value") body
    | _ => .empty pos

/-- A clause whose node is nested at most `depth` deep. -/
def clause (symbols : Symbols) (depth : Nat) (doc : Doc) : Clause :=
  match depth with
  | 0 => .otherwise []
  | depth + 1 =>
    let body := (doc.items "Body").map (stmt symbols depth)
    if doc.has "List" then .cases ((doc.items "List").map (expr symbols depth)) body
    else if doc.has "Comm" then .comm (stmt symbols depth (doc.get "Comm")) body
    else .otherwise body

end

def declaration (symbols : Symbols) (doc : Doc) : Declaration where
  function :=
    match symbolOf? symbols doc with
    | some (.function f) => some f
    | _ => none
  params := (doc.items "params").map fun i =>
    ((symbols[i.toNat]?).map Prod.snd).getD .other
  start := (doc.get "pos").toInt
  stop := (doc.get "end").toInt
  body := doc.opt "body" fun b =>
    ((b.items "List").map (stmt symbols b.depth), (b.get "e").toInt)

/-- A package, of which the symbols and types are known. -/
def package (symbols : Symbols) (doc : Doc) : Package where
  path := doc.str "path"
  imports := (doc.items "imports").map Doc.toText
  named := (doc.items "named").map Doc.toNat
  comments := (doc.items "files").flatMap fun f =>
    (f.items "comments").map fun c => ((c.at? 0).toInt, (c.at? 1).toText)
  declarations := (doc.items "files").flatMap fun f =>
    (f.items "funcs").map (declaration symbols)

def file (doc : Doc) : File where
  name := doc.str "name"
  base := (doc.get "base").toInt
  size := (doc.get "size").toInt
  lines := (doc.items "lines").map Doc.toInt

end Exchange

def Sources.ofDoc (doc : Doc) : Sources :=
  let symbols : Exchange.Symbols := ((doc.items "objects").map Exchange.symbol).toArray
  { files := (doc.items "files").map Exchange.file
    types := ((doc.items "types").map Exchange.typeInfo).toArray
    packages := (doc.items "packages").map (Exchange.package symbols) }

end Source
end DefUse
