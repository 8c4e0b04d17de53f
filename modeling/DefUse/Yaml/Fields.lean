import DefUse.Yaml.Scalar

/-!
# Putting markup into structures

A mapping fills the fields of a structure by their names.  Keys must differ, unknown names are
passed over, and a missing value leaves a field as it is.  The pairs of other mappings may be
inherited by a special key; the own pairs of a mapping come first.

A node is read once for every alias that leads to it.  The work is counted, and a document in which
nearly all of it comes from aliases is refused.

**Results.** `Reader.record` reads a structure, `Reader.text`, `Reader.integer`, `Reader.flag` and
`Reader.texts` read its fields, and `Tree.decode?` reads a document.
-/

namespace DefUse
namespace Yaml

namespace Node

/-- Two keys of a mapping count as the same one. -/
def sameKey : Node → Node → Bool
  | .scalar _ _ a, .scalar _ _ b => a = b
  | .sequence _, .sequence _ => true
  | .mapping _, .mapping _ => true
  | .alias a .., .alias b .. => a = b
  | _, _ => false

def distinctKeys : List (Node × Node) → Bool
  | [] => true
  | (key, _) :: rest => rest.all (fun (other, _) => !sameKey key other) && distinctKeys rest

def isInheritance : Node → Bool
  | .scalar tag isPlain text => text = "<<" && (tag = "!!merge" || (tag = "" && isPlain))
  | _ => false

end Node

/-- The work that a document has taken so far. -/
structure Effort where
  /-- How often a node was read. -/
  visits : Nat := 0
  /-- How often of those it was read for an alias. -/
  repeats : Nat := 0
  /-- The aliases that lead to the node that is being read. -/
  mentions : List Nat := []

namespace Effort

/-- The number of visits up to which the greatest part may come from aliases. -/
def easyVisits : Nat := 400000

/-- The number of visits from which on the least part may come from aliases. -/
def hardVisits : Nat := 4000000

/-- How many of a number of visits may come from aliases, as a multiple of `hardVisits - easyVisits`
hundredths: 99 of 100 at first, 10 of 100 in the end, and evenly fewer in between. -/
def allowance (visits : Nat) : Nat :=
  let width := hardVisits - easyVisits
  if visits ≤ easyVisits then 99 * width * visits
  else if hardVisits ≤ visits then 10 * width * visits
  else (99 * width - 89 * (visits - easyVisits)) * visits

/-- Too much of the work comes from aliases. -/
def excessive (e : Effort) : Bool :=
  100 < e.repeats && 1000 < e.visits &&
    allowance e.visits < 100 * (hardVisits - easyVisits) * e.repeats

end Effort

/-- A step in the reading of values from a document, which may fail. -/
abbrev Decode := StateT Effort Option

namespace Decode

def visit : Decode Unit := do
  let e ← get
  let e := { e with
    visits := e.visits + 1
    repeats := if e.mentions.isEmpty then e.repeats else e.repeats + 1 }
  if e.excessive then failure
  set e

/-- Visits a node, or the node that an alias stands for; an alias that leads to itself is an
error. -/
def enter {α : Type} (t : Tree) (n : Node) (read : Node → Decode α) : Decode α := do
  visit
  match n with
  | .alias _ target mention =>
    let outer := (← get).mentions
    if outer.contains mention then failure
    modify fun e => { e with mentions := mention :: outer }
    visit
    let value ← read (t.anchored[target]?.getD .missing)
    modify fun e => { e with mentions := outer }
    return value
  | n => read n

end Decode

/-- Puts a node into a place that holds a value already, if it fits there. -/
abbrev Reader (α : Type) := Tree → α → Node → Decode α

namespace Reader

/-- The written text and the value of a scalar; other nodes do not fit. -/
def scalarOf : Node → Decode (String × Scalar)
  | .scalar tag isPlain text => do return (text, ← Scalar.resolve? tag isPlain text)
  | _ => failure

/-- A scalar that `pick` reads from its written text and its value. -/
def scalar {α : Type} (pick : String → Scalar → Option α) : Reader α :=
  fun t old n => Decode.enter t n fun n => do
    match ← scalarOf n with
    | (_, .null) => return old
    | (source, value) => pick source value

def text : Reader String := scalar fun source value => some (value.written source)

def text? (t : Tree) (n : Node) : Decode (Option String) :=
  scalar (fun source value => some (some (value.written source))) t none n

def integer : Reader Int := scalar fun _ value => value.integer?

def flag : Reader Bool := scalar fun _ value => value.flag?

def texts : Reader (List String) :=
  fun t _ n => Decode.enter t n fun
    | .sequence items => do return (← items.mapM (text? t)).filterMap id
    | n => do
      match ← scalarOf n with
      | (_, .null) => return []
      | _ => failure

/-- A field of a structure: its name and how a node is put into it. -/
abbrev Field (σ : Type) := String × Reader σ

/-- A structure that is being filled. -/
structure Filling (σ : Type) where
  /-- The structure. -/
  value : σ
  /-- The names that are not to be inherited any more, while pairs are inherited. -/
  closed : Option (List String) := none
  /-- The names of the pairs that were read. -/
  names : List String := []
  /-- The fields that were set. -/
  set : List String := []

/-- Puts a pair into the field that its key names, unless the name is closed. -/
def assign {σ : Type} (fields : List (Field σ)) (t : Tree) (f : Filling σ) (pair : Node × Node) :
    Decode (Filling σ) := do
  if pair.1.isInheritance then return f
  match ← text? t pair.1 with
  | none => return f
  | some name =>
    let f := { f with names := name :: f.names }
    if f.closed.any (·.contains name) then return f
    let f := { f with closed := f.closed.map (name :: ·) }
    match fields.lookup name with
    | none => return f
    | some read =>
      if f.set.contains name then failure
      return { f with value := ← read t f.value pair.2, set := name :: f.set }

/-- The mappings from which pairs are inherited: a single one, or each one of a list. -/
def sources : Node → List Node
  | .sequence items => items
  | n => [n]

/-- Fills a structure from the pairs of a mapping, and then from those that it inherits.  No field
may be set twice by the mapping itself.  Gives the structure and the closed names. -/
def fill {σ : Type} (fields : List (Field σ)) (t : Tree) :
    Nat → σ → Option (List String) → List (Node × Node) → Decode (σ × Option (List String))
  | 0, _, _, _ => failure
  | fuel + 1, value, closed, pairs => do
    if !Node.distinctKeys pairs then failure
    let f ← pairs.foldlM (assign fields t) ({ value, closed } : Filling σ)
    match pairs.find? fun (key, _) => key.isInheritance with
    | none => return (f.value, f.closed)
    | some (_, source) =>
      let names ←
        match f.closed with
        | some names => pure names
        | none => do
          for (key, _) in pairs do
            Decode.enter t key fun _ => pure ()
          pure f.names
      let (value, names) ← (sources source).foldlM
        (fun (value, names) n => Decode.enter t n fun
          | .mapping more => do
            let (value, closed) ← fill fields t fuel value (some names) more
            return (value, closed.getD names)
          | _ => failure)
        (f.value, names)
      return (value, f.closed.map fun _ => names)

def record {σ : Type} (fields : List (Field σ)) : Reader σ :=
  fun t old n => Decode.enter t n fun
    | .mapping pairs => do return (← fill fields t t.size old none pairs).1
    | n => do
      match ← scalarOf n with
      | (_, .null) => return old
      | _ => failure

end Reader

namespace Tree

/-- Puts a document into a place that holds a value already, if it fits there. -/
def decode? {α : Type} (t : Tree) (read : Reader α) (old : α) : Option α :=
  (do Decode.visit; read t old t.root : Decode α).run' {}

end Tree
end Yaml
end DefUse
