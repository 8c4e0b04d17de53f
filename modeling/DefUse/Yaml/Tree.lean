import DefUse.Yaml.Token

/-!
# Trees of markup

**Input.** A text.

**Algorithm.** The tokens of the first document are read from left to right, one function for each
kind of node.  Anchors are numbered when they are met, and an alias holds the number of its anchor;
so a node may hold an alias of itself.  Aliases are numbered too, so that they can be told apart.

**Results.** `Tree.parse?` gives the tree of the first document of a text.
-/

namespace DefUse
namespace Yaml

/-- A node of a document. -/
inductive Node where
  /-- A text with its tag, which is empty if there is none. -/
  | scalar (tag : String) (isPlain : Bool) (text : String)
  /-- A list of nodes. -/
  | sequence (items : List Node)
  /-- Keys with their values, in the order in which they are written. -/
  | mapping (pairs : List (Node × Node))
  /-- Another mention of the node with the given anchor, and the number of the mention. -/
  | alias (name : String) (target mention : Nat)
  deriving Inhabited

namespace Node

/-- The node that stands where nothing is written. -/
def missing : Node := .scalar "" true ""

end Node

/-- A document. -/
structure Tree where
  /-- The outermost node. -/
  root : Node
  /-- The nodes with anchors, by number. -/
  anchored : Array Node
  /-- A bound for the depth of the nodes. -/
  size : Nat

/-- The start of the names of the standard tags. -/
def standardTag : String := "tag:yaml.org,2002:"

/-- The handles that are known without a directive. -/
def standardHandles : List (String × String) := [("!", "!"), ("!!", standardTag)]

/-- The short form of a tag.  The tag of one exclamation mark says nothing. -/
def shortTag (tag : String) : String :=
  if tag.startsWith standardTag then "!!" ++ (tag.drop standardTag.length).toString
  else if tag = "!" then ""
  else tag

/-- A document that is partly read. -/
structure Builder where
  /-- The text and the tokens that were cut off. -/
  scanner : Scanner
  /-- The number of tokens that were read. -/
  next : Nat := 0
  /-- What the handles of tags stand for. -/
  handles : List (String × String) := standardHandles
  /-- The numbers of the anchors, the latest first. -/
  anchors : List (String × Nat) := []
  /-- The nodes with anchors; a node that is not complete is missing. -/
  anchored : Array Node := #[]
  /-- The number of aliases. -/
  mentions : Nat := 0

/-- A step in the reading of a document, which may fail. -/
abbrev Build := StateT Builder Option

namespace Build

/-- The next token.  Two tokens after it are looked at too, and more as long as it may be a key, so
an error there is met here. -/
def peek : Build Token := do
  let b ← get
  let scanner ← Scanner.supply b.next (b.scanner.size + 8) b.scanner
  set { b with scanner }
  return scanner.tokens[b.next]?.getD .streamEnd

def skip : Build Unit := modify fun b => { b with next := b.next + 1 }

def tagOf (handle suffix : String) : Build String := do
  if handle.isEmpty then return suffix
  match (← get).handles.lookup handle with
  | some start => return start ++ suffix
  | none => failure

/-- A new number for an anchor. -/
def declare (name : String) : Build Nat := do
  let b ← get
  let number := b.anchored.size
  set { b with
    anchors := (name, number) :: b.anchors
    anchored := b.anchored.push .missing }
  return number

def complete (anchor : Option Nat) (n : Node) : Build Node := do
  match anchor with
  | some number => modify fun b => { b with anchored := b.anchored.setIfInBounds number n }
  | none => pure ()
  return n

/-- The alias of an anchor that was met before. -/
def aliasOf (name : String) : Build Node := do
  let b ← get
  match b.anchors.lookup name with
  | some number =>
    set { b with mentions := b.mentions + 1 }
    return .alias name number b.mentions
  | none => failure

def anchor? : Build (Option Nat) := do
  match ← peek with
  | .anchor name => skip; return some (← declare name)
  | _ => return none

def tag? : Build (Option String) := do
  match ← peek with
  | .tag handle suffix => skip; return some (← tagOf handle suffix)
  | _ => return none

/-- The anchor and the tag before a node, in either order. -/
def properties : Build (Option Nat × Option String) := do
  match ← anchor? with
  | some number => return (some number, ← tag?)
  | none =>
    match ← tag? with
    | some tag => return (← anchor?, some tag)
    | none => return (none, none)

/-- A node, or a missing one if one of the given tokens comes first. -/
def orMissing (ends : List Token) (inner : Build Node) : Build Node := do
  if ends.contains (← peek) then return .missing else inner

/-- The value after a colon; it is missing if there is no colon. -/
def valueOr (ends : List Token) (inner : Build Node) : Build Node := do
  if (← peek) = .value then
    skip
    orMissing ends inner
  else return .missing

/-- Passes the comma between two items inside brackets, and gives the next token. -/
def separator (first : Bool) (close : Token) : Build Token := do
  let token ← peek
  if first || token = close then return token
  if token ≠ .flowEntry then failure
  skip
  peek

mutual

/-- A node.  Blocks are allowed if `block` is set, and a list may start without further indentation
if `loose` is set. -/
def node (block loose : Bool) : Nat → Build Node
  | 0 => failure
  | fuel + 1 => do
    match ← peek with
    | .alias name =>
      skip
      aliasOf name
    | _ =>
      let (number, tag) ← properties
      let marked := number.isSome || tag.isSome
      let inner ← content block loose marked (shortTag (tag.getD "")) fuel
      complete number inner

def content (block loose marked : Bool) (tag : String) : Nat → Build Node
  | 0 => failure
  | fuel + 1 => do
    match ← peek with
    | .scalar text isPlain => do
      skip
      return .scalar tag isPlain text
    | .flowSequence =>
      skip
      return .sequence (← flowItems true fuel)
    | .flowMapping =>
      skip
      return .mapping (← flowPairs true fuel)
    | token =>
      if loose && token = .blockEntry then
        return .sequence (← looseItems fuel)
      else if block && token = .blockSequence then
        skip
        return .sequence (← blockItems fuel)
      else if block && token = .blockMapping then
        skip
        return .mapping (← blockPairs fuel)
      else if marked then return .scalar tag true ""
      else failure

/-- The items of a list between brackets.  A pair may be an item. -/
def flowItems (first : Bool) : Nat → Build (List Node)
  | 0 => failure
  | fuel + 1 => do
    match ← separator first .flowSequenceEnd with
    | .flowSequenceEnd =>
      skip
      return []
    | .key =>
      skip
      let pair ← flowPair fuel
      return .mapping [pair] :: (← flowItems false fuel)
    | _ =>
      let item ← node false false fuel
      return item :: (← flowItems false fuel)

/-- A pair that is an item of a list between brackets.  A token in place of its key is passed. -/
def flowPair : Nat → Build (Node × Node)
  | 0 => failure
  | fuel + 1 => do
    let key ←
      if [.value, .flowEntry, .flowSequenceEnd].contains (← peek) then
        skip
        pure Node.missing
      else node false false fuel
    let value ← valueOr [.flowEntry, .flowSequenceEnd] (node false false fuel)
    return (key, value)

def flowPairs (first : Bool) : Nat → Build (List (Node × Node))
  | 0 => failure
  | fuel + 1 => do
    match ← separator first .flowMappingEnd with
    | .flowMappingEnd =>
      skip
      return []
    | .key =>
      skip
      let key ← orMissing [.value, .flowEntry, .flowMappingEnd] (node false false fuel)
      let value ← valueOr [.flowEntry, .flowMappingEnd] (node false false fuel)
      return (key, value) :: (← flowPairs false fuel)
    | _ =>
      let key ← node false false fuel
      return (key, .missing) :: (← flowPairs false fuel)

/-- The items of a list with its own indentation. -/
def blockItems : Nat → Build (List Node)
  | 0 => failure
  | fuel + 1 => do
    match ← peek with
    | .blockEntry =>
      skip
      let item ← orMissing [.blockEntry, .blockEnd] (node true false fuel)
      return item :: (← blockItems fuel)
    | .blockEnd =>
      skip
      return []
    | _ => failure

/-- The items of a list without further indentation. -/
def looseItems : Nat → Build (List Node)
  | 0 => failure
  | fuel + 1 => do
    match ← peek with
    | .blockEntry =>
      skip
      let item ← orMissing [.blockEntry, .key, .value, .blockEnd] (node true false fuel)
      return item :: (← looseItems fuel)
    | _ => return []

def blockPairs : Nat → Build (List (Node × Node))
  | 0 => failure
  | fuel + 1 => do
    match ← peek with
    | .key =>
      skip
      let ends : List Token := [.key, .value, .blockEnd]
      let key ← orMissing ends (node true true fuel)
      let value ← valueOr ends (node true true fuel)
      return (key, value) :: (← blockPairs fuel)
    | .blockEnd =>
      skip
      return []
    | _ => failure

end

/-- The directives before a document.  The only known version is 1.1. -/
def directives (versioned : Bool) (own : List (String × String)) : Nat → Build Unit
  | 0 => failure
  | fuel + 1 => do
    match ← peek with
    | .version major minor =>
      if versioned || major ≠ 1 || minor ≠ 1 then failure
      skip
      directives true own fuel
    | .tagHandle handle start =>
      if (own.lookup handle).isSome then failure
      skip
      directives versioned ((handle, start) :: own) fuel
    | _ => modify fun b => { b with handles := own ++ standardHandles }

def endsDocument : Token → Bool
  | .version .. | .tagHandle .. | .documentStart | .documentEnd | .streamEnd => true
  | _ => false

def document (fuel : Nat) : Build (Option Node) := do
  match ← peek with
  | .streamEnd => return none
  | .version .. | .tagHandle .. | .documentStart =>
    directives false [] fuel
    if (← peek) ≠ .documentStart then failure
    skip
    if endsDocument (← peek) then return some .missing
    let root ← node true false fuel
    let _ ← peek
    return some root
  | _ =>
    let root ← node true false fuel
    let _ ← peek
    return some root

end Build

namespace Tree

/-- The tree of the first document of a text, or nothing if there is none.  An error in the text is
no answer at all.  Every token takes a character at least, or closes or opens what one opened. -/
def parse? (text : String) : Option (Option Tree) := do
  let scanner := Scanner.ofText text
  let size := 8 * scanner.size + 8
  let (root, b) ← (Build.document size).run { scanner }
  return root.map fun root => { root, anchored := b.anchored, size }

end Tree

end Yaml
end DefUse
