import DefUse.Pattern.Extent
import DefUse.Pattern.NamedClass

/-!
# Reading patterns

A pattern is read from left to right.  Open groups are kept on a stack; each holds the
alternatives that are complete and the items of the one that is being read, and a repetition
applies to the last item.

**Results.** `Pattern.parse` reads a pattern or tells what is wrong with it.
-/

namespace DefUse
namespace Pattern

/-- What is wrong with a pattern. -/
inductive Mistake where
  | classRange
  | escape
  | groupName
  | groupSyntax
  | nestedRepeat
  | repeatCount
  | openClass
  | openGroup
  | repeatTarget
  | lastBackslash
  | closedGroup
  | tooDeep
  | tooLarge
  deriving DecidableEq, Repr

def Mistake.text : Mistake → String
  | classRange => "invalid character class range"
  | escape => "invalid escape sequence"
  | groupName => "invalid named capture"
  | groupSyntax => "invalid or unsupported Perl syntax"
  | nestedRepeat => "invalid nested repetition operator"
  | repeatCount => "invalid repeat count"
  | openClass => "missing closing ]"
  | openGroup => "missing closing )"
  | repeatTarget => "missing argument to repetition operator"
  | lastBackslash => "trailing backslash at end of expression"
  | closedGroup => "unexpected )"
  | tooDeep => "expression nests too deeply"
  | tooLarge => "expression too large"

/-- A mistake and the part of the pattern that shows it. -/
structure ReadError where
  /-- The mistake. -/
  mistake : Mistake
  /-- The part of the pattern. -/
  part : List Char
  deriving DecidableEq, Repr

def ReadError.message (e : ReadError) : String :=
  "error parsing regexp: " ++ e.mistake.text ++ ": \u0060" ++ String.ofList e.part ++ "\u0060"

/-- Options that are set inside patterns. -/
structure Flags where
  /-- Letters match either case. -/
  fold : Bool := false
  /-- Starts and ends of lines count as starts and ends of the text. -/
  lines : Bool := false
  /-- Any character includes the new line. -/
  newline : Bool := false
  deriving DecidableEq, Repr

/-- A pattern with its extent. -/
structure Item where
  /-- The pattern. -/
  pattern : Pattern
  /-- How large it is. -/
  extent : Extent
  deriving DecidableEq, Repr

namespace Item

def letter (n : Nat) (fold : Bool) : Item := ⟨.literal n fold, .letter fold⟩

/-- The extent of a class.  A class of one character, or of a letter in its two cases, is that
letter. -/
def classExtent (negated fold : Bool) (items : List ClassItem) : Extent :=
  match negated, items with
  | false, [⟨false, [(lo, hi)]⟩] =>
    if lo ≠ hi then { form := .oneOf }
    else if !fold then .letter false
    else
      match (Text.foldClass lo).length with
      | 1 => .letter false
      | 2 => .letter true
      | _ => { form := .oneOf }
  | _, _ => { form := .oneOf }

def ofClass (negated fold : Bool) (items : List ClassItem) : Item :=
  ⟨.oneOf negated fold items, classExtent negated fold items⟩

/-- The letters and the ends of ranges that an item lists itself. -/
def marks (i : Item) : Nat :=
  match i.pattern with
  | .literal _ _ => 1
  | .oneOf _ _ items => items.foldl (fun n item => n + 2 * item.ranges.length) 0
  | _ => 0

def place (p : Pattern) : Item := ⟨p, {}⟩

def sequence (items : List Item) : Item :=
  ⟨concatAll (items.map pattern), .sequence (items.map extent)⟩

def choice (items : List Item) : Item :=
  ⟨eitherOf (items.map pattern), .choice (items.map extent)⟩

end Item

/-- A group that is being read. -/
structure Frame where
  /-- The options at the start of the group. -/
  outer : Flags := {}
  /-- The group is remembered. -/
  remembered : Bool := false
  /-- The alternatives that are complete, the last one first. -/
  alternatives : List Item := []
  /-- The items of the alternative that is being read, the last one first. -/
  items : List Item := []

namespace Frame

def current (f : Frame) : Item := .sequence f.items.reverse

/-- The pattern of the group. -/
def inside (f : Frame) : Item := .choice (f.current :: f.alternatives).reverse

def item (f : Frame) : Item :=
  if f.remembered then { f.inside with extent := f.inside.extent.group } else f.inside

def push (f : Frame) (i : Item) : Frame := { f with items := i :: f.items }

/-- The group with its alternative complete. -/
def bar (f : Frame) : Frame := { f with alternatives := f.current :: f.alternatives, items := [] }

end Frame

/-- A pattern that is partly read. -/
structure State where
  /-- The innermost group. -/
  top : Frame := {}
  /-- The groups around it, innermost first. -/
  below : List Frame := []
  /-- The options in force. -/
  flags : Flags := {}
  /-- The text from the repetition that was read last, if nothing was read since. -/
  lastRepeat : Option (List Char) := none
  /-- The number of parts so far, letters next to each other being one part. -/
  parts : Nat := 0
  /-- The product of the bounds of all repetitions so far. -/
  product : Nat := 1
  /-- The greatest size of a part so far. -/
  largest : Nat := 0
  /-- The number of letters and ends of ranges so far. -/
  marks : Nat := 0
  /-- The text still to be read. -/
  rest : List Char

namespace State

/-- Checks a part that was completed.  Sizes only matter once the parts and the repetitions are so
many that they could be too large. -/
def check (whole : List Char) (e : Extent) (s : State) : Except ReadError State :=
  let s := { s with largest := max s.largest e.size }
  if Extent.maxSize / s.product ≤ s.parts && Extent.maxSize < s.largest then
    .error ⟨.tooLarge, whole⟩
  else if Extent.maxHeight < e.height then .error ⟨.tooDeep, whole⟩
  else .ok s

def push (s : State) (i : Item) (rest : List Char) : State :=
  let joined := i.extent.isLetters && s.top.items.head?.any fun j => j.extent.isLetters
  { s with
    top := s.top.push i
    rest
    lastRepeat := none
    parts := if joined then s.parts else s.parts + 1
    marks := s.marks + i.marks }

end State

/-- The part of a text before one of its ends. -/
def before (text rest : List Char) : List Char := text.take (text.length - rest.length)

/-- The named classes of characters below `0x80`. -/
def namedClasses : List (String × Ranges) := [
  ("alnum", [(0x30, 0x39), (0x41, 0x5a), (0x61, 0x7a)]), ("alpha", [(0x41, 0x5a), (0x61, 0x7a)]),
  ("ascii", [(0, 0x7f)]), ("blank", [(0x09, 0x09), (0x20, 0x20)]),
  ("cntrl", [(0, 0x1f), (0x7f, 0x7f)]), ("digit", [(0x30, 0x39)]), ("graph", [(0x21, 0x7e)]),
  ("lower", [(0x61, 0x7a)]), ("print", [(0x20, 0x7e)]),
  ("punct", [(0x21, 0x2f), (0x3a, 0x40), (0x5b, 0x60), (0x7b, 0x7e)]),
  ("space", [(0x09, 0x0d), (0x20, 0x20)]), ("upper", [(0x41, 0x5a)]),
  ("word", [(0x30, 0x39), (0x41, 0x5a), (0x5f, 0x5f), (0x61, 0x7a)]),
  ("xdigit", [(0x30, 0x39), (0x41, 0x46), (0x61, 0x66)])]

/-- The classes that a letter after a backslash stands for. -/
def letterClass? : Char → Option ClassItem
  | 'd' => some ⟨false, [(0x30, 0x39)]⟩
  | 'D' => some ⟨true, [(0x30, 0x39)]⟩
  | 's' => some ⟨false, [(0x09, 0x0a), (0x0c, 0x0d), (0x20, 0x20)]⟩
  | 'S' => some ⟨true, [(0x09, 0x0a), (0x0c, 0x0d), (0x20, 0x20)]⟩
  | 'w' => some ⟨false, [(0x30, 0x39), (0x41, 0x5a), (0x5f, 0x5f), (0x61, 0x7a)]⟩
  | 'W' => some ⟨true, [(0x30, 0x39), (0x41, 0x5a), (0x5f, 0x5f), (0x61, 0x7a)]⟩
  | _ => none

/-- The text up to the first occurrence of a mark, and the text after it. -/
def cut? (mark : List Char) : List Char → Option (List Char × List Char)
  | [] => none
  | c :: rest =>
    if mark.isPrefixOf (c :: rest) then some ([], (c :: rest).drop mark.length)
    else (cut? mark rest).map fun (a, b) => (c :: a, b)

/-- A named category after `\p` or `\P`, where `text` starts with the backslash. -/
def category (negated : Bool) (text rest : List Char) :
    Except ReadError (ClassItem × List Char) :=
  let finish (name rest : List Char) : Except ReadError (ClassItem × List Char) :=
    let (negated, name) :=
      match name with
      | '^' :: name => (!negated, name)
      | name => (negated, name)
    match ClassItem.named? name with
    | some item => .ok (⟨item.negated != negated, item.ranges⟩, rest)
    | none => .error ⟨.classRange, before text rest⟩
  match rest with
  | [] => finish [] []
  | '\x7b' :: rest =>
    match cut? ['\x7d'] rest with
    | none => .error ⟨.classRange, text⟩
    | some (name, rest) => finish name rest
  | c :: rest => finish [c] rest

def isOctal (c : Char) : Bool := '0' ≤ c && c ≤ '7'

/-- The number of up to `n` more octal digits. -/
def octal (value : Nat) : Nat → List Char → Nat × List Char
  | n + 1, c :: rest =>
    if isOctal c then octal (8 * value + (c.toNat - '0'.toNat)) n rest else (value, c :: rest)
  | _, rest => (value, rest)

/-- The number between braces: the digits read, or the text after the first wrong character. -/
def braced (value count : Nat) : List Char → Except (List Char) (Nat × List Char)
  | [] => .error []
  | c :: rest =>
    if c = '\x7d' then (if count = 0 then .error rest else .ok (value, rest))
    else if !Text.isHex c then .error rest
    else
      let value := 16 * value + Text.hexDigitValue c
      if value > 0x10ffff then .error rest else braced value (count + 1) rest

/-- The number of the character after a backslash, where `text` starts with the backslash. -/
def escape (text : List Char) : Except ReadError (Nat × List Char) :=
  let wrong (rest : List Char) : Except ReadError (Nat × List Char) :=
    .error ⟨.escape, before text rest⟩
  match text.drop 1 with
  | [] => .error ⟨.lastBackslash, []⟩
  | c :: rest =>
    match c with
    | 'a' => .ok (0x07, rest)
    | 'f' => .ok (0x0c, rest)
    | 'n' => .ok (0x0a, rest)
    | 'r' => .ok (0x0d, rest)
    | 't' => .ok (0x09, rest)
    | 'v' => .ok (0x0b, rest)
    | 'x' =>
      match rest with
      | [] => wrong []
      | '\x7b' :: rest =>
        match braced 0 0 rest with
        | .ok found => .ok found
        | .error rest => wrong rest
      | [_] => wrong []
      | x :: y :: rest =>
        if Text.isHex x && Text.isHex y then .ok (Text.hexValue [x, y], rest) else wrong rest
    | c =>
      if isOctal c && (c = '0' || rest.head?.any isOctal) then
        .ok (octal (c.toNat - '0'.toNat) 2 rest)
      else if c.toNat < 0x80 && !c.isAlphanum then .ok (c.toNat, rest)
      else wrong rest

/-- A character of a class; `whole` is the text from the bracket that opens the class. -/
def classChar (whole : List Char) : List Char → Except ReadError (Nat × List Char)
  | [] => .error ⟨.openClass, whole⟩
  | '\\' :: rest => escape ('\\' :: rest)
  | c :: rest => .ok (c.toNat, rest)

/-- A named class such as `[:alpha:]` at the front of a text; `none` if there is none. -/
def namedClass? : List Char → Option (Except ReadError (ClassItem × List Char))
  | '[' :: ':' :: rest =>
    match cut? [':', ']'] rest with
    | none => none
    | some (name, after) =>
      let (negated, base) :=
        match name with
        | '^' :: base => (true, base)
        | base => (false, base)
      match namedClasses.lookup (String.ofList base) with
      | some ranges => some (.ok (⟨negated, ranges⟩, after))
      | none => some (.error ⟨.classRange, '[' :: ':' :: (name ++ [':', ']'])⟩)
  | _ => none

/-- A class that is written by itself, inside or outside of brackets. -/
def writtenClass? (text : List Char) : Option (Except ReadError (ClassItem × List Char)) :=
  match text with
  | '\\' :: 'p' :: rest => some (category false text rest)
  | '\\' :: 'P' :: rest => some (category true text rest)
  | '\\' :: c :: rest => (letterClass? c).map fun item => .ok (item, rest)
  | _ => none

def classRange (whole text : List Char) : Except ReadError (ClassItem × List Char) := do
  let (lo, rest) ← classChar whole text
  match rest with
  | '-' :: c :: after =>
    if c = ']' then return (⟨false, [(lo, lo)]⟩, rest)
    else
      let (hi, rest) ← classChar whole (c :: after)
      if hi < lo then throw ⟨.classRange, before text rest⟩
      return (⟨false, [(lo, hi)]⟩, rest)
  | rest => return (⟨false, [(lo, lo)]⟩, rest)

/-- The items of a class up to its closing bracket; a bracket that comes first is an item. -/
def classItems (whole : List Char) : Nat → Bool → List Char →
    Except ReadError (List ClassItem × List Char)
  | 0, _, _ => .error ⟨.openClass, whole⟩
  | fuel + 1, first, text => do
    match first, text with
    | false, ']' :: rest => return ([], rest)
    | _, text =>
      let (item, rest) ←
        match namedClass? text with
        | some found => found
        | none =>
          match writtenClass? text with
          | some found => found
          | none => classRange whole text
      let (items, rest) ← classItems whole fuel false rest
      return (item :: items, rest)

/-- A class between brackets, where `text` starts with the opening one. -/
def bracketed (flags : Flags) (text : List Char) : Except ReadError (Item × List Char) := do
  let (negated, inner) :=
    match text.drop 1 with
    | '^' :: inner => (true, inner)
    | inner => (false, inner)
  let (items, rest) ← classItems text (inner.length + 1) true inner
  return (.ofClass negated flags.fold items, rest)

/-- A decimal number without leading zeros; `none` inside if it is too great to matter. -/
def count? (text : List Char) : Option (Option Nat × List Char) :=
  match text.span Char.isDigit with
  | ([], _) => none
  | ('0' :: _ :: _, _) => none
  | (ds, rest) =>
    let value := ds.foldl (fun n c => 10 * n + (c.toNat - '0'.toNat)) 0
    some (if ds.length ≤ 9 then some value else none, rest)

/-- The bounds of a repetition between braces, and the rest: the least number, and the greatest one
unless it is open.  Bounds that are too great are `none`. -/
def bounds? : List Char → Option (Option Nat × Option (Option Nat) × List Char)
  | '\x7b' :: rest => do
    let (least, rest) ← count? rest
    match rest with
    | '\x7d' :: rest => return (least, some least, rest)
    | ',' :: '\x7d' :: rest => return (least, none, rest)
    | ',' :: rest =>
      let (most, rest) ← count? rest
      match rest with
      | '\x7d' :: rest => return (if most.isNone then none else least, some most, rest)
      | _ => none
    | _ => none
  | _ => none

def maxRepeat : Nat := 1000

/-- Repeats the last item.  `text` starts with the operator and `rest` follows it. -/
def repeatLast (whole : List Char) (s : State) (least : Nat) (most : Option Nat) (counted : Bool)
    (text rest : List Char) : Except ReadError State := do
  let rest :=
    match rest with
    | '?' :: rest => rest
    | rest => rest
  match s.lastRepeat, s.top.items with
  | some last, _ => throw ⟨.nestedRepeat, before last rest⟩
  | none, [] => throw ⟨.repeatTarget, before text rest⟩
  | none, item :: items =>
    let p := Pattern.repeated least most item.pattern
    let extent := item.extent.repeated least most
    let factor := if counted then max 1 (most.getD least) else 1
    let s := { s with product := min Extent.maxSize (s.product * factor), parts := s.parts + 1 }
    let s ← s.check whole extent
    if counted && (least ≥ 2 || most.any (· ≥ 2)) && !p.fits maxRepeat then
      throw ⟨.repeatCount, before text rest⟩
    return { s with
      top := { s.top with items := ⟨p, extent⟩ :: items }
      rest
      lastRepeat := some text }

/-- The state after a repetition between braces; a brace that starts none is a character. -/
def repeatBraced (whole : List Char) (s : State) (text : List Char) : Except ReadError State :=
  match bounds? text with
  | none => .ok (s.push (.letter 0x7b s.flags.fold) (text.drop 1))
  | some (least, most, rest) =>
    let wrong : Except ReadError State := .error ⟨.repeatCount, before text rest⟩
    match least, most with
    | some least, none =>
      if least > maxRepeat then wrong else repeatLast whole s least none true text rest
    | some least, some (some most) =>
      if least > maxRepeat || most > maxRepeat || least > most then wrong
      else repeatLast whole s least (some most) true text rest
    | _, _ => wrong

/-- The flags after a letter that sets one, or clears it after a minus sign. -/
def flagLetter? (on : Bool) (flags : Flags) : Char → Option Flags
  | 'i' => some { flags with fold := on }
  | 'm' => some { flags with lines := on }
  | 's' => some { flags with newline := on }
  | 'U' => some flags
  | _ => none

/-- What the letters after `(?` do: the flags, and whether a group opens.  A failure gives the text
after the first wrong character. -/
def flagLetters (on seen : Bool) (flags : Flags) :
    List Char → Except (List Char) (Flags × Bool × List Char)
  | [] => .error []
  | c :: rest =>
    if c = ':' || c = ')' then
      if !on && !seen then .error rest else .ok (flags, c = ':', rest)
    else if c = '-' then
      if on then flagLetters false false flags rest else .error rest
    else
      match flagLetter? on flags c with
      | some flags => flagLetters on true flags rest
      | none => .error rest

def openGroup (s : State) (remembered : Bool) (rest : List Char) : State :=
  { s with
    top := { outer := s.flags, remembered }
    below := s.top :: s.below
    rest
    lastRepeat := none
    parts := s.parts + 1 }

/-- Opens a group with a name, where `text` starts with the parenthesis and `inner` with the
name. -/
def openNamed (s : State) (text inner : List Char) : Except ReadError State :=
  match cut? ['>'] inner with
  | none => .error ⟨.groupName, text⟩
  | some (name, rest) =>
    if name.isEmpty || !name.all (fun c => c.isAlphanum || c = '_') then
      .error ⟨.groupName, before text rest⟩
    else .ok (openGroup s true rest)

/-- The state after `(?`, where `text` starts with the parenthesis. -/
def special (s : State) (text : List Char) : Except ReadError State :=
  match text.drop 2 with
  | 'P' :: '<' :: c :: inner => openNamed s text (c :: inner)
  | '<' :: c :: inner => openNamed s text (c :: inner)
  | letters =>
    match flagLetters true false s.flags letters with
    | .error rest => .error ⟨.groupSyntax, before text rest⟩
    | .ok (flags, opens, rest) =>
      let s := if opens then openGroup s false rest else { s with rest, lastRepeat := none }
      .ok { s with flags }

def closeGroup (whole : List Char) (s : State) (rest : List Char) : Except ReadError State := do
  let s ← s.check whole s.top.inside.extent
  match s.below with
  | [] => throw ⟨.closedGroup, whole⟩
  | outer :: below =>
    let s ← s.check whole s.top.item.extent
    let after : State := { s with top := outer, below, flags := s.top.outer }
    return after.push s.top.item rest

/-- The characters between `\Q` and `\E`, and the rest. -/
def quotedPart (text : List Char) : List Char × List Char :=
  (cut? ['\\', 'E'] text).getD (text, [])

/-- The state after a backslash, where `text` starts with it. -/
def backslash (s : State) (text : List Char) : Except ReadError State :=
  match text with
  | '\\' :: 'A' :: rest => .ok (s.push (.place (.start false)) rest)
  | '\\' :: 'b' :: rest => .ok (s.push (.place (.boundary false)) rest)
  | '\\' :: 'B' :: rest => .ok (s.push (.place (.boundary true)) rest)
  | '\\' :: 'C' :: _ => .error ⟨.escape, ['\\', 'C']⟩
  | '\\' :: 'z' :: rest => .ok (s.push (.place (.stop false)) rest)
  | '\\' :: 'Q' :: rest =>
    let (quoted, rest) := quotedPart rest
    let s := quoted.foldl (fun s c => s.push (.letter c.toNat s.flags.fold) rest) s
    .ok { s with rest, lastRepeat := none }
  | text =>
    match writtenClass? text with
    | some (.ok (item, rest)) => .ok (s.push (.ofClass false s.flags.fold [item]) rest)
    | some (.error e) => .error e
    | none =>
      match escape text with
      | .ok (n, rest) => .ok (s.push (.letter n s.flags.fold) rest)
      | .error e => .error e

def step (whole : List Char) (s : State) : Except ReadError State := do
  let text := s.rest
  match text with
  | [] => return s
  | '(' :: '?' :: _ => special s text
  | '(' :: rest => return openGroup s true rest
  | '|' :: rest =>
    let s ← s.check whole s.top.current.extent
    return { s with top := s.top.bar, rest, lastRepeat := none }
  | ')' :: rest => closeGroup whole s rest
  | '^' :: rest => return s.push (.place (.start s.flags.lines)) rest
  | '$' :: rest => return s.push (.place (.stop s.flags.lines)) rest
  | '.' :: rest => return s.push ⟨.any s.flags.newline, { form := .oneOf }⟩ rest
  | '[' :: _ =>
    let (item, rest) ← bracketed s.flags text
    return s.push item rest
  | '*' :: rest => repeatLast whole s 0 none false text rest
  | '+' :: rest => repeatLast whole s 1 none false text rest
  | '?' :: rest => repeatLast whole s 0 (some 1) false text rest
  | '\x7b' :: _ => repeatBraced whole s text
  | '\\' :: _ => backslash s text
  | c :: rest => return s.push (.letter c.toNat s.flags.fold) rest

/-- Reads the rest of a pattern; every step reads a character at least. -/
def run (whole : List Char) : Nat → State → Except ReadError State
  | 0, s => .ok s
  | fuel + 1, s =>
    if s.rest.isEmpty then .ok s
    else
      match step whole s with
      | .ok s => if Extent.maxMarks < s.marks then .error ⟨.tooLarge, whole⟩ else run whole fuel s
      | .error e => .error e

def parse (text : String) : Except ReadError Pattern := do
  let whole := text.toList
  let s ← run whole whole.length { rest := whole }
  let s ← s.check whole s.top.inside.extent
  if s.below.isEmpty then return s.top.inside.pattern else throw ⟨.openGroup, whole⟩

end Pattern
end DefUse
