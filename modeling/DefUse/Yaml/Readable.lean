import DefUse.Yaml.Cursor

/-!
# The readable part of a text

A text is taken in blocks of octets, and only the characters of a block that is needed are looked
at.  A character that may not stand in a text makes its block unreadable.

**Results.** `Readable.ofText` gives the characters before the first unreadable block;
`block_append` says that cutting a block off loses nothing.
-/

namespace DefUse
namespace Yaml

def isAllowed (c : Char) : Bool :=
  let n := c.toNat
  n = 0x09 || n = 0x0a || n = 0x0d || (0x20 ≤ n && n ≤ 0x7e) || n = 0x85 ||
    (0xa0 ≤ n && n ≤ 0xd7ff) || (0xe000 ≤ n && n ≤ 0xfffd) || 0x10000 ≤ n

def byteOrderMark : Char := Char.ofNat 0xfeff

def blockSize : Nat := 512

/-- The characters of a text that can be read. -/
structure Readable where
  /-- The characters. -/
  chars : List Char
  /-- The number of characters of the first block. -/
  first : Nat
  /-- A block follows that cannot be read. -/
  cut : Bool

namespace Readable

/-- Splits off the characters of a block that has `room` octets left. -/
def block : Nat → List Char → List Char × List Char
  | _, [] => ([], [])
  | room, c :: rest =>
    if c.utf8Size ≤ room then
      let (taken, rest) := block (room - c.utf8Size) rest
      (c :: taken, rest)
    else ([], c :: rest)

/-- No character is lost at the end of a block. -/
@[simp] theorem block_append (room : Nat) (cs : List Char) :
    (block room cs).1 ++ (block room cs).2 = cs := by
  induction cs generalizing room with
  | nil => rfl
  | cons c rest ih => by_cases h : c.utf8Size ≤ room <;> simp [block, h, ih]

/-- The characters of the blocks before the first unreadable one, and whether there is such a
block; at most so many blocks are read, and the first one has `room` octets. -/
def blocks : Nat → Nat → List Char → List Char × Bool
  | 0, _, _ => ([], false)
  | fuel + 1, room, cs =>
    let (taken, rest) := block room cs
    if !taken.all isAllowed then ([], true)
    else if rest.isEmpty then (taken, false)
    else
      let (more, cut) := blocks fuel blockSize rest
      (taken ++ more, cut)

/-- The readable part of a text.  A mark of the byte order at the front is passed over. -/
def ofText (text : String) : Readable :=
  let marked := text.toList.head? = some byteOrderMark
  let cs := if marked then text.toList.tail else text.toList
  let room := if marked then blockSize - byteOrderMark.utf8Size else blockSize
  let (chars, cut) := blocks (cs.length + 1) room cs
  { chars, first := (block room cs).1.length, cut }

end Readable
end Yaml
end DefUse
