import DefUse.Text.Hex
import DefUse.Text.Utf8
import DefUse.Yaml.Cursor

/-!
# The texts of tags

A tag is an address.  Its characters may be written as octets after percent signs, all octets of a
character together.

**Results.** `tagParts` reads the handle and the rest of a tag, `handle` the handle alone, and
`address` the characters of an address.
-/

namespace DefUse
namespace Yaml

def isTagChar (c : Char) : Bool := isNameChar c || ";/?:@&=+$.,!~*'()[]%".toList.contains c

/-- The number of octets of a character that starts with the given one. -/
def octetCount? (first : Nat) : Option Nat :=
  if first < 0x80 then some 1
  else if 0xc0 ≤ first && first < 0xe0 then some 2
  else if 0xe0 ≤ first && first < 0xf0 then some 3
  else if 0xf0 ≤ first && first < 0xf8 then some 4
  else none

def octet? : List Char → Option (Nat × List Char)
  | '%' :: a :: b :: rest =>
    if Text.isHex a && Text.isHex b then some (Text.hexValue [a, b], rest) else none
  | _ => none

def furtherOctets? : Nat → List Char → Option (List Nat × List Char)
  | 0, cs => some ([], cs)
  | n + 1, cs => do
    let (octet, rest) ← octet? cs
    if octet < 0x80 || 0xc0 ≤ octet then none
    let (octets, rest) ← furtherOctets? n rest
    return (octet :: octets, rest)

/-- The character that octets after percent signs write. -/
def escapedChar? (cs : List Char) : Option (List Char × List Char) := do
  let (first, rest) ← octet? cs
  let (more, rest) ← furtherOctets? ((← octetCount? first) - 1) rest
  return (Text.Utf8.lossy ((first :: more).map UInt8.ofNat), rest)

/-- The characters of an address, and the place after it. -/
def address : Nat → Cursor → Option (List Char × Cursor)
  | 0, c => some ([], c)
  | fuel + 1, c =>
    match c.peek with
    | none => some ([], c)
    | some ch =>
      if ch = '%' then do
        let (chars, rest) ← escapedChar? c.rest
        let (more, c) ← address fuel (c.skip (c.rest.length - rest.length))
        return (chars ++ more, c)
      else if isTagChar ch then do
        let (more, c) ← address fuel (c.skip 1)
        return (ch :: more, c)
      else some ([], c)

/-- The characters of an address that is not empty, and the place after it. -/
def address? (c : Cursor) : Option (List Char × Cursor) := do
  let (chars, after) ← address (c.rest.length + 1) c
  if after.index = c.index then none else some (chars, after)

/-- The handle at the front of a tag: an exclamation mark, a name and perhaps another mark. -/
def handle (c : Cursor) : List Char × Cursor :=
  let (name, after) := (c.skip 1).takeWhile isNameChar
  if after.sees '!' then ('!' :: (name ++ ['!']), after.skip 1) else ('!' :: name, after)

def isClosedHandle (h : List Char) : Bool := h.length > 1 && h.getLast? = some '!'

/-- The handle and the rest of a tag, and the place after it. -/
def tagParts (c : Cursor) : Option (String × String × Cursor) :=
  if c.peekAt 1 = some '<' then do
    let (suffix, c) ← address? (c.skip 2)
    if !c.sees '>' then none
    return ("", String.ofList suffix, c.skip 1)
  else
    let (h, after) := handle c
    if isClosedHandle h then do
      let (suffix, c) ← address? after
      return (String.ofList h, String.ofList suffix, c)
    else do
      let (suffix, c) ← address (after.rest.length + 1) after
      match h.drop 1 ++ suffix with
      | [] => some ("", "!", c)
      | suffix => some ("!", String.ofList suffix, c)

end Yaml
end DefUse
