/-!
# Reading characters from octets

A text that comes as octets need not be well formed.  Reading it gives its characters in order,
and every octet that belongs to no character on its own.

**Results.** `Utf8.decode` splits octets into characters and stray octets; `Utf8.decode?` reads
well-formed text only.
-/

namespace DefUse
namespace Text
namespace Utf8

/-- A piece of a text given as octets. -/
inductive Piece where
  /-- A character of the text. -/
  | char (c : Char)
  /-- An octet that no character explains. -/
  | stray (octet : UInt8)
  deriving DecidableEq, Repr

def isTail (b : UInt8) : Bool := 0x80 ≤ b && b ≤ 0xbf

/-- The six payload bits of a continuation octet. -/
def payload (b : UInt8) : Nat := b.toNat % 0x40

/-- The least and the greatest second octet after a first one, and the number of octets after it. -/
def lead (a : UInt8) : Option (UInt8 × UInt8 × Nat) :=
  if 0xc2 ≤ a && a ≤ 0xdf then some (0x80, 0xbf, 1)
  else if a = 0xe0 then some (0xa0, 0xbf, 2)
  else if a = 0xed then some (0x80, 0x9f, 2)
  else if 0xe1 ≤ a && a ≤ 0xef then some (0x80, 0xbf, 2)
  else if a = 0xf0 then some (0x90, 0xbf, 3)
  else if 0xf1 ≤ a && a ≤ 0xf3 then some (0x80, 0xbf, 3)
  else if a = 0xf4 then some (0x80, 0x8f, 3)
  else none

/-- The number that the payloads of the octets `a, tail` write, `n` being their count after `a`. -/
def scalar (a : UInt8) (n : Nat) (tail : List UInt8) : Nat :=
  tail.foldl (fun v b => 0x40 * v + payload b) (a.toNat % Nat.pow 2 (6 - n))

/-- The character at the front of `a :: rest`, and how many octets of `rest` belong to it. -/
def first? (a : UInt8) (rest : List UInt8) : Option (Char × Nat) :=
  if a < 0x80 then some (Char.ofNat a.toNat, 0)
  else do
    let (lo, hi, n) ← lead a
    let tail := rest.take n
    let second ← tail.head?
    if tail.length = n && lo ≤ second && second ≤ hi && tail.all isTail then
      some (Char.ofNat (scalar a n tail), n)
    else none

/-- The characters of a text given as octets, with the octets that belong to none. -/
def decode : List UInt8 → List Piece
  | [] => []
  | a :: rest =>
    match first? a rest with
    | some (c, n) => .char c :: decode (rest.drop n)
    | none => .stray a :: decode rest
  termination_by octets => octets.length
  decreasing_by all_goals simp only [List.length_cons, List.length_drop]; omega

/-- The text that octets write, if they are well formed. -/
def decode? (octets : List UInt8) : Option String :=
  (decode octets).foldr
    (fun piece rest =>
      match piece, rest with
      | .char c, some cs => some (c :: cs)
      | _, _ => none)
    (some [])
  |>.map String.ofList

/-- The characters of a text given as octets; an octet that belongs to none is replaced. -/
def lossy (octets : List UInt8) : List Char :=
  (decode octets).map fun
    | .char c => c
    | .stray _ => Char.ofNat 0xfffd

def encode (s : String) : List UInt8 := s.toUTF8.toList

end Utf8
end Text
end DefUse
