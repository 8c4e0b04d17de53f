import DefUse.Text.Category
import DefUse.Text.Hex
import DefUse.Text.Utf8

/-!
# Quoted text

Messages show names between double quotes.  A printable character is written as itself, a quote
and a backslash after a backslash, seven controls by their letter, other characters below `0x80`
with two hexadecimal digits and the rest with four or eight.  An octet that belongs to no
character is written with two digits.

**Results.** `quote` writes a text between quotes; `escapeOctets` writes octets without them.
-/

namespace DefUse
namespace Text

/-- The controls that are written by a letter of their own. -/
def controlLetters : List (Nat × Char) :=
  [(0x07, 'a'), (0x08, 'b'), (0x0c, 'f'), (0x0a, 'n'), (0x0d, 'r'), (0x09, 't'), (0x0b, 'v')]

def escapeChar (c : Char) : List Char :=
  if c = '"' || c = '\\' then ['\\', c]
  else if isPrintable c then [c]
  else
    match controlLetters.lookup c.toNat with
    | some letter => ['\\', letter]
    | none =>
      if c.toNat < 0x80 then '\\' :: 'x' :: hexDigits 2 c.toNat
      else if c.toNat < 0x10000 then '\\' :: 'u' :: hexDigits 4 c.toNat
      else '\\' :: 'U' :: hexDigits 8 c.toNat

def escape (s : String) : String :=
  String.ofList (s.toList.flatMap escapeChar)

/-- A piece of a text of octets as it stands between quotes. -/
def escapePiece : Utf8.Piece → List Char
  | .char c => escapeChar c
  | .stray b => '\\' :: 'x' :: hexDigits 2 b.toNat

def escapeOctets (octets : List UInt8) : String :=
  String.ofList ((Utf8.decode octets).flatMap escapePiece)

def quote (s : String) : String := "\"" ++ escape s ++ "\""

end Text
end DefUse
