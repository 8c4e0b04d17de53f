import DefUse.Numeral.Rounded
import DefUse.Text.Hex

/-!
# Written numbers

**Results.** `Numeral.integer?` reads whole numbers of 64 bits in the usual bases, and
`Numeral.decimal?` reads numbers with a fraction or a power of ten.
-/

namespace DefUse
namespace Numeral

/-- The number of whole numbers of 64 bits without a sign. -/
def wordCount : Nat := 0x10000000000000000

/-- The number of negative whole numbers of 64 bits. -/
def halfCount : Nat := 0x8000000000000000

/-- The value of a digit of a base up to sixteen. -/
def digit? (base : Nat) (c : Char) : Option Nat :=
  if Text.isHex c && Text.hexDigitValue c < base then some (Text.hexDigitValue c) else none

/-- The number that digits write; there must be some. -/
def digits? (base : Nat) : List Char → Option Nat
  | [] => none
  | cs => cs.foldlM (fun n c => return base * n + (← digit? base c)) 0

/-- The base that a letter after a leading zero stands for. -/
def base? (c : Char) : Option Nat :=
  match c.toLower with
  | 'b' => some 2
  | 'o' => some 8
  | 'x' => some 16
  | _ => none

/-- A number whose base is given by its front: a zero with a letter, a zero alone for eight, or ten
otherwise. -/
def prefixed? : List Char → Option Nat
  | ['0'] => some 0
  | ['0', c] => digits? 8 [c]
  | '0' :: c :: rest =>
    match base? c with
    | some base => digits? base rest
    | none => digits? 8 (c :: rest)
  | cs => digits? 10 cs

/-- The sign at the front of a number, and the rest. -/
def sign : List Char → Option Bool × List Char
  | '+' :: rest => (some false, rest)
  | '-' :: rest => (some true, rest)
  | cs => (none, cs)

/-- A number with a sign, if it fits into 64 bits. -/
def withSign? (negative : Bool) (n : Nat) : Option Int :=
  if negative then (if n ≤ halfCount then some (-(n : Int)) else none)
  else (if n < halfCount then some n else none)

/-- A sign may also follow the letter of a binary or octal number. -/
def innerSigned? : List Char → Option Int
  | '0' :: c :: rest => do
    let base ← if c = 'b' then some 2 else if c = 'o' then some 8 else none
    let (negative, digits) := sign rest
    withSign? (negative.getD false) (← digits? base digits)
  | _ => none

/-- A whole number.  Without a sign it may use all 64 bits. -/
def integer? (cs : List Char) : Option Int :=
  let read : Option Int :=
    match sign cs with
    | (some negative, rest) => do withSign? negative (← prefixed? rest)
    | (none, rest) => do
      let n ← prefixed? rest
      if n < wordCount then some n else none
  read <|> innerSigned? cs

/-- A number with a point or a power of ten: `digits * 10 ^ power`. -/
structure Scientific where
  /-- The number is negated. -/
  negative : Bool
  /-- The digits without the point. -/
  digits : Nat
  /-- The power of ten of the last digit. -/
  power : Int
  deriving DecidableEq, Repr

namespace Scientific

/-- The power of ten after a mark; nothing is the power zero. -/
def power? : List Char → Option Int
  | [] => some 0
  | c :: rest =>
    if c = 'e' || c = 'E' then do
      let (negative, digits) := sign rest
      let n ← digits? 10 digits
      return if negative = some true then -(n : Int) else n
    else none

/-- Reads digits with at most one point and perhaps a power of ten.  There is a digit before or
after the point. -/
def read? (cs : List Char) : Option Scientific := do
  let (negative, cs) := sign cs
  let (whole, cs) := cs.span Char.isDigit
  let (fraction, cs) :=
    match cs with
    | '.' :: rest => rest.span Char.isDigit
    | cs => ([], cs)
  let digits ← digits? 10 (whole ++ fraction)
  let power ← power? cs
  return ⟨negative.getD false, digits, power - fraction.length⟩

/-- More powers of ten than this are too large, and as many negative ones are too small. -/
def farPower : Nat := 400

/-- The closest rounded number, if it is not too large. -/
def rounded? (s : Scientific) : Option Rounded :=
  let places : Int := (Nat.toDigits 10 s.digits).length + s.power
  if s.digits = 0 || places < -farPower then some ⟨s.negative, 0, 0⟩
  else if places > farPower then none
  else if s.power ≥ 0 then Rounded.nearest? s.negative (s.digits * Nat.pow 10 s.power.toNat) 1
  else Rounded.nearest? s.negative s.digits (Nat.pow 10 (-s.power).toNat)

end Scientific

/-- A number with a fraction or a power of ten, rounded. -/
def decimal? (cs : List Char) : Option Rounded := do (← Scientific.read? cs).rounded?

/-- Underscores stand only between two digits. -/
def wellSpaced : Bool → List Char → Bool
  | _, [] => true
  | afterDigit, '_' :: rest => afterDigit && rest.head?.any Char.isDigit && wellSpaced false rest
  | _, c :: rest => wellSpaced c.isDigit rest

def unspaced (cs : List Char) : List Char := cs.filter (· ≠ '_')

end Numeral
end DefUse
