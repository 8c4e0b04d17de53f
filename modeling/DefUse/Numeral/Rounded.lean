/-!
# Rounded numbers

A number with a fraction is kept with 53 binary digits.

**Results.** `Rounded.nearest?` gives the closest rounded number to a quotient, a tie going to the
even neighbour, and `Rounded.truncate` drops the fraction.
-/

namespace DefUse

/-- The number `significand * 2 ^ exponent`, possibly negated. -/
structure Rounded where
  /-- The number is negated. -/
  negative : Bool
  /-- The binary digits. -/
  significand : Nat
  /-- The power of two of the last digit. -/
  exponent : Int
  deriving DecidableEq, Repr

namespace Rounded

/-- The number of binary digits. -/
def precision : Nat := 53

/-- The least power of two. -/
def leastExponent : Int := -1074

/-- The power of two that is too large. -/
def bound : Nat := 1024

/-- The whole number closest to a quotient; a tie goes to the even one. -/
def roundDiv (num den : Nat) : Nat :=
  let q := num / den
  let twice := 2 * (num % den)
  if twice > den || (twice = den && q % 2 = 1) then q + 1 else q

/-- A quotient counted in units of a power of two. -/
def inUnits (num den : Nat) (exponent : Int) : Nat × Nat :=
  if exponent ≥ 0 then (num, den * Nat.pow 2 exponent.toNat)
  else (num * Nat.pow 2 (-exponent).toNat, den)

/-- The power of two of the last digit of a quotient that is not zero. -/
def unitOf (num den : Nat) : Int :=
  let guess : Int := num.log2 - den.log2 - precision
  let (n, d) := inUnits num den guess
  max leastExponent (if n / d ≥ Nat.pow 2 precision then guess + 1 else guess)

/-- The rounded number closest to a quotient, if it is not too large. -/
def nearest? (negative : Bool) (num den : Nat) : Option Rounded :=
  if num = 0 then some ⟨negative, 0, 0⟩
  else
    let exponent := unitOf num den
    let (n, d) := inUnits num den exponent
    let significand := roundDiv n d
    if exponent + significand.log2 ≥ bound then none
    else some ⟨negative, significand, exponent⟩

def truncate (r : Rounded) : Int :=
  let whole : Nat :=
    if r.exponent ≥ 0 then r.significand * Nat.pow 2 r.exponent.toNat
    else r.significand / Nat.pow 2 (-r.exponent).toNat
  if r.negative then -(whole : Int) else whole

end Rounded
end DefUse
