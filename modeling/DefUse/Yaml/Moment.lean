import DefUse.Numeral.Written

/-!
# Dates and times

**Results.** `isMoment` says whether a text is a date, possibly with a time.
-/

namespace DefUse
namespace Yaml
namespace Moment

/-- A number of one or two digits, and the rest. -/
def number? : List Char → Option (Nat × List Char)
  | a :: b :: rest =>
    if !a.isDigit then none
    else if b.isDigit then do return (← Numeral.digits? 10 [a, b], rest)
    else do return (← Numeral.digits? 10 [a], b :: rest)
  | [a] => do return (← Numeral.digits? 10 [a], [])
  | [] => none

def below? (bound : Nat) (cs : List Char) : Option (List Char) := do
  let (n, rest) ← number? cs
  if n < bound then some rest else none

def after? (c : Char) (cs : List Char) : Option (List Char) :=
  if cs.head? = some c then some cs.tail else none

/-- A year has a day more in its second month. -/
def isLeap (year : Nat) : Bool := year % 4 = 0 && (year % 100 ≠ 0 || year % 400 = 0)

def daysIn (year month : Nat) : Nat :=
  if month = 2 then (if isLeap year then 29 else 28)
  else if [4, 6, 9, 11].contains month then 30
  else 31

/-- A year of four digits, a month and a day, and the rest. -/
def date? (cs : List Char) : Option (List Char) := do
  let (digits, rest) := cs.span Char.isDigit
  if digits.length ≠ 4 then none
  let year ← Numeral.digits? 10 digits
  let (month, rest) ← number? (← after? '-' rest)
  if month = 0 || 12 < month then none
  let (day, rest) ← number? (← after? '-' rest)
  if day = 0 || daysIn year month < day then none
  return rest

/-- Hours, minutes and seconds with a possible fraction, and the rest. -/
def time? (cs : List Char) : Option (List Char) := do
  let rest ← below? 24 cs
  let rest ← below? 60 (← after? ':' rest)
  let rest ← below? 60 (← after? ':' rest)
  match rest with
  | mark :: digit :: more =>
    if (mark = '.' || mark = ',') && digit.isDigit then some (more.dropWhile Char.isDigit)
    else some rest
  | _ => some rest

def isZone : List Char → Bool
  | ['Z'] => true
  | [s, a, b, ':', c, d] =>
    (s = '+' || s = '-') && [a, b, c, d].all Char.isDigit &&
      (Numeral.digits? 10 [a, b]).any (· ≤ 24) && (Numeral.digits? 10 [c, d]).any (· ≤ 60)
  | _ => false

/-- What may follow a date: nothing, a time with its zone after a letter, or a time after blanks. -/
def isTail : List Char → Bool
  | [] => true
  | c :: rest =>
    if c = 'T' || c = 't' then (time? rest).any isZone
    else if c = ' ' then (time? (rest.dropWhile (· = ' '))) = some []
    else false

end Moment

/-- The text is a date, possibly with a time. -/
def isMoment (cs : List Char) : Bool := (Moment.date? cs).any Moment.isTail

end Yaml
end DefUse
