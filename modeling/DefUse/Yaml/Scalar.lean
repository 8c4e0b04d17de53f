import DefUse.Text.Base64
import DefUse.Text.Utf8
import DefUse.Yaml.Moment
import DefUse.Yaml.Tree

/-!
# Values of scalars

The value of a scalar depends on its tag, on whether it is quoted, and on its text.

**Results.** `Scalar.resolve?` gives the value.  `Scalar.integer?` and `Scalar.flag?` say which
values are taken for whole numbers and for truth values.
-/

namespace DefUse
namespace Yaml

/-- The value of a scalar. -/
inductive Scalar where
  /-- No value. -/
  | null
  /-- A truth value. -/
  | flag (b : Bool)
  /-- A whole number. -/
  | integer (n : Int)
  /-- A rounded number. -/
  | rounded (r : Rounded)
  /-- A number beyond all others. -/
  | infinite (negative : Bool)
  /-- The result of no computation. -/
  | nan
  /-- A date, possibly with a time. -/
  | moment
  /-- A text. -/
  | text (s : String)
  deriving DecidableEq, Repr

namespace Scalar

def tag : Scalar → String
  | null => "!!null"
  | flag _ => "!!bool"
  | integer _ => "!!int"
  | rounded _ | infinite _ | nan => "!!float"
  | moment => "!!timestamp"
  | text _ => "!!str"

def words : List (String × Scalar) :=
  [("true", flag true), ("True", flag true), ("TRUE", flag true),
    ("false", flag false), ("False", flag false), ("FALSE", flag false),
    ("", null), ("~", null), ("null", null), ("Null", null), ("NULL", null),
    (".nan", nan), (".NaN", nan), (".NAN", nan),
    (".inf", infinite false), (".Inf", infinite false), (".INF", infinite false),
    ("+.inf", infinite false), ("+.Inf", infinite false), ("+.INF", infinite false),
    ("-.inf", infinite true), ("-.Inf", infinite true), ("-.INF", infinite true)]

def pointed? (cs : List Char) : Option Scalar :=
  if Numeral.wellSpaced false cs then (Numeral.decimal? (Numeral.unspaced cs)).map rounded else none

/-- A number that starts with a digit or a sign. -/
def number? (cs : List Char) : Option Scalar :=
  let cs := Numeral.unspaced cs
  (Numeral.integer? cs).map integer <|> (Numeral.decimal? cs).map rounded

/-- The value that the text of a scalar suggests.  A date is only looked for if `dates` is set. -/
def suggested (dates : Bool) (s : String) : Scalar :=
  match words.lookup s with
  | some value => value
  | none =>
    let cs := s.toList
    match cs.head? with
    | some '.' => (pointed? cs).getD (text s)
    | some c =>
      if c.isDigit || c = '+' || c = '-' then
        if dates && isMoment cs then moment else (number? cs).getD (text s)
      else text s
    | none => text s

/-- The tags whose values must have a certain form. -/
def checkedTags : List String := ["!!bool", "!!int", "!!float", "!!null", "!!timestamp"]

/-- The closest rounded number to a whole number of 64 bits with a sign. -/
def ofInteger? (n : Int) : Option Scalar :=
  if n < Numeral.halfCount then (Rounded.nearest? (n < 0) n.natAbs 1).map rounded else none

/-- The value of a scalar.  It must fit its tag; a whole number fits the tag of rounded numbers. -/
def resolve? (tagged : String) (isPlain : Bool) (s : String) : Option Scalar :=
  if tagged.isEmpty then some (if isPlain then suggested true s else text s)
  else if tagged = "!!binary" then do
    return text (String.ofList (Text.Utf8.lossy (← Text.Base64.decode? s)))
  else if checkedTags.contains tagged then
    let value := suggested (tagged = "!!timestamp") s
    if value.tag = tagged then some value
    else
      match value with
      | integer n => if tagged = "!!float" then ofInteger? n else none
      | _ => none
  else some (text s)

/-- The whole number that a value is taken for.  A fraction is dropped, and what is too small, or
just too large by rounding, becomes the least number. -/
def integer? : Scalar → Option Int
  | integer n => if n < Numeral.halfCount then some n else none
  | rounded r =>
    let n := r.truncate
    if n > Numeral.halfCount then none
    else if n = Numeral.halfCount || n < -(Numeral.halfCount : Int) then
      some (-(Numeral.halfCount : Int))
    else some n
  | infinite true => some (-(Numeral.halfCount : Int))
  | _ => none

def trueWords : List String := ["y", "Y", "yes", "Yes", "YES", "on", "On", "ON"]

def falseWords : List String := ["n", "N", "no", "No", "NO", "off", "Off", "OFF"]

/-- The truth value that a value is taken for. -/
def flag? : Scalar → Option Bool
  | flag b => some b
  | text s =>
    if trueWords.contains s then some true
    else if falseWords.contains s then some false
    else none
  | _ => none

/-- The text that a value is taken for: that of the scalar itself, unless it is another text. -/
def written (source : String) : Scalar → String
  | text s => s
  | _ => source

end Scalar
end Yaml
end DefUse
