/-!
# Operands of messages

A message is made of operands: texts, numbers, truth values, or nothing.  Side by side, two
operands are parted by a blank when neither is a text.  In a pattern, `%s` takes a text, `%d` a
number, `%v` anything, and `%%` writes a percent sign; an operand that does not fit, is missing
or is left over is shown as such.

**Results.** `Operand.join` sets operands side by side; `Operand.fill` fills a pattern.
-/

namespace DefUse
namespace Text

/-- What a message may be made of. -/
inductive Operand where
  /-- A text. -/
  | text (s : String)
  /-- A number. -/
  | int (n : Int)
  /-- A truth value. -/
  | flag (b : Bool)
  /-- No value. -/
  | missing
  deriving DecidableEq, Repr

namespace Operand

def render : Operand → String
  | text s => s
  | int n => toString n
  | flag b => if b then "true" else "false"
  | missing => "<nil>"

def isText : Operand → Bool
  | text _ => true
  | _ => false

/-- The operands side by side, with a blank between two that are not texts. -/
def join : List Operand → String
  | [] => ""
  | [a] => a.render
  | a :: b :: rest => a.render ++ (if a.isText || b.isText then "" else " ") ++ join (b :: rest)

def kindName : Operand → String
  | text _ => "string"
  | int _ => "int"
  | flag _ => "bool"
  | missing => "<nil>"

/-- An operand with the name of its kind, as it is shown where it does not fit. -/
def describe : Operand → String
  | missing => "<nil>"
  | a => a.kindName ++ "=" ++ a.render

def fits (verb : Char) : Operand → Bool
  | text _ => verb = 's' || verb = 'v'
  | int _ => verb = 'd' || verb = 'v'
  | flag _ => verb = 'v' || verb = 't'
  | missing => verb = 'v'

/-- An operand in the place of a verb. -/
def atVerb (verb : Char) (a : Operand) : String :=
  if a.fits verb then a.render
  else "%!" ++ String.singleton verb ++ "(" ++ a.describe ++ ")"

/-- The operands that no verb took. -/
def leftOver : List Operand → String
  | [] => ""
  | rest => "%!(EXTRA " ++ String.intercalate ", " (rest.map describe) ++ ")"

/-- A pattern with its verbs replaced by the operands, in order. -/
def fillChars : List Char → List Operand → String
  | [], rest => leftOver rest
  | ['%'], rest => "%!(NOVERB)" ++ leftOver rest
  | '%' :: '%' :: cs, rest => "%" ++ fillChars cs rest
  | '%' :: verb :: cs, [] => "%!" ++ String.singleton verb ++ "(MISSING)" ++ fillChars cs []
  | '%' :: verb :: cs, a :: rest => a.atVerb verb ++ fillChars cs rest
  | c :: cs, rest => String.singleton c ++ fillChars cs rest

/-- A pattern with its verbs replaced by the operands, in order. -/
def fill (pattern : String) (operands : List Operand) : String :=
  fillChars pattern.toList operands

end Operand
end Text
end DefUse
