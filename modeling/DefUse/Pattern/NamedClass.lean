import DefUse.Pattern.Basic
import DefUse.Text.Script

/-!
# Classes of characters with names

Categories and scripts are known by their names, the categories by longer names too.  Case,
underscores, dashes and blanks do not count in names.

**Results.** `ClassItem.named?` gives the class with a name.
-/

namespace DefUse
namespace ClassItem

def plainName (name : List Char) : List Char :=
  (name.filter fun c => !(['_', '-', ' '].contains c)).map Char.toLower

/-- The longer names of categories and of their classes. -/
def categoryAliases : List (String × String) := [
  ("Other", "C"), ("Control", "Cc"), ("cntrl", "Cc"), ("Format", "Cf"), ("Unassigned", "Cn"),
  ("Private_Use", "Co"), ("Surrogate", "Cs"), ("Letter", "L"), ("Cased_Letter", "LC"),
  ("Lowercase_Letter", "Ll"), ("Modifier_Letter", "Lm"), ("Other_Letter", "Lo"),
  ("Titlecase_Letter", "Lt"), ("Uppercase_Letter", "Lu"), ("Mark", "M"), ("Combining_Mark", "M"),
  ("Spacing_Mark", "Mc"), ("Enclosing_Mark", "Me"), ("Nonspacing_Mark", "Mn"), ("Number", "N"),
  ("Decimal_Number", "Nd"), ("digit", "Nd"), ("Letter_Number", "Nl"), ("Other_Number", "No"),
  ("Punctuation", "P"), ("punct", "P"), ("Connector_Punctuation", "Pc"),
  ("Dash_Punctuation", "Pd"), ("Close_Punctuation", "Pe"), ("Final_Punctuation", "Pf"),
  ("Initial_Punctuation", "Pi"), ("Other_Punctuation", "Po"), ("Open_Punctuation", "Ps"),
  ("Symbol", "S"), ("Currency_Symbol", "Sc"), ("Modifier_Symbol", "Sk"), ("Math_Symbol", "Sm"),
  ("Other_Symbol", "So"), ("Separator", "Z"), ("Line_Separator", "Zl"),
  ("Paragraph_Separator", "Zp"), ("Space_Separator", "Zs")]

/-- Ranges in the order of their starts, with those joined that meet. -/
def joined (ranges : Ranges) : Ranges :=
  ((ranges.mergeSort fun a b => a.1 ≤ b.1).foldl add []).reverse
where
  /-- Adds a range to ranges in reverse order that start before it. -/
  add : Ranges → Nat × Nat → Ranges
    | (lo, hi) :: before, (lo', hi') =>
      if lo' ≤ hi + 1 then (lo, max hi hi') :: before else (lo', hi') :: (lo, hi) :: before
    | [], range => [range]

/-- The ranges of some categories or classes of categories. -/
def rangesOf (names : List String) : Ranges := joined (names.flatMap Text.categoryRanges)

/-- The ranges of all characters that have a category. -/
def assigned : Ranges := joined (Text.categoryTable.flatMap Prod.snd)

/-- The classes that are no single category: all characters, those with a category and those
without one, those below `0x80`, the letters that have a case, and all that is neither letter, mark,
number, punctuation, symbol nor separator. -/
def composed : List (String × ClassItem) := [
  ("Any", ⟨false, [(0, 0x10ffff)]⟩), ("Assigned", ⟨false, assigned⟩), ("Cn", ⟨true, assigned⟩),
  ("ASCII", ⟨false, [(0, 0x7f)]⟩), ("LC", ⟨false, rangesOf ["Ll", "Lt", "Lu"]⟩),
  ("C", ⟨true, rangesOf ["L", "M", "N", "P", "S", "Z"]⟩)]

/-- The classes of categories that have a name of one letter, except the one that has characters
without a category. -/
def letterClasses : List (String × Ranges) :=
  ["L", "M", "N", "P", "S", "Z"].map fun name => (name, rangesOf [name])

/-- The value under the name that is equal to a plain one. -/
def lookupPlain {α : Type} (name : List Char) (table : List (String × α)) : Option α :=
  (table.find? fun (other, _) => plainName other.toList = name).map Prod.snd

/-- The category, or the class of categories, with a plain name. -/
def category? (name : List Char) : Option ClassItem :=
  match lookupPlain name composed with
  | some item => some item
  | none =>
    match lookupPlain name letterClasses with
    | some ranges => some ⟨false, ranges⟩
    | none => (lookupPlain name Text.categoryTable).map fun ranges => ⟨false, ranges⟩

/-- The class with a name: a category, a script, or a category by its longer name. -/
def named? (name : List Char) : Option ClassItem :=
  let name := plainName name
  match category? name with
  | some item => some item
  | none =>
    match lookupPlain name Text.scriptTable with
    | some ranges => some ⟨false, ranges⟩
    | none =>
      (lookupPlain name categoryAliases).bind fun short => category? (plainName short.toList)

end ClassItem
end DefUse
