/-!
# Painted text

On a terminal, parts of a report are set off by escape sequences.

**Results.** `Paint.apply` wraps a text in the sequence of a style when painting is on, and leaves
it as it is otherwise.
-/

namespace DefUse
namespace Text

/-- A style of painted text. -/
inductive Paint where
  | bold
  | faint
  | red
  | green
  | yellow
  | cyan
  deriving DecidableEq, Repr

namespace Paint

/-- The parameter of the escape sequence of a style. -/
def code : Paint → String
  | bold => "1"
  | faint => "2"
  | red => "1;31"
  | green => "1;32"
  | yellow => "1;33"
  | cyan => "1;36"

/-- The text in the given style, if painting is on. -/
def apply (style : Paint) (on : Bool) (s : String) : String :=
  if on then "\x1b[" ++ style.code ++ "m" ++ s ++ "\x1b[0m" else s

/-- Without painting a text stays as it is. -/
@[simp] theorem apply_off
    (style : Paint) (s : String) :
    style.apply false s = s := by
  rfl

end Paint
end Text
end DefUse
