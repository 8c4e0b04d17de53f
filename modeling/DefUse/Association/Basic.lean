import DefUse.Program.Point

/-!
# Definition-use associations

An association joins a definition and a use of a variable that some execution may take the value
between.  It is inferrable if covering the definition and the use tells that the association was
covered, possibly on condition that no kill was.

**Results.** `Association.classification` grades associations; `Association.render` is their text.
-/

namespace DefUse

/-- How far the coverage of an association follows from that of its ends. -/
inductive Classification where
  /-- It does not follow. -/
  | nonInferrable
  /-- It follows if no possible kill was covered. -/
  | conditional
  /-- It follows. -/
  | definite
  deriving DecidableEq, Repr

namespace Classification

def render : Classification → String
  | nonInferrable => "non-inferrable"
  | conditional => "conditionally-inferrable"
  | definite => "definitely-inferrable"

/-- The grade with a code; every unknown code is the lowest one. -/
def ofCode (code : Int) : Classification :=
  if code = 2 then definite else if code = 1 then conditional else nonInferrable

end Classification

/-- A definition, a use that it may reach, and what is known about the way between them. -/
structure Association where
  /-- Where the value is written. -/
  definition : Def
  /-- Where the value is read. -/
  use : Use
  /-- The uses in the procedure of the definition through which the use is reached. -/
  localUses : List Use := []
  /-- The coverage of the ends tells that of the association, unless a possible kill was covered. -/
  inferrable : Bool := false
  /-- The definitions that execute between the ends whenever they execute. -/
  hardKills : List Def := []
  /-- The other definitions that may execute between the ends. -/
  possibleKills : List Def := []
  /-- The variable lives on the heap. -/
  heap : Bool := false
  /-- Some way into or out of a loop is not accounted for. -/
  pathWarning : Bool := false
  deriving DecidableEq, Repr

namespace Association

def classification (a : Association) : Classification :=
  if !a.inferrable then .nonInferrable
  else if a.possibleKills.isEmpty then .definite
  else .conditional

/-- The ends lie in different procedures. -/
def isInterprocedural (a : Association) : Bool :=
  a.definition.site.proc ≠ a.use.site.proc

/-- Associations in order of definition, then of use. -/
def less (a b : Association) : Bool :=
  if a.definition ≠ b.definition then a.definition.less b.definition
  else a.use.less b.use

/-- Texts between brackets, with blanks between them. -/
def bracketed (items : List String) : String :=
  "[" ++ String.intercalate " " items ++ "]"

def render (a : Association) : String :=
  a.definition.render ++ " -> " ++ a.use.render ++ " [" ++ a.classification.render ++ "]" ++
    (if a.hardKills.isEmpty then ""
      else " hard kills: " ++ bracketed (a.hardKills.map Def.render)) ++
    (if a.possibleKills.isEmpty then ""
      else " possible kills: " ++ bracketed (a.possibleKills.map Def.render))

end Association

/-- A contradiction in the books of the analysis. -/
inductive Violation where
  /-- Two associations have the same ends. -/
  | duplicate (a : Association)
  /-- A use is reached through no local use. -/
  | noLocalUse (d : Def) (u : Use)
  /-- A use is reached through a use of another procedure. -/
  | foreignLocalUse (d : Def) (u w : Use)
  /-- A use of another procedure is reached without passing an argument. -/
  | noArgumentLink (d : Def) (u : Use)
  /-- Nothing is known of what a kill reaches. -/
  | unknownKill (k d : Def)
  deriving DecidableEq, Repr

namespace Violation

def detail : Violation → String
  | duplicate a => "duplicate DUA " ++ a.render
  | noLocalUse d u => d.render ++ " reaches " ++ u.render ++ " without local use"
  | foreignLocalUse d u w =>
    d.render ++ " reaches " ++ u.render ++ " through a use in another procedure " ++ w.render
  | noArgumentLink d u =>
    d.render ++ " reaches " ++ u.render ++ " in another procedure without an argument link"
  | unknownKill k d =>
    "kill candidate " ++ k.render ++ " of " ++ d.render ++ " has no reaching uses"

def message (e : Violation) : String := "internal invariant violated: " ++ e.detail

end Violation

end DefUse
