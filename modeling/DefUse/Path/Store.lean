import DefUse.Fault
import DefUse.Path.Expr

/-!
# Stores of path expressions

A store keeps expressions under numbers, so that later ones can be nested around earlier ones.  A
place may hold nothing; what is nested there is empty.

**Results.** `ExprStore.graph` lists an expression with everything nested in it.
-/

namespace DefUse

/-- Expressions by number; their labels are numbers of the store, or none for nothing. -/
abbrev ExprStore := Array (Option (Expr (Option Nat)))

namespace ExprStore

/-- What a place holds, nothing being the empty expression. -/
def read (s : ExprStore) (i : Int) : Except Fault (Expr (Option Nat)) :=
  (fetch s i).map Expr.copy

/-- The label of a place: its number, unless it holds nothing. -/
def label (s : ExprStore) (i : Int) : Except Fault (Option Nat) :=
  (fetch s i).map fun x => x.map fun _ => i.toNat

def part (s : ExprStore) : Option Nat → Expr (Option Nat)
  | none => .empty
  | some i => Expr.copy (s[i]?.getD none)

def labels (s : ExprStore) : List (Option Nat) :=
  none :: (List.range s.size).map some

/-- The expression of a place with everything nested in it. -/
def graph (s : ExprStore) (i : Nat) : List (Expr Nat) :=
  numberGraph s.labels s.part ((s[i]?.getD none).map fun _ => i)

end ExprStore

end DefUse
