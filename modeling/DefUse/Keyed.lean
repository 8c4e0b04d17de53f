import DefUse.Sorted

/-!
# Lists of keys with values

Small finite maps are lists of keys with their values, at most one for a key.  A set is such a
list with truth values: its members are the keys whose value is true.

**Results.** `Keyed.unite` adds the members of a set to another and tells whether it grew;
`Keyed.mergeWith` adds the entries of a list, joining the values of common keys by a given function;
`Keyed.sortedMembers` and `Keyed.sortedKeys` list members and keys in a given order.
-/

namespace DefUse
namespace Keyed

section Maps

variable {κ β : Type} [DecidableEq κ]

/-- The list with the value of a key replaced or added. -/
def put (xs : List (κ × β)) (k : κ) (v : β) : List (κ × β) :=
  if (xs.lookup k).isSome then xs.map fun x => if x.1 = k then (k, v) else x
  else xs ++ [(k, v)]

/-- Adds the entries of the second list, joining the values of common keys. -/
def mergeWith (both : β → β → β) (xs ys : List (κ × β)) : List (κ × β) :=
  ys.foldl
    (fun acc (k, y) =>
      match acc.lookup k with
      | some x => put acc k (both x y)
      | none => put acc k y)
    xs

def members (xs : List (κ × Bool)) : List κ := (xs.filter Prod.snd).map Prod.fst

/-- Adds the members of the second set to the first, and tells whether that had to change. -/
def unite (xs ys : List (κ × Bool)) : Bool × List (κ × Bool) :=
  (members ys).foldl
    (fun (changed, acc) k =>
      if acc.lookup k = some true then (changed, acc) else (true, put acc k true))
    (false, xs)

def sortedMembers (less : κ → κ → Bool) (xs : List (κ × Bool)) : List κ :=
  sortDistinct less (members xs)

def sortedKeys (less : κ → κ → Bool) (xs : List (κ × β)) : List κ :=
  sortDistinct less (xs.map Prod.fst)

end Maps

end Keyed
end DefUse
