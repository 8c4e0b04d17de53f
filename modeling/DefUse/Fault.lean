/-!
# Lookups that can fail

Procedures, nodes and tables are addressed by position.  An address outside a table is a fault,
which reports the position and, unless that is negative, the length of the table.

**Results.** `fetch` looks up a position or reports the fault; `fetch_eq_ok_iff` says when it
succeeds.
-/

namespace DefUse

/-- A position outside a table of the given length. -/
structure Fault where
  /-- The position asked for. -/
  index : Int
  /-- The length of the table. -/
  length : Nat
  deriving DecidableEq, Repr

namespace Fault

def message (e : Fault) : String :=
  if e.index < 0 then s!"runtime error: index out of range [{e.index}]"
  else s!"runtime error: index out of range [{e.index}] with length {e.length}"

end Fault

variable {α : Type}

/-- The entry at a position that may be negative. -/
def item? (table : Array α) (i : Int) : Option α :=
  if 0 ≤ i then table[i.toNat]? else none

/-- The entry at a position, or the fault of a position outside the table. -/
def fetch (table : Array α) (i : Int) : Except Fault α :=
  match item? table i with
  | some a => .ok a
  | none => .error ⟨i, table.size⟩

/-- The table with the entry at a position replaced; other positions leave it as it is. -/
def store (table : Array α) (i : Int) (a : α) : Array α :=
  if 0 ≤ i then table.setIfInBounds i.toNat a else table

/-- The positions of a table of the given length. -/
def positions (n : Nat) : List Int :=
  (List.range n).map Int.ofNat

/-- The positions of a table run from zero to its length. -/
@[simp] theorem mem_positions
    {n : Nat} {i : Int} :
    i ∈ positions n ↔ 0 ≤ i ∧ i < n := by
  simp only [positions, List.mem_map, List.mem_range]
  constructor
  · rintro ⟨k, hk, rfl⟩
    simp only [Int.ofNat_eq_natCast]
    omega
  · intro h
    exact ⟨i.toNat, by omega, by simp only [Int.ofNat_eq_natCast]; omega⟩

@[simp] theorem item?_natCast
    (table : Array α) (i : Nat) :
    item? table (i : Int) = table[i]? := by
  simp [item?]

/-- There is an entry exactly at the positions of the table. -/
theorem item?_isSome_iff
    (table : Array α) (i : Int) :
    (item? table i).isSome ↔ 0 ≤ i ∧ i < table.size := by
  by_cases h : 0 ≤ i
  · simp only [item?, h, if_true, true_and]
    rw [isSome_getElem?]
    omega
  · simp [item?, h]

/-- A look-up without a fault finds the entry at the position. -/
theorem fetch_eq_ok_iff
    {table : Array α} {i : Int} {a : α} :
    fetch table i = .ok a ↔ item? table i = some a := by
  unfold fetch
  split <;> simp_all

/-- A run of two parts succeeds exactly if the first part does, and the second one with its
result. -/
theorem bind_eq_ok_iff
    {ε β : Type} {x : Except ε α} {next : α → Except ε β} {b : β} :
    x >>= next = .ok b ↔ ∃ a, x = .ok a ∧ next a = .ok b := by
  cases x <;> simp [bind, Except.bind]

/-- Storing an entry never changes the length of a table. -/
@[simp] theorem size_store
    (table : Array α) (i : Int) (a : α) :
    (store table i a).size = table.size := by
  unfold store
  split <;> simp

end DefUse
