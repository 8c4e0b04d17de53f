/-!
# Sorted lists without repetition

Results that are sets are shown as lists, strictly increasing in a given order.

**Input.** A strict order as a Boolean function `less`.

**Results.** `sortDistinct` lists the members of a list once each, in increasing order;
`sortBy` sorts and keeps repetitions.
-/

namespace DefUse

section Sorting

variable {α : Type}

/-- Puts an element before the first one that is not less than it. -/
def insertBy (less : α → α → Bool) (a : α) : List α → List α
  | [] => [a]
  | b :: rest => if less b a then b :: insertBy less a rest else a :: b :: rest

def sortBy (less : α → α → Bool) : List α → List α
  | [] => []
  | a :: rest => insertBy less a (sortBy less rest)

/-- The members of a list, the first occurrence of each. -/
def distinct [DecidableEq α] : List α → List α
  | [] => []
  | a :: rest => a :: (distinct rest).filter (· ≠ a)

/-- The members of a list, once each, in increasing order. -/
def sortDistinct [DecidableEq α] (less : α → α → Bool) (xs : List α) : List α :=
  sortBy less (distinct xs)

theorem mem_insertBy
    {less : α → α → Bool} {a b : α} (xs : List α) :
    b ∈ insertBy less a xs ↔ b = a ∨ b ∈ xs := by
  induction xs with
  | nil => simp [insertBy]
  | cons c rest ih =>
      unfold insertBy
      split
      · simp only [List.mem_cons, ih]
        constructor
        · rintro (h | h | h) <;> simp [h]
        · rintro (h | h | h) <;> simp [h]
      · simp

@[simp] theorem mem_sortBy
    {less : α → α → Bool} {b : α} (xs : List α) :
    b ∈ sortBy less xs ↔ b ∈ xs := by
  induction xs with
  | nil => simp [sortBy]
  | cons a rest ih =>
      unfold sortBy
      rw [mem_insertBy, ih, List.mem_cons]

@[simp] theorem mem_distinct
    [DecidableEq α] {b : α} (xs : List α) :
    b ∈ distinct xs ↔ b ∈ xs := by
  induction xs with
  | nil => simp [distinct]
  | cons a rest ih =>
      unfold distinct
      simp only [List.mem_cons, List.mem_filter, ih, decide_eq_true_eq]
      constructor
      · rintro (h | ⟨h, _⟩)
        · exact Or.inl h
        · exact Or.inr h
      · intro h
        by_cases hb : b = a
        · exact Or.inl hb
        · rcases h with h | h
          · exact absurd h hb
          · exact Or.inr ⟨h, hb⟩

@[simp] theorem mem_sortDistinct
    [DecidableEq α] {less : α → α → Bool} {b : α} {xs : List α} :
    b ∈ sortDistinct less xs ↔ b ∈ xs := by
  simp [sortDistinct]

end Sorting

end DefUse
