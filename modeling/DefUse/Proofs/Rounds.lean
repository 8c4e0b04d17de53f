import DefUse.Proofs.Iterate
import Mathlib.Data.Finset.Prod

/-!
# Tables that are filled by rounds

The values of a table are known by the items that they hold, and equations give the value of each
place from the table.  Rounds of visits store these values, in some order, until nothing changes.

**Method.** A table that arises lies below what the equations make of it, so a visit only adds
items.  There are finitely many of them, so the rounds come to rest.

**Results.** `Lawful.round_solve`: the table found is a fixed point of the rounds;
`Lawful.test_of_transfer`: it satisfies the equations; `test_sound`: what it holds is in every
relation that the equations are sound for.  So it is the least solution, whatever the order.
-/

namespace DefUse

/-- Equations for the values of a table, which hold items. -/
structure TableEquations (β ι : Type) where
  /-- The value of every place at the start, and of a place outside the table. -/
  zero : β
  /-- The value holds an item. -/
  test : β → ι → Bool
  /-- The value of a place, given the table. -/
  transfer : Array β → Int → β

namespace TableEquations

variable {β ι : Type}

def valueAt (E : TableEquations β ι) (t : Array β) (v : Int) : β := (item? t v).getD E.zero

def round (E : TableEquations β ι) (order : List Int) (t : Array β) : Array β :=
  order.foldl (fun t v => store t v (E.transfer t v)) t

/-- The table found by rounds of visits in the given order. -/
def solve [DecidableEq β] (E : TableEquations β ι) (n bound : Nat) (order : List Int) : Array β :=
  stabilize (E.round order) bound (Array.replicate n E.zero)

/-- One table holds every item that another one holds, in the same places. -/
def Below (E : TableEquations β ι) (t t' : Array β) : Prop :=
  ∀ v i, E.test (E.valueAt t v) i = true → E.test (E.valueAt t' v) i = true

/-- The values are determined by their items, of which there are finitely many, and more items give
more items. -/
structure Lawful (E : TableEquations β ι) (P : β → Prop) (items : Finset ι) : Prop where
  zero : P E.zero
  test_zero : ∀ i, E.test E.zero i = false
  mem_items : ∀ b i, P b → E.test b i = true → i ∈ items
  ext : ∀ a b, P a → P b → (∀ i, E.test a i = E.test b i) → a = b
  transfer : ∀ t v, (∀ b ∈ t, P b) → P (E.transfer t v)
  mono : ∀ t t' v i, E.Below t t' → E.test (E.transfer t v) i = true →
    E.test (E.transfer t' v) i = true

/-- A table that the rounds produce: it lies below what the equations make of it. -/
structure Rising (E : TableEquations β ι) (P : β → Prop) (n : Nat) (t : Array β) : Prop where
  size : t.size = n
  values : ∀ b ∈ t, P b
  rises : ∀ v i, E.test (E.valueAt t v) i = true → E.test (E.transfer t v) i = true

variable {E : TableEquations β ι} {P : β → Prop} {items : Finset ι} {n : Nat} {t t' : Array β}
  {v : Int} {i : ι} {order : List Int}

section Values

theorem valueAt_store
    (b : β) (w : Int) :
    E.valueAt (store t v b) w = if v = w ∧ w ∈ positions t.size then b else E.valueAt t w := by
  unfold valueAt
  rw [item?_store]
  split <;> simp

theorem valueAt_replicate
    (n : Nat) (v : Int) :
    E.valueAt (Array.replicate n E.zero) v = E.zero := by
  unfold valueAt
  by_cases hv : v ∈ positions (Array.replicate n E.zero).size
  · obtain ⟨b, hb, hmem⟩ := item?_eq_some_of_mem_positions hv
    rw [hb, (Array.mem_replicate.mp hmem).2]
    rfl
  · rw [mem_positions] at hv
    rw [item?_eq_none hv]
    rfl

theorem forall_mem_store
    {b : β}
    (ht : ∀ a ∈ t, P a)
    (hb : P b) :
    ∀ a ∈ store t v b, P a := by
  intro a ha
  unfold store at ha
  split at ha
  · rcases Array.mem_or_eq_of_mem_setIfInBounds ha with ha | rfl
    · exact ht a ha
    · exact hb
  · exact ht a ha

end Values

section Sound

variable {S : Int → ι → Prop}

/-- All items of a table are in a relation. -/
def Within (E : TableEquations β ι) (S : Int → ι → Prop) (t : Array β) : Prop :=
  ∀ v i, E.test (E.valueAt t v) i = true → S v i

theorem within_round
    (hS : ∀ t v i, E.Within S t → E.test (E.transfer t v) i = true → S v i)
    (order : List Int)
    (ht : E.Within S t) :
    E.Within S (E.round order t) := by
  refine List.foldlRecOn (motive := E.Within S) _ _ ht ?_
  intro t ht v _ w i hi
  rw [valueAt_store] at hi
  split at hi
  · rename_i h
    rw [← h.1]
    exact hS t v i ht hi
  · exact ht w i hi

/-- What is found is in every relation that the equations are sound for. -/
theorem test_sound
    [DecidableEq β]
    (hzero : ∀ i, E.test E.zero i = false)
    (hS : ∀ t v i, E.Within S t → E.test (E.transfer t v) i = true → S v i)
    (n bound : Nat) (order : List Int) :
    E.Within S (E.solve n bound order) := by
  refine stabilize_invariant (P := E.Within S) (fun t ht => within_round hS order ht) _ _ ?_
  intro v i hi
  rw [valueAt_replicate, hzero] at hi
  exact absurd hi Bool.false_ne_true

end Sound

namespace Lawful

theorem rising_start
    (hE : E.Lawful P items)
    (n : Nat) :
    E.Rising P n (Array.replicate n E.zero) := by
  refine ⟨Array.size_replicate, ?_, ?_⟩
  · intro b hb
    rw [(Array.mem_replicate.mp hb).2]
    exact hE.zero
  · intro v i hi
    rw [valueAt_replicate, hE.test_zero] at hi
    exact absurd hi Bool.false_ne_true

theorem below_visit
    (v : Int)
    (ht : E.Rising P n t) :
    E.Below t (store t v (E.transfer t v)) := by
  intro w i hi
  rw [valueAt_store]
  split
  · rename_i h
    rw [h.1]
    exact ht.rises w i hi
  · exact hi

theorem rising_visit
    (hE : E.Lawful P items)
    (v : Int)
    (ht : E.Rising P n t) :
    E.Rising P n (store t v (E.transfer t v)) := by
  have hbelow := below_visit v ht
  refine ⟨?_, forall_mem_store ht.values (hE.transfer t v ht.values), ?_⟩
  · rw [size_store]
    exact ht.size
  · intro w i hi
    apply hE.mono t _ w i hbelow
    rw [valueAt_store] at hi
    split at hi
    · rename_i h
      rw [← h.1]
      exact hi
    · exact ht.rises w i hi

/-- A round, seen as a pass of visits that only add. -/
theorem round_grows
    (hE : E.Lawful P items)
    (order : List Int)
    (ht : E.Rising P n t) :
    E.Rising P n (E.round order t) ∧ E.Below t (E.round order t) ∧
    ∀ v ∈ order, ∃ m, E.Rising P n m ∧ E.Below t m ∧
      E.Below (store m v (E.transfer m v)) (E.round order t) :=
  foldl_grows (A := fun _ => True)
    (fun _ _ _ hi => hi)
    (fun h₁ h₂ v i hi => h₂ v i (h₁ v i hi))
    (fun _ v _ hs => hE.rising_visit v hs)
    (fun _ v _ hs => below_visit v hs)
    order t (fun _ _ => trivial) ht

/-- The places of a table with the items that they do not hold. -/
def free (E : TableEquations β ι) (items : Finset ι) (n : Nat) (t : Array β) :
    Finset (Nat × ι) :=
  (Finset.range n ×ˢ items).filter fun x => E.test (E.valueAt t (x.1 : Int)) x.2 = false

theorem card_free_le
    (E : TableEquations β ι) (items : Finset ι) (n : Nat) (t : Array β) :
    (free E items n t).card ≤ n * items.card := by
  calc (free E items n t).card
      ≤ (Finset.range n ×ˢ items).card := Finset.card_filter_le _ _
    _ = n * items.card := by rw [Finset.card_product, Finset.card_range]

theorem exists_new_of_ne
    (hE : E.Lawful P items)
    (ht : E.Rising P n t)
    (ht' : E.Rising P n t')
    (hbelow : E.Below t t')
    (hne : t' ≠ t) :
    ∃ k i, k < n ∧ i ∈ items ∧
      E.test (E.valueAt t (k : Int)) i = false ∧ E.test (E.valueAt t' (k : Int)) i = true := by
  by_contra hnone
  apply hne
  apply Array.ext
  · rw [ht.size, ht'.size]
  · intro k hk' hk
    have hget : E.valueAt t (k : Int) = t[k] := by simp [valueAt, hk]
    have hget' : E.valueAt t' (k : Int) = t'[k] := by simp [valueAt, hk']
    have hP := ht.values _ (Array.getElem_mem hk)
    have hP' := ht'.values _ (Array.getElem_mem hk')
    apply hE.ext _ _ hP' hP
    intro i
    cases h : E.test t[k] i with
    | true =>
        rw [← hget']
        exact hbelow k i (by rw [hget]; exact h)
    | false =>
        cases h' : E.test t'[k] i with
        | false => rfl
        | true =>
            exact absurd
              ⟨k, i, by rw [← ht.size]; exact hk, hE.mem_items _ i hP' h', by rw [hget]; exact h,
                by rw [hget']; exact h'⟩
              hnone

theorem free_round_lt
    (hE : E.Lawful P items)
    (ht : E.Rising P n t)
    (hne : E.round order t ≠ t) :
    (free E items n (E.round order t)).card < (free E items n t).card := by
  obtain ⟨ht', hbelow, _⟩ := hE.round_grows order ht
  obtain ⟨k, i, hk, hi, hold, hnew⟩ := hE.exists_new_of_ne ht ht' hbelow hne
  apply Finset.card_lt_card
  rw [Finset.ssubset_iff_of_subset]
  · -- the item that the round added was free before it
    refine ⟨(k, i), ?_, ?_⟩
    · simp [free, hk, hi, hold]
    · simp [free, hnew]
  · intro x hx
    simp only [free, Finset.mem_filter] at hx ⊢
    refine ⟨hx.1, ?_⟩
    cases h : E.test (E.valueAt t (x.1 : Int)) x.2 with
    | false => rfl
    | true =>
        rw [hbelow _ _ h] at hx
        exact absurd hx.2.symm Bool.false_ne_true

/-- The equations hold in a table that a round leaves as it is. -/
theorem test_of_round_eq
    (hE : E.Lawful P items)
    (ht : E.Rising P n t)
    (hfixed : E.round order t = t)
    (hv : v ∈ positions n)
    (horder : v ∈ order)
    (hi : E.test (E.transfer t v) i = true) :
    E.test (E.valueAt t v) i = true := by
  obtain ⟨_, _, hvisits⟩ := hE.round_grows order ht
  obtain ⟨m, hm, hbelow, hlast⟩ := hvisits v horder
  -- the visit stores what the equations give, and no later one takes it away
  rw [hfixed] at hlast
  apply hlast v i
  rw [valueAt_store, if_pos ⟨rfl, by rw [hm.size]; exact hv⟩]
  exact hE.mono _ _ v i hbelow hi

theorem eq_of_below
    (hE : E.Lawful P items)
    (ht : E.Rising P n t)
    (ht' : E.Rising P n t')
    (h : E.Below t t')
    (h' : E.Below t' t) :
    t' = t := by
  by_contra hne
  obtain ⟨k, i, -, -, hold, hnew⟩ := hE.exists_new_of_ne ht ht' h hne
  exact Bool.false_ne_true (hold.symm.trans (h' k i hnew))

section Solution

variable [DecidableEq β] {bound : Nat}

theorem rising_solve
    (hE : E.Lawful P items)
    (n bound : Nat) (order : List Int) :
    E.Rising P n (E.solve n bound order) :=
  stabilize_invariant (P := E.Rising P n) (fun _ ht => (hE.round_grows order ht).1) _ _
    (hE.rising_start n)

/-- The rounds come to rest if there are enough of them for every item of every place. -/
theorem round_solve
    (hE : E.Lawful P items)
    (hbound : n * items.card < bound)
    (order : List Int) :
    E.round order (E.solve n bound order) = E.solve n bound order := by
  have hfixed := @stabilize_fixed _ _ (E.round order) (E.Rising P n)
    (fun t => (free E items n t).card)
    (fun _ ht => (hE.round_grows order ht).1) (fun _ ht hne => hE.free_round_lt ht hne)
  apply hfixed _ _ (hE.rising_start n)
  exact Nat.lt_of_le_of_lt (card_free_le E items n _) hbound

/-- The equations hold in the table found. -/
theorem test_of_transfer
    (hE : E.Lawful P items)
    (hbound : n * items.card < bound)
    (hv : v ∈ positions n)
    (horder : v ∈ order)
    (hi : E.test (E.transfer (E.solve n bound order) v) i = true) :
    E.test (E.valueAt (E.solve n bound order) v) i = true :=
  hE.test_of_round_eq (hE.rising_solve n bound order) (hE.round_solve hbound order) hv horder hi

end Solution

end Lawful
end TableEquations
end DefUse
