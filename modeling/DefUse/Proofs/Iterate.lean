import DefUse.Fault
import DefUse.Iterate
import Mathlib.Data.List.Nodup

/-!
# Tables and growing states

The fixed points of the analyses are found by passes over a table, each of which only adds to what
the table holds.  A pass that leaves the table as it was has therefore left it as it was at every
step.

**Results.** `foldl_grows` gives for every step of a pass a state between the first and the last
one; `item?_map_positions` and `item?_store` read tables.  `HaltsAt` says that a loop ends without
a bound on its steps; a loop that keeps up with one that ends also ends (`HaltsAt.simulates`).
-/

namespace DefUse

section Tables

variable {α : Type}

theorem item?_eq_none
    {table : Array α} {i : Int}
    (h : ¬ (0 ≤ i ∧ i < table.size)) :
    item? table i = none := by
  rw [← Option.not_isSome_iff_eq_none, item?_isSome_iff]
  exact h

theorem item?_eq_some_of_mem_positions
    {table : Array α} {i : Int}
    (h : i ∈ positions table.size) :
    ∃ a, item? table i = some a ∧ a ∈ table := by
  rw [mem_positions] at h
  obtain ⟨a, ha⟩ := Option.isSome_iff_exists.mp ((item?_isSome_iff table i).mpr h)
  refine ⟨a, ha, ?_⟩
  rw [item?, if_pos h.1] at ha
  exact Array.mem_of_getElem? ha

theorem item?_map
    {β : Type} (f : α → β) (table : Array α) (i : Int) :
    item? (table.map f) i = (item? table i).map f := by
  unfold item?
  split
  · rw [Array.getElem?_map]
  · rfl

/-- A look-up in a changed table meets the same fault, or finds the changed entry. -/
theorem fetch_map
    {β : Type} (f : α → β) (table : Array α) (i : Int) :
    fetch (table.map f) i = (fetch table i).map f := by
  unfold fetch
  rw [item?_map, Array.size_map]
  cases item? table i <;> rfl

theorem item?_map_positions
    {n : Nat} {i : Int} (f : Int → α)
    (h : i ∈ positions n) :
    item? ((positions n).map f).toArray i = some (f i) := by
  rw [mem_positions] at h
  obtain ⟨k, rfl⟩ := Int.eq_ofNat_of_zero_le h.1
  have hk : k < n := by omega
  rw [item?_natCast]
  simp [positions, hk]

theorem fetch_map_positions
    {n : Nat} {i : Int} (f : Int → α)
    (h : i ∈ positions n) :
    fetch ((positions n).map f).toArray i = .ok (f i) :=
  fetch_eq_ok_iff.mpr (item?_map_positions f h)

theorem getD_item?_map_positions
    (n : Nat) (f : Int → α) (i : Int) (a : α) :
    (item? ((positions n).map f).toArray i).getD a = if i ∈ positions n then f i else a := by
  split
  · rename_i hi
    rw [item?_map_positions f hi]
    rfl
  · rename_i hi
    rw [mem_positions] at hi
    rw [item?_eq_none (by simpa [positions] using hi)]
    rfl

theorem item?_store
    (table : Array α) (i j : Int) (a : α) :
    item? (store table i a) j =
      if i = j ∧ j ∈ positions table.size then some a else item? table j := by
  by_cases hj : j ∈ positions table.size
  · obtain ⟨hj₀, hjn⟩ := mem_positions.mp hj
    simp only [item?, hj₀, if_true, hj, and_true]
    by_cases hij : i = j
    · subst hij
      rw [if_pos rfl, store, if_pos hj₀, Array.getElem?_setIfInBounds_self_of_lt (by omega)]
    · rw [if_neg hij]
      unfold store
      split
      · exact Array.getElem?_setIfInBounds_ne (by omega)
      · rfl
  · rw [if_neg (fun h => hj h.2)]
    rw [mem_positions] at hj
    rw [item?_eq_none hj, item?_eq_none (by rwa [size_store])]

/-- Tables with the same entries are equal. -/
theorem ext_item?
    {a b : Array α}
    (hsize : a.size = b.size)
    (h : ∀ i, item? a i = item? b i) :
    a = b := by
  refine Array.ext hsize fun k hk hk' => ?_
  have hget := h k
  rw [item?_natCast, item?_natCast, Array.getElem?_eq_getElem hk, Array.getElem?_eq_getElem hk']
    at hget
  exact Option.some.inj hget

/-- Storing the entry that is there changes nothing. -/
theorem store_getD_item?
    (table : Array α) (i : Int) (a : α) :
    store table i ((item? table i).getD a) = table := by
  refine ext_item? (size_store ..) fun j => ?_
  rw [item?_store]
  split
  · rename_i h
    obtain ⟨rfl, hi⟩ := h
    obtain ⟨b, hb, -⟩ := item?_eq_some_of_mem_positions hi
    rw [hb]
    rfl
  · rfl

/-- A pass that stores the value of a function at every place tabulates the function. -/
theorem foldl_store_eq
    {n : Nat} {table : Array α} {order : List Int} (f : Int → α)
    (hsize : table.size = n)
    (horder : ∀ i ∈ positions n, i ∈ order) :
    order.foldl (fun t i => store t i (f i)) table = ((positions n).map f).toArray := by
  have hpass : ∀ (order : List Int) (table : Array α),
      (order.foldl (fun t i => store t i (f i)) table).size = table.size ∧
      ∀ j, item? (order.foldl (fun t i => store t i (f i)) table) j =
        if j ∈ order ∧ j ∈ positions table.size then some (f j) else item? table j := by
    intro order
    induction order with
    | nil => simp
    | cons i rest ih =>
        intro table
        obtain ⟨hlen, hread⟩ := ih (store table i (f i))
        rw [size_store] at hlen hread
        refine ⟨hlen, fun j => ?_⟩
        rw [List.foldl_cons, hread, item?_store]
        by_cases hij : i = j
        · subst hij
          by_cases hi : i ∈ positions table.size <;> simp [hi]
        · simp [hij, Ne.symm hij]
  obtain ⟨hlen, hread⟩ := hpass order table
  refine ext_item? (by simpa [positions, hsize] using hlen) fun j => ?_
  rw [hread, hsize]
  by_cases hj : j ∈ positions n
  · rw [if_pos ⟨horder j hj, hj⟩, item?_map_positions f hj]
  · rw [if_neg fun h => hj h.2]
    rw [mem_positions] at hj
    rw [item?_eq_none (by rwa [hsize]), item?_eq_none (by simpa [positions] using hj)]

theorem positions_nodup
    (n : Nat) :
    (positions n).Nodup := by
  apply List.Nodup.map _ List.nodup_range
  intro a b h
  exact Int.ofNat.inj h

theorem lookup_map_self
    {κ β : Type} [DecidableEq κ] (f : κ → β) (k : κ) (keys : List κ) :
    (keys.map fun x => (x, f x)).lookup k = if k ∈ keys then some (f k) else none := by
  induction keys with
  | nil => rfl
  | cons x rest ih =>
      rw [List.map_cons, List.lookup_cons]
      by_cases hk : k = x
      · simp [hk]
      · have hbeq : (k == x) = false := beq_eq_false_iff_ne.mpr hk
        rw [hbeq, ih]
        simp [hk]

end Tables

/-- In a pass of steps that only add, every step is taken at a state between the first one and
the last one. -/
theorem foldl_grows
    {σ ι : Type} {step : σ → ι → σ} {P : σ → Prop} {A : ι → Prop} {Le : σ → σ → Prop}
    (hrefl : ∀ s, Le s s)
    (htrans : ∀ {a b c}, Le a b → Le b c → Le a c)
    (hP : ∀ s a, A a → P s → P (step s a))
    (hle : ∀ s a, A a → P s → Le s (step s a)) :
    ∀ (items : List ι) (s : σ), (∀ a ∈ items, A a) → P s →
      P (items.foldl step s) ∧ Le s (items.foldl step s) ∧
      ∀ a ∈ items, ∃ m, P m ∧ Le s m ∧ Le (step m a) (items.foldl step s)
  | [], s, _, hs => ⟨hs, hrefl s, fun a ha => absurd ha List.not_mem_nil⟩
  | x :: items, s, hitems, hs => by
      have hx : A x := hitems x List.mem_cons_self
      have hstep := hle s x hx hs
      obtain ⟨h₁, h₂, h₃⟩ := foldl_grows hrefl htrans hP hle items (step s x)
        (fun a ha => hitems a (List.mem_cons_of_mem x ha)) (hP s x hx hs)
      refine ⟨h₁, htrans hstep h₂, ?_⟩
      intro a ha
      rcases List.mem_cons.mp ha with rfl | ha
      · exact ⟨s, hs, hrefl s, h₂⟩
      · obtain ⟨m, hm, hsm, hlast⟩ := h₃ a ha
        exact ⟨m, hm, htrans hstep hsm, hlast⟩

section Halting

variable {σ τ : Type} {step : σ → Option σ} {s t u : σ}

/-- The steps from a state end in another one, from which there is no step. -/
structure HaltsAt (step : σ → Option σ) (s t : σ) : Prop where
  rest : step t = none
  run : ∃ bound, runSteps step bound s = t

theorem HaltsAt.of_none
    (h : step s = none) :
    HaltsAt step s s :=
  ⟨h, 0, rfl⟩

theorem HaltsAt.of_step
    (hs : step s = some t)
    (ht : HaltsAt step t u) :
    HaltsAt step s u := by
  obtain ⟨hrest, bound, hrun⟩ := ht
  refine ⟨hrest, bound + 1, ?_⟩
  rw [runSteps, hs]
  exact hrun

/-- A loop that takes a step whenever another one does, and rests when it rests, ends when it
ends. -/
theorem HaltsAt.simulates
    {step' : τ → Option τ} {R : σ → τ → Prop} {x : τ}
    (hnone : ∀ {s x}, R s x → step s = none → step' x = none)
    (hsome : ∀ {s x t}, R s x → step s = some t → ∃ y, step' x = some y ∧ R t y)
    (h : HaltsAt step s t)
    (hx : R s x) :
    ∃ y, HaltsAt step' x y ∧ R t y := by
  obtain ⟨hrest, bound, hrun⟩ := h
  induction bound generalizing s x with
  | zero =>
      obtain rfl : s = t := hrun
      exact ⟨x, .of_none (hnone hx hrest), hx⟩
  | succ bound ih =>
      cases hstep : step s with
      | none =>
          rw [runSteps, hstep] at hrun
          obtain rfl : s = t := hrun
          exact ⟨x, .of_none (hnone hx hstep), hx⟩
      | some s' =>
          rw [runSteps, hstep] at hrun
          obtain ⟨x', hx', hR⟩ := hsome hx hstep
          obtain ⟨y, hy, hRy⟩ := ih hR hrun
          exact ⟨y, .of_step hx' hy, hRy⟩

end Halting

end DefUse
