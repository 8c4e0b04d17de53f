import DefUse.Sorted
import Mathlib.Data.List.Nodup
import Mathlib.Data.List.Perm.Basic
import Mathlib.Order.Lattice

/-!
# Sorting keeps the members of a list

**Results.** `sortBy_perm`: a sorted list has the members of the list, each as often.
`distinct_nodup`: nothing is listed twice.
`sortBy_pairwise`: a list without repeated keys is sorted strictly.
`filter_sortBy`: what remains of a list without repeated keys is sorted as if it had been alone.
-/

namespace DefUse

variable {α : Type} {less : α → α → Bool}

theorem insertBy_perm
    (a : α) (xs : List α) :
    List.Perm (insertBy less a xs) (a :: xs) := by
  induction xs with
  | nil => exact List.Perm.refl [a]
  | cons b rest ih =>
      unfold insertBy
      split
      · exact (ih.cons b).trans (List.Perm.swap a b rest)
      · exact List.Perm.refl _

theorem sortBy_perm
    (xs : List α) :
    List.Perm (sortBy less xs) xs := by
  induction xs with
  | nil => exact List.Perm.nil
  | cons a rest ih => exact (insertBy_perm a _).trans (ih.cons a)

section Keys

variable {κ : Type} [LinearOrder κ] {key : α → κ}

theorem insertBy_pairwise
    (hless : ∀ a b, less a b = true ↔ key a < key b)
    {a : α} {xs : List α}
    (hnew : key a ∉ xs.map key)
    (hsorted : xs.Pairwise fun a b => less a b = true) :
    (insertBy less a xs).Pairwise fun a b => less a b = true := by
  induction xs with
  | nil => exact List.pairwise_singleton _ a
  | cons b rest ih =>
      rw [List.map_cons, List.mem_cons, not_or] at hnew
      obtain ⟨hbelow, hrest⟩ := List.pairwise_cons.mp hsorted
      unfold insertBy
      split
      · rename_i hba
        refine List.pairwise_cons.mpr ⟨?_, ih hnew.2 hrest⟩
        intro c hc
        rcases (mem_insertBy rest).mp hc with rfl | hc
        · exact hba
        · exact hbelow c hc
      · rename_i hba
        have hab : key a < key b := by
          rw [hless] at hba
          exact lt_of_le_of_ne (not_lt.mp hba) hnew.1
        refine List.pairwise_cons.mpr ⟨?_, hsorted⟩
        intro c hc
        rw [hless]
        rcases List.mem_cons.mp hc with rfl | hc
        · exact hab
        · exact lt_trans hab ((hless b c).mp (hbelow c hc))

/-- A comparison of keys sorts a list without repeated keys strictly. -/
theorem sortBy_pairwise
    (hless : ∀ a b, less a b = true ↔ key a < key b)
    {xs : List α}
    (hkeys : (xs.map key).Nodup) :
    (sortBy less xs).Pairwise fun a b => less a b = true := by
  induction xs with
  | nil => exact List.Pairwise.nil
  | cons a rest ih =>
      rw [List.map_cons, List.nodup_cons] at hkeys
      refine insertBy_pairwise hless ?_ (ih hkeys.2)
      rw [List.mem_map]
      simpa using hkeys.1

/-- Strictly sorted lists with the same members are equal. -/
theorem eq_of_perm_of_pairwise
    (hless : ∀ a b, less a b = true ↔ key a < key b)
    {xs ys : List α}
    (hperm : xs.Perm ys)
    (hxs : xs.Pairwise fun a b => less a b = true)
    (hys : ys.Pairwise fun a b => less a b = true) :
    xs = ys := by
  refine hperm.eq_of_pairwise ?_ hxs hys
  intro a b _ _ hab hba
  exact absurd ((hless b a).mp hba) (lt_asymm ((hless a b).mp hab))

theorem filter_sortBy
    (hless : ∀ a b, less a b = true ↔ key a < key b)
    {xs : List α}
    (hkeys : (xs.map key).Nodup)
    (keep : α → Bool) :
    (sortBy less xs).filter keep = sortBy less (xs.filter keep) := by
  refine eq_of_perm_of_pairwise hless ?_ ((sortBy_pairwise hless hkeys).filter keep) ?_
  · exact ((sortBy_perm xs).filter keep).trans (sortBy_perm _).symm
  · exact sortBy_pairwise hless (hkeys.sublist (List.filter_sublist.map key))

end Keys

variable [DecidableEq α]

theorem distinct_nodup
    (xs : List α) :
    (distinct xs).Nodup := by
  induction xs with
  | nil => exact List.nodup_nil
  | cons a rest ih =>
      unfold distinct
      refine List.nodup_cons.mpr ⟨?_, ih.filter _⟩
      simp

theorem sortDistinct_nodup
    (xs : List α) :
    (sortDistinct less xs).Nodup :=
  (sortBy_perm (distinct xs)).nodup_iff.mpr (distinct_nodup xs)

section Ordered

variable {κ : Type} [LinearOrder κ] {key : α → κ}

theorem sortDistinct_pairwise
    (hless : ∀ a b, less a b = true ↔ key a < key b)
    (hkey : Function.Injective key)
    (xs : List α) :
    (sortDistinct less xs).Pairwise fun a b => less a b = true :=
  sortBy_pairwise hless ((distinct_nodup xs).map hkey)

/-- A strictly sorted list is determined by its members. -/
theorem sortDistinct_eq
    (hless : ∀ a b, less a b = true ↔ key a < key b)
    (hkey : Function.Injective key)
    {xs ys : List α}
    (hys : ys.Pairwise fun a b => less a b = true)
    (hmem : ∀ a, a ∈ xs ↔ a ∈ ys) :
    sortDistinct less xs = ys := by
  have hirrefl : ∀ {a b : α}, less a b = true → a ≠ b := by
    rintro a _ h rfl
    exact lt_irrefl _ ((hless a a).mp h)
  have hperm : (sortDistinct less xs).Perm ys := by
    rw [List.perm_ext_iff_of_nodup (sortDistinct_nodup xs) (hys.imp hirrefl)]
    intro a
    rw [mem_sortDistinct, hmem]
  exact eq_of_perm_of_pairwise hless hperm (sortDistinct_pairwise hless hkey xs) hys

end Ordered

end DefUse
