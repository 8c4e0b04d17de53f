import DefUse.Keyed
import DefUse.Proofs.Association.Run
import DefUse.Proofs.Sorted
import Mathlib.Data.Finset.Basic
import Mathlib.Order.RelIso.Basic

/-!
# Sorted results are canonical

The members of a set and the keys of a map may be listed in any order, and a procedure that sorts
need not keep the order of members neither of which precedes the other.  A result that is sorted
depends on neither of the two if the comparison is a strict total order.

**Method.** Values are compared as their keys, which determine them and are ordered by the standard
library.  Two lists with the same members that are both strictly increasing are equal, so that a set
has one listing, and every procedure that sorts arrives there from every enumeration of the set.

**Results.**
* `isSort_sortBy`: sorting by insertion keeps what is asked of a procedure that sorts.
* `isStrictTotalOrder_of_key`: comparing keys that determine the values is a strict total order.
* `exists_isCanonical`: every finite set has one listing, whatever it is sorted from and by.
* `sortedOutput_canonical`: sorted definitions, uses and associations are canonical.
-/

namespace DefUse

section Procedures

/-- A procedure that sorts by any comparison keeps the members of a list, each as often.  It
promises an order for strict weak orders only: no member comes behind one that it precedes.
Members neither of which precedes the other may change places. -/
structure IsSort (sort : {κ : Type} → (κ → κ → Bool) → List κ → List κ) : Prop where
  perm : ∀ {κ : Type} (less : κ → κ → Bool) (xs : List κ), (sort less xs).Perm xs
  ordered : ∀ {κ : Type} (less : κ → κ → Bool) (xs : List κ),
    IsStrictWeakOrder κ (fun a b => less a b = true) →
      (sort less xs).Pairwise fun a b => less b a = false

variable {κ : Type} {less : κ → κ → Bool}

/-- What does not precede a value does not precede anything that the value does not precede. -/
theorem not_less_trans
    (hless : IsStrictWeakOrder κ fun a b => less a b = true)
    {a b c : κ}
    (hba : less b a = false)
    (hcb : less c b = false) :
    less c a = false := by
  rw [Bool.eq_false_iff] at hba hcb ⊢
  intro hca
  by_cases hab : less a b = true
  · exact hcb (hless.trans c a b hca hab)
  · by_cases hbc : less b c = true
    · exact hba (hless.trans b c a hbc hca)
    · exact (hless.incomp_trans a b c ⟨hab, hba⟩ ⟨hbc, hcb⟩).2 hca

theorem insertBy_ordered
    (hless : IsStrictWeakOrder κ fun a b => less a b = true)
    (a : κ) {xs : List κ}
    (hxs : xs.Pairwise fun a b => less b a = false) :
    (insertBy less a xs).Pairwise fun a b => less b a = false := by
  induction xs with
  | nil => exact List.pairwise_singleton _ a
  | cons b rest ih =>
      obtain ⟨hbelow, hrest⟩ := List.pairwise_cons.mp hxs
      unfold insertBy
      split
      · rename_i hba
        have hab : less a b = false := by
          rw [Bool.eq_false_iff]
          exact fun hab => hless.irrefl a (hless.trans a b a hab hba)
        refine List.pairwise_cons.mpr ⟨fun c hc => ?_, ih hrest⟩
        rcases (mem_insertBy rest).mp hc with rfl | hc
        · exact hab
        · exact hbelow c hc
      · rename_i hba
        have hba : less b a = false := Bool.eq_false_iff.mpr hba
        refine List.pairwise_cons.mpr ⟨fun c hc => ?_, hxs⟩
        rcases List.mem_cons.mp hc with rfl | hc
        · exact hba
        · exact not_less_trans hless hba (hbelow c hc)

/-- Sorting by insertion is a procedure that sorts. -/
theorem isSort_sortBy :
    IsSort sortBy where
  perm _ xs := sortBy_perm xs
  ordered less xs hless := by
    induction xs with
    | nil => exact List.Pairwise.nil
    | cons a rest ih => exact insertBy_ordered hless a ih

end Procedures

section Orders

variable {α κ : Type} [LinearOrder κ] {less : α → α → Bool} {key : α → κ}

/-- A comparison of keys that determine the values is a strict total order. -/
theorem isStrictTotalOrder_of_key
    (hless : ∀ a b, less a b = true ↔ key a < key b)
    (hkey : Function.Injective key) :
    IsStrictTotalOrder α fun a b => less a b = true :=
  let embedding : (fun a b => less a b = true) ↪r ((· < ·) : κ → κ → Prop) :=
    ⟨⟨key, hkey⟩, fun {a b} => (hless a b).symm⟩
  embedding.isStrictTotalOrder

/-- A comparison of keys is a strict weak order. -/
theorem isStrictWeakOrder_of_key
    (hless : ∀ a b, less a b = true ↔ key a < key b) :
    IsStrictWeakOrder α fun a b => less a b = true := by
  have hpreimage : (fun a b => less a b = true) = Order.Preimage key (· < ·) := by
    funext a b
    exact propext (hless a b)
  have hkeys : IsStrictWeakOrder κ (· < ·) := isStrictWeakOrder_of_isOrderConnected
  rw [hpreimage]
  infer_instance

end Orders

section Listings

variable {κ : Type}

/-- The list shows the members of a set, in strictly increasing order. -/
structure IsListing (less : κ → κ → Bool) (s : Finset κ) (ys : List κ) : Prop where
  mem_iff : ∀ a, a ∈ ys ↔ a ∈ s
  increasing : ys.Pairwise fun a b => less a b = true

/-- The entries of a map with truth values, in some order, whose true keys are the members of a
set. -/
structure EnumeratesSet (s : Finset κ) (entries : List (κ × Bool)) : Prop where
  keys : (entries.map Prod.fst).Nodup
  mem_iff : ∀ a, (a, true) ∈ entries ↔ a ∈ s

/-- The entries of a map, in some order, whose keys are the members of a set. -/
structure EnumeratesKeys {β : Type} (s : Finset κ) (entries : List (κ × β)) : Prop where
  keys : (entries.map Prod.fst).Nodup
  mem_iff : ∀ a, a ∈ entries.map Prod.fst ↔ a ∈ s

/-- The list is the only listing of a set.  It is what remains of every enumeration of the set, with
or without repetition, when it has been sorted. -/
structure IsCanonical [DecidableEq κ] (sort : {κ : Type} → (κ → κ → Bool) → List κ → List κ)
    (less : κ → κ → Bool) (s : Finset κ) (ys : List κ) : Prop where
  listing : IsListing less s ys
  unique : ∀ zs, IsListing less s zs → zs = ys
  ofSet : ∀ entries, EnumeratesSet s entries → sort less (Keyed.members entries) = ys
  ofKeys : ∀ {β : Type} (entries : List (κ × β)), EnumeratesKeys s entries →
    sort less (entries.map Prod.fst) = ys
  ofList : ∀ xs, (∀ a, a ∈ xs ↔ a ∈ s) → sortDistinct less xs = ys

variable {less : κ → κ → Bool} {s : Finset κ} {xs ys zs : List κ} {entries : List (κ × Bool)}

theorem EnumeratesSet.nodup_members
    (h : EnumeratesSet s entries) :
    (Keyed.members entries).Nodup :=
  h.keys.sublist (List.filter_sublist.map Prod.fst)

theorem EnumeratesSet.mem_members_iff
    (h : EnumeratesSet s entries) (a : κ) :
    a ∈ Keyed.members entries ↔ a ∈ s := by
  rw [← h.mem_iff a]
  simp [Keyed.members]

theorem IsListing.nodup
    (hless : IsStrictTotalOrder κ fun a b => less a b = true)
    (h : IsListing less s ys) :
    ys.Nodup := by
  refine h.increasing.imp ?_
  rintro a _ hab rfl
  exact hless.irrefl a hab

/-- A set has at most one listing. -/
theorem IsListing.unique
    (hless : IsStrictTotalOrder κ fun a b => less a b = true)
    (hys : IsListing less s ys)
    (hzs : IsListing less s zs) :
    ys = zs := by
  have hperm : ys.Perm zs := by
    rw [List.perm_ext_iff_of_nodup (hys.nodup hless) (hzs.nodup hless)]
    exact fun a => (hys.mem_iff a).trans (hzs.mem_iff a).symm
  refine hperm.eq_of_pairwise ?_ hys.increasing hzs.increasing
  intro a b _ _ hab hba
  exact absurd (hless.trans a b a hab hba) (hless.irrefl a)

/-- Where nothing comes behind what it precedes and any two members can be compared, every member
precedes those behind it. -/
theorem increasing_of_ordered
    (hordered : xs.Pairwise fun a b => less b a = false)
    (hcomparable : xs.Pairwise fun a b => less a b = true ∨ less b a = true) :
    xs.Pairwise fun a b => less a b = true := by
  refine (hordered.and hcomparable).imp ?_
  rintro a b ⟨hba, hab | hba'⟩
  · exact hab
  · exact absurd hba' (Bool.eq_false_iff.mp hba)

theorem IsSort.isListing
    {sort : {κ : Type} → (κ → κ → Bool) → List κ → List κ}
    (hsort : IsSort sort)
    (hless : IsStrictTotalOrder κ fun a b => less a b = true)
    (hnodup : xs.Nodup)
    (hmem : ∀ a, a ∈ xs ↔ a ∈ s) :
    IsListing less s (sort less xs) where
  mem_iff a := (hsort.perm less xs).mem_iff.trans (hmem a)
  increasing := by
    have hweak : IsStrictWeakOrder κ fun a b => less a b = true :=
      isStrictWeakOrder_of_isOrderConnected
    refine increasing_of_ordered (hsort.ordered less xs hweak) ?_
    refine ((hsort.perm less xs).nodup_iff.mpr hnodup).imp fun {a b} hne => ?_
    by_contra hnot
    rw [not_or] at hnot
    exact hne (hless.trichotomous a b hnot.1 hnot.2)

/-- Every finite set has one listing, whatever it is sorted from and by. -/
theorem exists_isCanonical
    [DecidableEq κ]
    {sort : {κ : Type} → (κ → κ → Bool) → List κ → List κ}
    (hsort : IsSort sort)
    (hless : IsStrictTotalOrder κ fun a b => less a b = true)
    (s : Finset κ) :
    ∃ ys, IsCanonical sort less s ys := by
  have hlisting : IsListing less s (sortBy less s.toList) :=
    isSort_sortBy.isListing hless s.nodup_toList fun a => Finset.mem_toList
  exact ⟨sortBy less s.toList,
    { listing := hlisting
      unique := fun zs hzs => hzs.unique hless hlisting
      ofSet := fun entries h =>
        (hsort.isListing hless h.nodup_members h.mem_members_iff).unique hless hlisting
      ofKeys := fun entries h => (hsort.isListing hless h.keys h.mem_iff).unique hless hlisting
      ofList := fun xs hmem =>
        (isSort_sortBy.isListing hless (distinct_nodup xs)
          fun a => (mem_distinct xs).trans (hmem a)).unique hless hlisting }⟩

end Listings

section Output

/-- Associations with different ends are sorted into one order. -/
theorem IsSort.sort_associations
    {sort : {κ : Type} → (κ → κ → Bool) → List κ → List κ}
    (hsort : IsSort sort)
    {items given : List Association}
    (hends : (items.map Association.ends).Nodup)
    (hperm : given.Perm items) :
    sort Association.less given = sortBy Association.less items := by
  have hperm' : (sort Association.less given).Perm items := (hsort.perm _ given).trans hperm
  have hsorted : (sortBy Association.less items).Pairwise fun a b => a.less b = true :=
    sortBy_pairwise Association.less_iff (Association.nodup_keys hends)
  have hordered := hsort.ordered Association.less given
    (isStrictWeakOrder_of_key Association.less_iff)
  have hkeys : ((sort Association.less given).map Association.key).Nodup :=
    (hperm'.map Association.key).nodup_iff.mpr (Association.nodup_keys hends)
  refine eq_of_perm_of_pairwise Association.less_iff (hperm'.trans (sortBy_perm items).symm)
    (increasing_of_ordered hordered ?_) hsorted
  rw [List.Nodup, List.pairwise_map] at hkeys
  refine hkeys.imp fun {a b} hne => ?_
  rw [Association.less_iff, Association.less_iff]
  exact lt_or_gt_of_ne hne

/-- Variables, points, definitions and uses are in strict total orders.  So every finite set of
definitions or of uses has one listing, to which it is sorted from every enumeration and by every
procedure; and associations with different ends are sorted into one order, which is strict. -/
theorem sortedOutput_canonical
    {sort : {κ : Type} → (κ → κ → Bool) → List κ → List κ}
    (hsort : IsSort sort) :
    (IsStrictTotalOrder Variable fun v w => v.less w = true) ∧
    (IsStrictTotalOrder Point fun p q => p.less q = true) ∧
    (IsStrictTotalOrder Def fun d e => d.less e = true) ∧
    (IsStrictTotalOrder Use fun u w => u.less w = true) ∧
    (∀ s : Finset Def, ∃ ys, IsCanonical sort Def.less s ys) ∧
    (∀ s : Finset Use, ∃ ys, IsCanonical sort Use.less s ys) ∧
    ∀ items given : List Association, (items.map Association.ends).Nodup → given.Perm items →
      sort Association.less given = sortBy Association.less items ∧
      (sortBy Association.less items).Pairwise fun a b => a.less b = true := by
  have hdef := isStrictTotalOrder_of_key Def.less_iff Def.key_injective
  have huse := isStrictTotalOrder_of_key Use.less_iff Use.key_injective
  refine ⟨isStrictTotalOrder_of_key Variable.less_iff Variable.key_injective,
    isStrictTotalOrder_of_key Point.less_iff Point.key_injective, hdef, huse,
    exists_isCanonical hsort hdef, exists_isCanonical hsort huse, ?_⟩
  intro items given hends hperm
  exact ⟨hsort.sort_associations hends hperm,
    sortBy_pairwise Association.less_iff (Association.nodup_keys hends)⟩

/-- A definition of a local variable at a node. -/
def writtenAt (node : Int) : Def := { site := ⟨0, node⟩, var := .ofLocal "f" "x" }

/-- The entries of a set of definitions that lost one of its members. -/
def writtenEntries : List (Def × Bool) :=
  [(writtenAt 4, true), (writtenAt 2, true), (writtenAt 5, false), (writtenAt 3, true)]

theorem sortedOutput_canonical_insertion :
    IsSort sortBy ∧ EnumeratesSet {writtenAt 4, writtenAt 2, writtenAt 3} writtenEntries ∧
      IsCanonical sortBy Def.less {writtenAt 4, writtenAt 2, writtenAt 3}
        [writtenAt 2, writtenAt 3, writtenAt 4] := by
  have hentries : EnumeratesSet {writtenAt 4, writtenAt 2, writtenAt 3} writtenEntries :=
    ⟨by decide, fun d => by simp [writtenEntries]⟩
  obtain ⟨-, -, -, -, hdefs, -⟩ := sortedOutput_canonical isSort_sortBy
  obtain ⟨ys, hys⟩ := hdefs {writtenAt 4, writtenAt 2, writtenAt 3}
  have hsorted : sortBy Def.less (Keyed.members writtenEntries) =
      [writtenAt 2, writtenAt 3, writtenAt 4] := by decide
  have hlist := hys.ofSet writtenEntries hentries
  rw [hsorted] at hlist
  exact ⟨isSort_sortBy, hentries, hlist ▸ hys⟩

end Output

end DefUse
