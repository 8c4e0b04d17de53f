import DefUse.Proofs.Document.Basic
import Mathlib.Data.List.Nodup

/-!
# Reading the fields of a structure

**Method.** A reader that tells the keys of a structure apart puts every field that is written into
its own place.  The fields of a document are put one after the other; a field that was left out
leaves its place as it was.

**Results.**
* `assign_eq`: a written field is put into the place with its name.
* `refill_map`: a list is read into an empty place.
* `Puts.append`: groups of fields are put one after the other.
-/

namespace DefUse

namespace Doc

open Reader

variable {σ α β : Type} {d : Dialect} {fields : List (Reader.Field σ)} {s t : σ} {key : String}
  {doc : Doc}

/-- The dialect tells keys apart: each names itself only. -/
def Dialect.Tells (d : Dialect) (keys : List String) : Prop :=
  keys.Nodup ∧ ∀ a ∈ keys, ∀ b ∈ keys, d.names a b = decide (a = b)

instance (d : Dialect) (keys : List String) : Decidable (d.Tells keys) :=
  inferInstanceAs (Decidable (_ ∧ _))

/-- Named documents, put one after the other, make a structure of another one. -/
def Puts (d : Dialect) (fields : List (Reader.Field σ)) (entries : List (String × Doc))
    (s t : σ) : Prop :=
  entries.foldlM (assign d fields) s = some t

/-- A written field is put into the place with its name. -/
theorem assign_eq
    (hd : d.Tells (fields.map Prod.fst))
    {read : Reader σ}
    (hmem : (key, read) ∈ fields) :
    assign d fields s (key, doc) = read s doc := by
  have hkey : key ∈ fields.map Prod.fst := List.mem_map_of_mem hmem
  have hfind : fields.find? (fun f => d.names f.1 key) = some (key, read) := by
    cases hfound : fields.find? (fun f => d.names f.1 key) with
    | none =>
        have hnone := List.find?_eq_none.mp hfound (key, read) hmem
        exact absurd ((hd.2 key hkey key hkey).trans (decide_eq_true rfl)) hnone
    | some f =>
        have hf := List.mem_of_find?_eq_some hfound
        have hnamed := List.find?_some hfound
        rw [hd.2 f.1 (List.mem_map_of_mem hf) key hkey, decide_eq_true_eq] at hnamed
        rw [List.inj_on_of_nodup_map hd.1 hf hmem hnamed]
  unfold assign
  simp only [hfind]

namespace Puts

variable {xs ys : List (String × Doc)} {u : σ}

theorem nil :
    Puts d fields [] s s :=
  rfl

theorem append
    (h : Puts d fields xs s t)
    (h' : Puts d fields ys t u) :
    Puts d fields (xs ++ ys) s u := by
  unfold Puts at h h' ⊢
  rw [List.foldlM_append, h]
  exact h'

/-- The field at a position is put into its place. -/
theorem single
    (hd : d.Tells (fields.map Prod.fst))
    (i : Nat)
    {read : Reader σ}
    (hi : fields[i]? = some (key, read))
    (hread : read s doc = some t) :
    Puts d fields [(key, doc)] s t := by
  unfold Puts
  rw [List.foldlM_cons, assign_eq hd (List.mem_of_getElem? hi), hread]
  rfl

theorem record
    {zero : σ}
    (h : Puts d fields xs s t) :
    Reader.record d fields zero s (.record xs) = some t :=
  h

end Puts

section Lists

variable {item : Reader β} {zero : β} {write : α → Doc} {result : α → β}

theorem items_map
    {xs : List α}
    (h : ∀ x ∈ xs, item zero (write x) = some (result x)) :
    Reader.items item zero [] (xs.map write) = some (xs.map result) := by
  induction xs with
  | nil => rfl
  | cons x xs ih =>
      have hrest := ih fun y hy => h y (List.mem_cons_of_mem x hy)
      rw [List.map_cons, Reader.items]
      simp only [List.head?_nil, Option.getD_none, h x List.mem_cons_self, List.tail_nil, hrest,
        Option.bind_eq_bind, Option.bind_some, Option.pure_def, List.map_cons]

/-- A list is read into an empty place. -/
theorem refill_map
    {xs : List α}
    (h : ∀ x ∈ xs, item zero (write x) = some (result x)) :
    Reader.refill d item zero {} (xs.map write) = some { items := xs.map result } := by
  unfold Reader.refill
  simp only [List.append_nil, items_map h, Option.bind_eq_bind, Option.bind_some, List.drop_nil,
    ite_self, Option.pure_def]

end Lists

end Doc

end DefUse
