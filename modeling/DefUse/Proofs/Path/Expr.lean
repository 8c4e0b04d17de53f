import DefUse.Path.Expr
import DefUse.Proofs.Program.Less
import Mathlib.Data.List.Nodup
import Mathlib.Data.Nat.Bitwise

/-!
# Canonical path expressions

The endings and the connections of an expression are entries: each has a key, which is its node or
its edge, and a set of paths.

**Method.** What is said of endings and of connections is proved once, of entries whose keys are
ordered.  An expression is read through `Expr.test`: has an entry this path at this place?

**Results.** `test_merge`, `test_restrict`, `test_extend`, `test_ending`: what the operations do to
the paths at a place; `Canonical`: sorted entries with paths of one length, which the operations
keep and which the paths at the places determine (`Canonical.ext`).
-/

namespace DefUse

/-- A set is not empty exactly if it has a bit. -/
theorem Bits.any_iff
    {b : Bits} :
    b.any = true ↔ ∃ i, b.test i = true := by
  unfold any test
  rw [bne_iff_ne]
  constructor
  · exact Nat.exists_testBit_of_ne_zero
  · rintro ⟨i, hi⟩ hzero
    rw [hzero, Nat.zero_testBit] at hi
    exact Bool.false_ne_true hi

namespace Edge

/-- The ends of an edge in the order of comparison. -/
def key (e : Edge) : Int ×ₗ Int := toLex (e.source, e.target)

theorem key_injective : Function.Injective key := by
  intro e e' h
  simp only [key, EmbeddingLike.apply_eq_iff_eq, Prod.mk.injEq] at h
  cases e
  cases e'
  simpa using h

/-- Edges are compared by their keys. -/
theorem less_iff
    (e e' : Edge) :
    e.less e' = true ↔ e.key < e'.key :=
  lexicographic_iff Function.injective_id decide_eq_true_iff decide_eq_true_iff

end Edge

/-- Entries have a key and a set of paths, which can be replaced. -/
structure EntryFields (α κ : Type) where
  /-- The key. -/
  key : α → κ
  /-- The paths. -/
  paths : α → Bits
  /-- The entry with other paths. -/
  put : α → Bits → α
  key_put : ∀ x b, key (put x b) = key x
  paths_put : ∀ x b, paths (put x b) = b

namespace EntryFields

attribute [simp] key_put paths_put

variable {α κ : Type} [LinearOrder κ] {F : EntryFields α κ} {x : α} {xs ys : List α} {k : κ}
  {id size : Nat}

/-- An entry with the key has the path. -/
def test (F : EntryFields α κ) (xs : List α) (k : κ) (id : Nat) : Bool :=
  xs.any fun x => F.key x = k && (F.paths x).test id

/-- Adds an entry to a list sorted by key, joining the paths of one key. -/
def add (F : EntryFields α κ) (x : α) : List α → List α
  | [] => [x]
  | y :: rest =>
    if F.key y = F.key x then F.put x ((F.paths y).union (F.paths x)) :: rest
    else if F.key y < F.key x then y :: F.add x rest
    else x :: y :: rest

/-- The entry on some of its paths; nothing if none is left. -/
def cut (F : EntryFields α κ) (b : Bits) (x : α) : Option α :=
  if ((F.paths x).inter b).any then some (F.put x ((F.paths x).inter b)) else none

/-- The entries are sorted by key, and their sets have one length and are not empty. -/
structure Canonical (F : EntryFields α κ) (size : Nat) (xs : List α) : Prop where
  sorted : xs.Pairwise fun x y => F.key x < F.key y
  length : ∀ x ∈ xs, (F.paths x).length = size
  any : ∀ x ∈ xs, (F.paths x).any = true

section Test

/-- A path is at a place if an entry of the place has it. -/
theorem test_eq_true_iff :
    F.test xs k id = true ↔ ∃ x ∈ xs, F.key x = k ∧ (F.paths x).test id = true := by
  simp [test]

@[simp] theorem test_nil : F.test [] k id = false := rfl

omit [LinearOrder κ] in
/-- A union of many sets has the bits of each. -/
theorem test_foldl_union
    (xs : List α) (acc : Bits) (id : Nat) :
    (xs.foldl (fun acc x => acc.union (F.paths x)) acc).test id = true ↔
      acc.test id = true ∨ ∃ x ∈ xs, (F.paths x).test id = true := by
  induction xs generalizing acc with
  | nil => simp
  | cons x rest ih =>
      rw [List.foldl_cons, ih, Bits.test_union, Bool.or_eq_true, or_assoc]
      simp only [List.mem_cons, exists_eq_or_imp]

@[simp] theorem test_cons
    (x : α) (xs : List α) :
    F.test (x :: xs) k id = (decide (F.key x = k) && (F.paths x).test id || F.test xs k id) :=
  rfl

/-- Lists put together have the paths of both. -/
@[simp] theorem test_append
    (xs ys : List α) :
    F.test (xs ++ ys) k id = (F.test xs k id || F.test ys k id) := by
  simp [test]

/-- An entry adds its paths at its own place, whether the place was there or not. -/
@[simp] theorem test_add
    (x : α) (xs : List α) :
    F.test (F.add x xs) k id =
      (F.test xs k id || decide (F.key x = k) && (F.paths x).test id) := by
  induction xs with
  | nil => simp [add]
  | cons y rest ih =>
      unfold add
      split
      · rename_i hkey
        simp only [test_cons, key_put, paths_put, Bits.test_union, hkey, Bool.and_or_distrib_left]
        ac_rfl
      · split
        · simp only [test_cons, ih]
          ac_rfl
        · simp only [test_cons]
          ac_rfl

/-- Entries that are added one by one add the paths of all. -/
theorem test_foldl_add
    (ys : List α) :
    ∀ xs, F.test (ys.foldl (fun acc x => F.add x acc) xs) k id =
      (F.test xs k id || F.test ys k id) := by
  induction ys with
  | nil => simp
  | cons y ys ih =>
      intro xs
      rw [List.foldl_cons, ih, test_add, test_cons, Bool.or_assoc]

/-- Cutting entries leaves the paths of a set, at every place. -/
@[simp] theorem test_filterMap_cut
    (F : EntryFields α κ) (b : Bits) (xs : List α) :
    F.test (xs.filterMap (F.cut b)) k id = (F.test xs k id && b.test id) := by
  induction xs with
  | nil => rfl
  | cons x xs ih =>
      by_cases hany : ((F.paths x).inter b).any = true
      · have hcut : F.cut b x = some (F.put x ((F.paths x).inter b)) := if_pos hany
        rw [List.filterMap_cons_some hcut, test_cons, test_cons, ih]
        simp [Bool.and_or_distrib_right, Bool.and_assoc]
      · have hcut : F.cut b x = none := if_neg hany
        have hnone : ((F.paths x).test id && b.test id) = false := by
          rw [← Bits.test_inter, Bool.eq_false_iff]
          exact fun h => hany (Bits.any_iff.mpr ⟨id, h⟩)
        rw [List.filterMap_cons_none hcut, test_cons, ih, Bool.and_or_distrib_right,
          Bool.and_assoc, hnone]
        simp

omit [LinearOrder κ] in
/-- What remains of an entry is at its place, with the paths that both have. -/
theorem cut_eq_some
    {b : Bits} {y : α}
    (h : F.cut b x = some y) :
    F.key y = F.key x ∧ F.paths y = (F.paths x).inter b := by
  unfold cut at h
  split at h
  · obtain rfl := Option.some.inj h
    exact ⟨F.key_put _ _, F.paths_put _ _⟩
  · exact absurd h (by simp)

omit [LinearOrder κ] in
/-- Nothing remains of an entry that has no path of the set. -/
theorem any_of_mem_filterMap_cut
    (F : EntryFields α κ)
    {b : Bits} {y : α}
    (hy : y ∈ xs.filterMap (F.cut b)) :
    (F.paths y).any = true := by
  obtain ⟨x, -, hxy⟩ := List.mem_filterMap.mp hy
  rw [(cut_eq_some hxy).2]
  unfold cut at hxy
  split at hxy
  · assumption
  · exact absurd hxy (by simp)

end Test

namespace Canonical

theorem nil : F.Canonical size [] :=
  ⟨List.Pairwise.nil, by simp, by simp⟩

theorem singleton
    (hlength : (F.paths x).length = size)
    (hany : (F.paths x).any = true) :
    F.Canonical size [x] :=
  ⟨List.pairwise_singleton _ _, by simpa using hlength, by simpa using hany⟩

/-- An added entry brings no place but its own. -/
theorem key_mem_add
    {y : α}
    (hy : y ∈ F.add x xs) :
    F.key y = F.key x ∨ ∃ z ∈ xs, F.key y = F.key z := by
  induction xs with
  | nil =>
      rw [add, List.mem_singleton] at hy
      exact Or.inl (by rw [hy])
  | cons z rest ih =>
      unfold add at hy
      split at hy
      · rcases List.mem_cons.mp hy with rfl | hy
        · exact Or.inl (F.key_put x _)
        · exact Or.inr ⟨y, List.mem_cons_of_mem z hy, rfl⟩
      · split at hy
        · rcases List.mem_cons.mp hy with rfl | hy
          · exact Or.inr ⟨y, List.mem_cons_self, rfl⟩
          · rcases ih hy with h | ⟨w, hw, h⟩
            · exact Or.inl h
            · exact Or.inr ⟨w, List.mem_cons_of_mem z hw, h⟩
        · rcases List.mem_cons.mp hy with rfl | hy
          · exact Or.inl rfl
          · exact Or.inr ⟨y, hy, rfl⟩

theorem of_cons
    (h : F.Canonical size (x :: xs)) :
    F.Canonical size xs :=
  ⟨h.sorted.of_cons, fun y hy => h.length y (List.mem_cons_of_mem x hy),
    fun y hy => h.any y (List.mem_cons_of_mem x hy)⟩

theorem cons
    (h : F.Canonical size xs)
    (hless : ∀ y ∈ xs, F.key x < F.key y)
    (hlength : (F.paths x).length = size)
    (hany : (F.paths x).any = true) :
    F.Canonical size (x :: xs) := by
  refine ⟨List.pairwise_cons.mpr ⟨hless, h.sorted⟩, ?_, ?_⟩
  · intro y hy
    rcases List.mem_cons.mp hy with rfl | hy
    · exact hlength
    · exact h.length y hy
  · intro y hy
    rcases List.mem_cons.mp hy with rfl | hy
    · exact hany
    · exact h.any y hy

/-- Adding an entry keeps the places in order, once each. -/
theorem add
    (h : F.Canonical size xs)
    (hlength : (F.paths x).length = size)
    (hany : (F.paths x).any = true) :
    F.Canonical size (F.add x xs) := by
  induction xs with
  | nil => exact singleton hlength hany
  | cons y rest ih =>
      have hless := (List.pairwise_cons.mp h.sorted).1
      have hy := h.length y List.mem_cons_self
      unfold EntryFields.add
      split
      · rename_i hkey
        refine h.of_cons.cons ?_ ?_ ?_
        · intro z hz
          rw [F.key_put, ← hkey]
          exact hless z hz
        · rw [F.paths_put, Bits.length_union, hy, hlength, Nat.max_self]
        · obtain ⟨i, hi⟩ := Bits.any_iff.mp hany
          rw [F.paths_put, Bits.any_iff]
          exact ⟨i, by rw [Bits.test_union, hi, Bool.or_true]⟩
      · rename_i hne
        split
        · rename_i hlt
          refine (ih h.of_cons).cons ?_ hy (h.any y List.mem_cons_self)
          intro z hz
          rcases key_mem_add hz with hkey | ⟨w, hw, hkey⟩
          · rw [hkey]
            exact hlt
          · rw [hkey]
            exact hless w hw
        · rename_i hnot
          have hlt : F.key x < F.key y := lt_of_le_of_ne (not_lt.mp hnot) (Ne.symm hne)
          refine h.cons ?_ hlength hany
          intro z hz
          rcases List.mem_cons.mp hz with rfl | hz
          · exact hlt
          · exact hlt.trans (hless z hz)

/-- Adding entries one by one keeps the places in order. -/
theorem foldl_add
    (hys : ∀ y ∈ ys, (F.paths y).length = size ∧ (F.paths y).any = true)
    (h : F.Canonical size xs) :
    F.Canonical size (ys.foldl (fun acc x => F.add x acc) xs) :=
  List.foldlRecOn (motive := F.Canonical size) ys _ h
    fun _ hacc y hy => hacc.add (hys y hy).1 (hys y hy).2

/-- A path at a place is one of those that are numbered. -/
theorem id_lt
    (h : F.Canonical size xs)
    (hid : F.test xs k id = true) :
    id < size := by
  obtain ⟨x, hx, -, hid⟩ := test_eq_true_iff.mp hid
  by_contra hle
  rw [Bits.test_eq_false_of_length_le (by rw [h.length x hx]; omega)] at hid
  exact Bool.false_ne_true hid

/-- What remains of entries is in order if they are. -/
theorem filterMap_cut
    {b : Bits}
    (hb : b.length = size)
    (h : F.Canonical size xs) :
    F.Canonical size (xs.filterMap (F.cut b)) := by
  refine ⟨?_, ?_, ?_⟩
  · refine h.sorted.filterMap _ ?_
    intro x x' hlt y hy y' hy'
    rw [(cut_eq_some hy).1, (cut_eq_some hy').1]
    exact hlt
  · intro y hy
    obtain ⟨x, hx, hxy⟩ := List.mem_filterMap.mp hy
    rw [(cut_eq_some hxy).2, Bits.length_inter, h.length x hx, hb, Nat.min_self]
  · exact fun y hy => F.any_of_mem_filterMap_cut hy

/-- An entry is determined by its key. -/
theorem eq_of_key_eq
    {y : α}
    (h : F.Canonical size xs)
    (hx : x ∈ xs)
    (hy : y ∈ xs)
    (hkey : F.key x = F.key y) :
    x = y := by
  have hnodup : (xs.map F.key).Nodup :=
    List.pairwise_map.mpr (h.sorted.imp fun hlt => ne_of_lt hlt)
  exact List.inj_on_of_nodup_map hnodup hx hy hkey

/-- Where every place has one entry, it alone tells the paths of its place. -/
theorem test_key
    (h : F.Canonical size xs)
    (hx : x ∈ xs) :
    F.test xs (F.key x) id = (F.paths x).test id := by
  rw [Bool.eq_iff_iff, test_eq_true_iff]
  constructor
  · rintro ⟨y, hy, hkey, hid⟩
    rwa [h.eq_of_key_eq hy hx hkey] at hid
  · intro hid
    exact ⟨x, hx, rfl, hid⟩

/-- The entries of a canonical list are those that have exactly the paths at their key. -/
theorem mem_iff
    (hF : ∀ x y, F.key x = F.key y → F.paths x = F.paths y → x = y)
    (h : F.Canonical size xs) :
    x ∈ xs ↔ (F.paths x).length = size ∧ (∃ id, F.test xs (F.key x) id = true) ∧
      ∀ id, (F.paths x).test id = F.test xs (F.key x) id := by
  constructor
  · intro hx
    obtain ⟨i, hi⟩ := Bits.any_iff.mp (h.any x hx)
    refine ⟨h.length x hx, ⟨i, ?_⟩, fun id => (h.test_key hx).symm⟩
    rw [h.test_key hx]
    exact hi
  · rintro ⟨hlength, ⟨i, hi⟩, htest⟩
    obtain ⟨y, hy, hkey, -⟩ := test_eq_true_iff.mp hi
    have hpaths : F.paths x = F.paths y := by
      apply Bits.ext_test
      · rw [hlength, h.length y hy]
      · intro j
        rw [htest, ← hkey, h.test_key hy]
    rw [hF x y hkey.symm hpaths]
    exact hy

/-- A canonical list is determined by the paths at its keys. -/
theorem ext
    (hF : ∀ x y, F.key x = F.key y → F.paths x = F.paths y → x = y)
    (hxs : F.Canonical size xs)
    (hys : F.Canonical size ys)
    (h : ∀ k id, F.test xs k id = F.test ys k id) :
    xs = ys := by
  have hnodup : ∀ {zs : List α}, F.Canonical size zs → zs.Nodup :=
    fun hzs => hzs.sorted.imp fun hlt => by
      rintro rfl
      exact lt_irrefl _ hlt
  have hperm : List.Perm xs ys := by
    refine (List.perm_ext_iff_of_nodup (hnodup hxs) (hnodup hys)).mpr fun x => ?_
    rw [hxs.mem_iff hF, hys.mem_iff hF]
    simp only [h]
  exact hperm.eq_of_pairwise (fun _ _ _ _ hlt hlt' => absurd hlt (lt_asymm hlt'))
    hxs.sorted hys.sorted

end Canonical
end EntryFields

/-- Where an expression has paths: at a node where the use is covered, or at a back edge. -/
inductive Expr.Place where
  /-- A node. -/
  | node (v : Int)
  /-- A back edge. -/
  | edge (b : Edge)
  deriving DecidableEq

def Ending.fields : EntryFields Ending Int where
  key := Ending.node
  paths := Ending.paths
  put x b := ⟨x.node, b⟩
  key_put _ _ := rfl
  paths_put _ _ := rfl

def Conn.fields (κ : Type) : EntryFields (Conn κ) (Int ×ₗ Int) where
  key c := c.edge.key
  paths := Conn.paths
  put c b := ⟨c.edge, b, c.nested⟩
  key_put _ _ := rfl
  paths_put _ _ := rfl

/-- An ending is its place with its paths. -/
theorem Ending.eq_of_fields
    (x y : Ending)
    (hkey : Ending.fields.key x = Ending.fields.key y)
    (hpaths : Ending.fields.paths x = Ending.fields.paths y) :
    x = y := by
  cases x
  cases y
  rw [Ending.mk.injEq]
  exact ⟨hkey, hpaths⟩

/-- A connection without an expression inside is its place with its paths. -/
theorem Conn.eq_of_fields
    (c d : Conn Unit)
    (hkey : (Conn.fields Unit).key c = (Conn.fields Unit).key d)
    (hpaths : (Conn.fields Unit).paths c = (Conn.fields Unit).paths d) :
    c = d := by
  cases c
  cases d
  rw [Conn.mk.injEq]
  exact ⟨Edge.key_injective hkey, hpaths, rfl⟩

namespace Expr

variable {κ μ : Type} {a b e : Expr κ} {place : Place} {id size : Nat}

/-- The expression has a path at a place. -/
def test (e : Expr κ) : Place → Nat → Bool
  | .node v, id => Ending.fields.test e.endings v id
  | .edge b, id => (Conn.fields κ).test e.conns b.key id

/-- The entries of the expression are sorted and have sets of one length that are not empty. -/
structure Canonical (size : Nat) (e : Expr κ) : Prop where
  endings : Ending.fields.Canonical size e.endings
  conns : (Conn.fields κ).Canonical size e.conns

theorem addEnding_eq
    (x : Ending) (xs : List Ending) :
    addEnding x xs = Ending.fields.add x xs := by
  induction xs with
  | nil => rfl
  | cons y rest ih =>
      unfold addEnding EntryFields.add
      rw [ih]
      change (if y.node = x.node then _ else _) = if y.node = x.node then _ else _
      split
      · rename_i hnode
        rw [hnode]
        rfl
      · rfl

theorem addConn_eq
    (c : Conn κ) (cs : List (Conn κ)) :
    addConn c cs = (Conn.fields κ).add c cs := by
  induction cs with
  | nil => rfl
  | cons d rest ih =>
      have hkey : ((Conn.fields κ).key d = (Conn.fields κ).key c) = (d.edge = c.edge) :=
        propext Edge.key_injective.eq_iff
      have hless : ((Conn.fields κ).key d < (Conn.fields κ).key c) = (d.edge.less c.edge = true) :=
        propext (Edge.less_iff _ _).symm
      unfold addConn EntryFields.add
      simp only [hkey, hless, ih]
      split
      · rename_i hedge
        rw [hedge]
        rfl
      · rfl

@[simp] theorem test_empty : (empty : Expr κ).test place id = false := by
  cases place <;> rfl

theorem test_eq_false_of_isEmpty
    (h : e.isEmpty = true) :
    e.test place id = false := by
  simp only [isEmpty, Bool.and_eq_true, List.isEmpty_iff] at h
  cases place with
  | node v => rw [test, h.1, EntryFields.test_nil]
  | edge b => rw [test, h.2, EntryFields.test_nil]

theorem isEmpty_eq_false_of_test
    (h : e.test place id = true) :
    e.isEmpty = false := by
  rw [Bool.eq_false_iff]
  intro hempty
  rw [test_eq_false_of_isEmpty hempty] at h
  exact Bool.false_ne_true h

/-- A merged expression has the paths of both. -/
@[simp] theorem test_merge
    (a b : Expr κ) :
    (a.merge b).test place id = (a.test place id || b.test place id) := by
  unfold merge
  split
  · rename_i hb
    rw [test_eq_false_of_isEmpty hb, Bool.or_false]
  · split
    · rename_i ha
      rw [test_eq_false_of_isEmpty ha, Bool.false_or]
    · cases place with
      | node v =>
          simp only [test, addEnding_eq, EntryFields.test_foldl_add, EntryFields.test_append,
            EntryFields.test_nil, Bool.false_or]
      | edge b =>
          simp only [test, addConn_eq, EntryFields.test_foldl_add, EntryFields.test_append,
            EntryFields.test_nil, Bool.false_or]

/-- A restricted expression has the paths of the set, at every place. -/
@[simp] theorem test_restrict
    (e : Expr κ) (paths : Bits) :
    (e.restrict paths).test place id = (e.test place id && paths.test id) := by
  cases place with
  | node v => exact Ending.fields.test_filterMap_cut paths e.endings
  | edge b => exact (Conn.fields κ).test_filterMap_cut paths e.conns

/-- All paths of an expression are those at some place. -/
theorem test_allPaths_iff :
    (e.allPaths size).test id = true ↔ ∃ place, e.test place id = true := by
  have hall : (e.allPaths size).test id = true ↔ _ :=
    (Conn.fields κ).test_foldl_union e.conns _ id
  have hendings := Ending.fields.test_foldl_union e.endings (.empty size) id
  rw [hall]
  constructor
  · rintro (h | ⟨c, hc, hid⟩)
    · rw [Bits.test_empty] at hendings
      obtain ⟨x, hx, hid⟩ := (hendings.mp h).resolve_left Bool.false_ne_true
      exact ⟨.node x.node, EntryFields.test_eq_true_iff.mpr ⟨x, hx, rfl, hid⟩⟩
    · exact ⟨.edge c.edge, EntryFields.test_eq_true_iff.mpr ⟨c, hc, rfl, hid⟩⟩
  · rintro ⟨place, h⟩
    cases place with
    | node v =>
        obtain ⟨x, hx, -, hid⟩ := EntryFields.test_eq_true_iff.mp h
        exact Or.inl (hendings.mpr (Or.inr ⟨x, hx, hid⟩))
    | edge b =>
        obtain ⟨c, hc, -, hid⟩ := EntryFields.test_eq_true_iff.mp h
        exact Or.inr ⟨c, hc, hid⟩

/-- Where no entry is without paths, an expression that is not empty has a path. -/
theorem exists_test_of_any
    (hendings : ∀ x ∈ e.endings, x.paths.any = true)
    (hconns : ∀ c ∈ e.conns, c.paths.any = true)
    (h : e.isEmpty = false) :
    ∃ place id, e.test place id = true := by
  rw [isEmpty, Bool.and_eq_false_iff] at h
  rcases h with h | h
  · obtain ⟨x, hx⟩ := List.exists_mem_of_ne_nil _ (List.isEmpty_eq_false_iff.mp h)
    obtain ⟨i, hi⟩ := Bits.any_iff.mp (hendings x hx)
    exact ⟨.node x.node, i, EntryFields.test_eq_true_iff.mpr ⟨x, hx, rfl, hi⟩⟩
  · obtain ⟨c, hc⟩ := List.exists_mem_of_ne_nil _ (List.isEmpty_eq_false_iff.mp h)
    obtain ⟨i, hi⟩ := Bits.any_iff.mp (hconns c hc)
    exact ⟨.edge c.edge, i, EntryFields.test_eq_true_iff.mpr ⟨c, hc, rfl, hi⟩⟩

/-- An expression is not empty after a restriction if it shares a path with the set. -/
theorem isEmpty_restrict_eq_false_iff
    {paths : Bits} :
    (e.restrict paths).isEmpty = false ↔
      ∃ place id, e.test place id = true ∧ paths.test id = true := by
  constructor
  · intro h
    have hendings : ∀ x ∈ (e.restrict paths).endings, x.paths.any = true :=
      fun x hx => Ending.fields.any_of_mem_filterMap_cut hx
    have hconns : ∀ c ∈ (e.restrict paths).conns, c.paths.any = true :=
      fun c hc => (Conn.fields κ).any_of_mem_filterMap_cut hc
    obtain ⟨place, id, htest⟩ := exists_test_of_any hendings hconns h
    rw [test_restrict, Bool.and_eq_true] at htest
    exact ⟨place, id, htest⟩
  · rintro ⟨place, id, htest⟩
    have hleft : (e.restrict paths).test place id = true := by
      rw [test_restrict, Bool.and_eq_true]
      exact htest
    exact isEmpty_eq_false_of_test hleft

/-- A single ending has its paths at its node. -/
theorem test_ending_iff
    {v : Int} {paths : Bits} :
    (ending v paths : Expr κ).test place id = true ↔ place = .node v ∧ paths.test id = true := by
  unfold ending
  split
  · cases place with
    | node w =>
        simp only [test, EntryFields.test_cons, EntryFields.test_nil, Bool.or_false,
          Bool.and_eq_true, decide_eq_true_eq, Place.node.injEq]
        exact and_congr_left' eq_comm
    | edge b => simp [test]
  · rename_i hany
    rw [test_empty]
    constructor
    · exact fun h => absurd h Bool.false_ne_true
    · exact fun h => absurd (Bits.any_iff.mpr ⟨id, h.2⟩) hany

/-- An extended expression has its paths at the edge alone, and none if it was empty. -/
theorem test_extend_iff
    {label : μ} {edge : Edge} {paths : Bits} :
    (e.extend label edge paths).test place id = true ↔
      place = .edge edge ∧ e.isEmpty = false ∧ paths.test id = true := by
  unfold extend
  split
  · rename_i hnone
    rw [test_empty]
    constructor
    · exact fun h => absurd h Bool.false_ne_true
    · rintro ⟨-, he, hid⟩
      have hany := Bits.any_iff.mpr ⟨id, hid⟩
      simp [he, hany] at hnone
  · rename_i hsome
    rw [Bool.or_eq_true, not_or] at hsome
    cases place with
    | node w => simp [test]
    | edge b =>
        have hempty : e.isEmpty = false := Bool.eq_false_iff.mpr hsome.1
        simp only [test, EntryFields.test_cons, EntryFields.test_nil, Bool.or_false,
          Bool.and_eq_true, decide_eq_true_eq, Place.edge.injEq, hempty, true_and]
        exact and_congr_left' (Edge.key_injective.eq_iff.trans eq_comm)

namespace Canonical

theorem empty : (empty : Expr κ).Canonical size :=
  ⟨.nil, .nil⟩

/-- Canonical expressions have a canonical union. -/
theorem merge
    (ha : a.Canonical size)
    (hb : b.Canonical size) :
    (a.merge b).Canonical size := by
  unfold Expr.merge
  split
  · exact ha
  · split
    · exact hb
    · refine ⟨?_, ?_⟩
      · simp only [addEnding_eq]
        refine EntryFields.Canonical.foldl_add ?_ .nil
        intro x hx
        rcases List.mem_append.mp hx with hx | hx
        · exact ⟨ha.endings.length x hx, ha.endings.any x hx⟩
        · exact ⟨hb.endings.length x hx, hb.endings.any x hx⟩
      · simp only [addConn_eq]
        refine EntryFields.Canonical.foldl_add ?_ .nil
        intro c hc
        rcases List.mem_append.mp hc with hc | hc
        · exact ⟨ha.conns.length c hc, ha.conns.any c hc⟩
        · exact ⟨hb.conns.length c hc, hb.conns.any c hc⟩

/-- What remains of a canonical expression is canonical. -/
theorem restrict
    {paths : Bits}
    (hpaths : paths.length = size)
    (he : e.Canonical size) :
    (e.restrict paths).Canonical size :=
  ⟨he.endings.filterMap_cut hpaths, he.conns.filterMap_cut hpaths⟩

theorem ending
    {paths : Bits}
    (hpaths : paths.length = size)
    (v : Int) :
    (ending v paths : Expr κ).Canonical size := by
  unfold Expr.ending
  split
  · rename_i hany
    exact ⟨.singleton hpaths hany, .nil⟩
  · exact empty

/-- A single edge is canonical, whatever expression is put behind it. -/
theorem extend
    {paths : Bits}
    (hpaths : paths.length = size)
    (e : Expr κ) (label : μ) (edge : Edge) :
    (e.extend label edge paths).Canonical size := by
  unfold Expr.extend
  split
  · exact empty
  · rename_i hsome
    rw [Bool.or_eq_true, not_or, Bool.not_eq_true', Bool.not_eq_false] at hsome
    exact ⟨.nil, .singleton hpaths hsome.2⟩

theorem id_lt
    (he : e.Canonical size)
    (h : e.test place id = true) :
    id < size := by
  cases place with
  | node v => exact he.endings.id_lt h
  | edge b => exact he.conns.id_lt h

/-- A canonical expression has a connection through a back edge if it has a path there. -/
theorem exists_conn_iff
    {b : Edge}
    (he : e.Canonical size) :
    (∃ c ∈ e.conns, c.edge = b) ↔ ∃ id, e.test (.edge b) id = true := by
  constructor
  · rintro ⟨c, hc, rfl⟩
    obtain ⟨id, hid⟩ := Bits.any_iff.mp (he.conns.any c hc)
    exact ⟨id, EntryFields.test_eq_true_iff.mpr ⟨c, hc, rfl, hid⟩⟩
  · rintro ⟨id, hid⟩
    obtain ⟨c, hc, hkey, -⟩ := EntryFields.test_eq_true_iff.mp hid
    exact ⟨c, hc, Edge.key_injective hkey⟩

/-- A canonical expression is not empty exactly if it has a path. -/
theorem isEmpty_eq_false_iff
    (he : e.Canonical size) :
    e.isEmpty = false ↔ ∃ place id, e.test place id = true := by
  constructor
  · exact exists_test_of_any he.endings.any he.conns.any
  · rintro ⟨place, id, htest⟩
    exact isEmpty_eq_false_of_test htest

/-- A canonical expression is determined by the paths at its places. -/
theorem ext
    {a b : Expr Unit}
    (ha : a.Canonical size)
    (hb : b.Canonical size)
    (h : ∀ place id, a.test place id = b.test place id) :
    a = b := by
  have hendings : a.endings = b.endings :=
    ha.endings.ext Ending.eq_of_fields hb.endings fun v id => h (.node v) id
  have hconns : a.conns = b.conns :=
    ha.conns.ext Conn.eq_of_fields hb.conns fun k id => h (.edge ⟨(ofLex k).1, (ofLex k).2⟩) id
  cases a
  cases b
  simp only [mk.injEq]
  exact ⟨hendings, hconns⟩

end Canonical
end Expr
end DefUse
