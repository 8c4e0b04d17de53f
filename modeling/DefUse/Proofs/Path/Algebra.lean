import DefUse.Proofs.Path.Expr
import DefUse.Proofs.Sorted

/-!
# The algebra of path expressions

Two expressions are the same if they have the same entries at the same positions.  Sorted entries
leave no choice of positions, so canonical expressions are the same if they have the same paths at
every place, and laws of the operations follow from what they do to the paths at a place.

**Method.** A union may be found by way of a table that holds one entry for a key and is listed in
any order.  Adding an entry to a sorted list adds it to the table that the list stands for, so that
sorting restores the list.

**Results.**
* `Canonical.same_iff`: canonical expressions are the same if they have the same paths.
* `Canonical.merge_eq_sortBy`: a union is found by way of tables.
* `merge_restrict_laws`: the union is a semilattice, in which the paths to keep act.
-/

namespace DefUse

namespace EntryFields

variable {α κ : Type} [LinearOrder κ] {F : EntryFields α κ} {x z : α} {acc xs ys : List α}
  {entry : κ → Option α} {k : κ} {size : Nat}

/-- An entry with the paths of the one that it replaces, if there is one. -/
def joined (F : EntryFields α κ) (x : α) : Option α → α
  | none => x
  | some y => F.put x ((F.paths y).union (F.paths x))

/-- The table with one more entry, which replaces the one with its key. -/
def gather (F : EntryFields α κ) (entry : κ → Option α) (x : α) : κ → Option α :=
  Function.update entry (F.key x) (some (F.joined x (entry (F.key x))))

def table (F : EntryFields α κ) (xs : List α) : κ → Option α :=
  xs.foldl F.gather fun _ => none

/-- The list has the entries of the table, each of them once. -/
structure Lists (F : EntryFields α κ) (entry : κ → Option α) (xs : List α) : Prop where
  entry_iff : ∀ k x, entry k = some x ↔ x ∈ xs ∧ F.key x = k
  nodup : (xs.map F.key).Nodup

omit [LinearOrder κ] in
theorem key_joined
    (x : α) (y : Option α) :
    F.key (F.joined x y) = F.key x := by
  cases y with
  | none => rfl
  | some y => exact F.key_put x _

section Add

theorem mem_add_of_ne
    (hz : F.key z ≠ F.key x) :
    z ∈ F.add x acc ↔ z ∈ acc := by
  have hne : z ≠ x := fun h => hz (congrArg F.key h)
  induction acc with
  | nil => simp [add, hne]
  | cons y rest ih =>
      unfold add
      split
      · rename_i hkey
        have hput : z ≠ F.put x ((F.paths y).union (F.paths x)) :=
          fun h => hz ((congrArg F.key h).trans (F.key_put x _))
        have hy : z ≠ y := fun h => hz ((congrArg F.key h).trans hkey)
        simp [hput, hy]
      · split
        · simp only [List.mem_cons, ih]
        · simp only [List.mem_cons, hne, false_or]

/-- The entry with the key of an added one is the added one, joined with the one it replaces. -/
theorem mem_add_of_eq
    (hacc : acc.Pairwise fun x y => F.key x < F.key y)
    (hz : F.key z = F.key x) :
    z ∈ F.add x acc ↔ z = F.joined x (acc.find? fun y => F.key y = F.key x) := by
  induction acc with
  | nil => simp [add, joined]
  | cons y rest ih =>
      obtain ⟨hbelow, hrest⟩ := List.pairwise_cons.mp hacc
      unfold add
      split
      · rename_i hkey
        have hnot : z ∉ rest := by
          intro hmem
          have := hbelow z hmem
          rw [hz, hkey] at this
          exact lt_irrefl _ this
        rw [List.find?_cons_of_pos (by simpa using hkey), List.mem_cons, or_iff_left hnot]
        rfl
      · rename_i hne
        have hzy : z ≠ y := fun h => hne ((congrArg F.key h).symm.trans hz)
        rw [List.find?_cons_of_neg (by simpa using hne)]
        split
        · rw [List.mem_cons, or_iff_right hzy]
          exact ih hrest
        · rename_i hnot
          have hless : F.key x < F.key y := lt_of_le_of_ne (not_lt.mp hnot) (Ne.symm hne)
          have habove : ∀ w ∈ rest, F.key w ≠ F.key x :=
            fun w hw h => lt_asymm hless (h ▸ hbelow w hw)
          have hfind : (rest.find? fun y => F.key y = F.key x) = none := by
            rw [List.find?_eq_none]
            simpa using habove
          have hnone : z ∉ y :: rest := by
            rw [List.mem_cons, not_or]
            exact ⟨hzy, fun hmem => habove z hmem hz⟩
          rw [hfind, List.mem_cons, or_iff_left hnone]
          rfl

/-- An entry with a greater key than all others is added at the end. -/
theorem add_eq_concat
    (hless : ∀ y ∈ acc, F.key y < F.key x) :
    F.add x acc = acc ++ [x] := by
  induction acc with
  | nil => rfl
  | cons y rest ih =>
      have hy := hless y List.mem_cons_self
      rw [add, if_neg (ne_of_lt hy), if_pos hy,
        ih fun z hz => hless z (List.mem_cons_of_mem y hz)]
      rfl

/-- Sorted entries are added one behind the other. -/
theorem foldl_add_eq_append
    (hsorted : (acc ++ xs).Pairwise fun x y => F.key x < F.key y) :
    xs.foldl (fun acc x => F.add x acc) acc = acc ++ xs := by
  induction xs generalizing acc with
  | nil => rw [List.foldl_nil, List.append_nil]
  | cons x rest ih =>
      have hless : ∀ y ∈ acc, F.key y < F.key x :=
        fun y hy => (List.pairwise_append.mp hsorted).2.2 y hy x List.mem_cons_self
      rw [List.append_cons] at hsorted ⊢
      rw [List.foldl_cons, add_eq_concat hless, ih hsorted]

end Add

section Table

theorem Lists.find?_eq
    (h : F.Lists entry xs) (k : κ) :
    (xs.find? fun x => F.key x = k) = entry k := by
  cases hfind : xs.find? fun x => F.key x = k with
  | some x =>
      have hkey : F.key x = k := by simpa using List.find?_some hfind
      exact ((h.entry_iff k x).mpr ⟨List.mem_of_find?_eq_some hfind, hkey⟩).symm
  | none =>
      rw [List.find?_eq_none] at hfind
      refine (Option.eq_none_iff_forall_ne_some.mpr fun x hx => ?_).symm
      obtain ⟨hmem, hkey⟩ := (h.entry_iff k x).mp hx
      exact hfind x hmem (decide_eq_true hkey)

theorem Canonical.mem_append
    (hxs : F.Canonical size xs)
    (hys : F.Canonical size ys) :
    ∀ x ∈ xs ++ ys, (F.paths x).length = size ∧ (F.paths x).any = true := by
  intro x hx
  rcases List.mem_append.mp hx with hx | hx
  · exact ⟨hxs.length x hx, hxs.any x hx⟩
  · exact ⟨hys.length x hx, hys.any x hx⟩

theorem Canonical.nodup_keys
    (h : F.Canonical size xs) :
    (xs.map F.key).Nodup :=
  List.pairwise_map.mpr (h.sorted.imp ne_of_lt)

/-- To add an entry to a sorted list is to add it to the table that the list stands for. -/
theorem Lists.add
    (h : F.Lists entry acc)
    (hacc : F.Canonical size acc)
    (hx : (F.paths x).length = size ∧ (F.paths x).any = true) :
    F.Lists (F.gather entry x) (F.add x acc) := by
  refine ⟨fun k z => ?_, (hacc.add hx.1 hx.2).nodup_keys⟩
  by_cases hk : k = F.key x
  · subst hk
    rw [gather, Function.update_self, Option.some_inj]
    constructor
    · rintro rfl
      have hkey := F.key_joined x (entry (F.key x))
      refine ⟨?_, hkey⟩
      rw [mem_add_of_eq hacc.sorted hkey, h.find?_eq]
    · rintro ⟨hz, hkey⟩
      rw [mem_add_of_eq hacc.sorted hkey, h.find?_eq] at hz
      exact hz.symm
  · rw [gather, Function.update_of_ne hk, h.entry_iff]
    refine and_congr_left fun hkey => ?_
    rw [mem_add_of_ne (by rwa [hkey])]

theorem lists_foldl_add
    (hxs : ∀ x ∈ xs, (F.paths x).length = size ∧ (F.paths x).any = true)
    (hacc : F.Canonical size acc)
    (h : F.Lists entry acc) :
    F.Lists (xs.foldl F.gather entry) (xs.foldl (fun acc x => F.add x acc) acc) := by
  induction xs generalizing entry acc with
  | nil => exact h
  | cons x rest ih =>
      have hx := hxs x List.mem_cons_self
      exact ih (fun y hy => hxs y (List.mem_cons_of_mem x hy)) (hacc.add hx.1 hx.2) (h.add hacc hx)

theorem lists_table
    (hxs : ∀ x ∈ xs, (F.paths x).length = size ∧ (F.paths x).any = true) :
    F.Lists (F.table xs) (xs.foldl (fun acc x => F.add x acc) []) :=
  lists_foldl_add hxs .nil ⟨by simp, List.nodup_nil⟩

/-- However a table is listed, sorting gives the list to which the entries are added in turn. -/
theorem Lists.sortBy_eq
    {less : α → α → Bool}
    (hless : ∀ x y, less x y = true ↔ F.key x < F.key y)
    (hxs : ∀ x ∈ xs, (F.paths x).length = size ∧ (F.paths x).any = true)
    (h : F.Lists (F.table xs) ys) :
    sortBy less ys = xs.foldl (fun acc x => F.add x acc) [] := by
  have hadded := lists_table hxs
  have hsorted := (Canonical.foldl_add hxs .nil).sorted
  have hperm : ys.Perm (xs.foldl (fun acc x => F.add x acc) []) := by
    refine (List.perm_ext_iff_of_nodup h.nodup.of_map hadded.nodup.of_map).mpr fun x => ?_
    have hx := (h.entry_iff (F.key x) x).symm.trans (hadded.entry_iff (F.key x) x)
    simpa using hx
  exact eq_of_perm_of_pairwise hless ((sortBy_perm ys).trans hperm)
    (sortBy_pairwise hless h.nodup) (hsorted.imp fun hlt => (hless _ _).mpr hlt)

end Table

end EntryFields

namespace Expr

variable {κ μ : Type} {a b c e : Expr κ} {place : Place} {id size : Nat} {s t : Bits}

theorem test_mapLabels
    (f : κ → μ) (e : Expr κ) :
    (e.mapLabels f).test place id = e.test place id := by
  cases place with
  | node v => rfl
  | edge b => simp only [test, mapLabels, EntryFields.test, List.any_map]; rfl

theorem Canonical.mapLabels
    (f : κ → μ)
    (h : e.Canonical size) :
    (e.mapLabels f).Canonical size := by
  refine ⟨h.endings, List.pairwise_map.mpr h.conns.sorted, ?_, ?_⟩
  · intro c hc
    obtain ⟨d, hd, rfl⟩ := List.mem_map.mp hc
    exact h.conns.length d hd
  · intro c hc
    obtain ⟨d, hd, rfl⟩ := List.mem_map.mp hc
    exact h.conns.any d hd

/-- Canonical expressions are the same exactly if they have the same paths at every place. -/
theorem Canonical.same_iff
    {b : Expr μ}
    (ha : a.Canonical size)
    (hb : b.Canonical size) :
    a.same b = true ↔ ∀ place id, a.test place id = b.test place id := by
  rw [same, decide_eq_true_iff]
  constructor
  · intro h place id
    rw [← test_mapLabels (fun _ => ()) a, h, test_mapLabels]
  · intro h
    refine (ha.mapLabels _).ext (hb.mapLabels _) fun place id => ?_
    rw [test_mapLabels, test_mapLabels, h]

/-- An empty expression need not be passed over: the entries of the other one would be added in
turn, and they are sorted. -/
theorem Canonical.merge_eq_foldl
    (ha : a.Canonical size)
    (hb : b.Canonical size) :
    a.merge b =
      ⟨(a.endings ++ b.endings).foldl (fun acc x => Ending.fields.add x acc) [],
        (a.conns ++ b.conns).foldl (fun acc c => (Conn.fields κ).add c acc) []⟩ := by
  have hadd : ∀ {e : Expr κ}, e.Canonical size →
      e.endings.foldl (fun acc x => Ending.fields.add x acc) [] = e.endings ∧
        e.conns.foldl (fun acc c => (Conn.fields κ).add c acc) [] = e.conns :=
    fun he => ⟨EntryFields.foldl_add_eq_append he.endings.sorted,
      EntryFields.foldl_add_eq_append he.conns.sorted⟩
  unfold Expr.merge
  split
  · rename_i hempty
    rw [isEmpty, Bool.and_eq_true, List.isEmpty_iff, List.isEmpty_iff] at hempty
    rw [hempty.1, hempty.2, List.append_nil, List.append_nil, (hadd ha).1, (hadd ha).2]
  · split
    · rename_i hempty
      rw [isEmpty, Bool.and_eq_true, List.isEmpty_iff, List.isEmpty_iff] at hempty
      rw [hempty.1, hempty.2, List.nil_append, List.nil_append, (hadd hb).1, (hadd hb).2]
    · simp only [addEnding_eq, addConn_eq]

/-- The union of canonical expressions has the entries of two tables. -/
theorem Canonical.lists_merge
    (ha : a.Canonical size)
    (hb : b.Canonical size) :
    Ending.fields.Lists (Ending.fields.table (a.endings ++ b.endings)) (a.merge b).endings ∧
      (Conn.fields κ).Lists ((Conn.fields κ).table (a.conns ++ b.conns)) (a.merge b).conns := by
  rw [ha.merge_eq_foldl hb]
  exact ⟨EntryFields.lists_table (ha.endings.mem_append hb.endings),
    EntryFields.lists_table (ha.conns.mem_append hb.conns)⟩

/-- The union of canonical expressions is found by sorting the entries of two tables, in whatever
order the tables are listed. -/
theorem Canonical.merge_eq_sortBy
    {endings : List Ending} {conns : List (Conn κ)}
    (ha : a.Canonical size)
    (hb : b.Canonical size)
    (hendings : Ending.fields.Lists (Ending.fields.table (a.endings ++ b.endings)) endings)
    (hconns : (Conn.fields κ).Lists ((Conn.fields κ).table (a.conns ++ b.conns)) conns) :
    a.merge b = ⟨sortBy (fun x y => x.node < y.node) endings,
      sortBy (fun c d => c.edge.less d.edge) conns⟩ := by
  have hnode : ∀ x y : Ending, decide (x.node < y.node) = true ↔
      Ending.fields.key x < Ending.fields.key y :=
    fun _ _ => decide_eq_true_iff
  have hedge : ∀ c d : Conn κ, c.edge.less d.edge = true ↔
      (Conn.fields κ).key c < (Conn.fields κ).key d :=
    fun c d => Edge.less_iff c.edge d.edge
  rw [ha.merge_eq_foldl hb, hendings.sortBy_eq hnode (ha.endings.mem_append hb.endings),
    hconns.sortBy_eq hedge (ha.conns.mem_append hb.conns)]

theorem Canonical.copy
    {x : Option (Expr κ)}
    (hx : ∀ e ∈ x, e.Canonical size) :
    (copy x).Canonical size := by
  cases x with
  | none => exact .empty
  | some e => exact hx e rfl

/-- Operations on canonical expressions give canonical ones, where nothing counts as empty.  Up to
sameness, the union is commutative, associative and idempotent with the empty expression as its
identity; to keep some of the paths distributes over it, is composed by intersection, and keeps a
part that the whole absorbs.  Expressions are the same exactly if they have the same paths at every
node and every back edge; the union has those of both, whatever the order in which its entries are
collected. -/
theorem merge_restrict_laws
    (x y z : Option (Expr κ))
    (hx : ∀ e ∈ x, e.Canonical size)
    (hy : ∀ e ∈ y, e.Canonical size)
    (hz : ∀ e ∈ z, e.Canonical size)
    (hs : s.length = size)
    (ht : t.length = size) :
    let a := copy x
    let b := copy y
    let c := copy z
    (a.Canonical size ∧ (a.merge b).Canonical size ∧ (a.restrict s).Canonical size ∧
      ∀ (label : μ) edge, (a.extend label edge s).Canonical size) ∧
    ((a.merge b).same (b.merge a) ∧ ((a.merge b).merge c).same (a.merge (b.merge c)) ∧
      (a.merge a).same a ∧ (a.merge empty).same a ∧ (empty.merge a).same a) ∧
    (((a.merge b).restrict s).same ((a.restrict s).merge (b.restrict s)) ∧
      ((a.restrict s).restrict t).same (a.restrict (s.inter t)) ∧
      (a.merge (a.restrict s)).same a) ∧
    (a.same b ↔ ∀ place id, a.test place id = b.test place id) ∧
    (∀ place id, (a.merge b).test place id = (a.test place id || b.test place id)) ∧
    (Ending.fields.Lists (Ending.fields.table (a.endings ++ b.endings)) (a.merge b).endings ∧
      (Conn.fields κ).Lists ((Conn.fields κ).table (a.conns ++ b.conns)) (a.merge b).conns) ∧
    ∀ endings conns,
      Ending.fields.Lists (Ending.fields.table (a.endings ++ b.endings)) endings →
      (Conn.fields κ).Lists ((Conn.fields κ).table (a.conns ++ b.conns)) conns →
      a.merge b = ⟨sortBy (fun x y => x.node < y.node) endings,
        sortBy (fun c d => c.edge.less d.edge) conns⟩ := by
  intro a b c
  have ha : a.Canonical size := .copy hx
  have hb : b.Canonical size := .copy hy
  have hc : c.Canonical size := .copy hz
  have hst : (s.inter t).length = size := by rw [Bits.length_inter, hs, ht, Nat.min_self]
  refine ⟨⟨ha, ha.merge hb, ha.restrict hs, .extend hs a⟩, ⟨?_, ?_, ?_, ?_, ?_⟩, ⟨?_, ?_, ?_⟩,
    ha.same_iff hb, fun place id => test_merge a b, ha.lists_merge hb,
    fun _ _ => ha.merge_eq_sortBy hb⟩
  · refine ((ha.merge hb).same_iff (hb.merge ha)).mpr fun place id => ?_
    rw [test_merge, test_merge, Bool.or_comm]
  · refine (((ha.merge hb).merge hc).same_iff (ha.merge (hb.merge hc))).mpr fun place id => ?_
    simp only [test_merge, Bool.or_assoc]
  · refine ((ha.merge ha).same_iff ha).mpr fun place id => ?_
    rw [test_merge, Bool.or_self]
  · refine ((ha.merge .empty).same_iff ha).mpr fun place id => ?_
    rw [test_merge, test_empty, Bool.or_false]
  · refine ((Canonical.empty.merge ha).same_iff ha).mpr fun place id => ?_
    rw [test_merge, test_empty, Bool.false_or]
  · refine (((ha.merge hb).restrict hs).same_iff ((ha.restrict hs).merge (hb.restrict hs))).mpr
      fun place id => ?_
    simp only [test_merge, test_restrict, Bool.and_or_distrib_right]
  · refine (((ha.restrict hs).restrict ht).same_iff (ha.restrict hst)).mpr fun place id => ?_
    simp only [test_restrict, Bits.test_inter, Bool.and_assoc]
  · refine ((ha.merge (ha.restrict hs)).same_iff ha).mpr fun place id => ?_
    rw [test_merge, test_restrict]
    exact sup_inf_self

/-- An expression with one ending. -/
def calledTwice : Expr Unit := { endings := [⟨5, .ofList 4 [0, 1]⟩] }

/-- An expression with two endings and a back edge. -/
def calledInLoop : Expr Unit where
  endings := [⟨5, .ofList 4 [2]⟩, ⟨6, .ofList 4 [3]⟩]
  conns := [⟨⟨4, 3⟩, .ofList 4 [1], ()⟩]

/-- Two expressions share a node, and nothing is the third one. -/
theorem merge_restrict_laws_called :
    (∀ e ∈ some calledTwice, e.Canonical 4) ∧ (∀ e ∈ some calledInLoop, e.Canonical 4) ∧
      (calledTwice.merge calledInLoop).endings =
        [⟨5, .ofList 4 [0, 1, 2]⟩, ⟨6, .ofList 4 [3]⟩] ∧
      ((calledTwice.merge calledInLoop).restrict (.ofList 4 [1, 3])).same
        ((calledTwice.restrict (.ofList 4 [1, 3])).merge
          (calledInLoop.restrict (.ofList 4 [1, 3]))) := by
  have htwice : calledTwice.Canonical 4 :=
    ⟨⟨by decide, by decide, by decide⟩, .nil⟩
  have hloop : calledInLoop.Canonical 4 :=
    ⟨⟨by decide, by decide, by decide⟩, ⟨by decide, by decide, by decide⟩⟩
  have hx : ∀ e ∈ some calledTwice, e.Canonical 4 := by simpa using htwice
  have hy : ∀ e ∈ some calledInLoop, e.Canonical 4 := by simpa using hloop
  refine ⟨hx, hy, by decide, ?_⟩
  have hlaws := @merge_restrict_laws Unit Unit 4 (.ofList 4 [1, 3]) (.ofList 4 [3])
    (some calledTwice) (some calledInLoop) none hx hy (by simp) rfl rfl
  exact hlaws.2.2.1.1

end Expr
end DefUse
