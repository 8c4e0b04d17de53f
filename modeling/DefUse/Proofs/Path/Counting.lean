import DefUse.Proofs.Path.Acyclic
import Mathlib.Data.Finset.Card

/-!
# The number of paths

**Method.** The paths from a node are listed edge by edge, in the order in which they will be
numbered; the rank of the node bounds the recursion.  The table of counts is filled from the sinks,
so that the counts of the targets of an edge are final when they are added up.  A sum that is cut
off at the limit never leaves the range of 64 bits, as long as the limit or the sum is below
`2 ^ 62`.

**Results.** `mem_pathsFrom_iff` and `pathsFrom_nodup`: the list holds every path once;
`toInt_countAt` and `toInt_countAt_of_le`: a count is the length of the list, cut off at the limit,
whatever the limit as long as nothing is cut off.
-/

namespace DefUse

section Words

/-- A sum in the range of 64 bits is not wrapped. -/
theorem toInt_add_eq
    {a b : Int64}
    (hlow : -2 ^ 63 ≤ a.toInt + b.toInt)
    (hhigh : a.toInt + b.toInt < 2 ^ 63) :
    (a + b).toInt = a.toInt + b.toInt := by
  rw [Int64.toInt_add, Int.bmod_eq_of_le] <;> omega

/-- A difference in the range of 64 bits is not wrapped. -/
theorem toInt_sub_eq
    {a b : Int64}
    (hlow : -2 ^ 63 ≤ a.toInt - b.toInt)
    (hhigh : a.toInt - b.toInt < 2 ^ 63) :
    (a - b).toInt = a.toInt - b.toInt := by
  rw [Int64.toInt_sub, Int.bmod_eq_of_le] <;> omega

end Words

namespace Procedure

variable {f : Procedure} {v : Int} {e : PathEdge} {path : List PathEdge} {rank : Int → Nat}

/-- The paths from a node to the exit with at most the given number of edges, in order. -/
def pathsWithin (f : Procedure) : Nat → Int → List (List PathEdge)
  | 0, v => if v = exitId then [[]] else []
  | n + 1, v =>
    if v = exitId then [[]]
    else (f.outEdges v).flatMap fun e => (f.pathsWithin n e.target).map (e :: ·)

/-- The paths from a node to the exit, in order. -/
def pathsFrom (f : Procedure) (v : Int) : List (List PathEdge) := f.pathsWithin f.ids.length v

/-- The number of paths from a node to the exit. -/
def pathCount (f : Procedure) (v : Int) : Nat := (f.pathsFrom v).length

/-- The number of paths that start with one of the edges. -/
def pathSum (f : Procedure) (es : List PathEdge) : Nat :=
  (es.map fun e => f.pathCount e.target).sum

section Paths

/-- With enough steps allowed every path to the exit is listed, and nothing else. -/
theorem Ranks.mem_pathsWithin_iff
    (hr : f.Ranks rank)
    (hf : f.Simple)
    (n : Nat) :
    ∀ {v : Int} {path : List PathEdge},
      path ∈ f.pathsWithin n v ↔ f.IsPathFrom v path ∧ path.length ≤ n := by
  induction n with
  | zero =>
      intro v path
      unfold pathsWithin
      rw [List.mem_ite_nil_right, List.mem_singleton]
      constructor
      · rintro ⟨hv, rfl⟩
        exact ⟨hv, Nat.le_refl 0⟩
      · rintro ⟨hpath, hlen⟩
        obtain rfl := List.eq_nil_of_length_eq_zero (Nat.le_zero.mp hlen)
        exact ⟨hpath, rfl⟩
  | succ n ih =>
      intro v path
      unfold pathsWithin
      split
      · rename_i hv
        rw [List.mem_singleton]
        constructor
        · rintro rfl
          exact ⟨hv, Nat.zero_le _⟩
        · rintro ⟨hpath, -⟩
          cases path with
          | nil => rfl
          | cons e rest => exact absurd (hpath.2.1.trans hv) (hr.source_ne_exit hf hpath.1)
      · rename_i hv
        rw [List.mem_flatMap]
        constructor
        · rintro ⟨e, he, hmem⟩
          obtain ⟨rest, hrest, rfl⟩ := List.mem_map.mp hmem
          obtain ⟨hedge, hsource⟩ := hf.mem_outEdges_iff.mp he
          obtain ⟨hpath, hlen⟩ := ih.mp hrest
          exact ⟨⟨hedge, hsource, hpath⟩, Nat.succ_le_succ hlen⟩
        · rintro ⟨hpath, hlen⟩
          cases path with
          | nil => exact absurd hpath hv
          | cons e rest =>
              obtain ⟨hedge, hsource, hrest⟩ := hpath
              refine ⟨e, hf.mem_outEdges_iff.mpr ⟨hedge, hsource⟩, List.mem_map_of_mem ?_⟩
              exact ih.mpr ⟨hrest, Nat.le_of_succ_le_succ hlen⟩

/-- The list holds the paths from a node to the exit. -/
theorem Ranks.mem_pathsFrom_iff
    (hr : f.Ranks rank)
    (hf : f.Simple) :
    path ∈ f.pathsFrom v ↔ f.IsPathFrom v path := by
  unfold pathsFrom
  rw [hr.mem_pathsWithin_iff hf, and_iff_left_iff_imp]
  intro hpath
  cases path with
  | nil => exact Nat.zero_le _
  | cons e rest =>
      have hlen := hr.length_le hpath
      have hbound := hr.bound e.source (hf.source_mem hpath.1)
      rw [← hpath.2.1] at hlen
      omega

/-- No path from a node is longer than its rank, so more steps list nothing more. -/
theorem Ranks.pathsWithin_succ
    (hr : f.Ranks rank)
    (hf : f.Simple)
    (n : Nat) :
    ∀ {v : Int}, rank v ≤ n → f.pathsWithin n v = f.pathsWithin (n + 1) v := by
  induction n with
  | zero =>
      intro v hv
      have hnone : f.outEdges v = [] := by
        rw [List.eq_nil_iff_forall_not_mem]
        intro e he
        obtain ⟨hedge, rfl⟩ := hf.mem_outEdges_iff.mp he
        have := hr.edge e hedge
        omega
      rw [pathsWithin, pathsWithin, hnone]
      rfl
  | succ n ih =>
      intro v hv
      rw [pathsWithin.eq_2, pathsWithin.eq_2]
      split
      · rfl
      · refine List.flatMap_congr fun e he => ?_
        obtain ⟨hedge, rfl⟩ := hf.mem_outEdges_iff.mp he
        have := hr.edge e hedge
        rw [ih (by omega)]

/-- The paths from a node are the paths of its edges, one edge after the other. -/
theorem Ranks.pathsFrom_eq
    (hr : f.Ranks rank)
    (hf : f.Simple)
    (hv : v ∈ f.ids)
    (hexit : v ≠ exitId) :
    f.pathsFrom v = (f.outEdges v).flatMap fun e => (f.pathsFrom e.target).map (e :: ·) := by
  unfold pathsFrom
  rw [hr.pathsWithin_succ hf _ (hr.bound v hv).le, pathsWithin, if_neg hexit]

/-- The only path from the exit is the empty one. -/
theorem pathsFrom_exit : f.pathsFrom exitId = [[]] := by
  unfold pathsFrom
  cases f.ids.length <;> simp [pathsWithin]

theorem pathCount_exit : f.pathCount exitId = 1 := by
  rw [pathCount, pathsFrom_exit]
  rfl

theorem length_flatMap_paths
    (es : List PathEdge) :
    (es.flatMap fun e => (f.pathsFrom e.target).map (e :: ·)).length = f.pathSum es := by
  unfold pathSum pathCount
  simp [List.length_flatMap]

/-- The paths from a node are counted by their first edges. -/
theorem Ranks.pathCount_eq
    (hr : f.Ranks rank)
    (hf : f.Simple)
    (hv : v ∈ f.ids)
    (hexit : v ≠ exitId) :
    f.pathCount v = f.pathSum (f.outEdges v) := by
  rw [pathCount, hr.pathsFrom_eq hf hv hexit, length_flatMap_paths]

@[simp] theorem pathSum_nil : f.pathSum [] = 0 := rfl

@[simp] theorem pathSum_cons
    (e : PathEdge) (es : List PathEdge) :
    f.pathSum (e :: es) = f.pathCount e.target + f.pathSum es := by
  simp [pathSum]

/-- The paths behind one edge are among those behind all. -/
theorem pathCount_le_pathSum
    {es : List PathEdge}
    (he : e ∈ es) :
    f.pathCount e.target ≤ f.pathSum es :=
  List.single_le_sum (fun _ _ => Nat.zero_le _) _ (List.mem_map_of_mem he)

/-- No path is listed twice. -/
theorem Simple.pathsWithin_nodup
    (hf : f.Simple)
    (n : Nat) :
    ∀ v, (f.pathsWithin n v).Nodup := by
  induction n with
  | zero =>
      intro v
      unfold pathsWithin
      split
      · exact List.nodup_singleton _
      · exact List.nodup_nil
  | succ n ih =>
      intro v
      unfold pathsWithin
      split
      · exact List.nodup_singleton _
      · refine List.nodup_flatMap.mpr ⟨?_, (hf.outEdges_nodup v).imp ?_⟩
        · intro e _
          exact (ih e.target).map (List.cons_injective)
        · intro e e' hne
          refine List.disjoint_left.mpr ?_
          intro path hpath hpath'
          obtain ⟨rest, -, rfl⟩ := List.mem_map.mp hpath
          obtain ⟨rest', -, heq⟩ := List.mem_map.mp hpath'
          exact hne (List.cons.inj heq).1.symm

/-- No path is listed twice: paths that begin with different edges differ. -/
theorem Simple.pathsFrom_nodup
    (hf : f.Simple)
    (v : Int) :
    (f.pathsFrom v).Nodup :=
  hf.pathsWithin_nodup _ v

/-- The paths from the entry to the exit are finitely many, and at most so many. -/
def HasAtMost (f : Procedure) (n : Int) : Prop :=
  ∃ paths : Finset (List PathEdge), (∀ path, path ∈ paths ↔ f.IsPath path) ∧ (paths.card : Int) ≤ n

/-- The paths from the entry to the exit are finitely many, and so many. -/
def HasExactly (f : Procedure) (n : Int) : Prop :=
  ∃ paths : Finset (List PathEdge), (∀ path, path ∈ paths ↔ f.IsPath path) ∧ (paths.card : Int) = n

/-- The paths that are counted are those from the entry to the exit. -/
theorem Ranks.mem_toFinset_iff
    (hr : f.Ranks rank)
    (hf : f.Simple)
    (path : List PathEdge) :
    path ∈ (f.pathsFrom entryId).toFinset ↔ f.IsPath path := by
  rw [List.mem_toFinset, hr.mem_pathsFrom_iff hf, IsPath]

/-- A set of all paths has as many members as the entry has paths. -/
theorem Ranks.card_eq
    (hr : f.Ranks rank)
    (hf : f.Simple)
    {paths : Finset (List PathEdge)}
    (hpaths : ∀ path, path ∈ paths ↔ f.IsPath path) :
    paths.card = f.pathCount entryId := by
  obtain rfl : paths = (f.pathsFrom entryId).toFinset := by
    ext path
    rw [hpaths, hr.mem_toFinset_iff hf]
  exact List.toFinset_card_of_nodup (hf.pathsFrom_nodup entryId)

/-- A bound on the number of paths is a bound on the count. -/
theorem Ranks.hasAtMost_iff
    (hr : f.Ranks rank)
    (hf : f.Simple)
    {n : Int} :
    f.HasAtMost n ↔ (f.pathCount entryId : Int) ≤ n := by
  constructor
  · rintro ⟨paths, hpaths, hle⟩
    rwa [hr.card_eq hf hpaths] at hle
  · intro hle
    have hpaths := hr.mem_toFinset_iff hf
    exact ⟨_, hpaths, by rwa [hr.card_eq hf hpaths]⟩

/-- The number of paths is the count. -/
theorem Ranks.hasExactly_iff
    (hr : f.Ranks rank)
    (hf : f.Simple)
    {n : Int} :
    f.HasExactly n ↔ (f.pathCount entryId : Int) = n := by
  constructor
  · rintro ⟨paths, hpaths, heq⟩
    rwa [hr.card_eq hf hpaths] at heq
  · intro heq
    have hpaths := hr.mem_toFinset_iff hf
    exact ⟨_, hpaths, by rwa [hr.card_eq hf hpaths]⟩

end Paths

section Counts

open DefUse.Numbering

/-- The ranges of edges depend on the counts of their targets only. -/
theorem ranges_congr
    {counts counts' : Array Int64} {limit : Int64} {es : List PathEdge}
    (h : ∀ e ∈ es, countAt counts e.target = countAt counts' e.target)
    (total : Int64) :
    ranges counts limit total es = ranges counts' limit total es := by
  induction es generalizing total with
  | nil => rfl
  | cons e es ih =>
      simp only [ranges, h e List.mem_cons_self, ih fun x hx => h x (List.mem_cons_of_mem e hx)]

/-- The value that is stored for a node. -/
def tally (out : Array (List PathEdge)) (limit : Int64) (counts : Array Int64) (v : Int) : Int64 :=
  if v = exitId then 1 else (ranges counts limit 0 ((item? out v).getD [])).2

/-- The table with the values of some nodes stored one after the other. -/
def tallyAll (out : Array (List PathEdge)) (limit : Int64) (counts : Array Int64)
    (nodes : List Int) : Array Int64 :=
  nodes.foldl (fun counts v => store counts v (tally out limit counts v)) counts

/-- Counting keeps the number of nodes. -/
theorem size_tallyAll
    (out : Array (List PathEdge)) (limit : Int64) (nodes : List Int) (counts : Array Int64) :
    (tallyAll out limit counts nodes).size = counts.size := by
  induction nodes generalizing counts with
  | nil => rfl
  | cons v nodes ih =>
      rw [tallyAll, List.foldl_cons]
      exact (ih _).trans (size_store _ _ _)

/-- A node that is not visited keeps its count. -/
theorem countAt_tallyAll_of_not_mem
    {out : Array (List PathEdge)} {limit : Int64} {nodes : List Int}
    (hv : v ∉ nodes)
    (counts : Array Int64) :
    countAt (tallyAll out limit counts nodes) v = countAt counts v := by
  induction nodes generalizing counts with
  | nil => rfl
  | cons u nodes ih =>
      rw [List.mem_cons, not_or] at hv
      rw [tallyAll, List.foldl_cons]
      refine (ih hv.2 _).trans ?_
      rw [countAt, item?_store, if_neg fun h => hv.1 h.1.symm]
      rfl

/-- In an order with the sinks first, the counts that are added up are final. -/
theorem countAt_countPaths
    {out : Array (List PathEdge)} {order : List Int}
    (hsinks : Digraph.SinksFirst (fun v => ((item? out v).getD []).map PathEdge.target) order)
    (hnodup : order.Nodup)
    (hv : v ∈ order)
    (hrow : v ∈ positions out.size)
    (limit : Int64) :
    countAt (countPaths out limit order) v = tally out limit (countPaths out limit order) v := by
  obtain ⟨front, back, rfl⟩ := List.append_of_mem hv
  have hlater : ∀ u ∈ v :: back, u ∉ front := fun u hu hmem =>
    (List.nodup_append.mp hnodup).2.2 u hmem u hu rfl
  have hback : v ∉ back := (List.nodup_cons.mp (List.nodup_append.mp hnodup).2.1).1
  let before := tallyAll out limit (Array.replicate out.size 0) front
  have hfinal : countPaths out limit (front ++ v :: back) =
      tallyAll out limit (store before v (tally out limit before v)) back := by
    unfold countPaths
    rw [List.foldl_append, List.foldl_cons]
    rfl
  have hsame : ∀ u ∈ front,
      countAt (countPaths out limit (front ++ v :: back)) u = countAt before u := by
    intro u hu
    have hne : u ∉ v :: back := fun hmem => hlater u hmem hu
    rw [List.mem_cons, not_or] at hne
    rw [hfinal, countAt_tallyAll_of_not_mem hne.2, countAt, item?_store,
      if_neg fun h => hne.1 h.1.symm]
    rfl
  have hstored : countAt (countPaths out limit (front ++ v :: back)) v =
      tally out limit before v := by
    have hsize : before.size = out.size := by
      rw [size_tallyAll, Array.size_replicate]
    rw [hfinal, countAt_tallyAll_of_not_mem hback, countAt, item?_store,
      if_pos ⟨rfl, by rw [hsize]; exact hrow⟩]
    rfl
  rw [hstored]
  unfold tally
  split
  · rfl
  · rw [ranges_congr]
    intro e he
    exact (hsame e.target (hsinks front v back rfl _ (List.mem_map_of_mem he))).symm

/-- The sum of some counts is cut off at the limit. -/
theorem toInt_ranges
    {counts : Array Int64} {limit : Int64} {es : List PathEdge}
    (hlow : 0 ≤ limit.toInt)
    (hhigh : limit.toInt ≤ 2 ^ 62)
    (hcounts : ∀ e ∈ es,
      (countAt counts e.target).toInt = min (f.pathCount e.target : Int) limit.toInt) :
    ∀ {t : Nat} {total : Int64},
      ((t + f.pathSum es : Nat) : Int) < 2 ^ 62 ∨ limit.toInt < 2 ^ 62 →
      total.toInt = min (t : Int) limit.toInt →
      (ranges counts limit total es).2.toInt =
        min ((t + f.pathSum es : Nat) : Int) limit.toInt := by
  induction es with
  | nil =>
      intro t total _ htotal
      exact htotal
  | cons e es ih =>
      intro t total hsafe htotal
      rw [pathSum_cons, ← Nat.add_assoc] at hsafe ⊢
      have hcount := hcounts e List.mem_cons_self
      -- both summands are at most the limit, so only two of `2 ^ 62` could overflow
      have hnext : (total + countAt counts e.target).toInt =
          min (t : Int) limit.toInt + min (f.pathCount e.target : Int) limit.toInt := by
        rw [toInt_add_eq, htotal, hcount] <;> omega
      refine ih (fun x hx => hcounts x (List.mem_cons_of_mem e hx)) hsafe ?_
      split
      · rename_i hover
        rw [gt_iff_lt, Int64.lt_iff_toInt_lt, hnext] at hover
        omega
      · rename_i hunder
        rw [gt_iff_lt, Int64.lt_iff_toInt_lt, hnext] at hunder
        rw [hnext]
        omega

/-- A sum of counts that is not above the limit is not cut off and does not overflow. -/
theorem toInt_ranges_of_le
    {counts : Array Int64} {limit : Int64} {es : List PathEdge}
    (hcounts : ∀ e ∈ es, (countAt counts e.target).toInt = f.pathCount e.target) :
    ∀ {t : Nat} {total : Int64}, ((t + f.pathSum es : Nat) : Int) ≤ limit.toInt →
      total.toInt = t →
      (ranges counts limit total es).2.toInt = ((t + f.pathSum es : Nat) : Int) := by
  have hrange := Int64.toInt_lt limit
  induction es with
  | nil =>
      intro t total _ htotal
      exact htotal
  | cons e es ih =>
      intro t total hfew htotal
      rw [pathSum_cons, ← Nat.add_assoc] at hfew ⊢
      have hcount := hcounts e List.mem_cons_self
      have hnext : (total + countAt counts e.target).toInt =
          ((t + f.pathCount e.target : Nat) : Int) := by
        rw [toInt_add_eq, htotal, hcount] <;> omega
      refine ih (fun x hx => hcounts x (List.mem_cons_of_mem e hx)) hfew ?_
      rw [if_neg, hnext]
      rw [gt_iff_lt, Int64.lt_iff_toInt_lt, hnext]
      omega

/-- The table of the numbers of paths, cut off at a limit. -/
def counts (f : Procedure) (limit : Int64) (order : List Int) : Array Int64 :=
  countPaths (f.pathEdges f.backEdges) limit order

/-- In an order in which every node comes after its successors, the count of a node is the sum over
its edges. -/
theorem countAt_counts
    {order : List Int}
    (h : f.acyclic.IsSinkOrder order)
    (hv : v ∈ f.ids)
    (limit : Int64) :
    countAt (f.counts limit order) v =
      if v = exitId then 1 else (ranges (f.counts limit order) limit 0 (f.outEdges v)).2 := by
  obtain ⟨hsinks, hperm⟩ := h
  refine countAt_countPaths hsinks (hperm.nodup_iff.mpr (positions_nodup _))
    (hperm.mem_iff.mpr hv) ?_ limit
  simpa [pathEdges, ids, positions] using hv

/-- A count is the number of paths from the node, cut off at the limit. -/
theorem toInt_countAt
    {order : List Int} {limit : Int64}
    (hf : f.Simple)
    (h : f.acyclic.IsSinkOrder order)
    (hlow : 1 ≤ limit.toInt)
    (hhigh : limit.toInt ≤ 2 ^ 62)
    (hv : v ∈ f.ids)
    (hsafe : (f.pathCount v : Int) < 2 ^ 62 ∨ limit.toInt < 2 ^ 62) :
    (countAt (f.counts limit order) v).toInt = min (f.pathCount v : Int) limit.toInt := by
  have hr := hf.ranks h
  induction hrank : order.idxOf v using Nat.strong_induction_on generalizing v with
  | _ r ih =>
      subst hrank
      rw [countAt_counts h hv]
      split
      · rename_i hexit
        rw [hexit, pathCount_exit, show (1 : Int64).toInt = 1 from rfl]
        omega
      · rename_i hexit
        rw [hr.pathCount_eq hf hv hexit] at hsafe ⊢
        rw [toInt_ranges (t := 0) (by omega) hhigh, Nat.zero_add]
        · intro e he
          obtain ⟨hedge, rfl⟩ := hf.mem_outEdges_iff.mp he
          have hle : f.pathCount e.target ≤ f.pathSum (f.outEdges e.source) :=
            pathCount_le_pathSum he
          exact ih _ (hr.edge e hedge) (hf.target_mem hedge) (by omega) rfl
        · rw [Nat.zero_add]
          exact hsafe
        · rw [show (0 : Int64).toInt = 0 from rfl]
          omega

/-- A count is the number of paths from the node, if that is not above the limit. -/
theorem toInt_countAt_of_le
    {order : List Int} {limit : Int64}
    (hf : f.Simple)
    (h : f.acyclic.IsSinkOrder order)
    (hv : v ∈ f.ids)
    (hfew : (f.pathCount v : Int) ≤ limit.toInt) :
    (countAt (f.counts limit order) v).toInt = f.pathCount v := by
  have hr := hf.ranks h
  induction hrank : order.idxOf v using Nat.strong_induction_on generalizing v with
  | _ r ih =>
      subst hrank
      rw [countAt_counts h hv]
      split
      · rename_i hexit
        rw [hexit, pathCount_exit]
        rfl
      · rename_i hexit
        rw [hr.pathCount_eq hf hv hexit] at hfew ⊢
        rw [toInt_ranges_of_le (t := 0) ?_ (by rwa [Nat.zero_add]) rfl, Nat.zero_add]
        intro e he
        obtain ⟨hedge, rfl⟩ := hf.mem_outEdges_iff.mp he
        have hle : f.pathCount e.target ≤ f.pathSum (f.outEdges e.source) :=
          pathCount_le_pathSum he
        exact ih _ (hr.edge e hedge) (hf.target_mem hedge) (by omega) rfl

end Counts

end Procedure
end DefUse
