import DefUse.Proofs.Path.Numbering

/-!
# The bound on the number of paths

A procedure with more paths than the bound is refused, any other one is told its number of paths.
The counts are 64-bit words that are cut off one above the bound.

**Method.** Two counts that were cut off overflow when they are added only if the bound is at least
`2 ^ 62 - 1`.  Nothing is cut off in a procedure that keeps to its bound, so nothing can overflow
there.  One above the largest word is the smallest one, to which everything is cut off.

**Results.** `numbering_cap_exact`: below `2 ^ 62 - 1` the bound is exact; above it is exact for the
procedures that keep to it; as the largest word it is wrong for every procedure with an edge at its
entry.
-/

namespace DefUse
namespace Numbering

open Procedure

variable {sort : TopologicalSort} {f : Procedure} {nb : Numbering} {bound : Int64}
  {order : List Int}

/-- A procedure is refused exactly if it has more paths than the bound; otherwise it is numbered,
and its number of paths is right. -/
structure CapExact (sort : TopologicalSort) (f : Procedure) (bound : Int64) : Prop where
  refused : ofProcedure sort f bound = .error (.tooManyPaths f.name bound.toInt) ↔
    ¬ f.HasAtMost bound.toInt
  counted : f.HasAtMost bound.toInt →
    ∃ nb, ofProcedure sort f bound = .ok nb ∧ f.HasExactly nb.numPaths.toInt

/-- The count of the entry decides on the bound. -/
theorem capExact_iff
    (hsort : sort.IsExact)
    (hf : f.Simple)
    (h : sort f.acyclic = some order) :
    CapExact sort f bound ↔
      (bound.toInt < (countAt (f.counts (bound + 1) order.reverse) entryId).toInt ↔
        bound.toInt < f.pathCount entryId) ∧
      ((f.pathCount entryId : Int) ≤ bound.toInt →
        (countAt (f.counts (bound + 1) order.reverse) entryId).toInt =
          f.pathCount entryId) := by
  have hr := hf.ranks (hf.isSinkOrder hsort h)
  rw [← Int64.lt_iff_toInt_lt]
  rcases ofProcedure_of_order hsort hf h bound with ⟨hmany, herror⟩ | ⟨nb, hok, hnumbers⟩
  · rw [iff_true_left hmany]
    constructor
    · rintro ⟨hrefused, -⟩
      have hmore := hrefused.mp herror
      rw [hr.hasAtMost_iff hf, not_le] at hmore
      exact ⟨hmore, fun hfew => absurd hfew (not_le.mpr hmore)⟩
    · rintro ⟨hmore, -⟩
      have hnot : ¬ f.HasAtMost bound.toInt := by
        rw [hr.hasAtMost_iff hf, not_le]
        exact hmore
      exact ⟨iff_of_true herror hnot, fun hfew => absurd hfew hnot⟩
  · have hcount : nb.numPaths = countAt (f.counts (bound + 1) order.reverse) entryId := by
      rw [numPaths, hnumbers.counts]
    have hfew := hnumbers.few
    rw [hcount] at hfew
    rw [iff_false_left hfew, not_lt]
    constructor
    · rintro ⟨hrefused, hcounted⟩
      have hmost : f.HasAtMost bound.toInt := by
        by_contra hnot
        exact absurd (hok.symm.trans (hrefused.mpr hnot)) (by simp)
      obtain ⟨nb', hok', hexactly⟩ := hcounted hmost
      obtain rfl : nb' = nb := Except.ok.inj (hok'.symm.trans hok)
      rw [hcount, hr.hasExactly_iff hf] at hexactly
      exact ⟨(hr.hasAtMost_iff hf).mp hmost, fun _ => hexactly.symm⟩
    · rintro ⟨hle, hexact⟩
      have hmost : f.HasAtMost bound.toInt := (hr.hasAtMost_iff hf).mpr hle
      refine ⟨iff_of_false (by rw [hok]; simp) (not_not.mpr hmost), fun _ => ⟨nb, hok, ?_⟩⟩
      rw [hcount, hr.hasExactly_iff hf]
      exact (hexact hle).symm

theorem capExact_of_lt
    (hsort : sort.IsExact)
    (hf : f.Simple)
    (h : sort f.acyclic = some order)
    (hlow : 0 ≤ bound.toInt)
    (hhigh : bound.toInt < 2 ^ 62 - 1) :
    CapExact sort f bound := by
  have hlimit := Numbers.toInt_limit hlow (by omega)
  have hcount : (countAt (f.counts (bound + 1) order.reverse) entryId).toInt =
      min (f.pathCount entryId : Int) (bound + 1).toInt :=
    toInt_countAt hf (hf.isSinkOrder hsort h) (by omega) (by omega) hf.entry_mem
      (Or.inr (by omega))
  rw [capExact_iff hsort hf h, hcount]
  constructor <;> omega

theorem capExact_of_hasAtMost
    (hsort : sort.IsExact)
    (hf : f.Simple)
    (h : sort f.acyclic = some order)
    (hhigh : bound.toInt < 2 ^ 63 - 1)
    (hfew : f.HasAtMost bound.toInt) :
    CapExact sort f bound := by
  have hsorted := hf.isSinkOrder hsort h
  rw [(hf.ranks hsorted).hasAtMost_iff hf] at hfew
  have hlimit : (bound + 1).toInt = bound.toInt + 1 := by
    rw [toInt_add_eq] <;> rw [show (1 : Int64).toInt = 1 from rfl] <;> omega
  have hcount : (countAt (f.counts (bound + 1) order.reverse) entryId).toInt =
      f.pathCount entryId :=
    toInt_countAt_of_le hf hsorted hf.entry_mem (by omega)
  rw [capExact_iff hsort hf h, hcount]
  constructor <;> omega

theorem hasAtMost_of_eq_ok
    (hsort : sort.IsExact)
    (hf : f.Simple)
    (h : ofProcedure sort f bound = .ok nb)
    (hlow : 0 ≤ bound.toInt)
    (hhigh : bound.toInt < 2 ^ 62 - 1) :
    f.HasAtMost bound.toInt := by
  cases horder : sort f.acyclic with
  | none => exact absurd (h.symm.trans (ofProcedure_of_cyclic horder bound)) (by simp)
  | some order =>
      by_contra hmany
      have hrefused := (capExact_of_lt hsort hf horder hlow hhigh).refused.mpr hmany
      exact absurd (h.symm.trans hrefused) (by simp)

theorem Numbers.isBijection_of_hasAtMost
    (h : Numbers f bound order nb)
    (hf : f.Simple)
    (hhigh : bound.toInt < 2 ^ 62)
    (hfew : f.HasAtMost bound.toInt) :
    nb.IsBijection f := by
  rw [(hf.ranks h.sorted).hasAtMost_iff hf] at hfew
  exact h.isBijection hf (by omega) hhigh hfew

section LargestWord

variable {counts : Array Int64} {limit : Int64} {es : List PathEdge}

/-- Everything is cut off at the smallest word. -/
theorem ranges_of_min
    (hlimit : limit.toInt = -2 ^ 63)
    (hes : es ≠ [])
    (total : Int64) :
    (ranges counts limit total es).2 = limit := by
  induction es generalizing total with
  | nil => exact absurd rfl hes
  | cons e es ih =>
      have hcut : (if total + countAt counts e.target > limit then limit
          else total + countAt counts e.target) = limit := by
        split
        · rfl
        · rename_i hunder
          rw [gt_iff_lt, Int64.lt_iff_toInt_lt, hlimit] at hunder
          have hrange := Int64.le_toInt (total + countAt counts e.target)
          exact Int64.toInt_inj.mp (by omega)
      cases es with
      | nil => exact hcut
      | cons x es =>
          change (ranges counts limit (if total + countAt counts e.target > limit then limit
            else total + countAt counts e.target) (x :: es)).2 = limit
          exact ih (List.cons_ne_nil x es) _

theorem capExact_iff_of_max
    (hsort : sort.IsExact)
    (hf : f.Simple)
    (h : sort f.acyclic = some order)
    (hmax : bound.toInt = 2 ^ 63 - 1) :
    CapExact sort f bound ↔ ∀ e, f.IsPathEdge e → e.source ≠ entryId := by
  have hbound : bound = 9223372036854775807 := Int64.toInt_inj.mp hmax
  have hlimit : (bound + 1).toInt = -2 ^ 63 := by
    rw [hbound]
    rfl
  have hentry : entryId ≠ exitId := by decide
  have hsorted := hf.isSinkOrder hsort h
  have hcount := countAt_counts hsorted hf.entry_mem (bound + 1)
  rw [if_neg hentry] at hcount
  have hpaths := (hf.ranks hsorted).pathCount_eq hf hf.entry_mem hentry
  have hout : f.outEdges entryId = [] ↔ ∀ e, f.IsPathEdge e → e.source ≠ entryId := by
    rw [List.eq_nil_iff_forall_not_mem]
    exact forall_congr' fun e => by rw [hf.mem_outEdges_iff, not_and]
  rw [capExact_iff hsort hf h, ← hout, hcount]
  by_cases hnone : f.outEdges entryId = []
  · rw [hnone, pathSum_nil] at hpaths
    rw [hnone, hpaths, hmax]
    simp [ranges]
  · rw [ranges_of_min hlimit hnone, hlimit, hmax]
    refine iff_of_false ?_ hnone
    rintro ⟨hiff, hexact⟩
    omega

end LargestWord

end Numbering

open DefUse.Numbering in
/-- Without a call at the exit and with an exact sort, the bound is exact as long as it is below
`2 ^ 62 - 1`.  A larger one is exact for the procedures that keep to it, but the largest word is not
if an edge leaves the entry. -/
theorem numbering_cap_exact
    (sort : TopologicalSort) (prog : Program) (p : Int) (bound : Int64)
    (hsort : sort.IsExact)
    (hbuilt : prog.Built)
    (hprog : prog.Finalized)
    (hp : p ∈ prog.procIds)
    (hcalls : ((prog.proc p).node exitId).calls = [])
    (hlow : 1 ≤ bound.toInt) :
    (bound.toInt < 2 ^ 62 - 1 → CapExact sort (prog.proc p) bound) ∧
    (bound.toInt < 2 ^ 63 - 1 → (prog.proc p).HasAtMost bound.toInt →
      CapExact sort (prog.proc p) bound) ∧
    (bound.toInt = 2 ^ 63 - 1 →
      (CapExact sort (prog.proc p) bound ↔
        ∀ e, (prog.proc p).IsPathEdge e → e.source ≠ entryId)) := by
  have hf := Procedure.Simple.of_built hbuilt hprog hp
  have hne : sort (prog.proc p).acyclic ≠ none := fun hnone =>
    ((hf.sort_eq_none_iff hsort (hbuilt.entry_not_mem_succs hprog hp)).mp hnone).2 hcalls
  obtain ⟨order, horder⟩ := Option.ne_none_iff_exists'.mp hne
  exact ⟨capExact_of_lt hsort hf horder (by omega), capExact_of_hasAtMost hsort hf horder,
    capExact_iff_of_max hsort hf horder⟩

open DefUse.Numbering in
/-- Six paths are refused at the bound five; the largest word is no bound even for them. -/
theorem numbering_cap_exact_retry :
    TopologicalSort.IsExact Digraph.topologicalOrder? ∧
      retry.Built ∧ retry.Finalized ∧ 0 ∈ retry.procIds ∧
      ((retry.proc 0).node exitId).calls = [] ∧
      CapExact Digraph.topologicalOrder? (retry.proc 0) 5 ∧
      ¬ CapExact Digraph.topologicalOrder? (retry.proc 0) 9223372036854775807 := by
  have hbuilt : retry.Built := ⟨retrySteps, by decide +kernel⟩
  have hprog : retry.Finalized := by decide +kernel
  have hp : 0 ∈ retry.procIds := by decide +kernel
  have hcalls : ((retry.proc 0).node exitId).calls = [] := by decide +kernel
  refine ⟨isExact_topologicalOrder?, hbuilt, hprog, hp, hcalls, ?_, ?_⟩
  · exact (numbering_cap_exact Digraph.topologicalOrder? retry 0 5 isExact_topologicalOrder? hbuilt
      hprog hp hcalls (by decide)).1 (by decide)
  · rw [(numbering_cap_exact Digraph.topologicalOrder? retry 0 9223372036854775807
      isExact_topologicalOrder? hbuilt hprog hp hcalls (by decide)).2.2 rfl]
    intro hnone
    refine hnone _ (.real (v := entryId) (s := 2) (.refl _) (by decide +kernel) ?_) rfl
    decide +kernel

open DefUse.Numbering in
/-- The procedure has a path, but is told that it has none. -/
theorem numbering_cap_not_exact :
    TopologicalSort.IsExact Digraph.topologicalOrder? ∧
      cascade.Built ∧ cascade.Finalized ∧ ((cascade.proc 0).node exitId).calls = [] ∧
      ¬ CapExact Digraph.topologicalOrder? (cascade.proc 0) 4611686018427387903 := by
  obtain ⟨nb, path, hrun, hzero, hpath⟩ := cascade_numbered
  refine ⟨isExact_topologicalOrder?, cascade_built, cascade_finalized, by decide +kernel, ?_⟩
  rintro ⟨hrefused, hcounted⟩
  have hmost : (cascade.proc 0).HasAtMost (4611686018427387903 : Int64).toInt := by
    by_contra hnot
    exact absurd (hrun.symm.trans (hrefused.mpr hnot)) (by simp)
  obtain ⟨nb', hrun', paths, hpaths, hcard⟩ := hcounted hmost
  obtain rfl : nb' = nb := Except.ok.inj (hrun'.symm.trans hrun)
  rw [hzero, show (0 : Int64).toInt = 0 from rfl] at hcard
  have hpositive : 0 < paths.card := Finset.card_pos.mpr ⟨path, (hpaths path).mpr hpath⟩
  omega

end DefUse
