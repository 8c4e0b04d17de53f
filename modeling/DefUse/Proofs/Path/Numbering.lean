import DefUse.Proofs.Path.Counting
import Mathlib.Tactic.Choose

/-!
# Numbers and paths

**Method.** The number of a path is its position in the list of all paths.  The edges out of a node
divide that list, and the first numbers of their ranges are the sums of the counts before them; so
both directions follow the list edge by edge.

**Results.** `numbering_bijective_iff`: as long as there are no more paths than the bound, the
numbers and the paths of the acyclic graph correspond one to one; `numbering_not_bijective`: at the
largest bound below `2 ^ 62` a sum can overflow, and a procedure with `2 ^ 64` paths gets none.
-/

namespace DefUse
namespace Numbering

variable {sort : TopologicalSort} {f : Procedure} {nb : Numbering} {bound : Int64}
  {order : List Int}

/-- What the numbering of a procedure consists of. -/
structure Numbers (f : Procedure) (bound : Int64) (order : List Int) (nb : Numbering) : Prop where
  sorted : f.acyclic.IsSinkOrder order
  proc : nb.proc = f
  backEdges : nb.backEdges = f.backEdges
  counts : nb.counts = f.counts (bound + 1) order
  out : nb.out = (f.pathEdges f.backEdges).map fun es =>
    es.zip (ranges nb.counts (bound + 1) 0 es).1
  few : ¬ nb.numPaths > bound
  nodePaths : nb.nodePaths = (f.ids.map fun v =>
    pathsWith (allPaths nb.out nb.counts nb.size) fun x => v = entryId || x.target = v).toArray
  callPaths : nb.callPaths = (f.ids.map fun v =>
    pathsWith (allPaths nb.out nb.counts nb.size) (isCallExit v)).toArray
  edgePaths : nb.edgePaths = (flowEdges f).map fun e =>
    (e, pathsOfEdge (allPaths nb.out nb.counts nb.size) f.backEdges e)
  connections : nb.connections = connect (allPaths nb.out nb.counts nb.size) f.backEdges

theorem ofProcedure_of_cyclic
    (h : sort f.acyclic = none)
    (bound : Int64) :
    ofProcedure sort f bound = .error (.cyclic f.name) := by
  unfold ofProcedure
  simp only
  split
  · rfl
  · rename_i order horder
    exact absurd (h.symm.trans horder) (by simp)

/-- An acyclic graph is refused exactly if the count of the entry is above the bound. -/
theorem ofProcedure_of_order
    (hsort : sort.IsExact)
    (hf : f.Simple)
    (h : sort f.acyclic = some order)
    (bound : Int64) :
    (countAt (f.counts (bound + 1) order.reverse) entryId > bound ∧
      ofProcedure sort f bound = .error (.tooManyPaths f.name bound.toInt)) ∨
    ∃ nb, ofProcedure sort f bound = .ok nb ∧ Numbers f bound order.reverse nb := by
  have hsorted := hf.isSinkOrder hsort h
  unfold ofProcedure
  simp only
  split
  · rename_i hnone
    exact absurd (hnone.symm.trans h) (by simp)
  · rename_i order' horder
    obtain rfl : order' = order := Option.some.inj (horder.symm.trans h)
    split
    · rename_i hmany
      exact Or.inl ⟨hmany, rfl⟩
    · rename_i hfew
      exact Or.inr ⟨_, rfl, hsorted, rfl, rfl, rfl, rfl, hfew, rfl, rfl, rfl, rfl⟩

/-- Whatever the sort finds, a procedure is refused for a cycle, refused for its number of paths, or
numbered. -/
theorem ofProcedure_cases
    (sort : TopologicalSort) (f : Procedure) (bound : Int64) :
    (sort f.acyclic = none ∧ ofProcedure sort f bound = .error (.cyclic f.name)) ∨
    (sort f.acyclic ≠ none ∧
      ofProcedure sort f bound = .error (.tooManyPaths f.name bound.toInt)) ∨
    (sort f.acyclic ≠ none ∧ ∃ nb, ofProcedure sort f bound = .ok nb ∧ nb.proc = f) := by
  cases horder : sort f.acyclic with
  | none => exact Or.inl ⟨rfl, ofProcedure_of_cyclic horder bound⟩
  | some order =>
      have hne : some order ≠ none := Option.some_ne_none order
      unfold ofProcedure
      simp only
      split
      · rename_i hnone
        exact absurd (hnone.symm.trans horder) (by simp)
      · split
        · exact Or.inr (Or.inl ⟨hne, rfl⟩)
        · exact Or.inr (Or.inr ⟨hne, _, rfl, rfl⟩)

theorem proc_of_eq_ok
    (h : ofProcedure sort f bound = .ok nb) :
    nb.proc = f := by
  rcases ofProcedure_cases sort f bound with ⟨-, herror⟩ | ⟨-, herror⟩ | ⟨-, nb', hok, hproc⟩
  · exact absurd (h.symm.trans herror) (by simp)
  · exact absurd (h.symm.trans herror) (by simp)
  · obtain rfl := Except.ok.inj (hok.symm.trans h)
    exact hproc

theorem numbers_of_eq_ok
    (hsort : sort.IsExact)
    (hf : f.Simple)
    (h : ofProcedure sort f bound = .ok nb) :
    ∃ order, Numbers f bound order nb := by
  cases horder : sort f.acyclic with
  | none =>
      rw [ofProcedure_of_cyclic horder] at h
      exact absurd h (by simp)
  | some order =>
      rcases ofProcedure_of_order hsort hf horder bound with
        ⟨-, herror⟩ | ⟨nb', hok, hnumbers⟩
      · rw [herror] at h
        exact absurd h (by simp)
      · obtain rfl := Except.ok.inj (hok.symm.trans h)
        exact ⟨order.reverse, hnumbers⟩

/-- What is computed from the numbering of a procedure is computed from a numbering. -/
theorem eq_ok_of_map_eq_ok
    {α : Type} {g : Numbering → α} {x : α}
    (h : (ofProcedure sort f bound).map g = .ok x) :
    ∃ nb, ofProcedure sort f bound = .ok nb ∧ g nb = x := by
  cases hrun : ofProcedure sort f bound with
  | error e =>
      rw [hrun] at h
      exact absurd h (by simp [Except.map])
  | ok nb =>
      rw [hrun] at h
      exact ⟨nb, rfl, Except.ok.inj h⟩

/-- The numbers from zero on and the paths from the entry to the exit correspond one to one, and
both ways of computing this agree. -/
structure IsBijection (nb : Numbering) (f : Procedure) : Prop where
  decode : ∀ id : Int64, 0 ≤ id → id < nb.numPaths →
    ∃ path, nb.edges? id = .ok path ∧ f.IsPath path ∧ nb.encode? path = .ok id
  encode : ∀ path, f.IsPath path →
    ∃ id : Int64, 0 ≤ id ∧ id < nb.numPaths ∧ nb.encode? path = .ok id ∧ nb.edges? id = .ok path

section Spans

variable {counts : Array Int64} {limit : Int64} {es : List PathEdge}

/-- The edges with the first numbers of their ranges. -/
def spans (counts : Array Int64) (limit total : Int64) (es : List PathEdge) :
    List (PathEdge × Int64) :=
  es.zip (ranges counts limit total es).1

theorem spans_cons
    (total : Int64) (e : PathEdge) (es : List PathEdge) :
    spans counts limit total (e :: es) =
      (e, total) :: spans counts limit
        (if total + countAt counts e.target > limit then limit
          else total + countAt counts e.target) es :=
  rfl

theorem choose_cons_cons
    (r : Int64) (e : PathEdge) (offset : Int64) (x : PathEdge × Int64)
    (rest : List (PathEdge × Int64)) :
    choose counts r ((e, offset) :: x :: rest) =
      if r < offset + countAt counts e.target then some (e, offset)
      else choose counts r (x :: rest) :=
  rfl

theorem toInt_next
    {t : Nat} {total : Int64} {e : PathEdge}
    (hhigh : limit.toInt ≤ 2 ^ 62)
    (hcount : (countAt counts e.target).toInt = f.pathCount e.target)
    (htotal : total.toInt = t)
    (hroom : ((t + f.pathSum (e :: es) : Nat) : Int) < limit.toInt) :
    (total + countAt counts e.target).toInt = ((t + f.pathCount e.target : Nat) : Int) ∧
      ¬ total + countAt counts e.target > limit := by
  rw [Procedure.pathSum_cons] at hroom
  have hsum : (total + countAt counts e.target).toInt =
      ((t + f.pathCount e.target : Nat) : Int) := by
    rw [toInt_add_eq, htotal, hcount] <;> omega
  refine ⟨hsum, ?_⟩
  rw [gt_iff_lt, Int64.lt_iff_toInt_lt, hsum]
  omega

/-- A number is in the range of the edge that is chosen for it. -/
theorem choose_spans
    (hhigh : limit.toInt ≤ 2 ^ 62)
    (hcounts : ∀ e ∈ es, (countAt counts e.target).toInt = f.pathCount e.target) :
    ∀ (t : Nat) (total r : Int64), total.toInt = t →
      ((t + f.pathSum es : Nat) : Int) < limit.toInt →
      (t : Int) ≤ r.toInt → r.toInt < ((t + f.pathSum es : Nat) : Int) →
      ∃ front e back offset, es = front ++ e :: back ∧
        choose counts r (spans counts limit total es) = some (e, offset) ∧
        offset.toInt = ((t + f.pathSum front : Nat) : Int) ∧ offset.toInt ≤ r.toInt ∧
        r.toInt < offset.toInt + f.pathCount e.target := by
  induction es with
  | nil =>
      intro t total r _ _ hlow hlt
      rw [Procedure.pathSum_nil] at hlt
      omega
  | cons e es ih =>
      intro t total r htotal hroom hlow hlt
      obtain ⟨hnext, hunder⟩ := toInt_next hhigh (hcounts e List.mem_cons_self) htotal hroom
      rw [Procedure.pathSum_cons] at hlt hroom
      by_cases hhere : r.toInt < ((t + f.pathCount e.target : Nat) : Int)
      · refine ⟨[], e, es, total, rfl, ?_, by simpa using htotal, by omega, by omega⟩
        cases es with
        | nil => rfl
        | cons e' es =>
            rw [spans_cons, spans_cons, choose_cons_cons, if_pos]
            rw [Int64.lt_iff_toInt_lt, hnext]
            exact hhere
      · cases es with
        | nil =>
            rw [Procedure.pathSum_nil] at hlt
            omega
        | cons e' es =>
            obtain ⟨front, x, back, offset, hsplit, hchoose, hoffset, hle, hbelow⟩ :=
              ih (fun x hx => hcounts x (List.mem_cons_of_mem e hx)) _ _ r hnext (by omega)
                (by omega) (by omega)
            refine ⟨e :: front, x, back, offset, by rw [hsplit, List.cons_append], ?_, ?_, hle,
              hbelow⟩
            · rw [spans_cons, if_neg hunder]
              rw [spans_cons] at hchoose ⊢
              rw [choose_cons_cons, if_neg, hchoose]
              rw [Int64.lt_iff_toInt_lt, hnext]
              exact hhere
            · rw [Procedure.pathSum_cons]
              omega

/-- The first number of the range of an edge is the number of paths before it. -/
theorem lookup_spans
    (hhigh : limit.toInt ≤ 2 ^ 62)
    {front back : List PathEdge} {e : PathEdge} :
    ∀ (t : Nat) (total : Int64), (front ++ e :: back).Nodup →
      (∀ x ∈ front ++ e :: back, (countAt counts x.target).toInt = f.pathCount x.target) →
      total.toInt = t → ((t + f.pathSum (front ++ e :: back) : Nat) : Int) < limit.toInt →
      ∃ offset, (spans counts limit total (front ++ e :: back)).lookup e = some offset ∧
        offset.toInt = ((t + f.pathSum front : Nat) : Int) := by
  induction front with
  | nil =>
      intro t total _ _ htotal _
      refine ⟨total, ?_, by simpa using htotal⟩
      rw [List.nil_append, spans_cons, List.lookup_cons_self]
  | cons x front ih =>
      intro t total hnodup hcounts htotal hroom
      rw [List.cons_append] at hnodup hcounts hroom ⊢
      obtain ⟨hnext, hunder⟩ := toInt_next hhigh (hcounts x List.mem_cons_self) htotal hroom
      have hne : e ≠ x := by
        rintro rfl
        exact (List.nodup_cons.mp hnodup).1 (by simp)
      rw [Procedure.pathSum_cons] at hroom
      obtain ⟨offset, hlook, hoffset⟩ := ih _ _ (List.nodup_cons.mp hnodup).2
        (fun y hy => hcounts y (List.mem_cons_of_mem x hy)) hnext (by omega)
      refine ⟨offset, ?_, ?_⟩
      · rw [spans_cons, if_neg hunder, List.lookup_cons, beq_false_of_ne hne]
        exact hlook
      · rw [Procedure.pathSum_cons]
        omega

end Spans

namespace Numbers

open Procedure

variable {v : Int}

theorem toInt_limit
    (hlow : 0 ≤ bound.toInt)
    (hhigh : bound.toInt < 2 ^ 62) :
    (bound + 1).toInt = bound.toInt + 1 := by
  rw [toInt_add_eq] <;> rw [show (1 : Int64).toInt = 1 from rfl] <;> omega

/-- As long as they are within the bound, the counts are exact. -/
theorem toInt_countAt_eq
    (h : Numbers f bound order nb)
    (hf : f.Simple)
    (hlow : 0 ≤ bound.toInt)
    (hhigh : bound.toInt < 2 ^ 62)
    (hv : v ∈ f.ids)
    (hfew : (f.pathCount v : Int) ≤ bound.toInt) :
    (countAt nb.counts v).toInt = f.pathCount v := by
  have hlimit := toInt_limit hlow hhigh
  rw [h.counts, toInt_countAt hf h.sorted (by omega) (by omega) hv (by omega)]
  omega

theorem toInt_targets
    (h : Numbers f bound order nb)
    (hf : f.Simple)
    (hlow : 0 ≤ bound.toInt)
    (hhigh : bound.toInt < 2 ^ 62)
    (hfew : (f.pathSum (f.outEdges v) : Int) ≤ bound.toInt) :
    ∀ e ∈ f.outEdges v, (countAt nb.counts e.target).toInt = f.pathCount e.target := by
  intro e he
  have hle : f.pathCount e.target ≤ f.pathSum (f.outEdges v) := pathCount_le_pathSum he
  have hedge := (hf.mem_outEdges_iff.mp he).1
  exact h.toInt_countAt_eq hf hlow hhigh (hf.target_mem hedge) (by omega)

theorem item?_out
    (h : Numbers f bound order nb)
    (v : Int) :
    (item? nb.out v).getD [] = spans nb.counts (bound + 1) 0 (f.outEdges v) := by
  rw [h.out, item?_map, outEdges]
  cases item? (f.pathEdges f.backEdges) v <;> rfl

theorem getElem?_pathsFrom
    (hf : f.Simple)
    (hr : f.Ranks order.idxOf)
    {front back : List PathEdge} {e : PathEdge} {j : Nat} {rest : List PathEdge}
    (hsplit : f.outEdges v = front ++ e :: back)
    (hrest : (f.pathsFrom e.target)[j]? = some rest) :
    (f.pathsFrom v)[f.pathSum front + j]? = some (e :: rest) := by
  obtain ⟨hedge, rfl⟩ := hf.mem_outEdges_iff.mp (hsplit ▸ List.mem_append_right front
    List.mem_cons_self : e ∈ f.outEdges v)
  have hj : j < ((f.pathsFrom e.target).map (e :: ·)).length := by
    rw [List.length_map]
    exact (List.getElem?_eq_some_iff.mp hrest).1
  rw [hr.pathsFrom_eq hf (hf.source_mem hedge) (hr.source_ne_exit hf hedge), hsplit,
    List.flatMap_append, List.flatMap_cons,
    List.getElem?_append_right (by rw [length_flatMap_paths]; omega), length_flatMap_paths,
    Nat.add_sub_cancel_left, List.getElem?_append_left hj, List.getElem?_map, hrest]
  rfl

/-- Following a number gives the path at its position. -/
theorem follow_eq_ok
    (h : Numbers f bound order nb)
    (hf : f.Simple)
    (hlow : 0 ≤ bound.toInt)
    (hhigh : bound.toInt < 2 ^ 62)
    (steps : Nat) :
    ∀ {v : Int} {r : Int64}, v ∈ f.ids → order.idxOf v < steps →
      (f.pathCount v : Int) ≤ bound.toInt → 0 ≤ r.toInt → r.toInt < f.pathCount v →
      ∃ path, (f.pathsFrom v)[r.toInt.toNat]? = some path ∧
        follow nb.out nb.counts steps v r = .ok path := by
  have hr := hf.ranks h.sorted
  have hlimit := toInt_limit hlow hhigh
  have hhigh' : (bound + 1).toInt ≤ 2 ^ 62 := by omega
  induction steps with
  | zero =>
      intro v r _ hsteps
      exact absurd hsteps (Nat.not_lt_zero _)
  | succ steps ih =>
      intro v r hv hsteps hfew hnonneg hlt
      by_cases hexit : v = exitId
      · rw [hexit, pathCount_exit] at hlt
        refine ⟨[], ?_, by rw [follow, if_pos hexit]⟩
        rw [hexit, pathsFrom_exit, show r.toInt.toNat = 0 by omega]
        rfl
      · rw [hr.pathCount_eq hf hv hexit] at hfew hlt
        obtain ⟨front, e, back, offset, hsplit, hchoose, hoffset, hle, hbelow⟩ :=
          choose_spans hhigh' (h.toInt_targets hf hlow hhigh hfew) 0 0 r rfl (by omega)
            (by omega) (by omega)
        have he : e ∈ f.outEdges v := hsplit ▸ List.mem_append_right front List.mem_cons_self
        obtain ⟨hedge, rfl⟩ := hf.mem_outEdges_iff.mp he
        have hcount : f.pathCount e.target ≤ f.pathSum (f.outEdges e.source) :=
          pathCount_le_pathSum he
        have hsub : (r - offset).toInt = r.toInt - offset.toInt := by
          rw [toInt_sub_eq] <;> omega
        have hrank := hr.edge e hedge
        obtain ⟨rest, hrest, hfollow⟩ := ih (r := r - offset) (hf.target_mem hedge) (by omega)
          (by omega) (by omega) (by omega)
        refine ⟨e :: rest, ?_, ?_⟩
        · have hposition := getElem?_pathsFrom hf hr hsplit hrest
          rw [show f.pathSum front + (r - offset).toInt.toNat = r.toInt.toNat by omega]
            at hposition
          exact hposition
        · rw [follow, if_neg hexit, h.item?_out, hchoose]
          simp only [hfollow]
          rfl

theorem offset?_eq_ok
    (h : Numbers f bound order nb)
    (hf : f.Simple)
    (hlow : 0 ≤ bound.toInt)
    (hhigh : bound.toInt < 2 ^ 62)
    (hfew : (f.pathSum (f.outEdges v) : Int) ≤ bound.toInt)
    {front back : List PathEdge} {e : PathEdge}
    (hsplit : f.outEdges v = front ++ e :: back) :
    ∃ offset, nb.offset? e = .ok offset ∧ offset.toInt = f.pathSum front := by
  have he : e ∈ f.outEdges v := hsplit ▸ List.mem_append_right front List.mem_cons_self
  obtain ⟨hedge, rfl⟩ := hf.mem_outEdges_iff.mp he
  have hlimit := toInt_limit hlow hhigh
  have hhigh' : (bound + 1).toInt ≤ 2 ^ 62 := by omega
  have htargets := h.toInt_targets hf hlow hhigh hfew
  have hnodup := hf.outEdges_nodup e.source
  have hout := h.item?_out e.source
  rw [hsplit] at htargets hnodup hout hfew
  obtain ⟨offset, hlook, hoffset⟩ :=
    lookup_spans hhigh' 0 0 hnodup htargets rfl (by omega)
  refine ⟨offset, ?_, by rw [hoffset, Nat.zero_add]⟩
  have hrow : e.source ∈ positions nb.out.size := by
    have hsource := hf.source_mem hedge
    rw [h.out, Array.size_map]
    simpa [pathEdges, ids, positions] using hsource
  obtain ⟨row, hitem, -⟩ := item?_eq_some_of_mem_positions hrow
  rw [hitem, Option.getD_some] at hout
  unfold offset?
  rw [fetch_eq_ok_iff.mpr hitem]
  change Except.ok ((row.lookup e).getD 0) = .ok offset
  rw [hout, hlook]
  rfl

/-- The offsets of the edges of a path add up to its position. -/
theorem encode_eq_ok
    (h : Numbers f bound order nb)
    (hf : f.Simple)
    (hlow : 0 ≤ bound.toInt)
    (hhigh : bound.toInt < 2 ^ 62) :
    ∀ {path : List PathEdge} {v : Int}, f.IsPathFrom v path →
      (f.pathCount v : Int) ≤ bound.toInt →
      ∃ k : Nat, (f.pathsFrom v)[k]? = some path ∧
        ∀ start : Int64, 0 ≤ start.toInt → start.toInt + k < 2 ^ 62 →
          ∃ id, path.foldlM (fun id e => do
              let offset ← nb.offset? e
              return id + offset) start = .ok id ∧ id.toInt = start.toInt + k
  | [], v, hpath, _ => by
      refine ⟨0, ?_, fun start _ _ => ⟨start, rfl, by simp⟩⟩
      rw [show v = exitId from hpath, pathsFrom_exit]
      rfl
  | e :: rest, v, ⟨hedge, hsource, hrest⟩, hfew => by
      subst hsource
      have hr := hf.ranks h.sorted
      rw [hr.pathCount_eq hf (hf.source_mem hedge) (hr.source_ne_exit hf hedge)] at hfew
      have he : e ∈ f.outEdges e.source := hf.mem_outEdges_iff.mpr ⟨hedge, rfl⟩
      have hcount : f.pathCount e.target ≤ f.pathSum (f.outEdges e.source) :=
        pathCount_le_pathSum he
      obtain ⟨front, back, hsplit⟩ := List.append_of_mem he
      obtain ⟨offset, hoffset, hvalue⟩ := h.offset?_eq_ok hf hlow hhigh hfew hsplit
      obtain ⟨k, hk, hadd⟩ := encode_eq_ok h hf hlow hhigh hrest (by omega)
      refine ⟨f.pathSum front + k, getElem?_pathsFrom hf hr hsplit hk, ?_⟩
      intro start hstart hroom
      have hnext : (start + offset).toInt = start.toInt + f.pathSum front := by
        rw [toInt_add_eq, hvalue] <;> omega
      obtain ⟨id, hid, hsum⟩ := hadd (start + offset) (by omega) (by omega)
      refine ⟨id, ?_, by omega⟩
      rw [List.foldlM_cons, hoffset]
      exact hid

theorem mem_of_choose
    {counts : Array Int64} {r : Int64} {x : PathEdge × Int64} :
    ∀ {xs : List (PathEdge × Int64)}, choose counts r xs = some x → x ∈ xs
  | [], h => by simp [choose] at h
  | [y], h => by
      obtain rfl := Option.some.inj h
      exact List.mem_cons_self
  | y :: z :: rest, h => by
      rw [choose_cons_cons] at h
      split at h
      · obtain rfl := Option.some.inj h
        exact List.mem_cons_self
      · exact List.mem_cons_of_mem y (mem_of_choose h)

/-- Whatever number is followed, the edges are a path. -/
theorem isPathFrom_of_follow
    (h : Numbers f bound order nb)
    (hf : f.Simple)
    (steps : Nat) :
    ∀ {v : Int} {r : Int64} {path : List PathEdge}, order.idxOf v < steps →
      follow nb.out nb.counts steps v r = .ok path → f.IsPathFrom v path := by
  induction steps with
  | zero =>
      intro v r path hsteps
      exact absurd hsteps (Nat.not_lt_zero _)
  | succ steps ih =>
      intro v r path hsteps hfollow
      rw [follow] at hfollow
      split at hfollow
      · rename_i hexit
        obtain rfl := Except.ok.inj hfollow
        exact hexit
      · rw [h.item?_out] at hfollow
        split at hfollow
        · exact absurd hfollow (by simp)
        · rename_i e offset hchoose
          obtain ⟨hedge, rfl⟩ := hf.mem_outEdges_iff.mp (List.of_mem_zip (mem_of_choose hchoose)).1
          have hrank := (hf.ranks h.sorted).edge e hedge
          obtain ⟨rest, hrest, hfollow⟩ := bind_eq_ok_iff.mp hfollow
          obtain rfl := Except.ok.inj hfollow
          exact ⟨hedge, rfl, ih (by omega) hrest⟩

theorem idxOf_entry_lt
    (h : Numbers f bound order nb)
    (hf : f.Simple) :
    order.idxOf entryId < nb.out.size + 1 := by
  have hrank := (hf.ranks h.sorted).bound entryId hf.entry_mem
  have hsize : nb.out.size = f.ids.length := by simp [h.out, pathEdges]
  omega

theorem isPath_of_edges?
    (h : Numbers f bound order nb)
    (hf : f.Simple)
    {id : Int64} {path : List PathEdge}
    (hpath : nb.edges? id = .ok path) :
    f.IsPath path :=
  h.isPathFrom_of_follow hf _ (h.idxOf_entry_lt hf) hpath

theorem edges?_eq_ok
    (h : Numbers f bound order nb)
    (hf : f.Simple)
    (hlow : 0 ≤ bound.toInt)
    (hhigh : bound.toInt < 2 ^ 62)
    (hfew : (f.pathCount entryId : Int) ≤ bound.toInt)
    {k : Nat} {id : Int64} {path : List PathEdge}
    (hpath : (f.pathsFrom entryId)[k]? = some path)
    (hid : id.toInt = k) :
    nb.edges? id = .ok path := by
  have hk : k < f.pathCount entryId := (List.getElem?_eq_some_iff.mp hpath).1
  obtain ⟨path', hpath', hfollow⟩ := h.follow_eq_ok hf hlow hhigh _ (r := id) hf.entry_mem
    (h.idxOf_entry_lt hf) hfew (by omega) (by omega)
  rw [hid, Int.toNat_natCast, hpath] at hpath'
  rw [Option.some.inj hpath']
  exact hfollow

theorem encode?_eq_ok
    (h : Numbers f bound order nb)
    (hf : f.Simple)
    (hlow : 0 ≤ bound.toInt)
    (hhigh : bound.toInt < 2 ^ 62)
    (hfew : (f.pathCount entryId : Int) ≤ bound.toInt)
    {path : List PathEdge}
    (hpath : f.IsPath path) :
    ∃ (k : Nat) (id : Int64), (f.pathsFrom entryId)[k]? = some path ∧
      nb.encode? path = .ok id ∧ id.toInt = k := by
  have hzero : (0 : Int64).toInt = 0 := rfl
  obtain ⟨k, hk, hencode⟩ := h.encode_eq_ok hf hlow hhigh hpath hfew
  have hlt : k < f.pathCount entryId := (List.getElem?_eq_some_iff.mp hk).1
  obtain ⟨id, hid, hsum⟩ := hencode 0 (by omega) (by omega)
  exact ⟨k, id, hk, hid, by omega⟩

/-- If there are no more paths than the bound, the numbers are a bijection. -/
theorem isBijection
    (h : Numbers f bound order nb)
    (hf : f.Simple)
    (hlow : 0 ≤ bound.toInt)
    (hhigh : bound.toInt < 2 ^ 62)
    (hfew : (f.pathCount entryId : Int) ≤ bound.toInt) :
    nb.IsBijection f := by
  have hnum : nb.numPaths.toInt = f.pathCount entryId :=
    h.toInt_countAt_eq hf hlow hhigh hf.entry_mem hfew
  have hzero : (0 : Int64).toInt = 0 := rfl
  refine ⟨?_, ?_⟩
  · intro id hid hlt
    rw [Int64.le_iff_toInt_le, hzero] at hid
    rw [Int64.lt_iff_toInt_lt, hnum] at hlt
    have hk : id.toInt.toNat < (f.pathsFrom entryId).length := by
      change id.toInt.toNat < f.pathCount entryId
      omega
    have hpath := List.getElem?_eq_getElem hk
    have hispath := ((hf.ranks h.sorted).mem_pathsFrom_iff hf).mp (List.getElem_mem hk)
    obtain ⟨k', id', hk', hencode, hid'⟩ := h.encode?_eq_ok hf hlow hhigh hfew hispath
    obtain ⟨hk'lt, hget⟩ := List.getElem?_eq_some_iff.mp hk'
    have hsame : k' = id.toInt.toNat := (hf.pathsFrom_nodup entryId).getElem_inj_iff.mp hget
    refine ⟨_, h.edges?_eq_ok hf hlow hhigh hfew hpath (by omega), hispath, ?_⟩
    rw [hencode, show id' = id from Int64.toInt_inj.mp (by omega)]
  · intro path hpath
    obtain ⟨k, id, hk, hencode, hid⟩ := h.encode?_eq_ok hf hlow hhigh hfew hpath
    have hlt : k < f.pathCount entryId := (List.getElem?_eq_some_iff.mp hk).1
    refine ⟨id, ?_, ?_, hencode, h.edges?_eq_ok hf hlow hhigh hfew hk hid⟩
    · rw [Int64.le_iff_toInt_le]
      omega
    · rw [Int64.lt_iff_toInt_lt]
      omega

end Numbers

/-- A bijection leaves room for all paths below the bound. -/
theorem IsBijection.card_le
    (h : nb.IsBijection f)
    (hfew : ¬ nb.numPaths > bound)
    {paths : Finset (List PathEdge)}
    (hpaths : ∀ path ∈ paths, f.IsPath path)
    (hlow : 0 ≤ bound.toInt) :
    (paths.card : Int) ≤ bound.toInt := by
  rw [gt_iff_lt, Int64.lt_iff_toInt_lt] at hfew
  choose! number hnonneg hlt hencode hdecode using h.encode
  have hrange : ∀ path ∈ paths, 0 ≤ (number path).toInt ∧
      (number path).toInt < nb.numPaths.toInt := by
    intro path hpath
    exact ⟨Int64.le_iff_toInt_le.mp (hnonneg path (hpaths path hpath)),
      Int64.lt_iff_toInt_lt.mp (hlt path (hpaths path hpath))⟩
  have hcard : paths.card ≤ (Finset.range nb.numPaths.toInt.toNat).card := by
    refine Finset.card_le_card_of_injOn (fun path => (number path).toInt.toNat) ?_ ?_
    · intro path hpath
      obtain ⟨hpos, hbelow⟩ := hrange path hpath
      rw [Finset.coe_range, Set.mem_Iio]
      change (number path).toInt.toNat < _
      omega
    · intro path hpath path' hpath' hsame
      change (number path).toInt.toNat = (number path').toInt.toNat at hsame
      obtain ⟨hpos, -⟩ := hrange path hpath
      obtain ⟨hpos', -⟩ := hrange path' hpath'
      have heq : number path = number path' := Int64.toInt_inj.mp (by omega)
      have hfirst := hdecode path (hpaths path hpath)
      rw [heq, hdecode path' (hpaths path' hpath')] at hfirst
      exact (Except.ok.inj hfirst).symm
  rw [Finset.card_range] at hcard
  omega

end Numbering

open DefUse.Numbering in
/-- Whatever exact sort is used, the numbers of a procedure are a bijection exactly if there are no
more paths than the bound, which holds for every bound but the last one. -/
theorem numbering_bijective_iff
    (sort : TopologicalSort) (prog : Program) (p : Int) (bound : Int64) (nb : Numbering)
    (hsort : sort.IsExact)
    (hbuilt : prog.Built)
    (hprog : prog.Finalized)
    (hp : p ∈ prog.procIds)
    (hlow : 0 ≤ bound.toInt)
    (hhigh : bound.toInt < 2 ^ 62)
    (h : ofProcedure sort (prog.proc p) bound = .ok nb) :
    (nb.IsBijection (prog.proc p) ↔ (prog.proc p).HasAtMost bound.toInt) ∧
      (bound.toInt < 2 ^ 62 - 1 → nb.IsBijection (prog.proc p)) := by
  have hf := Procedure.Simple.of_built hbuilt hprog hp
  obtain ⟨order, hnumbers⟩ := numbers_of_eq_ok hsort hf h
  have hr := hf.ranks hnumbers.sorted
  have hiff : nb.IsBijection (prog.proc p) ↔ (prog.proc p).HasAtMost bound.toInt := by
    constructor
    · intro hbij
      refine ⟨((prog.proc p).pathsFrom entryId).toFinset, ?_, ?_⟩
      · intro path
        rw [List.mem_toFinset, hr.mem_pathsFrom_iff hf, Procedure.IsPath]
      · refine hbij.card_le hnumbers.few ?_ hlow
        intro path hpath
        exact (hr.mem_pathsFrom_iff hf).mp (List.mem_toFinset.mp hpath)
    · intro hfew
      exact hnumbers.isBijection hf hlow hhigh ((hr.hasAtMost_iff hf).mp hfew)
  refine ⟨hiff, fun hbelow => hnumbers.isBijection hf hlow hhigh ?_⟩
  have hlimit := Numbers.toInt_limit hlow hhigh
  have hpositive : 1 ≤ (bound + 1).toInt := by omega
  have hcount := Procedure.toInt_countAt hf hnumbers.sorted hpositive (by omega) hf.entry_mem
    (Or.inr (by omega))
  have hfew := hnumbers.few
  rw [gt_iff_lt, Int64.lt_iff_toInt_lt, numPaths, hnumbers.counts, hcount] at hfew
  omega

/-- The steps that build a loop with a call at its end. -/
def retrySteps : List BuildStep :=
  [.procedure "f" [],
    .node 0 "x = g()", .define ⟨0, 2⟩ [.ofLocal "f" "x"],
    .node 0 "if x", .use ⟨0, 3⟩ [.ofLocal "f" "x"], .mark ⟨0, 3⟩ false true false,
    .call ⟨0, 3⟩ "g" [.ofLocal "f" "x"],
    .edge 0 0 2, .edge 0 2 3, .edge 0 3 2, .edge 0 3 1, .finalize]

/-- A loop with a call at its end. -/
def retry : Program := (retrySteps.foldlM Program.build {}).getD {}

/-- Two ways into the loop and three ways out of it are six paths. -/
theorem numbering_bijective_iff_retry :
    TopologicalSort.IsExact Digraph.topologicalOrder? ∧
      retry.Built ∧ retry.Finalized ∧ 0 ∈ retry.procIds ∧
      ∃ nb, Numbering.ofProcedure Digraph.topologicalOrder? (retry.proc 0) 100 = .ok nb ∧
        nb.numPaths = 6 ∧ nb.IsBijection (retry.proc 0) := by
  have hbuilt : retry.Built := ⟨retrySteps, by decide +kernel⟩
  have hprog : retry.Finalized := by decide +kernel
  have hcount : (Numbering.ofProcedure Digraph.topologicalOrder? (retry.proc 0) 100).map
      Numbering.numPaths = .ok 6 := by
    decide +kernel
  refine ⟨isExact_topologicalOrder?, hbuilt, hprog, by decide +kernel, ?_⟩
  obtain ⟨nb, hrun, hvalue⟩ := Numbering.eq_ok_of_map_eq_ok hcount
  refine ⟨nb, hrun, hvalue, ?_⟩
  exact (numbering_bijective_iff Digraph.topologicalOrder? retry 0 100 nb
    isExact_topologicalOrder? hbuilt hprog (by decide +kernel) (by decide) (by decide) hrun).2
    (by decide)

/-- The successors of a node of the cascade: the three nodes before it, or the last three of the
chain. -/
def cascadeSuccs (i : Nat) : List Int :=
  if i = 2 then [1]
  else if i = 3 then [2, 1]
  else if i < 73 then [Int.ofNat (i - 1), Int.ofNat (i - 2), Int.ofNat (i - 3)]
  else [72, 71, 70]

/-- The steps that build the cascade. -/
def cascadeSteps : List BuildStep :=
  .procedure "f" [] :: List.replicate 75 (.node 0 "if c") ++
    (List.range' 2 75).flatMap (fun i => (cascadeSuccs i).map fun s => .edge 0 i s) ++
    [.edge 0 0 73, .edge 0 0 74, .edge 0 0 75, .edge 0 0 76, .finalize]

/-- A chain of 71 branches, each of which leads to the three before it, and four more branches that
the entry leads to. -/
def cascade : Program where
  procs := #[
    { name := "f"
      nodes :=
        ({ label := "entry", succs := [73, 74, 75, 76] } ::
          { label := "exit", preds := [2, 3, 4] } ::
          (List.range' 2 75).map fun i =>
            { label := "if c"
              succs := cascadeSuccs i
              preds := if 73 ≤ i then [0]
                else (List.range' (i + 1) (if 70 ≤ i then 76 - i else 3)).map Int.ofNat
            }).toArray }]
  callGraph := ⟨#[[]], #[[]]⟩

theorem cascade_built : cascade.Built := ⟨cascadeSteps, by decide +kernel⟩

theorem cascade_finalized : cascade.Finalized :=
  Program.finalized_of_sound (by decide +kernel) (by decide +kernel)

/-- The sum of the four counts, each of them cut off at `2 ^ 62`, is zero, but following the number
zero gives a path. -/
theorem cascade_numbered :
    ∃ nb path,
      Numbering.ofProcedure Digraph.topologicalOrder? (cascade.proc 0) 4611686018427387903 =
        .ok nb ∧
      nb.numPaths = 0 ∧ (cascade.proc 0).IsPath path := by
  have hcount : (Numbering.ofProcedure Digraph.topologicalOrder? (cascade.proc 0)
      4611686018427387903).map (fun nb => (nb.numPaths, (nb.edges? 0).toBool)) =
        .ok (0, true) := by
    decide +kernel
  have hf := Procedure.Simple.of_built cascade_built cascade_finalized
    (show 0 ∈ cascade.procIds by decide +kernel)
  obtain ⟨nb, hrun, hvalue⟩ := Numbering.eq_ok_of_map_eq_ok hcount
  obtain ⟨hzero, hsome⟩ := Prod.mk.inj hvalue
  obtain ⟨order, hnumbers⟩ := Numbering.numbers_of_eq_ok isExact_topologicalOrder? hf hrun
  cases hpath : nb.edges? 0 with
  | error fault =>
      rw [hpath] at hsome
      exact absurd hsome (by simp [Except.toBool])
  | ok path => exact ⟨nb, path, hrun, hzero, hnumbers.isPath_of_edges? hf hpath⟩

/-- At the largest bound the sum of four counts that were cut off is zero: no path has a number. -/
theorem numbering_not_bijective :
    TopologicalSort.IsExact Digraph.topologicalOrder? ∧ cascade.Built ∧ cascade.Finalized ∧
      ∃ nb,
        Numbering.ofProcedure Digraph.topologicalOrder? (cascade.proc 0) 4611686018427387903 =
          .ok nb ∧
        nb.numPaths = 0 ∧ ¬ nb.IsBijection (cascade.proc 0) := by
  obtain ⟨nb, path, hrun, hzero, hpath⟩ := cascade_numbered
  refine ⟨isExact_topologicalOrder?, cascade_built, cascade_finalized, nb, hrun, hzero,
    fun hbij => ?_⟩
  obtain ⟨id, hnonneg, hlt, -⟩ := hbij.encode path hpath
  rw [hzero, Int64.lt_iff_toInt_lt] at hlt
  rw [Int64.le_iff_toInt_le] at hnonneg
  omega

end DefUse
