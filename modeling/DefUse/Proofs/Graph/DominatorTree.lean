import DefUse.Graph.DominatorTree
import DefUse.Proofs.Graph.ImmediateDominator
import DefUse.Proofs.Iterate

/-!
# Exactness of numbered dominator trees

The traversal with a stack enters and leaves the nodes in the orders of the recursive one: a frame
runs through the traversal of its remaining children and is then on top again, with the numbers of
all that was entered and left in between stored.

**Results.**
* `runSteps_traverses`: what the stack does while a frame runs through its children.
* `run_eq`: the traversal ends, with every node below the root numbered in both orders.
* `exists_traverses_dominatorTree`: in those orders a node encloses the nodes that it dominates.
* `exists_dominates?_eq`: comparing the numbers of two nodes says exactly whether the first one
  dominates the second one.
-/

namespace DefUse

section Numbering

/-- Stores consecutive numbers at the listed positions. -/
def numbered (table : Array Int) : Nat → List Int → Array Int
  | _, [] => table
  | first, v :: rest => numbered (store table v first) (first + 1) rest

theorem numbered_append
    (table : Array Int) (first : Nat) (xs ys : List Int) :
    numbered table first (xs ++ ys) =
      numbered (numbered table first xs) (first + xs.length) ys := by
  induction xs generalizing table first with
  | nil => rfl
  | cons x rest ih =>
      rw [List.cons_append, numbered, ih, numbered, List.length_cons]
      congr 1
      omega

/-- Every listed position has the number of its place in the list. -/
theorem item?_numbered
    {table : Array Int} {first : Nat} {xs : List Int} {v : Int}
    (hnodup : xs.Nodup)
    (hv : v ∈ positions table.size) :
    item? (numbered table first xs) v =
      if v ∈ xs then some ((first + xs.idxOf v : Nat) : Int) else item? table v := by
  induction xs generalizing table first with
  | nil => simp [numbered]
  | cons x rest ih =>
      obtain ⟨hx, hrest⟩ := List.nodup_cons.mp hnodup
      rw [numbered, ih hrest (by rwa [size_store]), item?_store]
      by_cases hxv : x = v
      · subst hxv
        simp only [hx, if_false, hv, and_self, if_true, List.mem_cons_self, List.idxOf_cons_self,
          Nat.add_zero]
      · by_cases hmem : v ∈ rest
        · simp only [hmem, if_true, List.mem_cons_of_mem x hmem, List.idxOf_cons_ne rest hxv]
          congr 2
          omega
        · simp [hmem, hxv, Ne.symm hxv]

end Numbering

namespace Traversal

/-- The state after more nodes were entered and left, with a new stack. -/
def after (s : Traversal) (pre post : List Int) (stack : List Frame) : Traversal :=
  { pre := numbered s.pre s.entered pre
    post := numbered s.post s.left post
    entered := s.entered + pre.length
    left := s.left + post.length
    stack }

variable {tree : Digraph Int} {s : Traversal} {below : List Frame}

theorem after_after
    (pre post pre' post' : List Int) (stack stack' : List Frame) :
    (s.after pre post stack).after pre' post' stack' =
      s.after (pre ++ pre') (post ++ post') stack' := by
  simp only [after, numbered_append, List.length_append, Nat.add_assoc]

theorem enter_eq_after
    (v : Int) :
    s.enter v below = s.after [v] [] (⟨v, 0⟩ :: below) :=
  rfl

theorem leave_eq_after
    (v : Int) :
    s.leave v below = s.after [] [v] below :=
  rfl

theorem step_enter
    {v c : Int} {k : Nat}
    (hs : s.stack = ⟨v, k⟩ :: below)
    (hc : (tree.succs v)[k]? = some c) :
    step tree s = some (s.enter c (⟨v, k + 1⟩ :: below)) := by
  simp only [step, hs, hc]

theorem step_leave
    {v : Int} {k : Nat}
    (hs : s.stack = ⟨v, k⟩ :: below)
    (hk : (tree.succs v).length ≤ k) :
    step tree s = some (s.leave v below) := by
  simp only [step, hs, List.getElem?_eq_none hk]

theorem runSteps_of_step
    {t : Traversal} {bound : Nat}
    (h : step tree s = some t) :
    runSteps (step tree) (bound + 1) s = runSteps (step tree) bound t := by
  rw [runSteps, h]

theorem runSteps_of_nil
    {bound : Nat}
    (hs : s.stack = []) :
    runSteps (step tree) bound s = s := by
  cases bound with
  | zero => rfl
  | succ bound => simp only [runSteps, step, hs]

/-- A frame runs through its remaining children and is on top again. -/
theorem runSteps_traverses
    {siblings pre post : List Int} {v : Int} {k bound : Nat}
    (h : tree.Traverses siblings pre post)
    (hs : s.stack = ⟨v, k⟩ :: below)
    (hk : (tree.succs v).drop k = siblings) :
    runSteps (step tree) (2 * pre.length + bound) s =
      runSteps (step tree) bound (s.after pre post (⟨v, k + siblings.length⟩ :: below)) := by
  induction h generalizing s v k below bound with
  | nil =>
      obtain ⟨_, _, _, _, _⟩ := s
      obtain rfl := hs
      rw [List.length_nil, Nat.mul_zero, Nat.zero_add]
      rfl
  | @cons c rest preBelow postBelow preRest postRest _ _ ihbelow ihrest =>
      have hc : (tree.succs v)[k]? = some c := by
        rw [← List.head?_drop, hk]
        rfl
      have hrest : (tree.succs v).drop (k + 1) = rest := by
        rw [← List.drop_drop, hk]
        rfl
      -- One step enters the child, one leaves it; the nodes below it take two each.
      have hsteps : 2 * (c :: (preBelow ++ preRest)).length + bound =
          2 * preBelow.length + (2 * preRest.length + bound + 1) + 1 := by
        rw [List.length_cons, List.length_append]
        omega
      rw [hsteps, runSteps_of_step (step_enter hs hc), ihbelow rfl (List.drop_zero),
        runSteps_of_step (step_leave rfl (by omega)), ihrest rfl hrest]
      have hnext : k + 1 + rest.length = k + (c :: rest).length := by
        rw [List.length_cons]
        omega
      rw [enter_eq_after, leave_eq_after, after_after, after_after, after_after, hnext]
      simp only [List.cons_append, List.nil_append]

/-- The traversal of a tree ends with all that was entered and left numbered. -/
theorem run_eq
    {root : Int} {pre post : List Int}
    (h : tree.Traverses (tree.succs root) pre post)
    (hlength : pre.length < tree.nodes.length) :
    run tree root = (start tree.nodes.length).after (root :: pre) (post ++ [root]) [] := by
  have hsteps : 2 * tree.nodes.length =
      2 * pre.length + (2 * (tree.nodes.length - pre.length - 1) + 1 + 1) := by
    omega
  simp only [run]
  rw [hsteps, runSteps_traverses h rfl (List.drop_zero),
    runSteps_of_step (step_leave rfl (by omega)), runSteps_of_nil rfl]
  rw [enter_eq_after, leave_eq_after, after_after, after_after]
  simp only [List.cons_append, List.nil_append, List.append_nil]

end Traversal

namespace DominatorTree

variable {search : DominatorSearch} {g : Digraph Int} {root : Int}

/-- The numbers of a tree whose root has a traversal below it. -/
theorem ofGraph_eq
    {pre post : List Int} {tree : Digraph Int}
    (htree : tree = dominatorTree search g.withoutLoops root)
    (h : tree.Traverses [root] pre post)
    (hlength : pre.length ≤ g.nodes.length) :
    ofGraph search g root =
      { pre := numbered (Array.replicate g.nodes.length (-1)) 0 pre
        post := numbered (Array.replicate g.nodes.length 0) 0 post } := by
  subst htree
  cases h with
  | cons below after =>
      cases after
      rw [List.append_nil, List.length_cons] at hlength
      simp only [ofGraph, Traversal.run_eq below hlength, Traversal.after, Traversal.start]
      rw [List.append_nil]
      rfl

theorem item?_replicate
    {n : Nat} {v : Int}
    (hv : v ∈ positions n) (x : Int) :
    item? (Array.replicate n x) v = some x := by
  obtain ⟨hv₀, hvn⟩ := mem_positions.mp hv
  rw [item?, if_pos hv₀, Array.getElem?_replicate, if_pos (by omega)]

theorem fetch_numbered
    {n : Nat} {x v : Int} {order : List Int}
    (hnodup : order.Nodup)
    (hv : v ∈ positions n) :
    fetch (numbered (Array.replicate n x) 0 order) v =
      .ok (if v ∈ order then (order.idxOf v : Int) else x) := by
  rw [fetch_eq_ok_iff, item?_numbered hnodup (by rwa [Array.size_replicate]), item?_replicate hv,
    Nat.zero_add]
  split <;> rfl

/-- Comparing the places of two nodes in both orders. -/
theorem dominates?_numbered
    {n : Nat} {pre post : List Int} {a b : Int}
    (hperm : post.Perm pre)
    (hnodup : pre.Nodup)
    (ha : a ∈ positions n)
    (hb : b ∈ positions n) :
    dominates?
        { pre := numbered (Array.replicate n (-1)) 0 pre
          post := numbered (Array.replicate n 0) 0 post } a b =
      .ok (decide (a ∈ pre ∧ b ∈ pre ∧ Digraph.Encloses pre post a b)) := by
  have hnodup' : post.Nodup := hperm.nodup_iff.mpr hnodup
  simp only [dominates?, fetch_numbered hnodup ha, fetch_numbered hnodup hb,
    fetch_numbered hnodup' ha, fetch_numbered hnodup' hb, hperm.mem_iff, bind, Except.bind, pure,
    Except.pure]
  have hnumber : ∀ k : Nat, ¬ (k : Int) < 0 := fun k => by omega
  by_cases hapre : a ∈ pre
  · by_cases hbpre : b ∈ pre
    · by_cases hle : pre.idxOf a ≤ pre.idxOf b
      · simp [Digraph.Encloses, hapre, hbpre, hle, hnumber, Nat.not_lt.mpr hle]
      · simp [Digraph.Encloses, hapre, hbpre, hle, hnumber, Nat.not_le.mp hle]
    · simp [hapre, hbpre, hnumber]
  · simp [hapre]

/-- The tree of dominators has a traversal that lists what the root leads to, without repetitions,
and in which a node encloses those that it dominates. -/
theorem exists_traverses_dominatorTree
    (hg : g.Closed)
    (hnodup : g.nodes.Nodup)
    (hroot : root ∈ g.nodes)
    (hsearch : FindsImmediateDominators search g.withoutLoops root) :
    ∃ pre post, (dominatorTree search g.withoutLoops root).Traverses [root] pre post ∧
      pre.Nodup ∧ (∀ v, v ∈ pre ↔ g.Reaches root v) ∧
      ∀ a ∈ pre, ∀ b ∈ pre, (Digraph.Encloses pre post a b ↔ g.Dominates root a b) := by
  have hforest := isForest_dominatorTree hg.withoutLoops hroot hnodup hsearch
  have hapart := Digraph.apart_singleton (dominatorTree search g.withoutLoops root) root
  have hbelow : ∀ {u v}, g.Reaches root u →
      ((dominatorTree search g.withoutLoops root).Reaches u v ↔ g.Dominates root u v) := by
    intro u v hu
    rw [← Digraph.withoutLoops_dominates_iff]
    exact dominatorTree_reaches_iff hg.withoutLoops hroot hsearch
      (Digraph.withoutLoops_reaches_iff.mpr hu)
  obtain ⟨pre, post, htraverses⟩ :=
    hforest.exists_traverses (dominatedCount g.withoutLoops root root + 1) [root] (by simp)
  -- The tree holds what the root leads to: the root dominates all of it.
  have hmem : ∀ v, v ∈ pre ↔ g.Reaches root v := by
    intro v
    rw [htraverses.mem_pre_iff]
    simp only [List.mem_singleton, exists_eq_left, hbelow (.refl root)]
    exact ⟨fun h => h.2.1, Digraph.Dominates.of_root⟩
  refine ⟨pre, post, htraverses, htraverses.nodup hforest hapart, hmem, ?_⟩
  intro a ha b hb
  rw [← hbelow ((hmem a).mp ha)]
  exact (htraverses.reaches_iff hforest hapart ha hb).symm

/-- The numbers of a dominator tree say exactly which nodes dominate which. -/
theorem exists_dominates?_eq
    {n : Nat} {a b : Int}
    (hg : g.Closed)
    (hnodes : g.nodes = positions n)
    (hroot : root ∈ g.nodes)
    (hsearch : FindsImmediateDominators search g.withoutLoops root)
    (ha : a ∈ g.nodes)
    (hb : b ∈ g.nodes) :
    ∃ answer, (ofGraph search g root).dominates? a b = .ok answer ∧
      (answer = true ↔ g.Dominates root a b) := by
  have hlength : g.nodes.length = n := by simp [hnodes, positions]
  obtain ⟨pre, post, htraverses, hnodup, hmem, hencloses⟩ :=
    exists_traverses_dominatorTree hg (hnodes ▸ positions_nodup n) hroot hsearch
  have hshort : pre.length ≤ g.nodes.length := by
    refine (List.subperm_of_subset hnodup ?_).length_le
    intro v hv
    exact hg.reaches hroot ((hmem v).mp hv)
  rw [ofGraph_eq rfl htraverses hshort, hlength,
    dominates?_numbered htraverses.perm hnodup (hnodes ▸ ha) (hnodes ▸ hb)]
  refine ⟨_, rfl, ?_⟩
  rw [decide_eq_true_eq]
  constructor
  · rintro ⟨hapre, hbpre, hplaces⟩
    exact (hencloses a hapre b hbpre).mp hplaces
  · intro h
    have hapre := (hmem a).mpr h.1
    have hbpre := (hmem b).mpr h.2.1
    exact ⟨hapre, hbpre, (hencloses a hapre b hbpre).mpr h⟩

end DominatorTree
end DefUse
