import DefUse.Graph.DominatorTree
import DefUse.Proofs.Graph.Dominance
import DefUse.Proofs.Graph.Forest
import Mathlib.Data.Finset.Card

/-!
# Immediate dominators

A node has at most one immediate dominator: a different node that dominates it and is dominated by
every other one that does.  The last strict dominator on any walk is the immediate one.

**Results.**
* `exists_immediateDominator`: every node but the root that the root leads to has one.
* `withoutLoops_dominates_iff`: dropping loops changes no dominance.
* `findsImmediateDominators_immediateDominator?`: the search that follows the definition is exact.
* `isForest_dominatorTree` and `dominatorTree_reaches_iff`: the immediate dominators form a forest,
  in which a node lies below those that dominate it.
-/

namespace DefUse
namespace Digraph

variable {α : Type}

/-- A walk from one node to another. -/
structure Connects (g : Digraph α) (u v : α) (walk : List α) : Prop where
  isWalk : g.IsWalk walk
  starts : walk.head? = some u
  ends : walk.getLast? = some v

/-- The root leads to both nodes, and every walk from it to the second one visits the first. -/
def Dominates (g : Digraph α) (root a b : α) : Prop :=
  g.Reaches root a ∧ g.Reaches root b ∧ ∀ walk, g.Connects root b walk → a ∈ walk

/-- A different node that dominates a node and is dominated by every other one that does. -/
def IsImmediateDominator (g : Digraph α) (root d v : α) : Prop :=
  d ≠ v ∧ g.Dominates root d v ∧ ∀ x, x ≠ v → g.Dominates root x v → g.Dominates root x d

namespace Connects

variable {g : Digraph α} {u v x : α} {walk front back : List α}

theorem of_reaches
    (h : g.Reaches u v) :
    ∃ walk, g.Connects u v walk := by
  obtain ⟨rest, hwalk, hlast⟩ := exists_walk_of_reaches h
  exact ⟨u :: rest, hwalk, rfl, hlast⟩

theorem reaches
    (h : g.Connects u v walk) :
    g.Reaches u v := by
  obtain ⟨rest, rfl⟩ := List.head?_eq_some_iff.mp h.starts
  exact h.isWalk.reaches_of_mem (List.mem_of_getLast? h.ends)

/-- The part of a walk up to one of its nodes. -/
theorem upTo
    (h : g.Connects u v (front ++ x :: back)) :
    g.Connects u x (front ++ [x]) := by
  refine ⟨?_, ?_, by simp⟩
  · exact h.isWalk.infix ⟨[], back, by simp⟩
  · have hstarts := h.starts
    cases front <;> simpa using hstarts

/-- The part of a walk from one of its nodes on. -/
theorem onward
    (h : g.Connects u v (front ++ x :: back)) :
    g.Connects x v (x :: back) := by
  refine ⟨?_, rfl, ?_⟩
  · exact h.isWalk.infix (List.suffix_append _ _).isInfix
  · have hends := h.ends
    rw [List.getLast?_append] at hends
    simpa using hends

theorem append
    (h : g.Connects u x walk)
    (hback : g.Connects x v (x :: back)) :
    g.Connects u v (walk ++ back) := by
  obtain ⟨init, rfl⟩ := List.getLast?_eq_some_iff.mp h.ends
  refine ⟨?_, ?_, ?_⟩
  · exact List.IsChain.append_overlap h.isWalk hback.isWalk (List.cons_ne_nil x [])
  · rw [List.head?_append_of_ne_nil _ (by simp)]
    exact h.starts
  · rw [List.append_assoc, List.singleton_append, List.getLast?_append, hback.ends]
    rfl

/-- A walk without its steps from a node to itself. -/
theorem withoutLoops
    [DecidableEq α]
    (h : g.Connects u v walk) :
    ∃ short, g.withoutLoops.Connects u v short ∧ short ⊆ walk := by
  induction walk generalizing u with
  | nil => exact absurd h.starts (by simp)
  | cons w rest ih =>
      obtain rfl : w = u := by simpa using h.starts
      cases rest with
      | nil =>
          exact ⟨[w], ⟨List.isChain_singleton w, rfl, h.ends⟩, List.Subset.refl _⟩
      | cons x rest =>
          obtain ⟨hx, hrest⟩ := isWalk_cons_cons.mp h.isWalk
          obtain ⟨short, hshort, hsub⟩ := ih ⟨hrest, rfl, by simpa using h.ends⟩
          by_cases hxw : x = w
          · subst hxw
            exact ⟨short, hshort, List.subset_cons_of_subset _ hsub⟩
          · obtain ⟨tail, rfl⟩ := List.head?_eq_some_iff.mp hshort.starts
            refine ⟨w :: x :: tail, ⟨isWalk_cons_cons.mpr ⟨?_, hshort.isWalk⟩, rfl, ?_⟩, ?_⟩
            · exact List.mem_filter.mpr ⟨hx, decide_eq_true hxw⟩
            · simpa using hshort.ends
            · exact List.cons_subset_cons w hsub

theorem of_withoutLoops
    [DecidableEq α]
    (h : g.withoutLoops.Connects u v walk) :
    g.Connects u v walk :=
  ⟨h.isWalk.imp fun _ _ hxy => List.mem_of_mem_filter hxy, h.starts, h.ends⟩

end Connects

section Dominance

variable {g : Digraph α} {root a b c d v : α}

theorem Dominates.refl
    (h : g.Reaches root a) :
    g.Dominates root a a :=
  ⟨h, h, fun _ hwalk => List.mem_of_getLast? hwalk.ends⟩

/-- The root dominates all that it leads to. -/
theorem Dominates.of_root
    (h : g.Reaches root a) :
    g.Dominates root root a :=
  ⟨.refl root, h, fun _ hwalk => List.mem_of_mem_head? hwalk.starts⟩

theorem Dominates.trans
    (hab : g.Dominates root a b)
    (hbc : g.Dominates root b c) :
    g.Dominates root a c := by
  refine ⟨hab.1, hbc.2.1, ?_⟩
  intro walk hwalk
  obtain ⟨front, back, rfl⟩ := List.append_of_mem (hbc.2.2 walk hwalk)
  have hmem := hab.2.2 _ hwalk.upTo
  rw [List.mem_append, List.mem_singleton] at hmem
  rw [List.mem_append, List.mem_cons, ← or_assoc]
  exact Or.inl hmem

/-- On a walk that ends where it first comes to a node, a dominator of the node stands before it. -/
theorem Dominates.antisymm
    (hab : g.Dominates root a b)
    (hba : g.Dominates root b a) :
    a = b := by
  obtain ⟨walk, hwalk⟩ := Connects.of_reaches hab.1
  obtain ⟨front, back, rfl, hfirst⟩ :=
    List.eq_append_cons_of_mem (List.mem_of_getLast? hwalk.ends)
  have hb := hba.2.2 _ hwalk.upTo
  rcases List.mem_append.mp hb with hb | hb
  · obtain ⟨init, mid, rfl⟩ := List.append_of_mem hb
    have hto : g.Connects root b (init ++ [b]) := by
      have hfront := hwalk.upTo
      rw [List.append_assoc, List.cons_append] at hfront
      exact hfront.upTo
    have ha := hab.2.2 _ hto
    rw [List.mem_append, List.mem_singleton] at ha
    rcases ha with ha | rfl
    · exact absurd (List.mem_append_left _ ha) hfirst
    · rfl
  · exact (List.mem_singleton.mp hb).symm

/-- Nothing but the root dominates the root. -/
theorem Dominates.eq_root
    (h : g.Dominates root a root) :
    a = root := by
  have := h.2.2 [root] ⟨List.isChain_singleton root, rfl, rfl⟩
  exact List.mem_singleton.mp this

theorem IsImmediateDominator.unique
    (hc : g.IsImmediateDominator root c v)
    (hd : g.IsImmediateDominator root d v) :
    c = d :=
  (hd.2.2 c hc.1 hc.2.1).antisymm (hc.2.2 d hd.1 hd.2.1)

/-- The last strict dominator on a walk to a node is the immediate one. -/
theorem exists_immediateDominator
    (hv : g.Reaches root v)
    (hne : v ≠ root) :
    ∃ d, g.IsImmediateDominator root d v := by
  obtain ⟨walk, hwalk⟩ := Connects.of_reaches hv
  have hroot : g.Dominates root root v := .of_root hv
  obtain ⟨front, d, back, rfl, hd, hback⟩ :=
    exists_last_split (P := fun x => x ≠ v ∧ g.Dominates root x v)
      ⟨root, hroot.2.2 walk hwalk, Ne.symm hne, hroot⟩
  refine ⟨d, hd.1, hd.2, ?_⟩
  intro x hxv hx
  refine ⟨hx.1, hd.2.1, ?_⟩
  intro other hother
  -- Any way to `d` goes on like this walk, where no strict dominator follows.
  have hmem := hx.2.2 _ (hother.append hwalk.onward)
  exact (List.mem_append.mp hmem).resolve_right fun h => hback x h ⟨hxv, hx⟩

theorem mem_dominated_iff_dominates
    [DecidableEq α]
    (hg : g.Closed)
    (hroot : root ∈ g.nodes) :
    b ∈ g.dominated root a ↔ g.Dominates root a b := by
  rw [mem_dominated_iff hg hroot]
  refine and_congr_right fun _ => and_congr_right fun _ => ?_
  constructor
  · intro h walk hwalk
    obtain ⟨rest, rfl⟩ := List.head?_eq_some_iff.mp hwalk.starts
    exact h rest hwalk.isWalk hwalk.ends
  · intro h rest hwalk hlast
    exact h _ ⟨hwalk, rfl, hlast⟩

theorem withoutLoops_reaches_iff
    [DecidableEq α] :
    g.withoutLoops.Reaches a b ↔ g.Reaches a b := by
  constructor
  · intro h
    obtain ⟨walk, hwalk⟩ := Connects.of_reaches h
    exact hwalk.of_withoutLoops.reaches
  · intro h
    obtain ⟨walk, hwalk⟩ := Connects.of_reaches h
    obtain ⟨short, hshort, -⟩ := hwalk.withoutLoops
    exact hshort.reaches

/-- A loop is part of no way round a node. -/
theorem withoutLoops_dominates_iff
    [DecidableEq α] :
    g.withoutLoops.Dominates root a b ↔ g.Dominates root a b := by
  unfold Dominates
  rw [withoutLoops_reaches_iff, withoutLoops_reaches_iff]
  refine and_congr_right fun _ => and_congr_right fun _ => ?_
  constructor
  · intro h walk hwalk
    obtain ⟨short, hshort, hsub⟩ := hwalk.withoutLoops
    exact hsub (h short hshort)
  · intro h walk hwalk
    exact h walk hwalk.of_withoutLoops

theorem Closed.withoutLoops
    [DecidableEq α]
    (hg : g.Closed) :
    g.withoutLoops.Closed :=
  fun v hv w hw => hg v hv w (List.mem_of_mem_filter hw)

end Dominance

end Digraph

section Tree

variable {search : DominatorSearch} {g : Digraph Int} {root a b : Int}

/-- The search finds the immediate dominators of a graph and nothing else. -/
def FindsImmediateDominators (search : DominatorSearch) (g : Digraph Int) (root : Int) : Prop :=
  ∀ v d, search g root v = some d ↔ g.IsImmediateDominator root d v

/-- The other nodes that dominate a node. -/
def strictDominators (g : Digraph Int) (root v : Int) : List Int :=
  g.nodes.filter fun d => d ≠ v ∧ v ∈ g.dominated root d

/-- The search that follows the definition: the strict dominator that all of them dominate. -/
def immediateDominator? (g : Digraph Int) (root v : Int) : Option Int :=
  (strictDominators g root v).find? fun d =>
    (strictDominators g root v).all fun x => d ∈ g.dominated root x

theorem mem_strictDominators_iff
    {d v : Int}
    (hg : g.Closed)
    (hroot : root ∈ g.nodes) :
    d ∈ strictDominators g root v ↔ d ≠ v ∧ g.Dominates root d v := by
  rw [strictDominators, List.mem_filter, decide_eq_true_eq,
    Digraph.mem_dominated_iff_dominates hg hroot]
  exact and_iff_right_of_imp fun h => hg.reaches hroot h.2.1

theorem findsImmediateDominators_immediateDominator?
    (hg : g.Closed)
    (hroot : root ∈ g.nodes) :
    FindsImmediateDominators immediateDominator? g root := by
  intro v d
  have hall : ∀ d, ((strictDominators g root v).all fun x => d ∈ g.dominated root x) = true ↔
      ∀ x, x ≠ v → g.Dominates root x v → g.Dominates root x d := by
    intro d
    simp only [List.all_eq_true, mem_strictDominators_iff hg hroot, decide_eq_true_eq,
      Digraph.mem_dominated_iff_dominates hg hroot, and_imp]
  have hsome : ∀ {d}, immediateDominator? g root v = some d → g.IsImmediateDominator root d v := by
    intro d h
    unfold immediateDominator? at h
    obtain ⟨hne, hdom⟩ := (mem_strictDominators_iff hg hroot).mp (List.mem_of_find?_eq_some h)
    have hlast := List.find?_some h
    exact ⟨hne, hdom, (hall d).mp hlast⟩
  refine ⟨hsome, ?_⟩
  intro h
  cases hfound : immediateDominator? g root v with
  | none =>
      have hnot := List.find?_eq_none.mp hfound d
        ((mem_strictDominators_iff hg hroot).mpr ⟨h.1, h.2.1⟩)
      exact absurd ((hall d).mpr h.2.2) hnot
  | some e => rw [(hsome hfound).unique h]

/-- The number of nodes that a node dominates. -/
def dominatedCount (g : Digraph Int) (root v : Int) : Nat :=
  (g.dominated root v).toFinset.card

theorem dominatedCount_le
    (hg : g.Closed)
    (hroot : root ∈ g.nodes)
    (h : g.Dominates root a b) :
    dominatedCount g root b ≤ dominatedCount g root a := by
  apply Finset.card_le_card
  intro x hx
  rw [List.mem_toFinset, Digraph.mem_dominated_iff_dominates hg hroot] at hx ⊢
  exact h.trans hx

theorem dominatedCount_lt
    (hg : g.Closed)
    (hroot : root ∈ g.nodes)
    (h : g.Dominates root a b)
    (hne : a ≠ b) :
    dominatedCount g root b < dominatedCount g root a := by
  apply Finset.card_lt_card
  rw [Finset.ssubset_iff_of_subset]
  · refine ⟨a, ?_, ?_⟩
    · rw [List.mem_toFinset, Digraph.mem_dominated_iff_dominates hg hroot]
      exact .refl h.1
    · rw [List.mem_toFinset, Digraph.mem_dominated_iff_dominates hg hroot]
      exact fun hba => hne (h.antisymm hba)
  · intro x hx
    rw [List.mem_toFinset, Digraph.mem_dominated_iff_dominates hg hroot] at hx ⊢
    exact h.trans hx

theorem mem_dominatorTree_succs
    (hg : g.Closed)
    (hroot : root ∈ g.nodes)
    (hsearch : FindsImmediateDominators search g root) :
    b ∈ (dominatorTree search g root).succs a ↔ g.IsImmediateDominator root a b := by
  simp only [dominatorTree, List.mem_filter, decide_eq_true_eq, hsearch b a]
  constructor
  · exact fun h => h.2.2
  · intro h
    refine ⟨hg.reaches hroot h.2.1.2.1, ?_, h⟩
    rintro rfl
    exact h.1 h.2.1.eq_root

theorem isForest_dominatorTree
    (hg : g.Closed)
    (hroot : root ∈ g.nodes)
    (hnodup : g.nodes.Nodup)
    (hsearch : FindsImmediateDominators search g root) :
    (dominatorTree search g root).IsForest (dominatedCount g root) where
  nodup := fun _ => hnodup.filter _
  parent_unique := by
    intro c d e hd he
    rw [mem_dominatorTree_succs hg hroot hsearch] at hd he
    exact hd.unique he
  size_lt := by
    intro c d h
    rw [mem_dominatorTree_succs hg hroot hsearch] at h
    exact dominatedCount_lt hg hroot h.2.1 h.1

/-- In the tree of immediate dominators, a node lies below those that dominate it. -/
theorem dominatorTree_reaches_iff
    (hg : g.Closed)
    (hroot : root ∈ g.nodes)
    (hsearch : FindsImmediateDominators search g root)
    (ha : g.Reaches root a) :
    (dominatorTree search g root).Reaches a b ↔ g.Dominates root a b := by
  constructor
  · intro h
    induction h with
    | refl _ => exact .refl ha
    | step hs _ ih =>
        rw [mem_dominatorTree_succs hg hroot hsearch] at hs
        exact hs.2.1.trans (ih hs.2.1.2.1)
  · -- By induction on how many nodes only the upper one dominates.
    intro h
    induction hn : dominatedCount g root a - dominatedCount g root b
      using Nat.strong_induction_on generalizing b with
    | _ n ih =>
        subst hn
        by_cases hab : a = b
        · rw [hab]
          exact .refl b
        · have hbroot : b ≠ root := by
            rintro rfl
            exact hab h.eq_root
          obtain ⟨d, hd⟩ := Digraph.exists_immediateDominator h.2.1 hbroot
          have had := hd.2.2 a hab h
          have := dominatedCount_le hg hroot had
          have := dominatedCount_lt hg hroot hd.2.1 hd.1
          refine (ih _ ?_ had rfl).trans (.single ?_)
          · omega
          · exact (mem_dominatorTree_succs hg hroot hsearch).mpr hd

end Tree

end DefUse
