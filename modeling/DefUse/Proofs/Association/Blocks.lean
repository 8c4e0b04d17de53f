import DefUse.Proofs.Association.SameBlock
import DefUse.Proofs.Graph.Reach
import DefUse.Proofs.Program.Edited

/-!
# Basic blocks cut the reachable nodes

A basic block follows single edges as long as they lead to nodes that lead no block.  Nothing marks
the nodes on the way, so that it is the shape of the graph that keeps a block from going round in a
circle and two blocks from meeting.

**Method.** If the edges of a procedure are recorded at both ends, a straight edge is the only edge
into its target and the only one out of its source.  The straight way from a leader to a node can
therefore be read backwards from the node: there is only one.  A node that came twice on a way, or
on two ways, would have two.

**Results.**
* `Linked.straightEdge_iff`: what a straight edge says about both of its ends.
* `Straight.unique` and `Straight.nodup`: one straight way leads to a node, and no node comes twice.
* `mem_blocks_iff`: the blocks are the straight ways from leaders that no straight edge continues.
* `isBlockCut_blocks`: the blocks hold every reachable node once, and are as long as they can be.
-/

namespace DefUse
namespace Procedure

variable {f : Procedure} {a b i x : Int} {front front' way way' block block' : List Int}
  {blocks : List (List Int)}

/-- The blocks hold every node that the entry reaches once, and no other node.  Inside a block, each
node has its neighbours as its only ones; a block ends only where the next node is the entry or has
other predecessors, or where there is not exactly one next node. -/
structure IsBlockCut (f : Procedure) (blocks : List (List Int)) : Prop where
  ne_nil : ∀ block ∈ blocks, block ≠ []
  nodup : blocks.flatten.Nodup
  mem_iff : ∀ i, i ∈ blocks.flatten ↔ f.graph.Reaches entryId i
  straight : ∀ block ∈ blocks,
    block.IsChain fun a b => (f.node a).succs = [b] ∧ (f.node b).preds = [a]
  maximal : ∀ block ∈ blocks, ∀ a ∈ block.getLast?, ∀ b, (f.node a).succs = [b] →
    b = entryId ∨ (f.node b).preds ≠ [a]

section Edges

/-- The graph of a procedure whose edges are in order is closed. -/
theorem Linked.closed
    (h : f.Linked) :
    f.graph.Closed := by
  intro i _ s hs
  rw [graph_succs] at hs
  rw [graph_nodes]
  exact h.succs_mem i s hs

theorem Linked.entry_mem
    (h : f.Linked) :
    entryId ∈ f.ids := by
  have := h.two_le
  rw [ids, mem_positions, entryId]
  omega

/-- There are no more different nodes that the entry reaches than there are nodes. -/
theorem Linked.length_le_of_reaches
    {xs : List Int}
    (h : f.Linked)
    (hnodup : xs.Nodup)
    (hxs : ∀ x ∈ xs, f.graph.Reaches entryId x) :
    xs.length ≤ f.nodes.size := by
  have hentry : entryId ∈ f.graph.nodes := by
    rw [graph_nodes]
    exact h.entry_mem
  have hsub : xs ⊆ f.ids := by
    intro x hx
    rw [← graph_nodes]
    exact h.closed.reaches hentry (hxs x hx)
  simpa [ids, positions] using (List.subperm_of_subset hnodup hsub).length_le

/-- The neighbours of a node are nodes. -/
theorem Linked.edge_mem
    (h : f.Linked)
    (hx : x ∈ (f.node i).succs ∨ x ∈ (f.node i).preds) :
    x ∈ f.ids := by
  rcases hx with hx | hx
  · exact h.succs_mem i x hx
  · by_contra hout
    rw [ids, mem_positions] at hout
    have hedge := (h.paired x i).mpr hx
    rw [node, item?_eq_none hout] at hedge
    exact absurd hedge List.not_mem_nil

/-- A node is no leader exactly if it has one predecessor, which has no other successor. -/
theorem isLeader_eq_false_iff :
    f.isLeader b = false ↔
      b ≠ entryId ∧ ∃ a, (f.node b).preds = [a] ∧ (f.node a).succs.length = 1 := by
  unfold isLeader
  rw [Bool.or_eq_false_iff, decide_eq_false_iff_not]
  refine and_congr_right fun _ => ?_
  split
  · rename_i a ha
    simp [ha]
  · rename_i hmany
    simp only [Bool.true_eq_false, false_iff, not_exists, not_and]
    exact fun a ha => absurd ha (hmany a)

/-- A straight edge is the only edge out of its source and the only one into its target. -/
theorem Linked.straightEdge_iff
    (h : f.Linked) :
    f.StraightEdge a b ↔
      b ≠ entryId ∧ (f.node a).succs = [b] ∧ (f.node b).preds = [a] := by
  unfold StraightEdge
  rw [isLeader_eq_false_iff]
  constructor
  · rintro ⟨hsuccs, hentry, c, hpreds, -⟩
    have hac : a ∈ (f.node b).preds := by
      rw [← h.paired, hsuccs]
      exact List.mem_singleton.mpr rfl
    rw [hpreds, List.mem_singleton] at hac
    exact ⟨hentry, hsuccs, hac ▸ hpreds⟩
  · rintro ⟨hentry, hsuccs, hpreds⟩
    exact ⟨hsuccs, hentry, a, hpreds, by rw [hsuccs]; rfl⟩

/-- The edge to a node that leads no block is straight. -/
theorem Linked.straightEdge_of_mem
    (h : f.Linked)
    (hb : b ∈ (f.node a).succs)
    (hleader : f.isLeader b = false) :
    f.StraightEdge a b := by
  obtain ⟨-, c, hpreds, hone⟩ := isLeader_eq_false_iff.mp hleader
  have hac := (h.paired a b).mp hb
  rw [hpreds, List.mem_singleton] at hac
  subst hac
  obtain ⟨d, hd⟩ := List.length_eq_one_iff.mp hone
  rw [hd, List.mem_singleton] at hb
  exact ⟨hb ▸ hd, hleader⟩

/-- Of two straight ways from a node, the one that no straight edge continues is the longer one. -/
theorem StraightEdge.isPrefix
    {xs ys : List Int}
    (hxs : (i :: xs).IsChain f.StraightEdge)
    (hys : (i :: ys).IsChain f.StraightEdge)
    (hstop : ∀ a ∈ (i :: ys).getLast?, ∀ b, ¬ f.StraightEdge a b) :
    i :: xs <+: i :: ys := by
  induction xs generalizing i ys with
  | nil => exact ⟨ys, rfl⟩
  | cons x xs ih =>
      obtain ⟨hx, hxs⟩ := List.isChain_cons_cons.mp hxs
      cases ys with
      | nil => exact absurd hx (hstop i rfl x)
      | cons y ys =>
          obtain ⟨hy, hys⟩ := List.isChain_cons_cons.mp hys
          obtain rfl : x = y := by
            have hsame := hx.1.symm.trans hy.1
            exact (List.cons.inj hsame).1
          rw [List.prefix_cons_inj]
          exact ih hxs hys (by simpa using hstop)

end Edges

/-- A way along straight edges from a leader that the entry reaches, as the nodes before its last
one and the last one. -/
inductive Straight (f : Procedure) : List Int → Int → Prop where
  | leader {i : Int}
      (hleader : f.isLeader i = true)
      (hreach : f.graph.Reaches entryId i) :
      Straight f [] i
  | next {front : List Int} {a b : Int}
      (h : Straight f front a)
      (hedge : f.StraightEdge a b) :
      Straight f (front ++ [a]) b

namespace Straight

/-- The entry reaches the end of a straight way. -/
theorem reaches
    (h : f.Straight front a) :
    f.graph.Reaches entryId a := by
  induction h with
  | leader _ hreach => exact hreach
  | next _ hedge ih =>
      refine ih.trans (.single ?_)
      rw [graph_succs, hedge.1]
      exact List.mem_singleton.mpr rfl

theorem isChain
    (h : f.Straight front a) :
    (front ++ [a]).IsChain f.StraightEdge := by
  induction h with
  | leader _ _ => exact List.isChain_singleton _
  | next _ hedge ih =>
      refine List.isChain_append.mpr ⟨ih, List.isChain_singleton _, ?_⟩
      intro x hx y hy
      rw [List.getLast?_concat, Option.mem_some_iff] at hx
      rw [List.head?_cons, Option.mem_some_iff] at hy
      exact hx ▸ hy ▸ hedge

/-- A straight way begins with a leader that the entry reaches. -/
theorem exists_leader
    (h : f.Straight front a) :
    ∃ i rest, front ++ [a] = i :: rest ∧ f.isLeader i = true ∧ f.graph.Reaches entryId i := by
  induction h with
  | leader hleader hreach => exact ⟨_, [], rfl, hleader, hreach⟩
  | next _ _ ih =>
      obtain ⟨i, rest, hsplit, hi⟩ := ih
      exact ⟨i, rest ++ [_], by rw [hsplit]; rfl, hi⟩

/-- Only one straight way leads to a node. -/
theorem unique
    (h : f.Straight front a)
    (h' : f.Straight front' a)
    (hlinked : f.Linked) :
    front = front' := by
  -- backwards from the common last node: it leads a block on both ways or on none
  induction h generalizing front' with
  | leader hleader _ =>
      cases h' with
      | leader _ _ => rfl
      | next _ hedge => exact absurd (hleader.symm.trans hedge.2) (by simp)
  | next _ hedge ih =>
      cases h' with
      | leader hleader _ => exact absurd (hleader.symm.trans hedge.2) (by simp)
      | next h' hedge' =>
          have hpreds := (hlinked.straightEdge_iff.mp hedge).2.2
          have hpreds' := (hlinked.straightEdge_iff.mp hedge').2.2
          obtain rfl := (List.cons.inj (hpreds.symm.trans hpreds')).1
          rw [ih h']

/-- The way to a node on a straight way is the part of it that ends there. -/
theorem exists_before
    (h : f.Straight front a)
    (hx : x ∈ front ++ [a]) :
    ∃ before, f.Straight before x ∧ before ++ [x] <+: front ++ [a] := by
  induction h with
  | leader hleader hreach =>
      obtain rfl := List.mem_singleton.mp hx
      exact ⟨[], .leader hleader hreach, List.prefix_rfl⟩
  | next h hedge ih =>
      rcases List.mem_append.mp hx with hx | hx
      · obtain ⟨before, hbefore, hprefix⟩ := ih hx
        exact ⟨before, hbefore, hprefix.trans (List.prefix_append _ _)⟩
      · obtain rfl := List.mem_singleton.mp hx
        exact ⟨_, h.next hedge, List.prefix_rfl⟩

/-- No node comes twice on a straight way: two ways would lead to it. -/
theorem nodup
    (h : f.Straight front a)
    (hlinked : f.Linked) :
    (front ++ [a]).Nodup := by
  induction h with
  | leader _ _ => exact List.nodup_singleton _
  | @next front a b h hedge ih =>
      rw [← List.concat_eq_append]
      refine ih.concat fun hb => ?_
      obtain ⟨before, hbefore, hprefix⟩ := h.exists_before hb
      obtain rfl := hbefore.unique (h.next hedge) hlinked
      have hlength := hprefix.length_le
      simp at hlength

theorem reaches_of_mem
    (h : f.Straight front a)
    (hx : x ∈ front ++ [a]) :
    f.graph.Reaches entryId x := by
  obtain ⟨before, hbefore, -⟩ := h.exists_before hx
  exact hbefore.reaches

end Straight

/-- A straight way leads to every node that the entry reaches. -/
theorem Linked.exists_straight
    (h : f.Linked)
    (hx : f.graph.Reaches entryId x) :
    ∃ front, f.Straight front x := by
  have hentry : f.isLeader entryId = true := by simp [isLeader]
  refine hx.invariant (P := fun x => ∃ front, f.Straight front x) ?_
    ⟨[], .leader hentry (.refl entryId)⟩
  rintro u v hv ⟨front, hu⟩
  by_cases hleader : f.isLeader v = true
  · exact ⟨[], .leader hleader (hu.reaches.trans (.single hv))⟩
  · rw [graph_succs] at hv
    rw [Bool.not_eq_true] at hleader
    exact ⟨front ++ [u], hu.next (h.straightEdge_of_mem hv hleader)⟩

/-- The nodes of a straight way, the last one among them. -/
def IsStraight (f : Procedure) (way : List Int) : Prop :=
  ∃ front a, way = front ++ [a] ∧ f.Straight front a

/-- A straight way that no straight edge continues. -/
structure IsBlock (f : Procedure) (block : List Int) : Prop where
  isStraight : f.IsStraight block
  stops : ∀ a ∈ block.getLast?, ∀ b, ¬ f.StraightEdge a b

section Blocks

theorem IsStraight.isChain
    (h : f.IsStraight way) :
    way.IsChain f.StraightEdge := by
  obtain ⟨front, a, rfl, h⟩ := h
  exact h.isChain

/-- A straight way passes no node twice. -/
theorem IsStraight.nodup
    (h : f.IsStraight way)
    (hlinked : f.Linked) :
    way.Nodup := by
  obtain ⟨front, a, rfl, h⟩ := h
  exact h.nodup hlinked

/-- A straight way begins with a leader. -/
theorem IsStraight.exists_leader
    (h : f.IsStraight way) :
    ∃ i rest, way = i :: rest ∧ f.isLeader i = true ∧ f.graph.Reaches entryId i := by
  obtain ⟨front, a, rfl, h⟩ := h
  exact h.exists_leader

/-- The entry reaches every node of a straight way. -/
theorem IsStraight.reaches
    (h : f.IsStraight way)
    (hx : x ∈ way) :
    f.graph.Reaches entryId x := by
  obtain ⟨front, a, rfl, h⟩ := h
  exact h.reaches_of_mem hx

/-- Straight edges from a leader that the entry reaches are a straight way. -/
theorem isStraight_of_isChain
    {rest : List Int}
    (hleader : f.isLeader i = true)
    (hreach : f.graph.Reaches entryId i)
    (hchain : (i :: rest).IsChain f.StraightEdge) :
    f.IsStraight (i :: rest) := by
  induction rest using List.reverseRecOn with
  | nil => exact ⟨[], i, rfl, .leader hleader hreach⟩
  | append_singleton rest b ih =>
      rw [← List.cons_append, List.isChain_append] at hchain
      obtain ⟨hchain, -, hlast⟩ := hchain
      obtain ⟨front, a, hway, h⟩ := ih hchain
      rw [← List.cons_append, hway]
      refine ⟨front ++ [a], b, rfl, h.next (hlast a ?_ b rfl)⟩
      rw [hway, List.getLast?_concat]
      rfl

/-- Straight ways that share a node start at the same leader. -/
theorem IsStraight.head?_eq
    (h : f.IsStraight way)
    (h' : f.IsStraight way')
    (hx : x ∈ way)
    (hx' : x ∈ way')
    (hlinked : f.Linked) :
    way.head? = way'.head? := by
  obtain ⟨front, a, rfl, h⟩ := h
  obtain ⟨front', a', rfl, h'⟩ := h'
  obtain ⟨before, hbefore, hprefix⟩ := h.exists_before hx
  obtain ⟨before', hbefore', hprefix'⟩ := h'.exists_before hx'
  obtain rfl := hbefore.unique hbefore' hlinked
  obtain ⟨rest, hrest⟩ := hprefix
  obtain ⟨rest', hrest'⟩ := hprefix'
  rw [← hrest, ← hrest']
  cases before <;> rfl

/-- Straight ways from different leaders share no node. -/
theorem nodup_flatten_of_heads
    {ways : List (List Int)}
    (hways : ∀ way ∈ ways, way = [] ∨ f.IsStraight way)
    (hheads : (ways.filterMap List.head?).Nodup)
    (hlinked : f.Linked) :
    ways.flatten.Nodup := by
  refine List.nodup_flatten.mpr ⟨?_, ?_⟩
  · intro way hway
    rcases hways way hway with rfl | h
    · exact List.nodup_nil
    · exact h.nodup hlinked
  · rw [List.Nodup, List.pairwise_filterMap] at hheads
    refine hheads.imp_of_mem fun {way way'} hway hway' hne => ?_
    intro x hx hx'
    have h := (hways way hway).resolve_left (List.ne_nil_of_mem hx)
    have h' := (hways way' hway').resolve_left (List.ne_nil_of_mem hx')
    have hhead := h.head?_eq h' hx hx' hlinked
    obtain ⟨i, rest, rfl, -⟩ := h.exists_leader
    exact hne i rfl i hhead.symm rfl

theorem IsBlock.ne_nil
    (h : f.IsBlock block) :
    block ≠ [] := by
  obtain ⟨front, a, rfl, -⟩ := h.isStraight
  simp

/-- A straight way is part of the block that starts where it starts. -/
theorem IsBlock.isPrefix
    (h : f.IsBlock block)
    (hway : f.IsStraight way)
    (hhead : way.head? = block.head?) :
    way <+: block := by
  obtain ⟨i, rest, rfl, -⟩ := hway.exists_leader
  obtain ⟨j, rest', rfl, -⟩ := h.isStraight.exists_leader
  obtain rfl : i = j := Option.some.inj hhead
  exact StraightEdge.isPrefix hway.isChain h.isStraight.isChain h.stops

/-- Two blocks share a node only if they are the same. -/
theorem IsBlock.eq_of_mem
    (h : f.IsBlock block)
    (h' : f.IsBlock block')
    (hx : x ∈ block)
    (hx' : x ∈ block')
    (hlinked : f.Linked) :
    block = block' := by
  have hhead := h.isStraight.head?_eq h'.isStraight hx hx' hlinked
  have hprefix := h'.isPrefix h.isStraight hhead
  exact hprefix.eq_of_length_le (h.isPrefix h'.isStraight hhead.symm).length_le

/-- Blocks that start at different leaders and hold every node that the entry reaches are all the
blocks. -/
theorem mem_iff_isBlock
    (hblocks : ∀ block ∈ blocks, f.IsBlock block)
    (hall : ∀ x, f.graph.Reaches entryId x → ∃ block ∈ blocks, x ∈ block)
    (hlinked : f.Linked) :
    block ∈ blocks ↔ f.IsBlock block := by
  refine ⟨hblocks block, fun h => ?_⟩
  obtain ⟨i, rest, rfl, -, hreach⟩ := h.isStraight.exists_leader
  obtain ⟨block', hmem, hi⟩ := hall i hreach
  rwa [h.eq_of_mem (hblocks block' hmem) List.mem_cons_self hi hlinked]

/-- Blocks with different leaders that hold all nodes cut the procedure. -/
theorem isBlockCut_of_isBlock
    (hblocks : ∀ block ∈ blocks, f.IsBlock block)
    (hheads : (blocks.filterMap List.head?).Nodup)
    (hall : ∀ x, f.graph.Reaches entryId x → ∃ block ∈ blocks, x ∈ block)
    (hlinked : f.Linked) :
    f.IsBlockCut blocks where
  ne_nil block hblock := (hblocks block hblock).ne_nil
  nodup :=
    nodup_flatten_of_heads (fun block h => Or.inr (hblocks block h).isStraight) hheads hlinked
  mem_iff i := by
    rw [List.mem_flatten]
    constructor
    · rintro ⟨block, hblock, hi⟩
      exact (hblocks block hblock).isStraight.reaches hi
    · exact hall i
  straight block hblock :=
    (hblocks block hblock).isStraight.isChain.imp fun _ _ h => (hlinked.straightEdge_iff.mp h).2
  maximal block hblock a ha b hsuccs := by
    by_contra hno
    push Not at hno
    exact (hblocks block hblock).stops a ha b
      (hlinked.straightEdge_iff.mpr ⟨hno.1, hsuccs, hno.2⟩)

/-- No block is listed twice. -/
theorem IsBlockCut.nodup_blocks
    (h : f.IsBlockCut blocks) :
    blocks.Nodup := by
  refine (List.nodup_flatten.mp h.nodup).2.imp_of_mem ?_
  rintro block _ hblock - hdisjoint rfl
  obtain ⟨x, hx⟩ := List.exists_mem_of_ne_nil block (h.ne_nil block hblock)
  exact hdisjoint hx hx

/-- With steps to spare, the nodes after a node end where no straight edge continues. -/
theorem runAfter_stops
    {steps : Nat}
    (hsteps : (f.runAfter steps i).length < steps) :
    ∀ a ∈ (i :: f.runAfter steps i).getLast?, ∀ b, ¬ f.StraightEdge a b := by
  induction steps generalizing i with
  | zero => exact absurd hsteps (Nat.not_lt_zero _)
  | succ steps ih =>
      unfold runAfter at hsteps ⊢
      split at hsteps
      · rename_i s hs
        split at hsteps
        · rename_i hleader
          intro a ha b hedge
          rw [if_pos hleader, List.getLast?_singleton, Option.mem_some_iff] at ha
          subst ha
          obtain rfl := (List.cons.inj (hs.symm.trans hedge.1)).1
          exact absurd (hleader.symm.trans hedge.2) (by simp)
        · rename_i hleader
          rw [if_neg hleader, List.getLast?_cons_cons]
          exact ih (Nat.lt_of_succ_lt_succ hsteps)
      · rename_i hmany
        intro a ha b hedge
        rw [List.getLast?_singleton, Option.mem_some_iff] at ha
        subst ha
        exact hmany b hedge.1

/-- A leader with the run behind it is a block. -/
theorem isBlock_runAfter
    (hlinked : f.Linked)
    (hleader : f.isLeader i = true)
    (hreach : f.graph.Reaches entryId i) :
    f.IsBlock (i :: f.runAfter f.nodes.size i) := by
  have h := isStraight_of_isChain hleader hreach (f.runAfter_isChain f.nodes.size i)
  refine ⟨h, runAfter_stops ?_⟩
  have hle := hlinked.length_le_of_reaches (h.nodup hlinked) fun x hx => h.reaches hx
  rwa [List.length_cons] at hle

end Blocks

section Cut

variable (hlinked : f.Linked)

include hlinked

theorem mem_reach_entry_iff :
    i ∈ f.graph.reach [entryId] ↔ f.graph.Reaches entryId i := by
  have hentry : ∀ s ∈ [entryId], s ∈ f.graph.nodes := by
    simp [hlinked.entry_mem]
  rw [Digraph.mem_reach_iff hlinked.closed hentry]
  simp

/-- What the search finds are blocks. -/
theorem isBlock_of_mem_blocks
    (hblock : block ∈ f.blocks) :
    f.IsBlock block := by
  obtain ⟨i, hi, rfl⟩ := List.mem_map.mp hblock
  obtain ⟨hreach, hleader⟩ := List.mem_filter.mp hi
  exact isBlock_runAfter hlinked hleader ((mem_reach_entry_iff hlinked).mp hreach)

/-- Every node that the entry reaches is in a block. -/
theorem exists_block
    (hx : f.graph.Reaches entryId x) :
    ∃ block ∈ f.blocks, x ∈ block := by
  obtain ⟨front, h⟩ := hlinked.exists_straight hx
  obtain ⟨i, rest, hway, hleader, hreach⟩ := h.exists_leader
  have hblock := isBlock_runAfter hlinked hleader hreach
  refine ⟨_, List.mem_map_of_mem ?_, (hblock.isPrefix ⟨front, x, rfl, h⟩ ?_).subset ?_⟩
  · exact List.mem_filter.mpr ⟨(mem_reach_entry_iff hlinked).mpr hreach, hleader⟩
  · rw [hway]
    rfl
  · simp

/-- The blocks are the straight ways from leaders that no straight edge continues. -/
theorem mem_blocks_iff :
    block ∈ f.blocks ↔ f.IsBlock block :=
  mem_iff_isBlock (fun _ => isBlock_of_mem_blocks hlinked) (fun _ => exists_block hlinked) hlinked

/-- The blocks that are found cut the procedure. -/
theorem isBlockCut_blocks :
    f.IsBlockCut f.blocks := by
  refine isBlockCut_of_isBlock (fun _ => isBlock_of_mem_blocks hlinked) ?_
    (fun _ => exists_block hlinked) hlinked
  have hheads : f.blocks.filterMap List.head? = (f.graph.reach [entryId]).filter f.isLeader := by
    unfold blocks
    rw [List.filterMap_map]
    exact List.filterMap_some
  rw [hheads]
  exact (f.graph.reach_nodup _).filter _

end Cut

end Procedure
end DefUse
