import DefUse.Source.Model
import DefUse.Proofs.Program.Edited
import DefUse.Proofs.Source.FlowGraph

/-!
# Procedures of flow graphs pass the check

**Method.** The blocks are placed one after the other, behind the entry and the exit.  What a live
block leads to is live, and therefore placed.  So every edge leads from the entry or a placed node
to the exit or a placed node.  This is all that is needed of the way in which the blocks are made.

**Results.**
* `FlowBuilder.IsSound`: the first block is live, and live blocks lead to live blocks;
  `isSound_build`: the blocks of a body are made so.
* `Layout.mem_positions_of_mem_edges`: the ends of the edges are nodes; none is an edge into the
  entry or out of the exit.
* `Layout.linked_procedure` and `MarkedGraph.linked_procedure`: the edges of the procedure of placed
  blocks are in order, and so are those of the procedure of a flow graph.
-/

namespace DefUse
namespace Source

section Live

variable {g : FlowGraph} {b : Nat} {block : Block}

namespace FlowGraph

theorem succs_graph
    (hblock : g[b]? = some block) :
    g.graph.succs b = block.succs := by
  simp only [graph, hblock, Option.map_some, Option.getD_some]

theorem Closed.graph
    (hg : g.Closed) :
    g.graph.Closed := by
  intro b hb s hs
  rw [FlowGraph.graph, List.mem_range] at hb ⊢
  rw [succs_graph (Array.getElem?_eq_getElem hb)] at hs
  exact hg.succs _ (Array.getElem_mem hb) s hs

/-- The live blocks are those that control can get to. -/
theorem mem_live_iff
    (hg : g.Closed) :
    b ∈ g.live ↔ g.graph.Reaches 0 b := by
  have hstart : ∀ s ∈ [0], s ∈ g.graph.nodes := by simpa [FlowGraph.graph] using hg.pos
  have hreach : b ∈ g.graph.reach [0] ↔ g.graph.Reaches 0 b := by
    simpa using Digraph.mem_reach_iff hg.graph hstart
  simp only [live, List.mem_filter, List.contains_iff_mem, hreach, and_iff_right_iff_imp]
  exact hg.graph.reaches (hstart 0 List.mem_cons_self)

/-- The first block is among the given ones, which exist and lead to given ones only. -/
structure ClosedOn (g : FlowGraph) (numbers : List Nat) : Prop where
  zero_mem : 0 ∈ numbers
  lt : ∀ b ∈ numbers, b < g.size
  succs : ∀ b ∈ numbers, ∀ s ∈ g.graph.succs b, s ∈ numbers

end FlowGraph

/-- The first block is live, and live blocks lead to live blocks only. -/
structure MarkedGraph.Sound (m : MarkedGraph) : Prop where
  first : 0 < m.graph.size ∧ m.live 0 = true
  succs : ∀ b < m.graph.size, m.live b = true → ∀ s ∈ m.graph.graph.succs b,
    s < m.graph.size ∧ m.live s = true

/-- Whatever the body, the first of its blocks is live, and live ones lead to live ones only. -/
def FlowBuilder.IsSound (build : FlowBuilder) : Prop :=
  ∀ stops body stop, (build stops body stop).Sound

theorem MarkedGraph.mem_numbers_iff
    {m : MarkedGraph} :
    b ∈ m.numbers ↔ b < m.graph.size ∧ m.live b = true := by
  rw [numbers, List.mem_filter, List.mem_range]

/-- What a live block leads to is live. -/
theorem MarkedGraph.Sound.closedOn
    {m : MarkedGraph}
    (hm : m.Sound) :
    m.graph.ClosedOn m.numbers where
  zero_mem := mem_numbers_iff.mpr hm.first
  lt _ hb := (mem_numbers_iff.mp hb).1
  succs b hb s hs :=
    have ⟨hlt, hlive⟩ := mem_numbers_iff.mp hb
    mem_numbers_iff.mpr (hm.succs b hlt hlive s hs)

/-- The blocks made for a body are marked if control can get to them. -/
theorem isSound_build :
    FlowBuilder.IsSound FlowGraph.build := by
  intro stops body stop
  have hg := FlowGraph.closed_ofBody stops body stop
  have hlive : ∀ b, (FlowGraph.build stops body stop).live b = true ↔
      (FlowGraph.ofBody stops body stop).graph.Reaches 0 b := by
    intro b
    rw [← FlowGraph.mem_live_iff hg]
    exact List.contains_iff_mem
  refine ⟨⟨hg.pos, (hlive 0).mpr (.refl 0)⟩, fun b hb hmark s hs => ?_⟩
  rw [hlive] at hmark ⊢
  have hmem : b ∈ (FlowGraph.ofBody stops body stop).graph.nodes := List.mem_range.mpr hb
  exact ⟨List.mem_range.mp (hg.graph b hmem s hs), hmark.trans (.single hs)⟩

end Live

namespace Layout

section Place

variable {blocks : List (Nat × Block)} {first : Nat} {p : Placed}

/-- The number of nodes of the placed blocks. -/
def width (l : Layout) : Nat := (l.map Placed.width).sum

theorem one_le_width
    (p : Placed) :
    1 ≤ p.width :=
  Nat.le_max_left 1 _

theorem length_nodes
    (p : Placed) (make : Step → Node) :
    (p.nodes make).length = p.width := by
  unfold Placed.nodes Placed.width
  cases p.block.steps with
  | nil => rfl
  | cons s rest => simp

theorem length_flatMap_nodes
    (l : Layout) (make : Step → Node) :
    (l.flatMap fun p => p.nodes make).length = l.width := by
  rw [List.length_flatMap, width]
  congr 1
  exact List.map_congr_left fun p _ => length_nodes p make

/-- A placed block is one of the given blocks, and its nodes are among those of the layout. -/
theorem mem_place
    (hp : p ∈ place first blocks) :
    (p.number, p.block) ∈ blocks ∧ first ≤ p.first ∧
      p.first + p.width ≤ first + width (place first blocks) := by
  induction blocks generalizing first with
  | nil => exact absurd hp List.not_mem_nil
  | cons head rest ih =>
      obtain ⟨number, block⟩ := head
      simp only [place, width, List.map_cons, List.sum_cons] at hp ⊢
      rcases List.mem_cons.mp hp with rfl | hp
      · exact ⟨List.mem_cons_self, Nat.le_refl _, by dsimp only; omega⟩
      · obtain ⟨hmem, hfirst, hlast⟩ := ih hp
        simp only [width] at hlast
        exact ⟨List.mem_cons_of_mem _ hmem, by omega, by omega⟩

/-- Every given block is placed. -/
theorem exists_mem_place
    {b : Nat} {block : Block} (first : Nat)
    (hmem : (b, block) ∈ blocks) :
    ∃ p ∈ place first blocks, p.number = b := by
  induction blocks generalizing first with
  | nil => exact absurd hmem List.not_mem_nil
  | cons head rest ih =>
      obtain ⟨number, other⟩ := head
      rcases List.mem_cons.mp hmem with heq | hmem
      · exact ⟨_, List.mem_cons_self, (congrArg Prod.fst heq).symm⟩
      · exact (ih _ hmem).imp fun p hp => ⟨List.mem_cons_of_mem _ hp.1, hp.2⟩

end Place

section Ends

variable {g : FlowGraph} {numbers : List Nat} {p : Placed} {b : Nat} {u v : Int}

/-- The blocks placed are the given ones. -/
theorem mem_ofBlocks
    (hp : p ∈ ofBlocks g numbers) :
    p.number ∈ numbers ∧ g[p.number]? = some p.block ∧ 2 ≤ p.first ∧
      p.first + p.width ≤ 2 + (ofBlocks g numbers).width := by
  obtain ⟨hmem, hfirst, hlast⟩ := mem_place hp
  obtain ⟨b, hb, hblock⟩ := List.mem_filterMap.mp hmem
  obtain ⟨block, hget, heq⟩ := Option.map_eq_some_iff.mp hblock
  obtain ⟨rfl, rfl⟩ := Prod.mk.inj heq
  exact ⟨hb, hget, hfirst, hlast⟩

/-- A given block is found among those placed. -/
theorem exists_find?_eq
    (hg : g.ClosedOn numbers)
    (hb : b ∈ numbers) :
    ∃ p ∈ ofBlocks g numbers, p.number = b ∧
      (ofBlocks g numbers).find? (·.number = b) = some p := by
  have hlt := hg.lt b hb
  have hmem : (b, g[b]) ∈ numbers.filterMap fun b => g[b]?.map (b, ·) :=
    List.mem_filterMap.mpr ⟨b, hb, by rw [Array.getElem?_eq_getElem hlt]; rfl⟩
  obtain ⟨p, hp, hnumber⟩ := exists_mem_place 2 hmem
  cases hfind : (ofBlocks g numbers).find? (·.number = b) with
  | none =>
      rw [List.find?_eq_none] at hfind
      exact absurd hnumber (by simpa using hfind p hp)
  | some q =>
      exact ⟨q, List.mem_of_find?_eq_some hfind, by simpa using List.find?_some hfind, rfl⟩

/-- A given block starts at a placed node. -/
theorem exists_start_eq
    (hg : g.ClosedOn numbers)
    (hb : b ∈ numbers) :
    ∃ p ∈ ofBlocks g numbers, p.number = b ∧ (ofBlocks g numbers).start b = p.first := by
  obtain ⟨p, hp, hnumber, hfind⟩ := exists_find?_eq hg hb
  exact ⟨p, hp, hnumber, by rw [start, hfind]; rfl⟩

/-- The ends of the edges are the entry, the exit and placed nodes; no edge leads into the entry or
out of the exit. -/
theorem mem_positions_of_mem_edges
    (hg : g.ClosedOn numbers)
    (hedge : (u, v) ∈ (ofBlocks g numbers).edges) :
    u ∈ positions (2 + (ofBlocks g numbers).width) ∧
      v ∈ positions (2 + (ofBlocks g numbers).width) ∧ u ≠ exitId ∧ v ≠ entryId := by
  have hstart : ∀ b ∈ numbers,
      (ofBlocks g numbers).start b ∈ positions (2 + (ofBlocks g numbers).width) ∧
        (ofBlocks g numbers).start b ≠ entryId := by
    intro b hb
    obtain ⟨p, hp, -, hfirst⟩ := exists_start_eq hg hb
    obtain ⟨-, -, htwo, hlast⟩ := mem_ofBlocks hp
    have hwidth := one_le_width p
    rw [hfirst, mem_positions, entryId]
    omega
  simp only [edges, List.mem_append, List.mem_flatMap, List.mem_singleton] at hedge
  rcases hedge with (⟨p, hp, hchain⟩ | hentry) | ⟨p, hp, hexit⟩
  · obtain ⟨-, -, htwo, hlast⟩ := mem_ofBlocks hp
    obtain ⟨i, hi, heq⟩ := List.mem_map.mp hchain
    obtain ⟨rfl, rfl⟩ := Prod.mk.inj heq
    rw [List.mem_range] at hi
    simp only [mem_positions, exitId, entryId]
    omega
  · obtain ⟨rfl, rfl⟩ := Prod.mk.inj hentry
    obtain ⟨hmem, hne⟩ := hstart 0 (hg.zero_mem)
    refine ⟨?_, hmem, by decide, hne⟩
    rw [mem_positions, entryId]
    omega
  · obtain ⟨hlive, hblock, htwo, hlast⟩ := mem_ofBlocks hp
    have hwidth := one_le_width p
    have hu : (p.last : Int) ∈ positions (2 + (ofBlocks g numbers).width) ∧
        (p.last : Int) ≠ exitId := by
      rw [mem_positions, exitId, Placed.last]
      omega
    unfold exits at hexit
    split at hexit
    · obtain ⟨rfl, rfl⟩ := Prod.mk.inj (List.mem_singleton.mp hexit)
      refine ⟨hu.1, ?_, hu.2, by decide⟩
      rw [mem_positions, exitId]
      omega
    · obtain ⟨b, hb, heq⟩ := List.mem_map.mp hexit
      obtain ⟨rfl, rfl⟩ := Prod.mk.inj heq
      obtain ⟨hmem, hne⟩ := hstart b (hg.succs _ hlive b (by rwa [FlowGraph.succs_graph hblock]))
      exact ⟨hu.1, hmem, hu.2, hne⟩

end Ends

end Layout
end Source

namespace Procedure

variable {f : Procedure}

/-- Edges between nodes leave the edges in order, and the entry without predecessors and the exit
without successors if none of them leads there. -/
theorem Linked.addEdges
    {edges : List (Int × Int)}
    (h : f.Linked)
    (hentry : (f.node entryId).preds = [])
    (hexit : (f.node exitId).succs = [])
    (hedges : ∀ u v, (u, v) ∈ edges → u ∈ f.ids ∧ v ∈ f.ids ∧ u ≠ exitId ∧ v ≠ entryId) :
    (f.addEdges edges).Linked ∧ ((f.addEdges edges).node entryId).preds = [] ∧
      ((f.addEdges edges).node exitId).succs = [] := by
  induction edges generalizing f with
  | nil => exact ⟨h, hentry, hexit⟩
  | cons edge rest ih =>
      obtain ⟨u, v⟩ := edge
      obtain ⟨hu, hv, hune, hvne⟩ := hedges u v List.mem_cons_self
      have hids := addEdge_ids f u v
      have hfault := addEdge_fault hu hv
      generalize hadd : f.addEdge u v = result at hids hfault
      obtain ⟨f', fault⟩ := result
      obtain rfl : fault = none := hfault
      have hends : (f'.node entryId).preds = [] ∧ (f'.node exitId).succs = [] := by
        rcases addEdge_cases hadd with ⟨rfl, -⟩ | ⟨-, -, hchange⟩
        · exact ⟨hentry, hexit⟩
        · rw [(hchange entryId).2, (hchange exitId).1, if_neg hvne, if_neg hune]
          exact ⟨hentry, hexit⟩
      have hstep : f.addEdges ((u, v) :: rest) = f'.addEdges rest := by
        simp only [Procedure.addEdges, List.foldl_cons, hadd]
      rw [hstep]
      refine ih (h.addEdge hadd) hends.1 hends.2 fun u v huv => ?_
      obtain ⟨hu, hv, hne⟩ := hedges u v (List.mem_cons_of_mem _ huv)
      exact ⟨hids ▸ hu, hids ▸ hv, hne⟩

end Procedure

namespace Source

section Bare

variable {make : Step → Node} {g : FlowGraph}

theorem Layout.ids_bare
    (l : Layout) (name : String) (params : List Variable) (make : Step → Node) :
    (l.bare name params make).ids = positions (2 + l.width) := by
  have hsize : (l.bare name params make).nodes.size = 2 + l.width := by
    rw [bare, ← length_flatMap_nodes _ make]
    simp only [List.size_toArray, List.length_cons]
    omega
  rw [Procedure.ids, hsize]

/-- No node has edges before they are added. -/
theorem Layout.edges_of_mem_bare
    (hmake : ∀ s, (make s).succs = [] ∧ (make s).preds = [])
    (l : Layout) (name : String) (params : List Variable) :
    ∀ n ∈ (l.bare name params make).nodes, n.succs = [] ∧ n.preds = [] := by
  intro n hn
  simp only [bare, List.mem_toArray, List.mem_cons, List.mem_flatMap] at hn
  rcases hn with rfl | rfl | ⟨p, -, hn⟩
  · exact ⟨rfl, rfl⟩
  · exact ⟨rfl, rfl⟩
  · unfold Placed.nodes at hn
    split at hn
    · obtain rfl := List.mem_singleton.mp hn
      exact ⟨rfl, rfl⟩
    · obtain ⟨⟨s, i⟩, -, rfl⟩ := List.mem_map.mp hn
      exact hmake s

/-- The edges of the procedure of placed blocks are in order, and none leads into the entry or out
of the exit. -/
theorem Layout.linked_procedure
    {numbers : List Nat}
    (hg : g.ClosedOn numbers)
    (hmake : ∀ s, (make s).succs = [] ∧ (make s).preds = [])
    (name : String) (params : List Variable) :
    ((ofBlocks g numbers).procedure name params make).Linked ∧
      (((ofBlocks g numbers).procedure name params make).node entryId).preds = [] ∧
      (((ofBlocks g numbers).procedure name params make).node exitId).succs = [] := by
  have hids := ids_bare (ofBlocks g numbers) name params make
  have hsize : 2 ≤ ((ofBlocks g numbers).bare name params make).nodes.size := by
    have hlength := congrArg List.length hids
    simp only [Procedure.ids, positions, List.length_map, List.length_range] at hlength
    omega
  have hbare := edges_of_mem_bare hmake (ofBlocks g numbers) name params
  have hends := Procedure.edges_of_bare hbare
  refine (Procedure.linked_of_bare hsize hbare).addEdges (hends entryId).2 (hends exitId).1 ?_
  intro u v huv
  rw [hids]
  exact mem_positions_of_mem_edges hg huv

/-- The edges of the procedure of a flow graph are in order, and none leads into the entry or out of
the exit. -/
theorem MarkedGraph.linked_procedure
    {m : MarkedGraph}
    (hm : m.Sound)
    (hmake : ∀ s, (make s).succs = [] ∧ (make s).preds = [])
    (name : String) (params : List Variable) :
    (m.procedure name params make).Linked ∧
      ((m.procedure name params make).node entryId).preds = [] ∧
      ((m.procedure name params make).node exitId).succs = [] :=
  Layout.linked_procedure hm.closedOn hmake name params

end Bare

end Source
end DefUse
