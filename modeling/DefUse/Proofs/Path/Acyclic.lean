import DefUse.Path.Numbering
import DefUse.Proofs.Graph.BackEdges
import DefUse.Proofs.Graph.Reach
import DefUse.Proofs.Graph.SinkOrder
import DefUse.Proofs.Program.Built

/-!
# The acyclic graph of a procedure

The edges of the acyclic graph are the edges of the procedure between reachable nodes but the back
edges, two edges for every back edge, and one for every call.

**Method.** An order with the sinks first gives every node a rank, and every edge leads to a smaller
rank.  So a path never returns to a node and is no longer than the rank of its first node.  Without
its back edges the procedure has such an order; the entry goes above it, where only edges leave, and
the exit below it, where only edges arrive, unless the exit itself calls procedures.

**Results.** `mem_outEdges_iff`: the edges that the numbering tabulates are those of the graph;
`outEdges_nodup`: each is listed once; `Ranks`: the ranks of a procedure whose graph is acyclic;
`exists_cycle_iff`: it has a cycle exactly if there is a call at an exit that can be reached.
-/

namespace DefUse
namespace Procedure

/-- The edges of the acyclic graph. -/
inductive IsPathEdge (f : Procedure) : PathEdge → Prop
  | real {v s : Int}
      (hreach : f.graph.Reaches entryId v)
      (hs : s ∈ (f.node v).succs)
      (hback : ⟨v, s⟩ ∉ f.backEdges) :
      IsPathEdge f ⟨v, s, .real, -1⟩
  | loopEntry {i : Nat} {b : Edge}
      (hb : f.backEdges[i]? = some b) :
      IsPathEdge f ⟨entryId, b.target, .loopEntry, i⟩
  | loopExit {i : Nat} {b : Edge}
      (hb : f.backEdges[i]? = some b) :
      IsPathEdge f ⟨b.source, exitId, .loopExit, i⟩
  | callExit {v : Int} {i : Nat} {c : CallSite}
      (hreach : f.graph.Reaches entryId v)
      (hc : (f.node v).calls[i]? = some c) :
      IsPathEdge f ⟨v, exitId, .callExit, i⟩

/-- The edges follow each other from a node to the exit. -/
def IsPathFrom (f : Procedure) : Int → List PathEdge → Prop
  | v, [] => v = exitId
  | v, e :: rest => f.IsPathEdge e ∧ e.source = v ∧ f.IsPathFrom e.target rest

/-- The edges are a path of the acyclic graph from the entry to the exit. -/
def IsPath (f : Procedure) (path : List PathEdge) : Prop := f.IsPathFrom entryId path

/-- A checked procedure without parallel edges. -/
structure Simple (f : Procedure) : Prop where
  entry_mem : entryId ∈ f.ids
  exit_mem : exitId ∈ f.ids
  exit_succs : (f.node exitId).succs = []
  closed : f.graph.Closed
  nodup : ∀ v, (f.node v).succs.Nodup

/-- The edges of the acyclic graph out of a node, as they are tabulated. -/
def outEdges (f : Procedure) (v : Int) : List PathEdge :=
  (item? (f.pathEdges f.backEdges) v).getD []

/-- The nodes with the edges of the acyclic graph. -/
def acyclic (f : Procedure) : Digraph Int where
  nodes := f.ids
  succs := fun v => (f.outEdges v).map PathEdge.target

/-- The procedures of a checked program that was built are simple. -/
theorem Simple.of_built
    {prog : Program} {p : Int}
    (h : prog.Built)
    (hprog : prog.Finalized)
    (hp : p ∈ prog.procIds) :
    (prog.proc p).Simple := by
  have hmem := Program.proc_mem hp
  obtain ⟨-, -, hexit, -⟩ := sound_of_flaw?_eq_none (hprog.flaw?_eq_none hmem)
  exact ⟨hprog.entry_mem hp, hprog.exit_mem hp, hexit, hprog.graph_closed hp,
    h.nodup_succs _ hmem⟩

variable {f : Procedure} {v : Int} {e : PathEdge} {b : Edge}

section Edges

/-- What the entry reaches is a node. -/
theorem Simple.reaches_mem
    (hf : f.Simple)
    (h : f.graph.Reaches entryId v) :
    v ∈ f.ids := by
  have hentry : entryId ∈ f.graph.nodes := by
    rw [graph_nodes]
    exact hf.entry_mem
  have hv := hf.closed.reaches hentry h
  rwa [graph_nodes] at hv

/-- A back edge is an edge of the procedure that the entry reaches. -/
theorem mem_backEdges
    (hb : b ∈ f.backEdges) :
    f.graph.Reaches entryId b.source ∧ b.target ∈ (f.node b.source).succs := by
  obtain ⟨e, he, rfl⟩ := List.mem_map.mp hb
  obtain ⟨hreach, htarget⟩ := Digraph.mem_backEdges he
  rw [graph_succs] at htarget
  exact ⟨hreach, htarget⟩

theorem Simple.backEdges_nodup
    (hf : f.Simple) :
    f.backEdges.Nodup := by
  refine (Digraph.backEdges_nodup ?_).map ?_
  · intro v
    rw [graph_succs]
    exact hf.nodup v
  · rintro ⟨a, b⟩ ⟨c, d⟩ h
    simpa [Edge.ofPair] using h

/-- A back edge has one position. -/
theorem Simple.backEdge_index_unique
    (hf : f.Simple)
    {i j : Nat}
    (hi : f.backEdges[i]? = some b)
    (hj : f.backEdges[j]? = some b) :
    i = j :=
  (List.getElem?_inj (List.getElem?_eq_some_iff.mp hi).1 hf.backEdges_nodup).mp
    (hi.trans hj.symm)

/-- The entry reaches the source of every edge of a path. -/
theorem IsPathEdge.reaches
    (he : f.IsPathEdge e) :
    f.graph.Reaches entryId e.source := by
  cases he with
  | real hreach _ _ => exact hreach
  | loopEntry _ => exact .refl _
  | loopExit hb => exact (mem_backEdges (List.mem_of_getElem? hb)).1
  | callExit hreach _ => exact hreach

/-- A real edge of a path is an edge of the procedure and no back edge. -/
theorem IsPathEdge.of_real
    (he : f.IsPathEdge e)
    (hkind : e.kind = .real) :
    e.target ∈ (f.node e.source).succs ∧ ⟨e.source, e.target⟩ ∉ f.backEdges := by
  cases he with
  | real _ hs hback => exact ⟨hs, hback⟩
  | loopEntry _ => exact absurd hkind (show PathEdgeKind.loopEntry ≠ .real by decide)
  | loopExit _ => exact absurd hkind (show PathEdgeKind.loopExit ≠ .real by decide)
  | callExit _ _ => exact absurd hkind (show PathEdgeKind.callExit ≠ .real by decide)

/-- An edge into a loop leads from the entry to the target of its back edge. -/
theorem IsPathEdge.of_loopEntry
    (he : f.IsPathEdge e)
    (hkind : e.kind = .loopEntry) :
    ∃ (i : Nat) (b : Edge), f.backEdges[i]? = some b ∧ e.index = i ∧ e.source = entryId ∧
      e.target = b.target := by
  cases he with
  | real _ _ _ => exact absurd hkind (show PathEdgeKind.real ≠ .loopEntry by decide)
  | loopEntry hb => exact ⟨_, _, hb, rfl, rfl, rfl⟩
  | loopExit _ => exact absurd hkind (show PathEdgeKind.loopExit ≠ .loopEntry by decide)
  | callExit _ _ => exact absurd hkind (show PathEdgeKind.callExit ≠ .loopEntry by decide)

/-- An edge out of a loop leaves from the source of its back edge. -/
theorem IsPathEdge.of_loopExit
    (he : f.IsPathEdge e)
    (hkind : e.kind = .loopExit) :
    ∃ (i : Nat) (b : Edge), f.backEdges[i]? = some b ∧ e.index = i ∧ e.source = b.source := by
  cases he with
  | real _ _ _ => exact absurd hkind (show PathEdgeKind.real ≠ .loopExit by decide)
  | loopEntry _ => exact absurd hkind (show PathEdgeKind.loopEntry ≠ .loopExit by decide)
  | loopExit hb => exact ⟨_, _, hb, rfl, rfl⟩
  | callExit _ _ => exact absurd hkind (show PathEdgeKind.callExit ≠ .loopExit by decide)

/-- Edges of paths leave from nodes. -/
theorem Simple.source_mem
    (hf : f.Simple)
    (he : f.IsPathEdge e) :
    e.source ∈ f.ids :=
  hf.reaches_mem he.reaches

/-- Edges of paths lead to nodes. -/
theorem Simple.target_mem
    (hf : f.Simple)
    (he : f.IsPathEdge e) :
    e.target ∈ f.ids := by
  cases he with
  | real hreach hs _ =>
      refine hf.reaches_mem (hreach.trans (.single ?_))
      rw [graph_succs]
      exact hs
  | loopEntry hb =>
      obtain ⟨hreach, htarget⟩ := mem_backEdges (List.mem_of_getElem? hb)
      refine hf.reaches_mem (hreach.trans (.single ?_))
      rw [graph_succs]
      exact htarget
  | loopExit _ => exact hf.exit_mem
  | callExit _ _ => exact hf.exit_mem

/-- The edges that leave a node are its edges that are not cut, and one to the exit for every back
edge and every call. -/
theorem mem_innerEdges_iff :
    e ∈ f.innerEdges f.backEdges v ↔
      (∃ s ∈ (f.node v).succs, ⟨v, s⟩ ∉ f.backEdges ∧ e = ⟨v, s, .real, -1⟩) ∨
      (∃ (i : Nat) (b : Edge), f.backEdges[i]? = some b ∧ b.source = v ∧
        e = ⟨v, exitId, .loopExit, i⟩) ∨
      (∃ (i : Nat) (c : CallSite), (f.node v).calls[i]? = some c ∧
        e = ⟨v, exitId, .callExit, i⟩) := by
  simp only [innerEdges, List.mem_append, List.mem_map, List.mem_filter, decide_eq_true_eq,
    Prod.exists, List.mem_zipIdx_iff_getElem?, or_assoc]
  refine or_congr ?_ (or_congr ?_ ?_)
  · constructor
    · rintro ⟨s, ⟨hs, hback⟩, rfl⟩
      exact ⟨s, hs, hback, rfl⟩
    · rintro ⟨s, hs, hback, rfl⟩
      exact ⟨s, ⟨hs, hback⟩, rfl⟩
  · constructor
    · rintro ⟨b, i, ⟨hb, hsource⟩, rfl⟩
      exact ⟨i, b, hb, hsource, rfl⟩
    · rintro ⟨i, b, hb, hsource, rfl⟩
      exact ⟨b, i, ⟨hb, hsource⟩, rfl⟩
  · constructor
    · rintro ⟨c, i, hc, rfl⟩
      exact ⟨i, c, hc, rfl⟩
    · rintro ⟨i, c, hc, rfl⟩
      exact ⟨c, i, hc, rfl⟩

/-- There is an edge from the entry into every loop. -/
theorem mem_loopEntries_iff :
    e ∈ loopEntries f.backEdges ↔
      ∃ (i : Nat) (b : Edge), f.backEdges[i]? = some b ∧
        e = ⟨entryId, b.target, .loopEntry, i⟩ := by
  simp only [loopEntries, List.mem_map, Prod.exists, List.mem_zipIdx_iff_getElem?]
  constructor
  · rintro ⟨b, i, hb, rfl⟩
    exact ⟨i, b, hb, rfl⟩
  · rintro ⟨i, b, hb, rfl⟩
    exact ⟨b, i, hb, rfl⟩

/-- The entry has the edges into loops besides those that every node has. -/
theorem outEdges_eq
    (hv : v ∈ f.ids) :
    f.outEdges v =
      (if v ∈ f.graph.reach [entryId] then f.innerEdges f.backEdges v else []) ++
        (if v = entryId then loopEntries f.backEdges else []) := by
  unfold outEdges pathEdges
  rw [ids, item?_map_positions _ hv]
  rfl

theorem Simple.mem_reach_iff
    (hf : f.Simple) :
    v ∈ f.graph.reach [entryId] ↔ f.graph.Reaches entryId v := by
  rw [Digraph.mem_reach_iff hf.closed]
  · simp
  · intro s hs
    rw [List.mem_singleton.mp hs, graph_nodes]
    exact hf.entry_mem

/-- No edge leaves what is no node. -/
theorem outEdges_eq_nil
    (hv : v ∉ f.ids) :
    f.outEdges v = [] := by
  rw [ids, mem_positions] at hv
  unfold outEdges pathEdges
  rw [item?_eq_none]
  · rfl
  · simpa [ids, positions] using hv

/-- The edges tabulated for a node are the edges of the graph out of it. -/
theorem Simple.mem_outEdges_iff
    (hf : f.Simple) :
    e ∈ f.outEdges v ↔ f.IsPathEdge e ∧ e.source = v := by
  by_cases hv : v ∈ f.ids
  · rw [outEdges_eq hv, List.mem_append, List.mem_ite_nil_right, List.mem_ite_nil_right,
      hf.mem_reach_iff, mem_innerEdges_iff, mem_loopEntries_iff]
    constructor
    · rintro (⟨hreach, ⟨s, hs, hback, rfl⟩ | ⟨i, b, hb, rfl, rfl⟩ | ⟨i, c, hc, rfl⟩⟩ |
        ⟨rfl, i, b, hb, rfl⟩)
      · exact ⟨.real hreach hs hback, rfl⟩
      · exact ⟨.loopExit hb, rfl⟩
      · exact ⟨.callExit hreach hc, rfl⟩
      · exact ⟨.loopEntry hb, rfl⟩
    · rintro ⟨he, rfl⟩
      have hreach := he.reaches
      cases he with
      | real _ hs hback => exact Or.inl ⟨hreach, Or.inl ⟨_, hs, hback, rfl⟩⟩
      | loopEntry hb => exact Or.inr ⟨rfl, _, _, hb, rfl⟩
      | loopExit hb => exact Or.inl ⟨hreach, Or.inr (Or.inl ⟨_, _, hb, rfl, rfl⟩)⟩
      | callExit _ hc => exact Or.inl ⟨hreach, Or.inr (Or.inr ⟨_, _, hc, rfl⟩)⟩
  · rw [outEdges_eq_nil hv]
    constructor
    · intro he
      exact absurd he List.not_mem_nil
    · rintro ⟨he, rfl⟩
      exact absurd (hf.source_mem he) hv

/-- Edges that carry their positions are not repeated. -/
theorem nodup_indexed
    {α : Type} {xs : List α} {ys : List (α × Nat)} {make : α × Nat → PathEdge}
    (hys : ys.Sublist xs.zipIdx)
    (hmake : ∀ y, (make y).index = y.2) :
    (ys.map make).Nodup := by
  have hsnd : (ys.map Prod.snd).Nodup := by
    refine List.Nodup.sublist (hys.map Prod.snd) ?_
    rw [List.zipIdx_map_snd]
    exact List.nodup_range'
  have hindex : (ys.map make).map PathEdge.index = (ys.map Prod.snd).map Int.ofNat := by
    rw [List.map_map, List.map_map]
    exact List.map_congr_left fun y _ => hmake y
  refine List.Nodup.of_map PathEdge.index ?_
  rw [hindex]
  exact hsnd.map fun i j hij => Int.ofNat.inj hij

theorem Simple.innerEdges_nodup
    (hf : f.Simple)
    (v : Int) :
    (f.innerEdges f.backEdges v).Nodup := by
  unfold innerEdges
  refine List.nodup_append'.mpr ⟨List.nodup_append'.mpr ⟨?_, ?_, ?_⟩, ?_, ?_⟩
  · refine ((hf.nodup v).filter _).map ?_
    intro s t hst
    simpa using hst
  · exact nodup_indexed List.filter_sublist fun _ => rfl
  · rw [List.disjoint_left]
    intro e hreal hloop
    obtain ⟨s, -, rfl⟩ := List.mem_map.mp hreal
    obtain ⟨⟨b, i⟩, -, heq⟩ := List.mem_map.mp hloop
    simp [PathEdgeKind.real, PathEdgeKind.loopExit] at heq
  · exact nodup_indexed (List.Sublist.refl _) fun _ => rfl
  · rw [List.disjoint_left]
    intro e hother hcall
    obtain ⟨⟨c, j⟩, -, rfl⟩ := List.mem_map.mp hcall
    rcases List.mem_append.mp hother with hreal | hloop
    · obtain ⟨s, -, heq⟩ := List.mem_map.mp hreal
      simp [PathEdgeKind.real, PathEdgeKind.callExit] at heq
    · obtain ⟨⟨b, i⟩, -, heq⟩ := List.mem_map.mp hloop
      simp [PathEdgeKind.loopExit, PathEdgeKind.callExit] at heq

/-- The edges out of a node are listed once each. -/
theorem Simple.outEdges_nodup
    (hf : f.Simple)
    (v : Int) :
    (f.outEdges v).Nodup := by
  by_cases hv : v ∈ f.ids
  · rw [outEdges_eq hv]
    refine List.nodup_append'.mpr ⟨?_, ?_, ?_⟩
    · split
      · exact hf.innerEdges_nodup v
      · exact List.nodup_nil
    · split
      · exact nodup_indexed (List.Sublist.refl _) fun _ => rfl
      · exact List.nodup_nil
    · rw [List.disjoint_left]
      intro e hinner hentry
      rw [List.mem_ite_nil_right] at hinner hentry
      obtain ⟨i, b, -, rfl⟩ := mem_loopEntries_iff.mp hentry.2
      rcases mem_innerEdges_iff.mp hinner.2 with
        ⟨s, -, -, heq⟩ | ⟨j, b', -, -, heq⟩ | ⟨j, c, -, heq⟩
      · simp [PathEdgeKind.loopEntry, PathEdgeKind.real] at heq
      · simp [PathEdgeKind.loopEntry, PathEdgeKind.loopExit] at heq
      · simp [PathEdgeKind.loopEntry, PathEdgeKind.callExit] at heq
  · rw [outEdges_eq_nil hv]
    exact List.nodup_nil

end Edges

section Rank

/-- Ranks of the nodes that get smaller along the edges of the acyclic graph. -/
structure Ranks (f : Procedure) (rank : Int → Nat) : Prop where
  edge : ∀ e, f.IsPathEdge e → rank e.target < rank e.source
  bound : ∀ v ∈ f.ids, rank v < f.ids.length

variable {rank : Int → Nat}

/-- In an order in which every node comes after its successors, places are ranks. -/
theorem Simple.ranks
    (hf : f.Simple)
    {order : List Int}
    (h : f.acyclic.IsSinkOrder order) :
    f.Ranks order.idxOf := by
  obtain ⟨hsinks, hperm⟩ := h
  have hmem : ∀ v, v ∈ f.ids → v ∈ order := fun v hv => hperm.mem_iff.mpr hv
  refine ⟨?_, ?_⟩
  · intro e he
    refine hsinks.idxOf_lt (hmem _ (hf.source_mem he)) ?_
    exact List.mem_map_of_mem (hf.mem_outEdges_iff.mpr ⟨he, rfl⟩)
  · intro v hv
    have hlt := List.idxOf_lt_length_iff.mpr (hmem v hv)
    rw [hperm.length_eq] at hlt
    exact hlt

/-- No edge of the acyclic graph leaves the exit. -/
theorem Ranks.source_ne_exit
    (hr : f.Ranks rank)
    (hf : f.Simple)
    (he : f.IsPathEdge e) :
    e.source ≠ exitId := by
  have hlt := hr.edge e he
  intro hsource
  rw [hsource] at hlt
  cases he with
  | real _ hs _ =>
      obtain rfl := hsource
      rw [hf.exit_succs] at hs
      exact List.not_mem_nil hs
  | loopEntry _ => exact absurd hsource (show entryId ≠ exitId by decide)
  | loopExit _ => exact Nat.lt_irrefl _ hlt
  | callExit _ _ => exact Nat.lt_irrefl _ hlt

/-- No path is longer than the rank of the node where it begins. -/
theorem Ranks.length_le
    (hr : f.Ranks rank) :
    ∀ {v : Int} {path : List PathEdge}, f.IsPathFrom v path → path.length ≤ rank v
  | _, [], _ => Nat.zero_le _
  | _, e :: rest, ⟨he, hsource, hrest⟩ => by
      have hshort := hr.length_le hrest
      have hlt := hr.edge e he
      rw [hsource] at hlt
      rw [List.length_cons]
      omega

end Rank

section Order

/-- The exit can be reached and calls procedures.  Such a call is an edge from the exit to itself.
-/
def CallsAtExit (f : Procedure) : Prop :=
  f.graph.Reaches entryId exitId ∧ (f.node exitId).calls ≠ []

/-- The graph without back edges stays inside the procedure. -/
theorem Simple.acyclic_closed
    (hf : f.Simple) :
    f.acyclic.Closed := by
  intro v _ s hs
  obtain ⟨e, he, rfl⟩ := List.mem_map.mp hs
  exact hf.target_mem (hf.mem_outEdges_iff.mp he).1

/-- The places of the nodes: the exit first, then the nodes in the given order, the entry last. -/
def placeIn (order : List Int) (v : Int) : Nat :=
  if v = exitId then 0 else if v = entryId then order.length + 2 else order.idxOf v + 1

theorem placeIn_exit (order : List Int) : placeIn order exitId = 0 := if_pos rfl

theorem placeIn_pos
    {order : List Int}
    (hv : v ≠ exitId) :
    0 < placeIn order v := by
  unfold placeIn
  rw [if_neg hv]
  split <;> omega

/-- Every node has a place before the one of the entry. -/
theorem placeIn_lt_entry
    {order : List Int}
    (hv : v ≠ entryId) :
    placeIn order v < placeIn order entryId := by
  have hle : order.idxOf v ≤ order.length := List.idxOf_le_length
  have hne : entryId ≠ exitId := by decide
  unfold placeIn
  rw [if_neg hv, if_neg hne, if_pos rfl]
  split <;> omega

/-- If nothing leads to the entry and no call stands at the exit, edges lead to earlier places. -/
theorem Simple.placeIn_lt
    (hf : f.Simple)
    (hentry : ∀ v, entryId ∉ (f.node v).succs)
    (hcalls : ¬ f.CallsAtExit)
    {order : List Int}
    (horder : Digraph.SinksFirst (f.graph.forward entryId) order)
    (hmem : ∀ v, f.graph.Reaches entryId v → v ∈ order)
    (he : f.IsPathEdge e) :
    placeIn order e.target < placeIn order e.source := by
  have hsucc : ∀ {v s}, s ∈ (f.node v).succs → v ≠ exitId ∧ s ≠ entryId := by
    intro v s hs
    refine ⟨?_, ?_⟩
    · rintro rfl
      rw [hf.exit_succs] at hs
      exact List.not_mem_nil hs
    · rintro rfl
      exact hentry v hs
  cases he with
  | @real v s hreach hs hback =>
      obtain ⟨hv, hs₀⟩ := hsucc hs
      change placeIn order s < placeIn order v
      by_cases hexit : s = exitId
      · rw [hexit, placeIn_exit]
        exact placeIn_pos hv
      · by_cases hv₀ : v = entryId
        · rw [hv₀]
          exact placeIn_lt_entry hs₀
        · have hforward : s ∈ f.graph.forward entryId v := by
            refine List.mem_filter.mpr ⟨by rwa [graph_succs], decide_eq_true fun hmem => hback ?_⟩
            exact List.mem_map.mpr ⟨(v, s), hmem, rfl⟩
          have hlt := horder.idxOf_lt (hmem v hreach) hforward
          unfold placeIn
          rw [if_neg hexit, if_neg hs₀, if_neg hv, if_neg hv₀]
          omega
  | loopEntry hb => exact placeIn_lt_entry (hsucc (mem_backEdges (List.mem_of_getElem? hb)).2).2
  | loopExit hb =>
      change placeIn order exitId < _
      rw [placeIn_exit]
      exact placeIn_pos (hsucc (mem_backEdges (List.mem_of_getElem? hb)).2).1
  | @callExit v i c hreach hc =>
      change placeIn order exitId < placeIn order v
      rw [placeIn_exit]
      refine placeIn_pos ?_
      rintro rfl
      exact hcalls ⟨hreach, List.ne_nil_of_mem (List.mem_of_getElem? hc)⟩

/-- If nothing leads to the entry, the graph has a cycle exactly if a call stands at an exit that
can be reached. -/
theorem Simple.exists_cycle_iff
    (hf : f.Simple)
    (hentry : ∀ v, entryId ∉ (f.node v).succs) :
    (∃ v ∈ f.acyclic.nodes, f.acyclic.Leads v v) ↔ f.CallsAtExit := by
  constructor
  · rintro ⟨v, hv, hcycle⟩
    by_contra hcalls
    have hroot : entryId ∈ f.graph.nodes := by
      rw [graph_nodes]
      exact hf.entry_mem
    obtain ⟨order, horder, hmem⟩ := Digraph.exists_order_forward hf.closed hroot
    have hrank : ∀ v ∈ f.acyclic.nodes, ∀ s ∈ f.acyclic.succs v,
        placeIn order s < placeIn order v := by
      intro v _ s hs
      obtain ⟨e, he, rfl⟩ := List.mem_map.mp hs
      obtain ⟨hedge, rfl⟩ := hf.mem_outEdges_iff.mp he
      exact hf.placeIn_lt hentry hcalls horder hmem hedge
    exact Digraph.not_leads_of_rank hf.acyclic_closed hrank hv hcycle
  · rintro ⟨hreach, hcalls⟩
    obtain ⟨c, hc⟩ := List.exists_mem_of_ne_nil _ hcalls
    obtain ⟨i, hi⟩ := List.mem_iff_getElem?.mp hc
    have hloop : (⟨exitId, exitId, .callExit, i⟩ : PathEdge) ∈ f.outEdges exitId :=
      hf.mem_outEdges_iff.mpr ⟨.callExit hreach hi, rfl⟩
    exact ⟨exitId, hf.exit_mem, exitId, List.mem_map_of_mem hloop, .refl exitId⟩

variable {sort : TopologicalSort}

/-- Turned round, the order that an exact sort finds has every node after its successors. -/
theorem Simple.isSinkOrder
    (hf : f.Simple)
    (hsort : sort.IsExact)
    {order : List Int}
    (h : sort f.acyclic = some order) :
    f.acyclic.IsSinkOrder order.reverse :=
  hsort.isSinkOrder hf.acyclic_closed (positions_nodup _) h

/-- An exact sort refuses the graph exactly if a call stands at an exit that can be reached. -/
theorem Simple.sort_eq_none_iff
    (hf : f.Simple)
    (hsort : sort.IsExact)
    (hentry : ∀ v, entryId ∉ (f.node v).succs) :
    sort f.acyclic = none ↔ f.CallsAtExit :=
  (hsort.eq_none_iff _ hf.acyclic_closed (positions_nodup _)).trans (hf.exists_cycle_iff hentry)

end Order

section Suffixes

variable {path rest rest' : List PathEdge} {rank : Int → Nat}

/-- The node at which some edges of a path start; at its end that is the exit. -/
def startOf : List PathEdge → Int
  | [] => exitId
  | e :: _ => e.source

theorem IsPathFrom.startOf_eq
    (h : f.IsPathFrom v path) :
    startOf path = v := by
  cases path with
  | nil => exact Eq.symm h
  | cons e rest => exact h.2.1

/-- What is left of a path is a path. -/
theorem IsPathFrom.suffix
    (h : f.IsPathFrom v path)
    (hrest : rest <:+ path) :
    f.IsPathFrom (startOf rest) rest := by
  obtain ⟨front, rfl⟩ := hrest
  induction front generalizing v with
  | nil =>
      rw [List.nil_append] at h
      rwa [h.startOf_eq]
  | cons e front ih => exact ih h.2.2

/-- The edges of a path are edges of paths. -/
theorem IsPathFrom.isPathEdge
    (h : f.IsPathFrom v path)
    (he : e ∈ path) :
    f.IsPathEdge e := by
  obtain ⟨front, back, rfl⟩ := List.append_of_mem he
  exact (h.suffix ⟨front, rfl⟩).1

/-- After an edge of a path, the path goes on from its target. -/
theorem IsPathFrom.startOf_tail
    (h : f.IsPathFrom v path)
    (hrest : e :: rest <:+ path) :
    rest <:+ path ∧ startOf rest = e.target :=
  ⟨(List.suffix_cons e rest).trans hrest, (h.suffix hrest).2.2.startOf_eq⟩

/-- Ranks fall along a path. -/
theorem Ranks.startOf_lt
    (hr : f.Ranks rank)
    {front : List PathEdge}
    (h : f.IsPathFrom v (front ++ rest))
    (hfront : front ≠ []) :
    rank (startOf rest) < rank v := by
  induction front generalizing v with
  | nil => exact absurd rfl hfront
  | cons e front ih =>
      obtain ⟨he, hsource, hpath⟩ := h
      have hlt := hr.edge e he
      rw [hsource] at hlt
      cases front with
      | nil =>
          change f.IsPathFrom e.target rest at hpath
          rw [hpath.startOf_eq]
          exact hlt
      | cons e' front => exact (ih hpath (List.cons_ne_nil _ _)).trans hlt

/-- A path comes to a node once. -/
theorem Ranks.suffix_unique
    (hr : f.Ranks rank)
    (h : f.IsPathFrom v path)
    (hrest : rest <:+ path)
    (hrest' : rest' <:+ path)
    (hstart : startOf rest = startOf rest') :
    rest = rest' := by
  have hcut : ∀ {r r' : List PathEdge}, r <:+ path → r' <:+ r → startOf r = startOf r' →
      r = r' := by
    rintro r r' hr₁ ⟨front, rfl⟩ hsame
    by_contra hne
    have hfront : front ≠ [] := by
      rintro rfl
      exact hne rfl
    have hlt := hr.startOf_lt (h.suffix hr₁) hfront
    rw [hsame] at hlt
    exact Nat.lt_irrefl _ hlt
  rcases List.suffix_or_suffix_of_suffix hrest hrest' with hle | hle
  · exact (hcut hrest' hle hstart.symm).symm
  · exact hcut hrest hle hstart

/-- A path leaves a node once. -/
theorem Ranks.eq_of_source_eq
    (hr : f.Ranks rank)
    {x y : PathEdge}
    (h : f.IsPathFrom v path)
    (hx : x ∈ path)
    (hy : y ∈ path)
    (hsource : x.source = y.source) :
    x = y := by
  obtain ⟨front, back, hsplit⟩ := List.append_of_mem hx
  obtain ⟨front', back', hsplit'⟩ := List.append_of_mem hy
  have hsame : x :: back = y :: back' :=
    hr.suffix_unique h ⟨front, hsplit.symm⟩ ⟨front', hsplit'.symm⟩ hsource
  exact (List.cons.inj hsame).1

/-- A path enters a node once. -/
theorem Ranks.eq_of_target_eq
    (hr : f.Ranks rank)
    {x y : PathEdge}
    (h : f.IsPathFrom v path)
    (hx : x ∈ path)
    (hy : y ∈ path)
    (htarget : x.target = y.target) :
    x = y := by
  obtain ⟨front, back, hsplit⟩ := List.append_of_mem hx
  obtain ⟨front', back', hsplit'⟩ := List.append_of_mem hy
  obtain ⟨hsuffix, hstart⟩ := h.startOf_tail ⟨front, hsplit.symm⟩
  obtain ⟨hsuffix', hstart'⟩ := h.startOf_tail ⟨front', hsplit'.symm⟩
  obtain rfl := hr.suffix_unique h hsuffix hsuffix' (hstart.trans (htarget.trans hstart'.symm))
  -- the edges before the common rest are the same, so the last of them are
  have hwhole : (front ++ [x]) ++ back = (front' ++ [y]) ++ back := by
    simpa using hsplit.symm.trans hsplit'
  have hfront := List.append_cancel_right hwhole
  exact List.singleton_inj.mp (List.append_inj' hfront rfl).2

end Suffixes

end Procedure
end DefUse
