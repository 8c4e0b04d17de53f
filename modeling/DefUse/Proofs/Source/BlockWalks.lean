import DefUse.Proofs.Source.Load

/-!
# Walks through procedures and walks through blocks

The procedure of a flow graph has a node for every step of the live blocks, and one for each live
block without steps.  Control goes through it as it goes through the blocks.

**Method.** Blocks are placed side by side, so that a node tells its block and its place in it.  An
edge leads from a node to the next one of its block, from the entry to the first block, or from the
last node of a block to the first node of another one or to the exit.  Reading a walk node by node,
the rest of the current block has to come first, and then a walk from one of the blocks that follow.

**Results.**
* `Layout.mem_succs_procedure_iff`: the edges of the procedure of placed blocks.
* `Layout.isWalk_of_blocks` and `Layout.exists_blocks_of_isWalk`: from walks through blocks to walks
  through nodes, and back.
* `blockWalks_exact`: nodes and walks of the procedure are those of the live blocks.
-/

namespace DefUse

/-- The node without its neighbours. -/
def Node.withoutEdges (n : Node) : Node := { n with succs := [], preds := [] }

theorem Node.withoutEdges_eq_self
    {n : Node}
    (h : n.succs = [] ∧ n.preds = []) :
    n.withoutEdges = n := by
  cases n
  simp_all [withoutEdges]

namespace Procedure

variable {f f' : Procedure}

theorem store_withoutEdges
    {i : Int} {n : Node}
    (hn : n.withoutEdges = (f.node i).withoutEdges) (j : Int) :
    (Procedure.node { f with nodes := store f.nodes i n } j).withoutEdges =
      (f.node j).withoutEdges := by
  rw [node_store]
  split
  · rename_i hij
    rw [hn, hij.1]
  · rfl

theorem addEdge_withoutEdges
    (f : Procedure) (source target i : Int) :
    ((f.addEdge source target).1.node i).withoutEdges = (f.node i).withoutEdges := by
  unfold addEdge
  split
  · rfl
  · rename_i n hsource
    split
    · rfl
    · let g : Procedure :=
        { f with nodes := store f.nodes source { n with succs := n.succs ++ [target] } }
      have hout : (g.node i).withoutEdges = (f.node i).withoutEdges := by
        refine store_withoutEdges ?_ i
        rw [(eq_node_of_fetch hsource).2]
        rfl
      dsimp only
      split
      · exact hout
      · rename_i m htarget
        refine (@store_withoutEdges g target _ ?_ i).trans hout
        rw [(@eq_node_of_fetch g target m htarget).2]
        rfl

/-- More edges leave the rest of the nodes as it was. -/
theorem addEdges_withoutEdges
    (edges : List (Int × Int)) (i : Int) :
    ∀ f : Procedure, ((f.addEdges edges).node i).withoutEdges = (f.node i).withoutEdges := by
  induction edges with
  | nil => exact fun _ => rfl
  | cons edge rest ih => exact fun f => (ih _).trans (addEdge_withoutEdges f edge.1 edge.2 i)

theorem addEdges_ids
    (edges : List (Int × Int)) :
    ∀ f : Procedure, (f.addEdges edges).ids = f.ids := by
  induction edges with
  | nil => exact fun _ => rfl
  | cons edge rest ih => exact fun f => (ih _).trans (addEdge_ids f edge.1 edge.2)

theorem mem_succs_addEdge_iff
    {source target i j : Int}
    (hstep : f.addEdge source target = (f', none)) :
    j ∈ (f'.node i).succs ↔ j ∈ (f.node i).succs ∨ (i, j) = (source, target) := by
  rcases addEdge_cases hstep with ⟨rfl, hold⟩ | ⟨-, -, hedges⟩
  · rw [Prod.mk.injEq, iff_self_or]
    rintro ⟨rfl, rfl⟩
    exact hold
  · rw [(hedges i).1, Prod.mk.injEq]
    split
    · rename_i hi
      simp [hi]
    · rename_i hi
      simp [Ne.symm hi]

/-- The edges with the added ones. -/
theorem mem_succs_addEdges_iff
    {edges : List (Int × Int)} {i j : Int}
    (hedges : ∀ u v, (u, v) ∈ edges → u ∈ f.ids ∧ v ∈ f.ids) :
    j ∈ ((f.addEdges edges).node i).succs ↔ j ∈ (f.node i).succs ∨ (i, j) ∈ edges := by
  induction edges generalizing f with
  | nil => simp [Procedure.addEdges]
  | cons edge rest ih =>
      obtain ⟨u, v⟩ := edge
      obtain ⟨hu, hv⟩ := hedges u v List.mem_cons_self
      have hids := addEdge_ids f u v
      have hfault := addEdge_fault hu hv
      generalize hadd : f.addEdge u v = result at hids hfault
      obtain ⟨f', fault⟩ := result
      obtain rfl : fault = none := hfault
      have hstep : f.addEdges ((u, v) :: rest) = f'.addEdges rest := by
        simp only [Procedure.addEdges, List.foldl_cons, hadd]
      have hrest : ∀ u v, (u, v) ∈ rest → u ∈ f'.ids ∧ v ∈ f'.ids := by
        intro u v huv
        rw [hids]
        exact hedges u v (List.mem_cons_of_mem _ huv)
      rw [hstep, ih hrest, mem_succs_addEdge_iff hadd, List.mem_cons, or_assoc]

/-- The nodes, one position after the other. -/
theorem map_node_ids
    (f : Procedure) :
    f.ids.map f.node = f.nodes.toList := by
  refine List.ext_getElem (by simp [ids, positions]) fun k hk hk' => ?_
  have hsize : k < f.nodes.size := by simpa using hk'
  simp [ids, positions, node, hsize]

end Procedure

namespace Source

namespace Placed

/-- One of the blocks ends before the other one starts. -/
def Apart (p q : Placed) : Prop := p.first + p.width ≤ q.first ∨ q.first + q.width ≤ p.first

instance : Std.Symm Apart := ⟨fun _ _ => Or.symm⟩

/-- The positions of the nodes of the block. -/
def span (p : Placed) : List Int := (List.range' p.first p.width).map fun (k : Nat) => (k : Int)

theorem length_span
    (p : Placed) :
    p.span.length = p.width := by
  simp [span]

/-- The positions from a place in the block on. -/
theorem drop_span
    {p : Placed} {k : Nat}
    (hk : k < p.width) :
    p.span.drop k = (p.first + k : Int) :: p.span.drop (k + 1) := by
  have hk' : k < p.span.length := by rwa [length_span]
  rw [List.drop_eq_getElem_cons hk']
  simp [span]

theorem drop_span_width
    (p : Placed) :
    p.span.drop p.width = [] := by
  rw [List.drop_eq_nil_iff, length_span]

theorem last_eq
    (p : Placed) :
    p.last = p.first + (p.width - 1) :=
  Nat.add_sub_assoc (Layout.one_le_width p) p.first

theorem head?_span
    (p : Placed) :
    p.span.head? = some (p.first : Int) := by
  have hdrop := drop_span (Layout.one_le_width p)
  rw [List.drop_zero] at hdrop
  rw [hdrop]
  simp

theorem getLast?_span
    (p : Placed) :
    p.span.getLast? = some (p.last : Int) := by
  have hwidth := Layout.one_le_width p
  have hlast : p.width - 1 < p.span.length := by
    rw [length_span]
    omega
  rw [List.getLast?_eq_getElem?, length_span, List.getElem?_eq_getElem hlast]
  simp only [span, List.getElem_map, List.getElem_range', Nat.one_mul, last_eq]

end Placed

namespace Layout

/-- The positions of the nodes of the block with a number. -/
def span (l : Layout) (b : Nat) : List Int := ((l.find? (·.number = b)).map Placed.span).getD []

section Place

variable {blocks : List (Nat × Block)} {first : Nat} {p q : Placed}

theorem map_number_place
    (blocks : List (Nat × Block)) (first : Nat) :
    (place first blocks).map Placed.number = blocks.map Prod.fst := by
  induction blocks generalizing first with
  | nil => rfl
  | cons head rest ih =>
      rw [place, List.map_cons, List.map_cons, ih]

/-- Blocks are placed side by side. -/
theorem flatMap_span_place
    (blocks : List (Nat × Block)) (first : Nat) :
    (place first blocks).flatMap Placed.span =
      (List.range' first (width (place first blocks))).map fun (k : Nat) => (k : Int) := by
  induction blocks generalizing first with
  | nil => rfl
  | cons head rest ih =>
      obtain ⟨number, block⟩ := head
      rw [place, List.flatMap_cons, ih]
      simp only [width, List.map_cons, List.sum_cons, ← List.range'_append, List.map_append,
        Nat.one_mul]
      rfl

theorem place_pairwise
    (blocks : List (Nat × Block)) (first : Nat) :
    (place first blocks).Pairwise Placed.Apart := by
  induction blocks generalizing first with
  | nil => exact List.Pairwise.nil
  | cons head rest ih =>
      obtain ⟨number, block⟩ := head
      refine List.pairwise_cons.mpr ⟨fun q hq => ?_, ih _⟩
      exact Or.inl (mem_place hq).2.1

/-- A node tells its block. -/
theorem eq_of_position
    {i j : Nat}
    (hp : p ∈ place first blocks)
    (hq : q ∈ place first blocks)
    (hi : i < p.width)
    (hj : j < q.width)
    (h : p.first + i = q.first + j) :
    p = q ∧ i = j := by
  have heq : p = q := by
    by_contra hne
    have hapart := (place_pairwise blocks first).forall hp hq hne
    unfold Placed.Apart at hapart
    omega
  subst heq
  exact ⟨rfl, Nat.add_left_cancel h⟩

end Place

section Edges

variable {g : FlowGraph} {numbers : List Nat} {p : Placed} {b : Nat} {u v : Int}

/-- The edges within blocks, from the entry, and from block to block. -/
theorem mem_edges_iff
    {l : Layout} :
    (u, v) ∈ l.edges ↔
      (∃ p ∈ l, ∃ k : Nat, k + 1 < p.width ∧ u = p.first + k ∧ v = p.first + (k + 1 : Nat)) ∨
      (u = entryId ∧ v = l.start 0) ∨
      (∃ p ∈ l, u = p.last ∧ ((p.block.succs = [] ∧ v = exitId) ∨
        ∃ b ∈ p.block.succs, v = l.start b)) := by
  have hchain : ∀ p : Placed, (u, v) ∈ p.chain ↔
      ∃ k : Nat, k + 1 < p.width ∧ u = p.first + k ∧ v = p.first + (k + 1 : Nat) := by
    intro p
    simp only [Placed.chain, List.mem_map, List.mem_range, Prod.mk.injEq]
    constructor
    · rintro ⟨k, hk, rfl, rfl⟩
      exact ⟨k, by omega, rfl, by omega⟩
    · rintro ⟨k, hk, rfl, rfl⟩
      exact ⟨k, by omega, rfl, by omega⟩
  have hexits : ∀ p : Placed, (u, v) ∈ l.exits p ↔
      u = p.last ∧ ((p.block.succs = [] ∧ v = exitId) ∨ ∃ b ∈ p.block.succs, v = l.start b) := by
    intro p
    unfold exits
    cases p.block.succs with
    | nil => simp
    | cons b rest =>
        simp only [List.isEmpty_cons, Bool.false_eq_true, if_false, List.mem_map, Prod.mk.injEq,
          reduceCtorEq, false_and, false_or]
        constructor
        · rintro ⟨c, hc, rfl, rfl⟩
          exact ⟨rfl, c, hc, rfl⟩
        · rintro ⟨rfl, c, hc, rfl⟩
          exact ⟨c, hc, rfl, rfl⟩
  simp only [edges, List.mem_append, List.mem_flatMap, List.mem_singleton, hchain, hexits,
    Prod.mk.injEq, or_assoc]

/-- The edges of the procedure of placed blocks. -/
theorem mem_succs_procedure_iff
    {make : Step → Node}
    (hg : g.ClosedOn numbers)
    (hmake : ∀ s, (make s).succs = [] ∧ (make s).preds = [])
    (name : String) (params : List Variable) :
    v ∈ ((ofBlocks g numbers).procedure name params make).graph.succs u ↔
      (u, v) ∈ (ofBlocks g numbers).edges := by
  have hends : ∀ u v, (u, v) ∈ (ofBlocks g numbers).edges →
      u ∈ ((ofBlocks g numbers).bare name params make).ids ∧
        v ∈ ((ofBlocks g numbers).bare name params make).ids := by
    intro u v huv
    rw [ids_bare]
    obtain ⟨hu, hv, -⟩ := mem_positions_of_mem_edges hg huv
    exact ⟨hu, hv⟩
  have hbare := Procedure.edges_of_bare (edges_of_mem_bare hmake (ofBlocks g numbers) name params) u
  rw [Procedure.graph_succs, procedure, Procedure.mem_succs_addEdges_iff hends, hbare.1]
  simp only [List.not_mem_nil, false_or]

end Edges

section Walks

variable {g : FlowGraph} {numbers : List Nat} {G : Digraph Int} {p : Placed} {bs : List Nat}

theorem exists_span_eq
    {b : Nat}
    (hg : g.ClosedOn numbers)
    (hb : b ∈ numbers) :
    ∃ p ∈ ofBlocks g numbers, p.number = b ∧ (ofBlocks g numbers).start b = p.first ∧
      (ofBlocks g numbers).span b = p.span := by
  obtain ⟨p, hp, hnumber, hfind⟩ := exists_find?_eq hg hb
  exact ⟨p, hp, hnumber, by rw [start, hfind]; rfl, by rw [span, hfind]; rfl⟩

theorem succs_number
    (hp : p ∈ ofBlocks g numbers) :
    g.graph.succs p.number = p.block.succs :=
  FlowGraph.succs_graph (mem_ofBlocks hp).2.1

theorem isWalk_span
    (hG : ∀ u v, v ∈ G.succs u ↔ (u, v) ∈ (ofBlocks g numbers).edges)
    (hp : p ∈ ofBlocks g numbers) :
    G.IsWalk p.span := by
  refine List.isChain_iff_getElem.mpr fun k hk => ?_
  rw [Placed.length_span] at hk
  refine (hG _ _).mpr (mem_edges_iff.mpr (Or.inl ⟨p, hp, k, hk, ?_, ?_⟩)) <;> simp [Placed.span]

/-- A walk through blocks to one without successors is a walk through their nodes to the exit. -/
theorem isWalk_of_blocks
    (hg : g.ClosedOn numbers)
    (hG : ∀ u v, v ∈ G.succs u ↔ (u, v) ∈ (ofBlocks g numbers).edges)
    (hp : p ∈ ofBlocks g numbers)
    (hwalk : g.graph.IsWalk (p.number :: bs))
    (hstop : ∀ b ∈ (p.number :: bs).getLast?, g.graph.succs b = []) :
    G.IsWalk (p.span ++ (bs.flatMap (ofBlocks g numbers).span ++ [exitId])) := by
  induction bs generalizing p with
  | nil =>
      have hnone : p.block.succs = [] := by
        rw [← succs_number hp]
        exact hstop p.number rfl
      refine List.isChain_append.mpr ⟨isWalk_span hG hp, List.isChain_singleton _, ?_⟩
      intro u hu v hv
      rw [Placed.getLast?_span, Option.mem_some_iff] at hu
      rw [List.flatMap_nil, List.nil_append, List.head?_cons, Option.mem_some_iff] at hv
      rw [hG, mem_edges_iff]
      exact Or.inr (Or.inr ⟨p, hp, hu.symm, Or.inl ⟨hnone, hv.symm⟩⟩)
  | cons b bs ih =>
      obtain ⟨hb, hrest⟩ := Digraph.isWalk_cons_cons.mp hwalk
      have hmem := hg.succs _ (mem_ofBlocks hp).1 b hb
      obtain ⟨q, hq, rfl, hstart, hspan⟩ := exists_span_eq hg hmem
      rw [List.flatMap_cons, hspan, List.append_assoc]
      refine List.isChain_append.mpr ⟨isWalk_span hG hp, ih hq hrest (by simpa using hstop), ?_⟩
      intro u hu v hv
      rw [Placed.getLast?_span, Option.mem_some_iff] at hu
      rw [List.head?_append, Placed.head?_span, Option.some_or, Option.mem_some_iff] at hv
      rw [succs_number hp] at hb
      rw [hG, mem_edges_iff]
      exact Or.inr (Or.inr ⟨p, hp, hu.symm, Or.inr ⟨q.number, hb, by rw [hstart, hv]⟩⟩)

/-- A walk from a place in a block to the exit goes through the rest of the block, and then through
blocks that follow each other to one without successors. -/
theorem exists_blocks_of_isWalk
    {k : Nat} {rest : List Int}
    (hg : g.ClosedOn numbers)
    (hG : ∀ u v, v ∈ G.succs u ↔ (u, v) ∈ (ofBlocks g numbers).edges)
    (hp : p ∈ ofBlocks g numbers)
    (hk : k < p.width)
    (hwalk : G.IsWalk ((p.first + k : Int) :: rest))
    (hlast : ((p.first + k : Int) :: rest).getLast? = some exitId) :
    ∃ bs, g.graph.IsWalk (p.number :: bs) ∧
      (∀ b ∈ (p.number :: bs).getLast?, g.graph.succs b = []) ∧
      (p.first + k : Int) :: rest =
        p.span.drop k ++ (bs.flatMap (ofBlocks g numbers).span ++ [exitId]) := by
  have htwo := (mem_ofBlocks hp).2.2.1
  induction rest generalizing p k with
  | nil =>
      rw [List.getLast?_singleton, Option.some.injEq, exitId] at hlast
      omega
  | cons v rest ih =>
      obtain ⟨hv, hrest⟩ := Digraph.isWalk_cons_cons.mp hwalk
      rw [List.getLast?_cons_cons] at hlast
      rcases mem_edges_iff.mp ((hG _ _).mp hv) with
        ⟨q, hq, j, hj, hu, rfl⟩ | ⟨hu, -⟩ | ⟨q, hq, hu, hexit⟩
      -- inside the block, which the node tells
      · have hposition : p.first + k = q.first + j := by omega
        obtain ⟨rfl, rfl⟩ := eq_of_position hp hq hk (Nat.lt_of_succ_lt hj) hposition
        obtain ⟨bs, hbs, hstop, heq⟩ := ih hp hj hrest hlast htwo
        exact ⟨bs, hbs, hstop, by rw [Placed.drop_span hk, List.cons_append, heq]⟩
      · rw [entryId] at hu
        omega
      -- out of the block, from its last node
      · have hwidth := one_le_width q
        have hposition : p.first + k = q.first + (q.width - 1) := by
          rw [Placed.last_eq] at hu
          exact_mod_cast hu
        obtain ⟨rfl, hend⟩ := eq_of_position hp hq hk (Nat.sub_one_lt_of_lt hwidth) hposition
        have hdrop : p.span.drop k = [(p.first + k : Int)] := by
          rw [Placed.drop_span hk, hend, Nat.sub_add_cancel hwidth, Placed.drop_span_width]
        rcases hexit with ⟨hnone, rfl⟩ | ⟨b, hb, rfl⟩
        · refine ⟨[], List.isChain_singleton _, ?_, ?_⟩
          · intro b hb
            rw [List.getLast?_singleton, Option.mem_some_iff] at hb
            rw [← hb, succs_number hp, hnone]
          · cases rest with
            | nil =>
                rw [hdrop]
                rfl
            | cons w rest =>
                have hout := (hG _ _).mp (Digraph.isWalk_cons_cons.mp hrest).1
                exact absurd rfl (mem_positions_of_mem_edges hg hout).2.2.1
        · rw [← succs_number hp] at hb
          have hmem := hg.succs _ (mem_ofBlocks hp).1 b hb
          obtain ⟨q, hq, rfl, hstart, hspan⟩ := exists_span_eq hg hmem
          have hzero : (ofBlocks g numbers).start q.number = (q.first + (0 : Nat) : Int) := by
            rw [hstart]
            simp
          rw [hzero] at hrest hlast ⊢
          obtain ⟨bs, hbs, hstop, heq⟩ :=
            ih hq (one_le_width q) hrest hlast (mem_ofBlocks hq).2.2.1
          refine ⟨q.number :: bs, Digraph.isWalk_cons_cons.mpr ⟨hb, hbs⟩, by simpa using hstop, ?_⟩
          rw [hdrop, heq, List.drop_zero, List.flatMap_cons, hspan, List.append_assoc,
            List.singleton_append]

/-- The walks from the entry to the exit are those through the blocks, from the first one to one
without successors. -/
theorem isWalk_iff_blocks
    (hg : g.ClosedOn numbers)
    (hG : ∀ u v, v ∈ G.succs u ↔ (u, v) ∈ (ofBlocks g numbers).edges)
    (walk : List Int) :
    (G.IsWalk walk ∧ walk.head? = some entryId ∧ walk.getLast? = some exitId) ↔
      ∃ bs, g.graph.IsWalk bs ∧ bs.head? = some 0 ∧
        (∀ b ∈ bs.getLast?, g.graph.succs b = []) ∧
        walk = entryId :: (bs.flatMap (ofBlocks g numbers).span ++ [exitId]) := by
  obtain ⟨p, hp, hnumber, hstart, hspan⟩ := exists_span_eq hg hg.zero_mem
  have htwo := (mem_ofBlocks hp).2.2.1
  constructor
  · rintro ⟨hwalk, hhead, hlast⟩
    obtain ⟨rest, rfl⟩ := List.head?_eq_some_iff.mp hhead
    cases rest with
    | nil => exact absurd hlast (by decide)
    | cons v rest =>
        obtain ⟨hv, hrest⟩ := Digraph.isWalk_cons_cons.mp hwalk
        rw [List.getLast?_cons_cons] at hlast
        have hfirst : v = (p.first + (0 : Nat) : Int) := by
          rcases mem_edges_iff.mp ((hG _ _).mp hv) with
            ⟨q, hq, j, -, hu, -⟩ | ⟨-, rfl⟩ | ⟨q, hq, hu, -⟩
          · have := (mem_ofBlocks hq).2.2.1
            rw [entryId] at hu
            omega
          · rw [hstart]
            simp
          · have := (mem_ofBlocks hq).2.2.1
            have := one_le_width q
            rw [entryId, Placed.last] at hu
            omega
        rw [hfirst] at hrest hlast
        obtain ⟨bs, hbs, hstop, heq⟩ :=
          exists_blocks_of_isWalk hg hG hp (one_le_width p) hrest hlast
        rw [hnumber] at hbs hstop
        refine ⟨0 :: bs, hbs, rfl, hstop, ?_⟩
        rw [hfirst, heq, List.drop_zero, List.flatMap_cons, hspan, List.append_assoc]
  · rintro ⟨bs, hbs, hhead, hstop, rfl⟩
    obtain ⟨bs, rfl⟩ := List.head?_eq_some_iff.mp hhead
    rw [← hnumber] at hbs hstop
    have hwalk := isWalk_of_blocks hg hG hp hbs hstop
    refine ⟨?_, rfl, by rw [← List.cons_append, List.getLast?_concat]⟩
    rw [List.flatMap_cons, hspan, List.append_assoc]
    refine List.IsChain.cons hwalk fun v hv => ?_
    rw [List.head?_append, Placed.head?_span, Option.some_or, Option.mem_some_iff] at hv
    rw [hG, mem_edges_iff]
    exact Or.inr (Or.inl ⟨rfl, by rw [hstart, hv]⟩)

end Walks

end Layout

/-- The procedure holds, besides its entry and its exit, a node for every step of the given blocks,
and one for each of them without steps; `span` tells where.  Its walks from the entry to the exit go
through the nodes of the blocks in the order of a walk through the blocks, from the first one to one
without successors. -/
structure Expands (g : FlowGraph) (numbers : List Nat) (make : Step → Node) (f : Procedure)
    (span : Nat → List Int) : Prop where
  entry : (f.node entryId).preds = []
  exit : (f.node exitId).succs = []
  ids : entryId :: exitId :: numbers.flatMap span = f.ids
  length : ∀ b ∈ numbers, ∀ block, g[b]? = some block →
    (span b).length = max 1 block.steps.length
  nodes : ∀ b ∈ numbers, ∀ block, g[b]? = some block →
    (span b).map (fun i => (f.node i).withoutEdges) = Placed.nodes ⟨b, block, 0⟩ make
  walk_iff : ∀ walk, (f.graph.IsWalk walk ∧ walk.head? = some entryId ∧
      walk.getLast? = some exitId) ↔
    ∃ bs, g.graph.IsWalk bs ∧ bs.head? = some 0 ∧ (∀ b ∈ bs.getLast?, g.graph.succs b = []) ∧
      walk = entryId :: (bs.flatMap span ++ [exitId])

section Expansion

variable {g : FlowGraph} {numbers : List Nat} {make : Step → Node}

/-- Where lists are put together from parts of the same lengths, the parts are the same. -/
theorem eq_of_flatMap_eq
    {α β : Type} {F G : α → List β} {xs : List α}
    (hlength : ∀ x ∈ xs, (F x).length = (G x).length)
    (h : xs.flatMap F = xs.flatMap G) :
    ∀ x ∈ xs, F x = G x := by
  induction xs with
  | nil => exact fun x hx => absurd hx List.not_mem_nil
  | cons x rest ih =>
      rw [List.flatMap_cons, List.flatMap_cons] at h
      obtain ⟨hhead, htail⟩ := List.append_inj h (hlength x List.mem_cons_self)
      intro y hy
      rcases List.mem_cons.mp hy with rfl | hy
      · exact hhead
      · exact ih (fun z hz => hlength z (List.mem_cons_of_mem x hz)) htail y hy

namespace Layout

theorem map_number_ofBlocks
    (hg : g.ClosedOn numbers) :
    (ofBlocks g numbers).map Placed.number = numbers := by
  rw [ofBlocks, map_number_place, List.map_filterMap]
  have hsome : ∀ b ∈ numbers, (g[b]?.map (b, ·)).map Prod.fst = some b := by
    intro b hb
    rw [Array.getElem?_eq_getElem (hg.lt b hb)]
    rfl
  rw [List.filterMap_congr hsome]
  exact List.filterMap_some

/-- Every placed block is found by its number. -/
theorem span_number
    (hg : g.ClosedOn numbers)
    (hnumbers : numbers.Nodup)
    {p : Placed}
    (hp : p ∈ ofBlocks g numbers) :
    (ofBlocks g numbers).span p.number = p.span := by
  obtain ⟨q, hq, hnumber, -, hspan⟩ := exists_span_eq hg (mem_ofBlocks hp).1
  have hnodup : ((ofBlocks g numbers).map Placed.number).Nodup := by
    rwa [map_number_ofBlocks hg]
  rw [hspan, List.inj_on_of_nodup_map hnodup hq hp hnumber]

theorem flatMap_span
    (hg : g.ClosedOn numbers)
    (hnumbers : numbers.Nodup) :
    numbers.flatMap (ofBlocks g numbers).span = (ofBlocks g numbers).flatMap Placed.span := by
  have hmap : numbers.flatMap (ofBlocks g numbers).span =
      ((ofBlocks g numbers).map Placed.number).flatMap (ofBlocks g numbers).span := by
    rw [map_number_ofBlocks hg]
  rw [hmap, List.flatMap_map]
  exact List.flatMap_congr fun p hp => span_number hg hnumbers hp

/-- The entry, the exit, and then the nodes of one block after the other. -/
theorem ids_eq_spans
    (hg : g.ClosedOn numbers)
    (hnumbers : numbers.Nodup) (name : String) (params : List Variable) (make : Step → Node) :
    entryId :: exitId :: numbers.flatMap (ofBlocks g numbers).span =
      ((ofBlocks g numbers).bare name params make).ids := by
  rw [ids_bare, flatMap_span hg hnumbers, ofBlocks, flatMap_span_place, positions,
    List.range_eq_range', ← List.range'_append]
  simp [List.range', entryId, exitId]

theorem map_span_bare
    (hg : g.ClosedOn numbers)
    (hnumbers : numbers.Nodup)
    {p : Placed}
    (hp : p ∈ ofBlocks g numbers) (name : String) (params : List Variable) :
    p.span.map ((ofBlocks g numbers).bare name params make).node = p.nodes make := by
  have hnodes := Procedure.map_node_ids ((ofBlocks g numbers).bare name params make)
  rw [← ids_eq_spans hg hnumbers, flatMap_span hg hnumbers] at hnodes
  have hflat := (List.cons.inj (List.cons.inj hnodes).2).2
  rw [List.map_flatMap] at hflat
  refine eq_of_flatMap_eq (fun q _ => ?_) hflat p hp
  rw [List.length_map, Placed.length_span, length_nodes]

/-- The procedure of placed blocks expands them. -/
theorem expands_procedure
    (hg : g.ClosedOn numbers)
    (hnumbers : numbers.Nodup)
    (hmake : ∀ s, (make s).succs = [] ∧ (make s).preds = [])
    (name : String) (params : List Variable) :
    Expands g numbers make ((ofBlocks g numbers).procedure name params make)
      (ofBlocks g numbers).span := by
  obtain ⟨-, hentry, hexit⟩ := linked_procedure hg hmake name params
  have hplaced : ∀ b ∈ numbers, ∀ block, g[b]? = some block →
      ∃ p ∈ ofBlocks g numbers, p.number = b ∧ p.block = block ∧
        (ofBlocks g numbers).span b = p.span := by
    intro b hb block hblock
    obtain ⟨p, hp, rfl, -, hspan⟩ := exists_span_eq hg hb
    exact ⟨p, hp, rfl, Option.some.inj ((mem_ofBlocks hp).2.1.symm.trans hblock), hspan⟩
  refine ⟨hentry, hexit, ?_, ?_, ?_, ?_⟩
  · rw [procedure, Procedure.addEdges_ids]
    exact ids_eq_spans hg hnumbers name params make
  · intro b hb block hblock
    obtain ⟨p, -, -, rfl, hspan⟩ := hplaced b hb block hblock
    rw [hspan, Placed.length_span, Placed.width]
  · intro b hb block hblock
    obtain ⟨p, hp, rfl, rfl, hspan⟩ := hplaced b hb block hblock
    have hnodes : Placed.nodes ⟨p.number, p.block, 0⟩ make = p.nodes make := rfl
    have hbare := edges_of_mem_bare hmake (ofBlocks g numbers) name params
    rw [hspan, hnodes, ← map_span_bare hg hnumbers hp name params]
    refine List.map_congr_left fun i _ => ?_
    rw [procedure, Procedure.addEdges_withoutEdges]
    exact Node.withoutEdges_eq_self (Procedure.edges_of_bare hbare i)
  · exact isWalk_iff_blocks hg fun u v => mem_succs_procedure_iff hg hmake name params

end Layout

/-- Loading a flow graph keeps its control flow: if the first block is live and live blocks lead to
live blocks only, the procedure has the nodes of the live blocks, and its walks from the entry to
the exit are the walks through the blocks. -/
theorem blockWalks_exact
    (g : FlowGraph) (live : Nat → Bool) (c : Scope) (ignored : Position → Bool)
    (handlers : List (Int × Int)) (name : String) (params : List Variable)
    (hfirst : 0 < g.size ∧ live 0 = true)
    (hlive : ∀ b < g.size, live b = true → ∀ s ∈ g.graph.succs b, s < g.size ∧ live s = true) :
    let numbers := (List.range g.size).filter live
    let make := Sources.stepNode c ignored handlers
    Expands g numbers make ((Layout.ofBlocks g numbers).procedure name params make)
      (Layout.ofBlocks g numbers).span := by
  intro numbers make
  have hm : MarkedGraph.Sound ⟨g, live⟩ := ⟨hfirst, hlive⟩
  exact Layout.expands_procedure hm.closedOn (List.nodup_range.filter _)
    (Sources.stepNode_edges c ignored handlers) name params

/-- A loop with an empty head that leads to its body twice, and a dead block that leads into it. -/
def loopBlocks : FlowGraph := #[
  { steps := [⟨10, .nothing⟩], succs := [1] },
  { succs := [2, 4, 2] },
  { steps := [⟨20, .nothing⟩, ⟨30, .nothing⟩], succs := [1] },
  { steps := [⟨40, .nothing⟩], succs := [2] },
  { steps := [⟨50, .nothing⟩] }]

/-- A scope without files and types. -/
def bareScope : Scope where
  files := []
  types := #[]
  modelled := []
  function := "f"
  start := 0
  stop := 60

/-- The loop is walked through once. -/
theorem blockWalks_exact_loopBlocks :
    let live := fun b => decide (b ≠ 3)
    let make := Sources.stepNode bareScope (fun _ => false) []
    let l := Layout.ofBlocks loopBlocks [0, 1, 2, 4]
    (0 < loopBlocks.size ∧ live 0 = true) ∧
    (∀ b < loopBlocks.size, live b = true → ∀ s ∈ loopBlocks.graph.succs b,
      s < loopBlocks.size ∧ live s = true) ∧
    Expands loopBlocks [0, 1, 2, 4] make (l.procedure "f" [] make) l.span ∧
    (l.procedure "f" [] make).graph.IsWalk [0, 2, 3, 4, 5, 3, 6, 1] := by
  intro live make l
  have hfirst : 0 < loopBlocks.size ∧ live 0 = true := by decide
  have hlive : ∀ b < loopBlocks.size, live b = true → ∀ s ∈ loopBlocks.graph.succs b,
      s < loopBlocks.size ∧ live s = true := by
    decide
  have hexpands :=
    blockWalks_exact loopBlocks live bareScope (fun _ => false) [] "f" [] hfirst hlive
  have hnumbers : (List.range loopBlocks.size).filter live = [0, 1, 2, 4] := by decide
  rw [hnumbers] at hexpands
  refine ⟨hfirst, hlive, hexpands, ((hexpands.walk_iff _).mpr ⟨[0, 1, 2, 1, 4], ?_, rfl, ?_, ?_⟩).1⟩
  · unfold Digraph.IsWalk
    decide
  · decide
  · decide

namespace Sources

/-- The procedure of a function expands the live blocks of its body. -/
theorem expands_procedure
    {build : FlowBuilder}
    (hbuild : build.IsSound)
    (src : Sources) (callee? : CalleeSearch) (modelled : List String) (ignored : Position → Bool)
    (s : Subject) :
    let m := build (Expr.neverReturns callee?) s.body s.stop
    Expands m.graph m.numbers
      (stepNode (src.scope callee? modelled s) ignored (handlersOf s.body))
      (src.procedure build callee? modelled ignored s).1 (Layout.ofGraph m).span :=
  Layout.expands_procedure (hbuild _ s.body s.stop).closedOn (List.nodup_range.filter _)
    (stepNode_edges (src.scope callee? modelled s) ignored (handlersOf s.body)) _ _

end Sources

end Expansion

end Source
end DefUse
