import DefUse.Proofs.Association.Blocks

/-!
# The search for the blocks

The blocks are found by a search that starts at the entry.  A leader that waits opens a block, which
is followed along straight edges to its end; the successors of its last node that are not marked are
marked and wait in turn.  The inner loop does not look at the marks.

**Method.** In every state the leaders of the blocks found, of the open block and of those that wait
are different, and they are the marked leaders.  Different leaders have blocks without a common
node, so that every step that opens or continues a block adds a new node, of which there are
finitely many.

**Results.**
* `Sound.step`: every step keeps the invariant.
* `exists_haltsAt`: the search ends.
* `blockSearch_exact`: it finds the blocks of the procedure, which cut the reachable nodes.
-/

namespace DefUse

/-- The state of the search for the blocks. -/
structure BlockSearch where
  /-- The leaders that wait, in order. -/
  waiting : List Int := [entryId]
  /-- The nodes that are marked. -/
  marked : List Int := [entryId]
  /-- The nodes of the open block, if there is one. -/
  current : List Int := []
  /-- The blocks found. -/
  found : List (List Int) := []

/-- The node that continues a block behind a node. -/
def Procedure.next? (f : Procedure) (a : Int) : Option Int :=
  match (f.node a).succs with
  | [b] => if f.isLeader b then none else some b
  | _ => none

theorem Procedure.next?_eq_some_iff
    {f : Procedure} {a b : Int} :
    f.next? a = some b ↔ f.StraightEdge a b := by
  unfold next? StraightEdge
  split
  · rename_i c hc
    rw [hc]
    cases hleader : f.isLeader c <;> grind
  · rename_i hmany
    simp only [reduceCtorEq, false_iff, not_and]
    exact fun h => absurd h (hmany b)

namespace BlockSearch

/-- Marks a node that is not marked, and lets it wait. -/
def enqueue (s : BlockSearch) (b : Int) : BlockSearch :=
  if b ∈ s.marked then s
  else { s with waiting := s.waiting ++ [b], marked := s.marked ++ [b] }

/-- The state with the open block among the blocks found. -/
def close (s : BlockSearch) : BlockSearch :=
  { s with current := [], found := s.found ++ [s.current] }

/-- A step of the search: the open block is continued or closed, or the next block is opened. -/
def step (f : Procedure) (s : BlockSearch) : Option BlockSearch :=
  match s.current.getLast? with
  | some a =>
    match f.next? a with
    | some b => some { s with marked := s.marked ++ [b], current := s.current ++ [b] }
    | none => some ((f.node a).succs.foldl enqueue s.close)
  | none =>
    match s.waiting with
    | i :: rest => some { s with waiting := rest, current := [i] }
    | [] => none

/-- The leaders of the blocks found and of the open block, and those that wait. -/
def known (s : BlockSearch) : List Int :=
  s.found.filterMap List.head? ++ s.current.head?.toList ++ s.waiting

/-- The leaders known are different, and they are the marked ones; the blocks found are blocks, and
the open one is the beginning of one. -/
structure Sound (f : Procedure) (s : BlockSearch) : Prop where
  entry : entryId ∈ s.known
  nodup : s.known.Nodup
  marked_iff : ∀ i, f.isLeader i = true → (i ∈ s.marked ↔ i ∈ s.known)
  waiting : ∀ i ∈ s.waiting, f.isLeader i = true ∧ f.graph.Reaches entryId i
  current : s.current = [] ∨ f.IsStraight s.current
  found : ∀ block ∈ s.found, f.IsBlock block

/-- The successors of the last nodes of the blocks found are known. -/
def Followed (f : Procedure) (s : BlockSearch) : Prop :=
  ∀ block ∈ s.found, ∀ a ∈ block.getLast?, ∀ b ∈ (f.node a).succs, b ∈ s.known

variable {f : Procedure} {s t : BlockSearch} {a b i : Int}

section Steps

theorem sound_start :
    Sound f {} where
  entry := by simp [known]
  nodup := by simp [known]
  marked_iff i _ := by simp [known]
  waiting i hi := by
    obtain rfl := List.mem_singleton.mp hi
    exact ⟨by simp [Procedure.isLeader], .refl entryId⟩
  current := Or.inl rfl
  found block hblock := absurd hblock List.not_mem_nil

/-- What a step can do. -/
theorem step_cases
    (h : s.step f = some t) :
    (∃ front a b, s.current = front ++ [a] ∧ f.StraightEdge a b ∧
      t = { s with marked := s.marked ++ [b], current := s.current ++ [b] }) ∨
    (∃ front a, s.current = front ++ [a] ∧ (∀ b, ¬ f.StraightEdge a b) ∧
      t = (f.node a).succs.foldl enqueue s.close) ∨
    (∃ i rest, s.current = [] ∧ s.waiting = i :: rest ∧
      t = { s with waiting := rest, current := [i] }) := by
  unfold step at h
  split at h
  · rename_i a ha
    obtain ⟨front, hfront⟩ := List.getLast?_eq_some_iff.mp ha
    split at h
    · rename_i b hb
      exact Or.inl ⟨front, a, b, hfront, Procedure.next?_eq_some_iff.mp hb,
        (Option.some.inj h).symm⟩
    · rename_i hnone
      refine Or.inr (Or.inl ⟨front, a, hfront, fun b hedge => ?_, (Option.some.inj h).symm⟩)
      rw [Procedure.next?_eq_some_iff.mpr hedge] at hnone
      exact absurd hnone (by simp)
  · rename_i hopen
    split at h
    · rename_i i rest hwaiting
      exact Or.inr (Or.inr ⟨i, rest, List.getLast?_eq_none_iff.mp hopen, hwaiting,
        (Option.some.inj h).symm⟩)
    · exact absurd h (by simp)

/-- The search rests if no block is open and no leader waits. -/
theorem step_eq_none
    (h : s.step f = none) :
    s.current = [] ∧ s.waiting = [] := by
  unfold step at h
  split at h
  · split at h <;> exact absurd h (by simp)
  · rename_i hopen
    refine ⟨List.getLast?_eq_none_iff.mp hopen, ?_⟩
    split at h
    · exact absurd h (by simp)
    · assumption

theorem known_continue
    {front : List Int}
    (hcurrent : s.current = front ++ [a]) :
    known { s with marked := s.marked ++ [b], current := s.current ++ [b] } = s.known := by
  have hhead : (s.current ++ [b]).head? = s.current.head? := by
    rw [hcurrent]
    cases front <;> rfl
  simp only [known, hhead]

theorem known_open
    {rest : List Int}
    (hcurrent : s.current = [])
    (hwaiting : s.waiting = i :: rest) :
    known { s with waiting := rest, current := [i] } = s.known := by
  simp [known, hcurrent, hwaiting]

@[simp] theorem known_close
    (s : BlockSearch) :
    s.close.known = s.known := by
  cases hcurrent : s.current <;> simp [known, close, hcurrent]

theorem Sound.close
    (h : Sound f s)
    (hblock : f.IsBlock s.current) :
    Sound f s.close where
  entry := by
    rw [known_close]
    exact h.entry
  nodup := by
    rw [known_close]
    exact h.nodup
  marked_iff i hi := by
    rw [known_close]
    exact h.marked_iff i hi
  waiting := h.waiting
  current := Or.inl rfl
  found block hmem := by
    rcases List.mem_append.mp hmem with hmem | hmem
    · exact h.found block hmem
    · obtain rfl := List.mem_singleton.mp hmem
      exact hblock

/-- The state with more leaders that wait, all of which are marked and known. -/
structure Queued (f : Procedure) (s t : BlockSearch) : Prop where
  sound : Sound f t
  current : t.current = s.current
  found : t.found = s.found
  known : s.known ⊆ t.known

theorem Sound.enqueue
    (h : Sound f s)
    (hleader : f.isLeader b = true)
    (hreach : f.graph.Reaches entryId b) :
    Queued f s (s.enqueue b) ∧ b ∈ (s.enqueue b).known := by
  unfold BlockSearch.enqueue
  split
  · rename_i hmarked
    exact ⟨⟨h, rfl, rfl, List.Subset.refl _⟩, (h.marked_iff b hleader).mp hmarked⟩
  · rename_i hnew
    have hknown : known { s with waiting := s.waiting ++ [b], marked := s.marked ++ [b] } =
        s.known ++ [b] := by
      simp [known]
    have hfresh : b ∉ s.known := fun hb => hnew ((h.marked_iff b hleader).mpr hb)
    refine ⟨⟨⟨?_, ?_, ?_, ?_, h.current, h.found⟩, rfl, rfl, ?_⟩, ?_⟩
    · rw [hknown]
      exact List.mem_append_left _ h.entry
    · rw [hknown, ← List.concat_eq_append]
      exact h.nodup.concat hfresh
    · intro i hi
      rw [hknown, List.mem_append, List.mem_append, h.marked_iff i hi]
    · intro i hi
      rcases List.mem_append.mp hi with hi | hi
      · exact h.waiting i hi
      · obtain rfl := List.mem_singleton.mp hi
        exact ⟨hleader, hreach⟩
    · rw [hknown]
      exact List.subset_append_left _ _
    · rw [hknown]
      simp

theorem Sound.foldl_enqueue
    {bs : List Int}
    (h : Sound f s)
    (hbs : ∀ b ∈ bs, f.isLeader b = true ∧ f.graph.Reaches entryId b) :
    Queued f s (bs.foldl BlockSearch.enqueue s) ∧
      ∀ b ∈ bs, b ∈ (bs.foldl BlockSearch.enqueue s).known := by
  induction bs generalizing s with
  | nil => exact ⟨⟨h, rfl, rfl, List.Subset.refl _⟩, fun b hb => absurd hb List.not_mem_nil⟩
  | cons b bs ih =>
      obtain ⟨hleader, hreach⟩ := hbs b List.mem_cons_self
      obtain ⟨hfirst, hb⟩ := h.enqueue hleader hreach
      obtain ⟨hrest, hmem⟩ := ih hfirst.sound fun c hc => hbs c (List.mem_cons_of_mem b hc)
      refine ⟨⟨hrest.sound, hrest.current.trans hfirst.current, hrest.found.trans hfirst.found,
        List.Subset.trans hfirst.known hrest.known⟩, ?_⟩
      intro c hc
      rcases List.mem_cons.mp hc with rfl | hc
      · exact hrest.known hb
      · exact hmem c hc

/-- The open block is a block once no straight edge continues it. -/
theorem Sound.isBlock_current
    {front : List Int}
    (h : Sound f s)
    (hcurrent : s.current = front ++ [a])
    (hstop : ∀ b, ¬ f.StraightEdge a b) :
    f.IsBlock s.current := by
  refine ⟨h.current.resolve_left (by simp [hcurrent]), ?_⟩
  intro c hc
  rw [hcurrent, List.getLast?_concat, Option.mem_some_iff] at hc
  exact hc ▸ hstop

/-- What a block that is closed leads to are leaders: a straight edge would have continued it. -/
theorem Sound.leaders_after
    {front : List Int}
    (h : Sound f s)
    (hlinked : f.Linked)
    (hcurrent : s.current = front ++ [a])
    (hstop : ∀ b, ¬ f.StraightEdge a b) :
    ∀ b ∈ (f.node a).succs, f.isLeader b = true ∧ f.graph.Reaches entryId b := by
  intro b hb
  have hreach : f.graph.Reaches entryId a :=
    (h.isBlock_current hcurrent hstop).isStraight.reaches (by simp [hcurrent])
  refine ⟨?_, hreach.trans (.single (by rwa [Procedure.graph_succs]))⟩
  by_contra hleader
  rw [Bool.not_eq_true] at hleader
  exact hstop b (hlinked.straightEdge_of_mem hb hleader)

/-- Every step keeps the invariant. -/
theorem Sound.step
    (h : Sound f s)
    (hfollowed : Followed f s)
    (hlinked : f.Linked)
    (hstep : s.step f = some t) :
    Sound f t ∧ Followed f t := by
  rcases step_cases hstep with ⟨front, a, b, hcurrent, hedge, rfl⟩ |
    ⟨front, a, hcurrent, hstop, rfl⟩ | ⟨i, rest, hcurrent, hwaiting, rfl⟩
  -- the open block gets a node that leads no block: the leaders known stay the same
  · have hknown := @known_continue s a b front hcurrent
    refine ⟨⟨?_, ?_, ?_, h.waiting, Or.inr ?_, h.found⟩, ?_⟩
    · rw [hknown]
      exact h.entry
    · rw [hknown]
      exact h.nodup
    · intro i hi
      rw [hknown, ← h.marked_iff i hi, List.mem_append, List.mem_singleton, or_iff_left]
      rintro rfl
      exact absurd (hi.symm.trans hedge.2) (by simp)
    · obtain ⟨front', a', hsplit, hway⟩ := h.current.resolve_left (by simp [hcurrent])
      obtain ⟨rfl, hlast⟩ := List.append_inj' (hcurrent.symm.trans hsplit) rfl
      obtain rfl := (List.cons.inj hlast).1
      exact ⟨front ++ [a], b, by rw [hcurrent], hway.next hedge⟩
    · intro block hblock c hc d hd
      rw [hknown]
      exact hfollowed block hblock c hc d hd
  -- the open block is closed, and what follows it is queued
  · have hclosed := h.close (h.isBlock_current hcurrent hstop)
    obtain ⟨hqueued, hmem⟩ := hclosed.foldl_enqueue (h.leaders_after hlinked hcurrent hstop)
    refine ⟨hqueued.sound, ?_⟩
    intro block hblock c hc d hd
    rw [hqueued.found] at hblock
    rcases List.mem_append.mp hblock with hblock | hblock
    · have hd := hfollowed block hblock c hc d hd
      rw [← known_close] at hd
      exact hqueued.known hd
    · obtain rfl := List.mem_singleton.mp hblock
      rw [hcurrent, List.getLast?_concat, Option.mem_some_iff] at hc
      subst hc
      exact hmem d hd
  -- the first leader that waits opens a block
  · have hknown := known_open hcurrent hwaiting
    refine ⟨⟨?_, ?_, ?_, ?_, Or.inr ?_, h.found⟩, ?_⟩
    · rw [hknown]
      exact h.entry
    · rw [hknown]
      exact h.nodup
    · intro j hj
      rw [hknown]
      exact h.marked_iff j hj
    · exact fun j hj => h.waiting j (by rw [hwaiting]; exact List.mem_cons_of_mem i hj)
    · obtain ⟨hleader, hreach⟩ := h.waiting i (by rw [hwaiting]; exact List.mem_cons_self)
      exact ⟨[], i, rfl, .leader hleader hreach⟩
    · intro block hblock c hc d hd
      rw [hknown]
      exact hfollowed block hblock c hc d hd

end Steps

section Ends

/-- The nodes of the blocks found and of the open one. -/
def placed (s : BlockSearch) : List Int := s.found.flatten ++ s.current

/-- Twice the number of nodes that are in no block, and one if a block is open. -/
def room (f : Procedure) (s : BlockSearch) : Nat :=
  2 * (f.nodes.size - s.placed.length) + if s.current = [] then 0 else 1

/-- The nodes of the blocks found and of the open one are different. -/
theorem Sound.length_placed_le
    (h : Sound f s)
    (hlinked : f.Linked) :
    s.placed.length ≤ f.nodes.size := by
  have hways : ∀ way ∈ s.found ++ [s.current], way = [] ∨ f.IsStraight way := by
    intro way hway
    rcases List.mem_append.mp hway with hway | hway
    · exact Or.inr (h.found way hway).isStraight
    · obtain rfl := List.mem_singleton.mp hway
      exact h.current
  have hflatten : (s.found ++ [s.current]).flatten = s.placed := by
    simp [placed]
  have hheads : ((s.found ++ [s.current]).filterMap List.head?).Nodup := by
    have hcurrent : [s.current].filterMap List.head? = s.current.head?.toList := by
      cases s.current <;> rfl
    rw [List.filterMap_append, hcurrent]
    exact (List.nodup_append.mp h.nodup).1
  rw [← hflatten]
  refine hlinked.length_le_of_reaches
    (Procedure.nodup_flatten_of_heads hways hheads hlinked) fun x hx => ?_
  obtain ⟨way, hway, hx⟩ := List.mem_flatten.mp hx
  exact ((hways way hway).resolve_left (List.ne_nil_of_mem hx)).reaches hx

/-- Every step closes a block or puts a new node into one. -/
theorem room_lt
    (h : Sound f s)
    (hfollowed : Followed f s)
    (hlinked : f.Linked)
    (hstep : s.step f = some t) :
    room f t < room f s := by
  have hfits := (h.step hfollowed hlinked hstep).1.length_placed_le hlinked
  unfold room
  rcases step_cases hstep with ⟨front, a, b, hcurrent, hedge, rfl⟩ |
    ⟨front, a, hcurrent, hstop, rfl⟩ | ⟨i, rest, hcurrent, hwaiting, rfl⟩
  · have hlength :
        (placed { s with marked := s.marked ++ [b], current := s.current ++ [b] }).length =
          s.placed.length + 1 := by
      simp [placed, Nat.add_assoc]
    rw [hlength] at hfits ⊢
    simp [hcurrent]
    omega
  · have hclosed := h.close (h.isBlock_current hcurrent hstop)
    obtain ⟨hqueued, -⟩ := hclosed.foldl_enqueue (h.leaders_after hlinked hcurrent hstop)
    have hplaced : placed ((f.node a).succs.foldl enqueue s.close) = s.placed := by
      rw [placed, hqueued.current, hqueued.found]
      simp [placed, close]
    have hcurrent' : s.close.current = [] := rfl
    rw [hplaced, hqueued.current, hcurrent', if_pos rfl, hcurrent, if_neg (by simp)]
    exact Nat.lt_succ_self _
  · have hlength : (placed { s with waiting := rest, current := [i] }).length =
        s.placed.length + 1 := by
      simp [placed, hcurrent]
    rw [hlength] at hfits ⊢
    simp [hcurrent]
    omega

/-- The search ends, in a state that the invariant holds of. -/
theorem exists_haltsAt
    (hlinked : f.Linked) :
    ∃ s, HaltsAt (step f) {} s ∧ Sound f s ∧ Followed f s := by
  have hkeeps : ∀ s t : BlockSearch, (Sound f s ∧ Followed f s) → s.step f = some t →
      Sound f t ∧ Followed f t :=
    fun s t hs hstep => hs.1.step hs.2 hlinked hstep
  have hstart : Sound f {} ∧ Followed f {} :=
    ⟨sound_start, fun block hblock => absurd hblock List.not_mem_nil⟩
  refine ⟨runSteps (step f) (room f {} + 1) {}, ⟨?_, _, rfl⟩, ?_⟩
  · exact runSteps_done hkeeps (fun s t hs hstep => room_lt hs.1 hs.2 hlinked hstep) _ {} hstart
      (Nat.lt_succ_self _)
  · exact runSteps_invariant hkeeps _ {} hstart

/-- At rest, the blocks found hold every node that the entry reaches. -/
theorem Sound.exists_found
    (h : Sound f s)
    (hfollowed : Followed f s)
    (hrest : s.step f = none)
    {x : Int}
    (hx : f.graph.Reaches entryId x) :
    ∃ block ∈ s.found, x ∈ block := by
  obtain ⟨hcurrent, hwaiting⟩ := step_eq_none hrest
  have hleads : ∀ i ∈ s.known, ∃ block ∈ s.found, i ∈ block := by
    intro i hi
    simp only [known, hcurrent, hwaiting, List.append_nil, List.head?_nil, Option.toList_none,
      List.mem_filterMap] at hi
    obtain ⟨block, hblock, hhead⟩ := hi
    exact ⟨block, hblock, List.mem_of_mem_head? hhead⟩
  refine hx.invariant (P := fun x => ∃ block ∈ s.found, x ∈ block) ?_ (hleads entryId h.entry)
  rintro u v hv ⟨block, hblock, hu⟩
  rw [Procedure.graph_succs] at hv
  obtain ⟨front, back, rfl⟩ := List.append_of_mem hu
  cases back with
  | nil =>
      exact hleads v (hfollowed _ hblock u (by simp) v hv)
  | cons w back =>
      have hchain := (h.found _ hblock).isStraight.isChain
      have hedge : f.StraightEdge u w :=
        (List.isChain_cons_cons.mp (List.isChain_append.mp hchain).2.1).1
      rw [hedge.1, List.mem_singleton] at hv
      subst hv
      exact ⟨_, hblock, by simp⟩

theorem Sound.isBlockCut
    (h : Sound f s)
    (hfollowed : Followed f s)
    (hrest : s.step f = none)
    (hlinked : f.Linked) :
    f.IsBlockCut s.found ∧ s.found.Perm f.blocks := by
  have hall : ∀ x, f.graph.Reaches entryId x → ∃ block ∈ s.found, x ∈ block :=
    fun x hx => h.exists_found hfollowed hrest hx
  have hheads : (s.found.filterMap List.head?).Nodup :=
    (List.nodup_append.mp (List.nodup_append.mp h.nodup).1).1
  have hcut := Procedure.isBlockCut_of_isBlock h.found hheads hall hlinked
  refine ⟨hcut, (List.perm_ext_iff_of_nodup hcut.nodup_blocks
    (Procedure.isBlockCut_blocks hlinked).nodup_blocks).mpr fun block => ?_⟩
  rw [Procedure.mem_iff_isBlock h.found hall hlinked, Procedure.mem_blocks_iff hlinked]

end Ends

end BlockSearch

namespace Program

/-- In a program that was built step by step, the neighbours of nodes are nodes, and the search for
the blocks of a procedure ends.  Up to the order it finds the blocks of the procedure, which hold
every node that the entry reaches once and no other node, follow edges without alternative at either
end, and are as long as they can be. -/
theorem blockSearch_exact
    (prog : Program) (p : Int)
    (hbuilt : prog.Built)
    (hp : p ∈ prog.procIds) :
    (∀ i x, x ∈ ((prog.proc p).node i).succs ∨ x ∈ ((prog.proc p).node i).preds →
      x ∈ (prog.proc p).ids) ∧
    (prog.proc p).IsBlockCut (prog.proc p).blocks ∧
    ∃ s, HaltsAt (BlockSearch.step (prog.proc p)) {} s ∧
      (prog.proc p).IsBlockCut s.found ∧ s.found.Perm (prog.proc p).blocks := by
  have hlinked : (prog.proc p).Linked :=
    keptByEdits_linked.forall_procs hbuilt _ (proc_mem hp)
  obtain ⟨s, hhalts, hsound, hfollowed⟩ := BlockSearch.exists_haltsAt hlinked
  exact ⟨fun _ _ hx => hlinked.edge_mem hx, Procedure.isBlockCut_blocks hlinked, s, hhalts,
    hsound.isBlockCut hfollowed hhalts.rest hlinked⟩

/-- The steps that build a loop with two nodes inside, and two nodes that nothing leads to and that
lead to each other. -/
def islandSteps : List BuildStep :=
  [.procedure "f" [], .node 0 "i = 0", .node 0 "for i < n", .node 0 "g(i)", .node 0 "i++",
    .node 0 "h()", .node 0 "h()",
    .edge 0 0 2, .edge 0 2 3, .edge 0 3 4, .edge 0 4 5, .edge 0 5 3, .edge 0 3 1,
    .edge 0 6 7, .edge 0 7 6, .finalize]

/-- A loop, and a circle in which no node leads a block. -/
def island : Program := (islandSteps.foldlM build {}).getD {}

theorem blockSearch_exact_island :
    island.Built ∧ 0 ∈ island.procIds ∧
      ∃ s, HaltsAt (BlockSearch.step (island.proc 0)) {} s ∧ (island.proc 0).IsBlockCut s.found ∧
        s.found.Perm [[0, 2], [3], [4, 5], [1]] := by
  have hbuilt : island.Built := ⟨islandSteps, by decide +kernel⟩
  have hp : 0 ∈ island.procIds := by decide +kernel
  have hblocks : (island.proc 0).blocks = [[0, 2], [3], [4, 5], [1]] := by decide +kernel
  obtain ⟨-, -, s, hhalts, hcut, hperm⟩ := blockSearch_exact island 0 hbuilt hp
  exact ⟨hbuilt, hp, s, hhalts, hcut, hblocks ▸ hperm⟩

end Program
end DefUse
