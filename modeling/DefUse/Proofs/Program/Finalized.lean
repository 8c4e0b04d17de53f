import DefUse.Program.Finalize
import DefUse.Proofs.Graph.Walk
import DefUse.Proofs.Iterate
import Mathlib.Data.List.TakeWhile

/-!
# What a check guarantees

A checked program has no dangling edge, every procedure has an entry and an exit, and the call
graph records every call of a procedure of the program at both of its ends.

**Results.**
* `graph_closed` and `calls_closed`: the control-flow graphs and the call graph are closed.
* `mem_callees_of_call` and `mem_callers_iff`: calls are recorded at both ends.
-/

namespace DefUse

namespace Procedure

@[simp] theorem graph_nodes
    (f : Procedure) :
    f.graph.nodes = f.ids := by
  simp [graph, Digraph.ofTable, ids]

@[simp] theorem graph_succs
    (f : Procedure) (v : Int) :
    f.graph.succs v = (f.node v).succs := by
  simp only [graph, Digraph.ofTable, node, item?]
  split
  · rw [Array.getElem?_map]
    cases f.nodes[v.toNat]? <;> rfl
  · rfl

/-- A procedure without a flaw has two nodes at least, and its successors are nodes. -/
theorem sound_of_flaw?_eq_none
    {f : Procedure}
    (h : f.flaw? = none) :
    2 ≤ f.nodes.size ∧ (f.node entryId).preds = [] ∧ (f.node exitId).succs = [] ∧
      ∀ i ∈ f.ids, ∀ s ∈ (f.node i).succs, s ∈ f.ids := by
  unfold flaw? at h
  split at h
  · simp at h
  split at h
  · simp at h
  split at h
  · simp at h
  rename_i hsize hentry hexit
  refine ⟨by omega, by simpa using hentry, by simpa using hexit, ?_⟩
  intro i hi s hs
  rw [Option.map_eq_none_iff, dangling?, List.findSome?_eq_none_iff] at h
  have hnone := h i hi
  rw [Option.map_eq_none_iff, List.find?_eq_none] at hnone
  have hnode := hnone s hs
  simp only [isNode, Bool.not_eq_true', Bool.not_eq_false, Bool.and_eq_true,
    decide_eq_true_eq] at hnode
  rw [ids, mem_positions]
  exact hnode

end Procedure

namespace Program

variable {prog : Program}

/-- The point is a node of a procedure of the program. -/
def HasPoint (prog : Program) (site : Point) : Prop :=
  site.proc ∈ prog.procIds ∧ site.node ∈ (prog.proc site.proc).ids

instance (prog : Program) (site : Point) : Decidable (prog.HasPoint site) :=
  inferInstanceAs (Decidable (_ ∧ _))

/-- A position of the program has a procedure. -/
theorem proc?_eq
    {p : Int}
    (hp : p ∈ prog.procIds) :
    prog.proc? p = .ok (prog.proc p) := by
  obtain ⟨f, hf, -⟩ := item?_eq_some_of_mem_positions hp
  rw [proc?, fetch_eq_ok_iff, proc, hf]
  rfl

theorem fetch_map_procs
    {α : Type} {p : Int} (g : Procedure → α)
    (hp : p ∈ prog.procIds) :
    fetch (prog.procs.map g) p = .ok (g (prog.proc p)) :=
  (fetch_map g prog.procs p).trans (congrArg (Except.map g) (proc?_eq hp))

theorem proc_mem
    {p : Int}
    (hp : p ∈ prog.procIds) :
    prog.proc p ∈ prog.procs := by
  obtain ⟨f, hf, hmem⟩ := item?_eq_some_of_mem_positions hp
  unfold proc
  rw [hf]
  exact hmem

theorem lookup?_lt
    {name : String} {g : Nat}
    (h : prog.lookup? name = some g) :
    (g : Int) ∈ prog.procIds := by
  obtain ⟨hlt, _⟩ := Array.findIdx?_eq_some_iff_getElem.mp h
  rw [procIds, mem_positions]
  omega

theorem finalized_of_sound
    (hflaw : prog.flaw? = none)
    (hlink : prog.link = prog.callGraph) :
    prog.Finalized := by
  rw [Finalized, finalize, hflaw, hlink]

namespace Finalized

theorem flaw?_eq_none
    (h : prog.Finalized)
    {f : Procedure}
    (hf : f ∈ prog.procs) :
    f.flaw? = none := by
  have hflaw : prog.flaw? = none := congrArg Prod.snd h
  unfold Program.flaw? at hflaw
  rw [List.findSome?_eq_none_iff] at hflaw
  exact hflaw f (Array.mem_toList_iff.mpr hf)

theorem callGraph_eq
    (h : prog.Finalized) :
    prog.callGraph = prog.link := by
  have hprog : { prog with callGraph := prog.link } = prog := congrArg Prod.fst h
  exact (congrArg callGraph hprog).symm

variable {p q : Int}

theorem two_le_size
    (h : prog.Finalized)
    (hp : p ∈ prog.procIds) :
    2 ≤ (prog.proc p).nodes.size :=
  (Procedure.sound_of_flaw?_eq_none (h.flaw?_eq_none (proc_mem hp))).1

theorem entry_mem
    (h : prog.Finalized)
    (hp : p ∈ prog.procIds) :
    entryId ∈ (prog.proc p).ids := by
  have := h.two_le_size hp
  rw [Procedure.ids, mem_positions, entryId]
  omega

theorem exit_mem
    (h : prog.Finalized)
    (hp : p ∈ prog.procIds) :
    exitId ∈ (prog.proc p).ids := by
  have := h.two_le_size hp
  rw [Procedure.ids, mem_positions, exitId]
  omega

theorem graph_closed
    (h : prog.Finalized)
    (hp : p ∈ prog.procIds) :
    (prog.proc p).graph.Closed := by
  obtain ⟨_, _, _, hsuccs⟩ :=
    Procedure.sound_of_flaw?_eq_none (h.flaw?_eq_none (proc_mem hp))
  intro i hi s hs
  rw [Procedure.graph_nodes] at hi ⊢
  rw [Procedure.graph_succs] at hs
  exact hsuccs i hi s hs

/-- The procedures called are listed in order. -/
theorem callees_eq
    (h : prog.Finalized)
    (hp : p ∈ prog.procIds) :
    prog.callees p = sortBy (fun (a b : Int) => a < b) (prog.callTargets (prog.proc p)) := by
  have hsound : (prog.procs.toList.takeWhile (·.flaw?.isNone)).length = prog.procs.size := by
    rw [List.takeWhile_eq_self_iff.mpr]
    · simp
    · intro f hf
      rw [h.flaw?_eq_none (Array.mem_toList_iff.mp hf)]
      rfl
  obtain ⟨hp₀, hpn⟩ := mem_positions.mp hp
  obtain ⟨k, rfl⟩ := Int.eq_ofNat_of_zero_le hp₀
  have hk : k < prog.procs.size := by omega
  unfold callees proc
  rw [h.callGraph_eq, item?_natCast, item?_natCast]
  simp [link, linkCallees, hsound, hk]

/-- The procedures called are those that the calls of all nodes name. -/
theorem mem_callees_iff
    (h : prog.Finalized)
    (hp : p ∈ prog.procIds) :
    q ∈ prog.callees p ↔
      ∃ n ∈ (prog.proc p).nodes, ∃ c ∈ n.calls, ∃ g, prog.lookup? c.callee = some g ∧ q = g := by
  generalize hproc : prog.proc p = f
  have hvalid : f.nodes.toList.takeWhile f.succsValid = f.nodes.toList := by
    have hmem : f ∈ prog.procs := hproc ▸ proc_mem hp
    obtain ⟨_, _, _, hsuccs⟩ := Procedure.sound_of_flaw?_eq_none (h.flaw?_eq_none hmem)
    rw [List.takeWhile_eq_self_iff]
    intro n hn
    obtain ⟨k, hk, hget⟩ := List.getElem_of_mem hn
    have hk' : k < f.nodes.size := by simpa using hk
    have hnode : f.node (k : Int) = n := by
      simp [Procedure.node, hk', ← hget]
    rw [Procedure.succsValid, List.all_eq_true]
    intro s hs
    have := hsuccs k (by rw [Procedure.ids, mem_positions]; omega) s (by rw [hnode]; exact hs)
    rw [Procedure.ids, mem_positions] at this
    simpa [Procedure.isNode] using this
  rw [h.callees_eq hp, hproc, mem_sortBy, callTargets, mem_distinct, hvalid]
  simp only [List.mem_map, List.mem_filterMap, List.mem_flatMap, Array.mem_toList_iff]
  constructor
  · rintro ⟨g, ⟨c, ⟨n, hn, hc⟩, hlook⟩, rfl⟩
    exact ⟨n, hn, c, hc, g, hlook, rfl⟩
  · rintro ⟨n, hn, c, hc, g, hlook, rfl⟩
    exact ⟨g, ⟨c, ⟨n, hn, hc⟩, hlook⟩, rfl⟩

theorem mem_callers_iff
    (h : prog.Finalized)
    (hp : p ∈ prog.procIds)
    (hq : q ∈ prog.procIds) :
    q ∈ prog.callers p ↔ p ∈ prog.callees q := by
  obtain ⟨hp₀, hpn⟩ := mem_positions.mp hp
  obtain ⟨k, rfl⟩ := Int.eq_ofNat_of_zero_le hp₀
  have hk : k < prog.procs.size := by omega
  unfold callers callees
  rw [h.callGraph_eq, item?_natCast]
  simp [link, hk, hq]

theorem callers_length_le
    (h : prog.Finalized)
    (p : Int) :
    (prog.callers p).length ≤ prog.procs.size := by
  have hids : prog.procIds.length = prog.procs.size := by simp [procIds, positions]
  unfold callers
  rw [h.callGraph_eq]
  by_cases hp : p ∈ prog.procIds
  · obtain ⟨hp₀, hpn⟩ := mem_positions.mp hp
    obtain ⟨k, rfl⟩ := Int.eq_ofNat_of_zero_le hp₀
    have hk : k < prog.procs.size := by omega
    rw [item?_natCast, ← hids]
    simp only [link, Array.getElem?_mapIdx, Array.getElem?_eq_getElem hk, Option.map_some,
      Option.getD_some]
    exact List.length_filter_le _ _
  · rw [procIds, mem_positions] at hp
    rw [item?_eq_none (by simpa [link] using hp)]
    exact Nat.zero_le _

/-- A call of a procedure of the program is recorded. -/
theorem mem_callees_of_call
    (h : prog.Finalized)
    {i : Int} {c : CallSite} {g : Nat}
    (hp : p ∈ prog.procIds)
    (hc : c ∈ ((prog.proc p).node i).calls)
    (hlook : prog.lookup? c.callee = some g) :
    (g : Int) ∈ prog.callees p := by
  rw [h.mem_callees_iff hp]
  by_cases hi : i ∈ (prog.proc p).ids
  · obtain ⟨n, hn, hmem⟩ := item?_eq_some_of_mem_positions hi
    refine ⟨n, hmem, c, ?_, g, hlook, rfl⟩
    rw [Procedure.node, hn] at hc
    exact hc
  · rw [Procedure.ids, mem_positions] at hi
    rw [Procedure.node, item?_eq_none hi] at hc
    exact absurd hc List.not_mem_nil

theorem calls_closed
    (h : prog.Finalized) :
    prog.calls.Closed := by
  intro p hp q hq
  obtain ⟨_, _, _, _, g, hlook, rfl⟩ := (h.mem_callees_iff hp).mp hq
  exact lookup?_lt hlook

end Finalized

end Program

end DefUse
