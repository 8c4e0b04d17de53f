import DefUse.Graph.SinkOrder
import DefUse.Proofs.Graph.Walk
import Mathlib.Data.Finset.Max
import Mathlib.Data.List.Basic

/-!
# Orders with the sinks first

**Method.** The nodes placed so far always stand after their successors: a node is placed only when
all its successors are.

A node of the smallest rank that is left leads to placed nodes only, so some node can be placed as
long as every edge leads to a smaller rank.  If there is no cycle, the number of nodes that a node
leads to is such a rank.

**Results.**
* `sinkOrder?_spec`: an order that is found lists every node once, after its successors.
* `SinksFirst.idxOf_lt`: edges lead to smaller positions of the order.
* `exists_sinkOrder?_eq`: an order is found if edges lead to smaller ranks, and only then.
* `TopologicalSort.IsExact`: what the numbering of paths takes from its sort;
  `isExact_topologicalOrder?`: the sort that places sinks has it.
-/

namespace DefUse
namespace Digraph

variable {α : Type}

/-- Every node of the list stands after its successors. -/
def SinksFirst (succs : α → List α) (order : List α) : Prop :=
  ∀ front v back, order = front ++ v :: back → ∀ s ∈ succs v, s ∈ front

variable {succs : α → List α} {order : List α} {v s : α}

theorem sinksFirst_nil : SinksFirst succs [] := by
  intro front v back h
  simp at h

theorem SinksFirst.concat
    (h : SinksFirst succs order)
    (hv : ∀ s ∈ succs v, s ∈ order) :
    SinksFirst succs (order ++ [v]) := by
  intro front u back hsplit s hs
  rcases List.eq_nil_or_concat back with rfl | ⟨back, last, rfl⟩
  · obtain ⟨rfl, hlast⟩ := List.append_inj' hsplit rfl
    obtain rfl : v = u := by simpa using hlast
    exact hv s hs
  · have hsplit' : order ++ [v] = (front ++ u :: back) ++ [last] := by simpa using hsplit
    obtain ⟨hfront, -⟩ := List.append_inj' hsplit' rfl
    exact h front u back hfront s hs

variable [DecidableEq α]

theorem placeSinks_spec :
    ∀ (steps : Nat) (left placed : List α),
      SinksFirst succs placed.reverse →
      placeSinks succs steps left placed = some order →
      SinksFirst succs order ∧ order.Perm (placed ++ left)
  | _, [], placed, hplaced, h => by
      unfold placeSinks at h
      obtain rfl := Option.some.inj h
      refine ⟨hplaced, ?_⟩
      rw [List.append_nil]
      exact List.reverse_perm placed
  | 0, _ :: _, _, _, h => by
      simp [placeSinks] at h
  | steps + 1, v :: left, placed, hplaced, h => by
      unfold placeSinks at h
      split at h
      · rename_i u hfind
        have hmem : u ∈ v :: left := List.mem_of_find?_eq_some hfind
        have hsuccs : ∀ s ∈ succs u, s ∈ placed.reverse := by
          intro s hs
          have hall := List.find?_some hfind
          rw [List.all_eq_true] at hall
          simpa using hall s hs
        have hnext : SinksFirst succs (u :: placed).reverse := by
          rw [List.reverse_cons]
          exact hplaced.concat hsuccs
        obtain ⟨hfirst, hperm⟩ := placeSinks_spec steps _ _ hnext h
        refine ⟨hfirst, hperm.trans ?_⟩
        exact List.perm_middle.symm.trans ((List.perm_cons_erase hmem).symm.append_left placed)
      · exact absurd h (by simp)

/-- The list has every node of the graph once, after its successors. -/
structure IsSinkOrder (g : Digraph α) (order : List α) : Prop where
  sinksFirst : SinksFirst g.succs order
  perm : order.Perm g.nodes

/-- An order that is found lists the nodes, each after its successors. -/
theorem sinkOrder?_spec
    {g : Digraph α}
    (h : g.sinkOrder? = some order) :
    g.IsSinkOrder order :=
  have ⟨hsinks, hperm⟩ := placeSinks_spec _ _ [] sinksFirst_nil h
  ⟨hsinks, hperm⟩

theorem SinksFirst.idxOf_lt
    (h : SinksFirst succs order)
    (hv : v ∈ order)
    (hs : s ∈ succs v) :
    order.idxOf s < order.idxOf v := by
  have hlt : order.idxOf v < order.length := List.idxOf_lt_length_iff.mpr hv
  have hsplit : order = order.take (order.idxOf v) ++ v :: order.drop (order.idxOf v + 1) := by
    have hdrop := List.drop_eq_getElem_cons hlt
    rw [List.getElem_idxOf] at hdrop
    rw [← hdrop, List.take_append_drop]
  have hfront := h _ _ _ hsplit s hs
  exact (List.mem_take_iff_idxOf_lt (List.mem_of_mem_take hfront)).mp hfront

/-- As long as edges lead to placed nodes or to smaller ranks, all nodes can be placed. -/
theorem exists_placeSinks_eq
    {rank : α → Nat}
    (steps : Nat) :
    ∀ {left placed : List α}, left.length ≤ steps →
      (∀ v ∈ left, ∀ s ∈ succs v, s ∈ placed ∨ s ∈ left ∧ rank s < rank v) →
      ∃ order, placeSinks succs steps left placed = some order := by
  induction steps with
  | zero =>
      intro left placed hlength _
      obtain rfl := List.eq_nil_of_length_eq_zero (Nat.le_zero.mp hlength)
      exact ⟨_, by rw [placeSinks]⟩
  | succ steps ih =>
      intro left placed hlength hrank
      cases left with
      | nil => exact ⟨_, by rw [placeSinks]⟩
      | cons v left =>
          rw [placeSinks]
          cases hfind : (v :: left).find? fun u => (succs u).all (· ∈ placed) with
          | none =>
              -- a node of the smallest rank leads to none of the nodes that are left
              obtain ⟨u, hu, hmin⟩ := (v :: left).toFinset.exists_min_image rank
                ⟨v, List.mem_toFinset.mpr List.mem_cons_self⟩
              rw [List.mem_toFinset] at hu
              have hsome := List.find?_eq_none.mp hfind u hu
              refine absurd (List.all_eq_true.mpr fun s hs => ?_) hsome
              rcases hrank u hu s hs with hplaced | ⟨hleft, hlt⟩
              · exact decide_eq_true hplaced
              · exact absurd hlt (Nat.not_lt.mpr (hmin s (List.mem_toFinset.mpr hleft)))
          | some u =>
              have hu : u ∈ v :: left := List.mem_of_find?_eq_some hfind
              refine ih ?_ ?_
              · rw [List.length_erase_of_mem hu]
                omega
              · intro x hx s hs
                rcases hrank x (List.mem_of_mem_erase hx) s hs with hplaced | ⟨hleft, hlt⟩
                · exact Or.inl (List.mem_cons_of_mem u hplaced)
                · by_cases hsu : s = u
                  · exact Or.inl (hsu ▸ List.mem_cons_self)
                  · exact Or.inr ⟨(List.mem_erase_of_ne hsu).mpr hleft, hlt⟩

/-- An order is found exactly if the nodes have ranks that get smaller along the edges. -/
theorem exists_sinkOrder?_eq
    {g : Digraph α}
    (hg : g.Closed) :
    (∃ order, g.sinkOrder? = some order) ↔
      ∃ rank : α → Nat, ∀ v ∈ g.nodes, ∀ s ∈ g.succs v, rank s < rank v := by
  constructor
  · rintro ⟨order, horder⟩
    obtain ⟨hsinks, hperm⟩ := sinkOrder?_spec horder
    exact ⟨order.idxOf, fun v hv s hs => hsinks.idxOf_lt (hperm.mem_iff.mpr hv) hs⟩
  · rintro ⟨rank, hrank⟩
    exact exists_placeSinks_eq _ (Nat.le_refl _) fun v hv s hs =>
      Or.inr ⟨hg v hv s hs, hrank v hv s hs⟩

section Cycles

variable {g : Digraph α} {rank : α → Nat}

omit [DecidableEq α] in
theorem Reaches.rank_le
    (h : g.Reaches v s)
    (hg : g.Closed)
    (hrank : ∀ v ∈ g.nodes, ∀ s ∈ g.succs v, rank s < rank v)
    (hv : v ∈ g.nodes) :
    rank s ≤ rank v := by
  induction h with
  | refl _ => exact Nat.le_refl _
  | step hedge _ ih =>
      exact (ih (hg _ hv _ hedge)).trans (Nat.le_of_lt (hrank _ hv _ hedge))

omit [DecidableEq α] in
/-- Where every edge leads to a smaller rank, no node leads to itself. -/
theorem not_leads_of_rank
    (hg : g.Closed)
    (hrank : ∀ v ∈ g.nodes, ∀ s ∈ g.succs v, rank s < rank v)
    (hv : v ∈ g.nodes) :
    ¬ g.Leads v v := by
  rintro ⟨s, hs, hreach⟩
  have hle := hreach.rank_le hg hrank (hg v hv s hs)
  exact absurd (hrank v hv s hs) (Nat.not_lt.mpr hle)

open Classical in
/-- Without a cycle a node leads to more nodes than its successors do. -/
theorem exists_rank_of_acyclic
    (hg : g.Closed)
    (hacyclic : ∀ v ∈ g.nodes, ¬ g.Leads v v) :
    ∃ rank : α → Nat, ∀ v ∈ g.nodes, ∀ s ∈ g.succs v, rank s < rank v := by
  refine ⟨fun v => (g.nodes.toFinset.filter (g.Leads v)).card, fun v hv s hs => ?_⟩
  have hmem : s ∈ g.nodes := hg v hv s hs
  have hedge : g.Leads v s := ⟨s, hs, .refl s⟩
  refine Finset.card_lt_card (Finset.ssubset_iff_of_subset ?_ |>.mpr ⟨s, ?_, ?_⟩)
  · intro w hw
    obtain ⟨hnode, hleads⟩ := Finset.mem_filter.mp hw
    exact Finset.mem_filter.mpr ⟨hnode, hedge.trans hleads⟩
  · exact Finset.mem_filter.mpr ⟨List.mem_toFinset.mpr hmem, hedge⟩
  · intro hself
    exact hacyclic s hmem (Finset.mem_filter.mp hself).2

/-- No order is found exactly if some node leads to itself. -/
theorem topologicalOrder?_eq_none_iff
    (hg : g.Closed) :
    g.topologicalOrder? = none ↔ ∃ v ∈ g.nodes, g.Leads v v := by
  rw [topologicalOrder?, Option.map_eq_none_iff, ← not_iff_not, ← ne_eq,
    Option.ne_none_iff_exists', exists_sinkOrder?_eq hg]
  push Not
  exact ⟨fun ⟨_, hrank⟩ _ hv => not_leads_of_rank hg hrank hv, exists_rank_of_acyclic hg⟩

end Cycles

end Digraph

/-- The sort is given graphs of distinct nodes whose edges stay inside.  It finds an order exactly
if no node leads to itself, and the order has every node once, before its successors. -/
structure TopologicalSort.IsExact (sort : TopologicalSort) : Prop where
  perm : ∀ g order, g.Closed → g.nodes.Nodup → sort g = some order → order.Perm g.nodes
  forward : ∀ g order, g.Closed → g.nodes.Nodup → sort g = some order →
    ∀ v ∈ g.nodes, ∀ s ∈ g.succs v, order.idxOf v < order.idxOf s
  eq_none_iff : ∀ g, g.Closed → g.nodes.Nodup →
    (sort g = none ↔ ∃ v ∈ g.nodes, g.Leads v v)

section Sorts

open DefUse.Digraph

variable {sort : TopologicalSort} {g : Digraph Int} {order : List Int}

/-- Reversing a list of distinct members turns their positions round. -/
theorem idxOf_reverse_add
    {α : Type} [DecidableEq α] {xs : List α} {x : α}
    (hxs : xs.Nodup)
    (hx : x ∈ xs) :
    xs.reverse.idxOf x + xs.idxOf x + 1 = xs.length := by
  obtain ⟨front, back, rfl⟩ := List.append_of_mem hx
  rw [List.nodup_middle, List.nodup_cons, List.mem_append, not_or] at hxs
  obtain ⟨⟨hfront, hback⟩, -⟩ := hxs
  rw [List.reverse_append, List.reverse_cons, List.append_assoc,
    List.idxOf_append_of_notMem (fun h => hback (List.mem_reverse.mp h)),
    List.idxOf_append_of_notMem hfront]
  simp
  omega

/-- A list of distinct nodes has the sinks first if edges lead to smaller positions. -/
theorem Digraph.SinksFirst.of_idxOf_lt
    {succs : Int → List Int}
    (hdistinct : order.Nodup)
    (h : ∀ v ∈ order, ∀ s ∈ succs v, s ∈ order ∧ order.idxOf s < order.idxOf v) :
    SinksFirst succs order := by
  rintro front v back rfl s hs
  rw [List.nodup_middle, List.nodup_cons] at hdistinct
  have hnot : v ∉ front := fun hv => hdistinct.1 (List.mem_append_left back hv)
  obtain ⟨hmem, hlt⟩ := h v (by simp) s hs
  rw [List.idxOf_append_of_notMem hnot, List.idxOf_cons_self, Nat.add_zero] at hlt
  simpa using (List.mem_take_iff_idxOf_lt hmem).mpr hlt

/-- Read from its end, an order that an exact sort finds has the sinks first. -/
theorem TopologicalSort.IsExact.isSinkOrder
    (hsort : sort.IsExact)
    (hg : g.Closed)
    (hnodes : g.nodes.Nodup)
    (h : sort g = some order) :
    g.IsSinkOrder order.reverse := by
  have hperm := hsort.perm g order hg hnodes h
  have hdistinct := hperm.nodup_iff.mpr hnodes
  refine ⟨.of_idxOf_lt (List.nodup_reverse.mpr hdistinct) ?_, (List.reverse_perm order).trans hperm⟩
  intro v hv s hs
  have hmem : v ∈ g.nodes := hperm.mem_iff.mp (List.mem_reverse.mp hv)
  have hs' : s ∈ order := hperm.mem_iff.mpr (hg v hmem s hs)
  have hlt := hsort.forward g order hg hnodes h v hmem s hs
  have hplace := idxOf_reverse_add hdistinct (List.mem_reverse.mp hv)
  have hplace' := idxOf_reverse_add hdistinct hs'
  exact ⟨List.mem_reverse.mpr hs', by omega⟩

/-- The sort that places sinks is exact. -/
theorem isExact_topologicalOrder? :
    TopologicalSort.IsExact topologicalOrder? := by
  have hspec : ∀ g order, Digraph.topologicalOrder? g = some order →
      ∃ placed : List Int, g.IsSinkOrder placed ∧ placed.reverse = order := by
    intro g order h
    obtain ⟨placed, hplaced, hreverse⟩ := Option.map_eq_some_iff.mp h
    exact ⟨placed, sinkOrder?_spec hplaced, hreverse⟩
  refine ⟨?_, ?_, fun g hg _ => topologicalOrder?_eq_none_iff hg⟩
  · intro g order _ _ h
    obtain ⟨placed, hplaced, rfl⟩ := hspec g order h
    exact (List.reverse_perm placed).trans hplaced.perm
  · intro g order hg hnodes h v hv s hs
    obtain ⟨placed, hplaced, rfl⟩ := hspec g order h
    have hdistinct := hplaced.perm.nodup_iff.mpr hnodes
    have hmem : ∀ u ∈ g.nodes, u ∈ placed := fun u hu => hplaced.perm.mem_iff.mpr hu
    have hlt := hplaced.sinksFirst.idxOf_lt (hmem v hv) hs
    have hv' := idxOf_reverse_add hdistinct (hmem v hv)
    have hs' := idxOf_reverse_add hdistinct (hmem s (hg v hv s hs))
    omega

end Sorts

end DefUse
