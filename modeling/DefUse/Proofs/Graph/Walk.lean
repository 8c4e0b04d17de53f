import DefUse.Graph.Digraph
import Mathlib.Data.List.Chain

/-!
# Walks in a graph

A walk is a list of nodes in which each node is followed by one of its successors.  A segment of a
walk starts at a node and arrives somewhere after one or more edges; what lies strictly between
its ends is its inside.

**Results.**
* `exists_walk_of_reaches` and `IsWalk.reaches`: reachability is the existence of a walk.
* `exists_clear_segment`: a segment has a final part that starts at the last node of its inside
  with a property, and has none further on.
-/

namespace DefUse
namespace Digraph

variable {α : Type}

/-- The successors of the listed nodes are listed. -/
def Closed (g : Digraph α) : Prop :=
  ∀ v ∈ g.nodes, ∀ w ∈ g.succs v, w ∈ g.nodes

/-- Every node of the list is followed by one of its successors. -/
def IsWalk (g : Digraph α) (walk : List α) : Prop :=
  walk.IsChain fun u v => v ∈ g.succs u

/-- The nodes strictly between the ends of a walk. -/
def inside (walk : List α) : List α := walk.tail.dropLast

/-- What every edge keeps holds of all nodes that can be reached. -/
theorem Reaches.invariant
    {g : Digraph α} {P : α → Prop} {u v : α}
    (hstep : ∀ u v, v ∈ g.succs u → P u → P v)
    (h : g.Reaches u v)
    (hu : P u) :
    P v := by
  induction h with
  | refl _ => exact hu
  | step hs _ ih => exact ih (hstep _ _ hs hu)

theorem Closed.reaches
    {g : Digraph α} {u v : α}
    (hg : g.Closed)
    (hu : u ∈ g.nodes)
    (h : g.Reaches u v) :
    v ∈ g.nodes :=
  h.invariant (fun u v hs hu => hg u hu v hs) hu

theorem IsWalk.infix
    {g : Digraph α} {walk seg : List α}
    (hw : g.IsWalk walk)
    (hseg : seg <:+: walk) :
    g.IsWalk seg :=
  List.IsChain.infix hw hseg

theorem isWalk_cons_cons
    {g : Digraph α} {u v : α} {rest : List α} :
    g.IsWalk (u :: v :: rest) ↔ v ∈ g.succs u ∧ g.IsWalk (v :: rest) :=
  List.isChain_cons_cons

theorem IsWalk.reaches_of_mem
    {g : Digraph α} {u v : α} {rest : List α}
    (hw : g.IsWalk (u :: rest))
    (hv : v ∈ u :: rest) :
    g.Reaches u v := by
  induction rest generalizing u with
  | nil =>
      rw [List.mem_singleton] at hv
      subst hv
      exact .refl v
  | cons x rest ih =>
      obtain ⟨hx, htail⟩ := isWalk_cons_cons.mp hw
      rcases List.mem_cons.mp hv with rfl | hv
      · exact .refl v
      · exact .step hx (ih htail hv)

theorem Closed.mem_nodes_of_isWalk
    {g : Digraph α} {u v : α} {rest : List α}
    (hg : g.Closed)
    (hu : u ∈ g.nodes)
    (hw : g.IsWalk (u :: rest))
    (hv : v ∈ u :: rest) :
    v ∈ g.nodes :=
  hg.reaches hu (hw.reaches_of_mem hv)

theorem IsWalk.leads_of_mem
    {g : Digraph α} {u v : α} {rest : List α}
    (hw : g.IsWalk (u :: rest))
    (hv : v ∈ rest) :
    g.Leads u v := by
  cases rest with
  | nil => exact absurd hv List.not_mem_nil
  | cons x rest =>
      obtain ⟨hx, htail⟩ := isWalk_cons_cons.mp hw
      exact ⟨x, hx, htail.reaches_of_mem hv⟩

/-- On a walk, an earlier node leads to a later one. -/
theorem IsWalk.leads
    {g : Digraph α} {u v : α} {front middle back : List α}
    (hw : g.IsWalk (front ++ u :: (middle ++ v :: back))) :
    g.Leads u v := by
  have hsuffix : g.IsWalk (u :: (middle ++ v :: back)) :=
    hw.infix (List.suffix_append _ _).isInfix
  exact hsuffix.leads_of_mem (by simp)

theorem Leads.trans
    {g : Digraph α} {u v w : α}
    (huv : g.Leads u v)
    (hvw : g.Leads v w) :
    g.Leads u w := by
  obtain ⟨x, hx, hreach⟩ := huv
  exact ⟨x, hx, hreach.trans hvw.reaches⟩

theorem exists_walk_of_reaches
    {g : Digraph α} {u v : α}
    (h : g.Reaches u v) :
    ∃ rest, g.IsWalk (u :: rest) ∧ (u :: rest).getLast? = some v := by
  induction h with
  | refl v => exact ⟨[], List.isChain_singleton v, rfl⟩
  | step hs _ ih =>
      obtain ⟨rest, hw, hlast⟩ := ih
      refine ⟨_ :: rest, isWalk_cons_cons.mpr ⟨hs, hw⟩, ?_⟩
      simpa using hlast

/-- A list with a member that has a property has a last one. -/
theorem exists_last_split
    {P : α → Prop} {xs : List α}
    (h : ∃ x ∈ xs, P x) :
    ∃ front x back, xs = front ++ x :: back ∧ P x ∧ ∀ y ∈ back, ¬ P y := by
  induction xs with
  | nil =>
      obtain ⟨x, hx, _⟩ := h
      exact absurd hx List.not_mem_nil
  | cons a rest ih =>
      by_cases hrest : ∃ x ∈ rest, P x
      · obtain ⟨front, x, back, rfl, hx, hback⟩ := ih hrest
        exact ⟨a :: front, x, back, rfl, hx, hback⟩
      · have hclear : ∀ y ∈ rest, ¬ P y := fun y hy hP => hrest ⟨y, hy, hP⟩
        obtain ⟨x, hx, hP⟩ := h
        rcases List.mem_cons.mp hx with rfl | hx
        · exact ⟨[], x, rest, rfl, hP, hclear⟩
        · exact absurd hP (hclear x hx)

@[simp] theorem inside_cons_concat
    (u v : α) (middle : List α) :
    inside (u :: (middle ++ [v])) = middle := by
  simp [inside]

theorem exists_eq_cons_concat
    {seg : List α}
    (hlong : 2 ≤ seg.length) :
    ∃ u v, seg = u :: (inside seg ++ [v]) := by
  match seg, hlong with
  | u :: x :: rest, _ =>
      refine ⟨u, (x :: rest).getLast (List.cons_ne_nil x rest), ?_⟩
      simp only [inside, List.tail_cons, List.dropLast_concat_getLast]

/-- Either the inside of a segment is clear, or the segment ends with a segment that starts at a
node of the inside with the property and whose own inside is clear.  An arrival of at most two
nodes is kept. -/
theorem exists_clear_segment
    {P : α → Prop} {seg arrival : List α}
    (hlong : 2 ≤ seg.length)
    (harrival : arrival <:+ seg)
    (hshort : arrival.length ≤ 2) :
    (∀ x ∈ inside seg, ¬ P x) ∨
    ∃ x rest,
      x ∈ inside seg ∧ P x ∧
      x :: rest <:+ seg ∧
      2 ≤ (x :: rest).length ∧
      arrival <:+ x :: rest ∧
      ∀ y ∈ inside (x :: rest), ¬ P y := by
  by_cases hclear : ∃ x ∈ inside seg, P x
  · right
    obtain ⟨front, x, back, hsplit, hx, hback⟩ := exists_last_split hclear
    obtain ⟨u, v, hseg⟩ := exists_eq_cons_concat hlong
    have hsuffix : x :: (back ++ [v]) <:+ seg := by
      rw [hseg, hsplit]
      exact ⟨u :: front, by simp⟩
    have htwo : 2 ≤ (x :: (back ++ [v])).length := by simp
    refine ⟨x, back ++ [v], ?_, hx, hsuffix, htwo, ?_, ?_⟩
    · rw [hsplit]
      simp
    · exact List.suffix_of_suffix_length_le harrival hsuffix (by omega)
    · simpa using hback
  · left
    intro x hx hP
    exact hclear ⟨x, hx, hP⟩

end Digraph
end DefUse
