import DefUse.Graph.Reach
import DefUse.Proofs.Graph.Walk
import Mathlib.Algebra.GroupWithZero.Nat
import Mathlib.Algebra.Order.BigOperators.Group.List
import Mathlib.Algebra.Order.Group.Nat
import Mathlib.Data.List.Nodup

/-!
# Exactness of the search

The search from a list of nodes stops after a number of steps that the number of edges bounds.
Every step either drops a node that was visited before, or visits a node and exchanges its place in
the list for its successors, so the length of the list together with the number of edges that
leave unvisited nodes falls.

**Results.**
* `mem_reach_iff` and `reach_nodup`: in a closed graph, `reach` lists exactly the nodes that can be
  reached, and it lists no node twice.
* `rests_of_closed`: in a closed graph, the search is over when its steps are used up.
* `mem_reachFrom_iff`: `reachFrom` lists exactly the nodes that one or more edges lead to.
-/

namespace DefUse
namespace Digraph

variable {α : Type} [DecidableEq α]

/-- The number of edges that leave the nodes that were not visited. -/
def pending (g : Digraph α) (seen : List α) : Nat :=
  (g.nodes.map fun v => if v ∈ seen then 0 else (g.succs v).length).sum

omit [DecidableEq α] in
theorem foldl_add_eq_sum
    (f : α → Nat) (xs : List α) (n : Nat) :
    xs.foldl (fun n x => n + f x) n = n + (xs.map f).sum := by
  induction xs generalizing n with
  | nil => simp
  | cons x rest ih =>
      rw [List.foldl_cons, ih, List.map_cons, List.sum_cons]
      omega

theorem pending_nil
    (g : Digraph α) :
    g.pending [] = g.edgeCount := by
  unfold pending edgeCount
  rw [foldl_add_eq_sum]
  simp

/-- A node that is visited takes the edges that leave it from the pending ones. -/
theorem pending_concat
    {g : Digraph α} {seen : List α} {v : α}
    (hv : v ∈ g.nodes)
    (hseen : v ∉ seen) :
    g.pending (seen ++ [v]) + (g.succs v).length ≤ g.pending seen := by
  unfold pending
  have hle : ∀ w, (if w ∈ seen ++ [v] then 0 else (g.succs w).length) ≤
      if w ∈ seen then 0 else (g.succs w).length := by
    intro w
    by_cases hw : w ∈ seen
    · simp [hw]
    · by_cases hwv : w = v
      · simp [hwv]
      · simp [hw, hwv]
  generalize g.nodes = nodes at hv
  induction nodes with
  | nil => exact absurd hv List.not_mem_nil
  | cons x rest ih =>
      rw [List.map_cons, List.sum_cons, List.map_cons, List.sum_cons]
      rcases List.mem_cons.mp hv with rfl | hv
      · have hrest := List.sum_le_sum (l := rest) fun w _ => hle w
        rw [if_pos (by simp), if_neg hseen]
        omega
      · have := ih hv
        have := hle x
        omega

/-- With enough steps, the search keeps what it has seen, visits everything it was asked to visit,
and everything it visits on the way has its successors visited. -/
theorem explore_closed
    {g : Digraph α}
    (hg : g.Closed) :
    ∀ (steps : Nat) (todo seen : List α),
      (∀ v ∈ todo, v ∈ g.nodes) →
      todo.length + g.pending seen ≤ steps →
      (∀ v ∈ seen, v ∈ explore g.succs steps todo seen) ∧
      (∀ v ∈ todo, v ∈ explore g.succs steps todo seen) ∧
      (∀ v ∈ explore g.succs steps todo seen, v ∉ seen →
        ∀ w ∈ g.succs v, w ∈ explore g.succs steps todo seen)
  | 0, todo, seen, _, hsteps => by
      have : todo = [] := List.eq_nil_of_length_eq_zero (by omega)
      subst this
      exact ⟨fun v hv => hv, fun v hv => absurd hv List.not_mem_nil,
        fun v hv hseen => absurd hv hseen⟩
  | _ + 1, [], seen, _, _ =>
      ⟨fun v hv => hv, fun v hv => absurd hv List.not_mem_nil,
        fun v hv hseen => absurd hv hseen⟩
  | steps + 1, v :: todo, seen, htodo, hsteps => by
      rw [List.length_cons] at hsteps
      by_cases hv : v ∈ seen
      · obtain ⟨h₁, h₂, h₃⟩ := explore_closed hg steps todo seen
          (fun w hw => htodo w (List.mem_cons_of_mem v hw)) (by omega)
        simp only [explore, hv, if_true]
        refine ⟨h₁, ?_, h₃⟩
        intro w hw
        rcases List.mem_cons.mp hw with rfl | hw
        · exact h₁ w hv
        · exact h₂ w hw
      · have hnode : v ∈ g.nodes := htodo v List.mem_cons_self
        have hpending := pending_concat hnode hv
        obtain ⟨h₁, h₂, h₃⟩ := explore_closed hg steps (todo ++ g.succs v) (seen ++ [v])
          (by
            intro w hw
            rcases List.mem_append.mp hw with hw | hw
            · exact htodo w (List.mem_cons_of_mem v hw)
            · exact hg v hnode w hw)
          (by rw [List.length_append]; omega)
        simp only [explore, hv, if_false]
        refine ⟨fun w hw => h₁ w (List.mem_append_left _ hw), ?_, ?_⟩
        · intro w hw
          rcases List.mem_cons.mp hw with rfl | hw
          · exact h₁ w (by simp)
          · exact h₂ w (List.mem_append_left _ hw)
        · intro w hw hseen x hx
          by_cases hwv : w = v
          · subst hwv
            exact h₂ x (List.mem_append_right _ hx)
          · exact h₃ w hw (by simp [hseen, hwv]) x hx

theorem explore_sound
    (g : Digraph α) (start : List α) :
    ∀ (steps : Nat) (todo seen : List α),
      (∀ v ∈ todo, ∃ s ∈ start, g.Reaches s v) →
      (∀ v ∈ seen, ∃ s ∈ start, g.Reaches s v) →
      ∀ v ∈ explore g.succs steps todo seen, ∃ s ∈ start, g.Reaches s v
  | 0, _, _, _, hseen => hseen
  | _ + 1, [], _, _, hseen => hseen
  | steps + 1, v :: todo, seen, htodo, hseen => by
      have htail : ∀ w ∈ todo, ∃ s ∈ start, g.Reaches s w :=
        fun w hw => htodo w (List.mem_cons_of_mem v hw)
      obtain ⟨s, hs, hsv⟩ := htodo v List.mem_cons_self
      by_cases hv : v ∈ seen
      · simp only [explore, hv, if_true]
        exact explore_sound g start steps todo seen htail hseen
      · simp only [explore, hv, if_false]
        apply explore_sound g start steps
        · intro w hw
          rcases List.mem_append.mp hw with hw | hw
          · exact htail w hw
          · exact ⟨s, hs, hsv.trans (.single hw)⟩
        · intro w hw
          rcases List.mem_append.mp hw with hw | hw
          · exact hseen w hw
          · rw [List.mem_singleton] at hw
            subst hw
            exact ⟨s, hs, hsv⟩

/-- The search lists exactly the nodes that can be reached. -/
theorem mem_reach_iff
    {g : Digraph α} {start : List α} {v : α}
    (hg : g.Closed)
    (hstart : ∀ s ∈ start, s ∈ g.nodes) :
    v ∈ g.reach start ↔ ∃ s ∈ start, g.Reaches s v := by
  constructor
  · exact explore_sound g start _ start []
      (fun s hs => ⟨s, hs, .refl s⟩) (fun s hs => absurd hs List.not_mem_nil) v
  · rintro ⟨s, hs, hr⟩
    obtain ⟨_, htodo, hclosed⟩ := explore_closed hg (start.length + g.edgeCount) start [] hstart
      (by rw [pending_nil])
    have hmem : s ∈ g.reach start := htodo s hs
    clear hs
    induction hr with
    | refl _ => exact hmem
    | step hw _ ih => exact ih (hclosed _ hmem List.not_mem_nil _ hw)

theorem explore_nodup
    (succs : α → List α) (steps : Nat) (todo seen : List α)
    (hseen : seen.Nodup) :
    (explore succs steps todo seen).Nodup := by
  induction steps generalizing todo seen with
  | zero => exact hseen
  | succ steps ih =>
      cases todo with
      | nil => exact hseen
      | cons v todo =>
          unfold explore
          split
          · exact ih todo seen hseen
          · rename_i hv
            refine ih _ _ ?_
            rw [← List.concat_eq_append]
            exact hseen.concat hv

/-- The search lists no node twice. -/
theorem reach_nodup
    (g : Digraph α) (start : List α) :
    (g.reach start).Nodup :=
  explore_nodup g.succs _ start [] List.nodup_nil

/-- Once the list of nodes to visit is empty, the search stands still. -/
theorem explore_add
    {g : Digraph α}
    (hg : g.Closed)
    (more : Nat) :
    ∀ (steps : Nat) (todo seen : List α),
      (∀ v ∈ todo, v ∈ g.nodes) →
      todo.length + g.pending seen ≤ steps →
      explore g.succs (steps + more) todo seen = explore g.succs steps todo seen
  | 0, todo, seen, _, hsteps => by
      obtain rfl : todo = [] := List.eq_nil_of_length_eq_zero (by omega)
      cases more with
      | zero => rfl
      | succ more => simp [explore]
  | steps + 1, [], seen, _, _ => by
      rw [Nat.add_right_comm]
      rfl
  | steps + 1, v :: todo, seen, htodo, hsteps => by
      rw [List.length_cons] at hsteps
      rw [Nat.add_right_comm, explore, explore]
      have hnode : v ∈ g.nodes := htodo v List.mem_cons_self
      have hrest : ∀ w ∈ todo, w ∈ g.nodes := fun w hw => htodo w (List.mem_cons_of_mem v hw)
      split
      · exact explore_add hg more steps todo seen hrest (by omega)
      · rename_i hv
        have hpending := pending_concat hnode hv
        apply explore_add hg more steps
        · intro w hw
          rcases List.mem_append.mp hw with hw | hw
          · exact hrest w hw
          · exact hg v hnode w hw
        · rw [List.length_append]
          omega

/-- The search from the listed nodes is over: with more steps it would list the same nodes. -/
def Rests (g : Digraph α) (start : List α) : Prop :=
  ∀ more, explore g.succs (start.length + g.edgeCount + more) start [] = g.reach start

theorem rests_of_closed
    {g : Digraph α} {start : List α}
    (hg : g.Closed)
    (hstart : ∀ s ∈ start, s ∈ g.nodes) :
    g.Rests start := by
  intro more
  refine explore_add hg more _ start [] hstart ?_
  rw [pending_nil]

theorem mem_reachFrom_iff
    {g : Digraph α} {u v : α}
    (hg : g.Closed)
    (hu : u ∈ g.nodes) :
    v ∈ g.reachFrom u ↔ g.Leads u v :=
  mem_reach_iff hg (hg u hu)

end Digraph
end DefUse
