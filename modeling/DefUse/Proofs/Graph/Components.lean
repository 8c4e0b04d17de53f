import DefUse.Graph.Components
import DefUse.Proofs.Graph.Walk
import Mathlib.Data.Finset.Card
import Mathlib.Data.List.Nodup

/-!
# Correctness of the search for components

A node is active while the search has not returned from it.  Between two steps, every waiting node
leads down to an active node that was visited no later, and every active node leads up to all
waiting nodes that were visited no earlier.  When the search returns from a node `v` without having
found an edge to a waiting node below `v`, the waiting nodes from `v` on therefore are one
component.

**Results.**
* `visit_spec`: what one visit does to a consistent state of the search.
* `mem_flatten_components_iff`: the components hold exactly what the roots lead to.
* `mem_component_iff`: two nodes share a component exactly if each leads to the other.
-/

namespace DefUse
namespace Digraph

section Covers

variable {α : Type} {g : Digraph α} {roots : List α} {v w : α}

/-- Among what the roots lead to, the listed nodes are all that have successors. -/
def Covers (g : Digraph α) (roots : List α) : Prop :=
  ∀ r ∈ roots, ∀ v, g.Reaches r v → g.succs v ≠ [] → v ∈ g.nodes

/-- In a closed graph every search from nodes stays inside. -/
theorem Closed.covers
    (hg : g.Closed)
    (hroots : ∀ r ∈ roots, r ∈ g.nodes) :
    g.Covers roots :=
  fun r hr _ hv _ => hg.reaches (hroots r hr) hv

theorem Covers.mono
    {roots' : List α}
    (h : g.Covers roots)
    (hsub : ∀ r ∈ roots', r ∈ roots) :
    g.Covers roots' :=
  fun r hr => h r (hsub r hr)

theorem Covers.mem_nodes
    (h : g.Covers [v])
    (hw : w ∈ g.succs v) :
    v ∈ g.nodes :=
  h v List.mem_cons_self v (.refl v) (List.ne_nil_of_mem hw)

/-- What a node leads to is covered with it. -/
theorem Covers.succ
    (h : g.Covers [v])
    (hw : w ∈ g.succs v) :
    g.Covers [w] := by
  intro r hr x hx
  rw [List.mem_singleton.mp hr] at hx
  exact h v List.mem_cons_self x (.step hw hx)

end Covers

namespace ComponentSearch

variable {α : Type} [DecidableEq α]

/-- What holds between two steps of the search, with the active nodes listed. -/
structure Consistent (g : Digraph α) (active : List α) (s : ComponentSearch α) : Prop where
  visited_nodup : s.visited.Nodup
  waiting_nodup : s.waiting.Nodup
  finished_nodup : s.finished.flatten.Nodup
  visited_iff : ∀ x, x ∈ s.visited ↔ x ∈ s.waiting ∨ x ∈ s.finished.flatten
  apart : ∀ x ∈ s.waiting, x ∉ s.finished.flatten
  active_waiting : ∀ y ∈ active, y ∈ s.waiting
  /-- The successors of a node that is no longer active have been visited. -/
  done : ∀ x ∈ s.visited, x ∉ active → ∀ y ∈ g.succs x, y ∈ s.visited
  /-- Finished components lead to components that were finished before. -/
  closed : ∀ t, t <:+ s.finished → ∀ x ∈ t.flatten, ∀ y ∈ g.succs x, y ∈ t.flatten
  component : ∀ c ∈ s.finished, ∀ x ∈ c, ∀ y, y ∈ c ↔ g.Reaches x y ∧ g.Reaches y x
  below : ∀ x ∈ s.waiting, ∃ y ∈ active, s.number y ≤ s.number x ∧ g.Reaches x y
  above : ∀ y ∈ active, ∀ x ∈ s.waiting, s.number y ≤ s.number x → g.Reaches y x

section Numbers

variable {s t : ComponentSearch α} {v x : α}

/-- Numbers are below the number of nodes visited. -/
theorem number_lt
    (hx : x ∈ s.visited) :
    s.number x < s.visited.length := by
  unfold number
  rw [← List.length_reverse]
  exact List.idxOf_lt_length_of_mem (List.mem_reverse.mpr hx)

/-- Later visits leave the numbers of visited nodes as they are. -/
theorem number_of_suffix
    (h : s.visited <:+ t.visited)
    (hx : x ∈ s.visited) :
    t.number x = s.number x := by
  obtain ⟨front, hfront⟩ := h
  unfold number
  rw [← hfront, List.reverse_append, List.idxOf_append_of_mem (List.mem_reverse.mpr hx)]

/-- A node that is visited later has a larger number. -/
theorem length_le_number
    (h : s.visited <:+ t.visited)
    (hx : x ∉ s.visited) :
    s.visited.length ≤ t.number x := by
  obtain ⟨front, hfront⟩ := h
  unfold number
  rw [← hfront, List.reverse_append, List.idxOf_append_of_notMem (by simpa using hx)]
  simp

/-- A node is numbered by how many nodes were visited before it. -/
theorem number_entered
    (h : v :: s.visited <:+ t.visited)
    (hv : v ∉ s.visited) :
    t.number v = s.visited.length := by
  obtain ⟨front, hfront⟩ := h
  unfold number
  rw [← hfront, List.reverse_append, List.reverse_cons,
    List.idxOf_append_of_mem (by simp), List.idxOf_append_of_notMem (by simpa using hv)]
  simp

end Numbers

/-- The number of nodes that were not visited. -/
def room (g : Digraph α) (visited : List α) : Nat :=
  (g.nodes.toFinset \ visited.toFinset).card

theorem room_le_of_subset
    {g : Digraph α} {xs ys : List α}
    (h : xs ⊆ ys) :
    room g ys ≤ room g xs := by
  apply Finset.card_le_card
  intro x hx
  simp only [Finset.mem_sdiff, List.mem_toFinset] at hx ⊢
  exact ⟨hx.1, fun hxs => hx.2 (h hxs)⟩

/-- A node that is visited leaves less room. -/
theorem room_cons_lt
    {g : Digraph α} {xs : List α} {v : α}
    (hv : v ∈ g.nodes)
    (hxs : v ∉ xs) :
    room g (v :: xs) < room g xs := by
  apply Finset.card_lt_card
  rw [Finset.ssubset_iff_of_subset]
  · exact ⟨v, by simp [hv, hxs], by simp⟩
  · intro x hx
    simp only [Finset.mem_sdiff, List.mem_toFinset, List.mem_cons, not_or] at hx ⊢
    exact ⟨hx.1, hx.2.2⟩

/-- What a visit of `v` from the state `s` gives: the nodes that wait in addition have no edge to
a node that waited before below the number returned, and that number is reached from `v` unless
it is the one of `v` itself. -/
structure Visited (g : Digraph α) (active : List α) (s : ComponentSearch α) (v : α)
    (low : Nat) (t : ComponentSearch α) : Prop where
  consistent : Consistent g active t
  visited : s.visited <:+ t.visited
  waiting : s.waiting <:+ t.waiting
  finished : s.finished <:+ t.finished
  mem : v ∈ t.visited
  reached : ∀ x ∈ t.visited, x ∉ s.visited → g.Reaches v x
  low_le : low ≤ s.visited.length
  low_lt : low < s.visited.length → ∃ y ∈ s.waiting, s.number y = low ∧ g.Reaches v y
  edges : ∀ x ∈ t.waiting, x ∉ s.waiting → ∀ y ∈ g.succs x, y ∈ s.waiting → low ≤ s.number y

/-- What holds during a visit of `v`, when the successors in `before` have been looked at. -/
structure Scanned (g : Digraph α) (active : List α) (s : ComponentSearch α) (v : α)
    (before : List α) (low : Nat) (t : ComponentSearch α) : Prop where
  consistent : Consistent g (v :: active) t
  visited : v :: s.visited <:+ t.visited
  waiting : v :: s.waiting <:+ t.waiting
  finished : s.finished <:+ t.finished
  seen : ∀ w ∈ before, w ∈ t.visited
  reached : ∀ x ∈ t.visited, x ∉ s.visited → g.Reaches v x
  low_le : low ≤ s.visited.length
  low_lt : low < s.visited.length → ∃ y ∈ s.waiting, s.number y = low ∧ g.Reaches v y
  edges : ∀ x ∈ t.waiting, x ∉ v :: s.waiting → ∀ y ∈ g.succs x, y ∈ s.waiting → low ≤ s.number y
  own : ∀ y ∈ before, y ∈ s.waiting → low ≤ s.number y

/-- Looks at one successor during a visit. -/
def scan (succs : α → List α) (depth : Nat) (found : Nat × ComponentSearch α) (w : α) :
    Nat × ComponentSearch α :=
  if w ∉ found.2.visited then
    (min found.1 (visit succs depth w found.2).1, (visit succs depth w found.2).2)
  else if w ∈ found.2.waiting then (min found.1 (found.2.number w), found.2)
  else found

theorem visit_succ
    (succs : α → List α) (depth : Nat) (v : α) (s : ComponentSearch α) :
    visit succs (depth + 1) v s =
      let found := (succs v).foldl (scan succs depth) (s.visited.length, s.enter v)
      if found.1 = s.visited.length then (s.visited.length, found.2.close v) else found := by
  rfl

section Steps

variable {g : Digraph α} {active before : List α} {s t : ComponentSearch α} {v w : α} {low : Nat}

/-- A visited node that no longer waits is finished. -/
theorem Consistent.mem_finished
    (hs : Consistent g active s)
    (hw : w ∈ s.visited)
    (hwait : w ∉ s.waiting) :
    w ∈ s.finished.flatten := by
  rcases (hs.visited_iff w).mp hw with h | h
  · exact absurd h hwait
  · exact h

theorem Consistent.mem_visited
    (hs : Consistent g active s)
    (hw : w ∈ s.waiting) :
    w ∈ s.visited :=
  (hs.visited_iff w).mpr (Or.inl hw)

/-- Nodes that wait in addition had not been visited before. -/
theorem Consistent.not_mem_visited_of_waiting
    (hs : Consistent g active s)
    {active' : List α}
    (ht : Consistent g active' t)
    (hfinished : s.finished <:+ t.finished)
    (hwait : w ∈ t.waiting)
    (hnew : w ∉ s.waiting) :
    w ∉ s.visited := by
  intro hw
  have hfin := hs.mem_finished hw hnew
  apply ht.apart w hwait
  rw [List.mem_flatten] at hfin ⊢
  obtain ⟨c, hc, hwc⟩ := hfin
  exact ⟨c, hfinished.subset hc, hwc⟩

/-- What a finished node leads to is finished. -/
theorem Consistent.finished_reaches
    (hs : Consistent g active s)
    (hv : v ∈ s.finished.flatten)
    (hr : g.Reaches v w) :
    w ∈ s.finished.flatten := by
  induction hr with
  | refl _ => exact hv
  | step hedge _ ih => exact ih (hs.closed s.finished (List.suffix_refl _) _ hv _ hedge)

/-- A visit begins: the node is entered. -/
theorem Consistent.enter
    (hs : Consistent g active s)
    (hv : v ∉ s.visited)
    (hreach : ∀ y ∈ active, g.Reaches y v) :
    Consistent g (v :: active) (s.enter v) := by
  have hsuffix : s.visited <:+ (s.enter v).visited := List.suffix_cons v s.visited
  have hnew : v ∉ s.waiting := fun h => hv (hs.mem_visited h)
  have hnumber : (s.enter v).number v = s.visited.length :=
    number_entered (List.suffix_refl _) hv
  have hold : ∀ x ∈ s.waiting, (s.enter v).number x = s.number x :=
    fun x hx => number_of_suffix hsuffix (hs.mem_visited hx)
  refine ⟨List.nodup_cons.mpr ⟨hv, hs.visited_nodup⟩, List.nodup_cons.mpr ⟨hnew, hs.waiting_nodup⟩,
    hs.finished_nodup, ?_, ?_, ?_, ?_, hs.closed, hs.component, ?_, ?_⟩
  · intro x
    simp only [ComponentSearch.enter, List.mem_cons, hs.visited_iff x]
    tauto
  · intro x hx hfin
    rcases List.mem_cons.mp hx with rfl | hx
    · exact hv ((hs.visited_iff x).mpr (Or.inr hfin))
    · exact hs.apart x hx hfin
  · intro y hy
    rcases List.mem_cons.mp hy with rfl | hy
    · exact List.mem_cons_self
    · exact List.mem_cons_of_mem v (hs.active_waiting y hy)
  · intro x hx hactive y hy
    rw [List.mem_cons, not_or] at hactive
    rcases List.mem_cons.mp hx with hxv | hx
    · exact absurd hxv hactive.1
    · exact List.mem_cons_of_mem v (hs.done x hx hactive.2 y hy)
  · intro x hx
    rcases List.mem_cons.mp hx with rfl | hx
    · exact ⟨x, List.mem_cons_self, Nat.le_refl _, .refl x⟩
    · obtain ⟨y, hy, hle, hr⟩ := hs.below x hx
      refine ⟨y, List.mem_cons_of_mem v hy, ?_, hr⟩
      rw [hold x hx, hold y (hs.active_waiting y hy)]
      exact hle
  · intro y hy x hx hle
    rcases List.mem_cons.mp hx with rfl | hxold
    · rcases List.mem_cons.mp hy with rfl | hy
      · exact .refl y
      · exact hreach y hy
    · rw [hold x hxold] at hle
      rcases List.mem_cons.mp hy with rfl | hy
      · have := number_lt (hs.mem_visited hxold)
        omega
      · rw [hold y (hs.active_waiting y hy)] at hle
        exact hs.above y hy x hxold hle

/-- A node that is entered waits, and none of its successors is scanned. -/
theorem scanned_enter
    (hs : Consistent g active s)
    (hv : v ∉ s.visited)
    (hreach : ∀ y ∈ active, g.Reaches y v) :
    Scanned g active s v [] s.visited.length (s.enter v) := by
  refine ⟨hs.enter hv hreach, List.suffix_refl _, List.suffix_refl _, List.suffix_refl _, ?_, ?_,
    Nat.le_refl _, ?_, ?_, ?_⟩
  · intro w hw
    exact absurd hw List.not_mem_nil
  · intro x hx hxs
    rcases List.mem_cons.mp hx with rfl | hx
    · exact .refl x
    · exact absurd hx hxs
  · intro h
    exact absurd h (Nat.lt_irrefl _)
  · intro x hx hxs
    exact absurd hx hxs
  · intro y hy
    exact absurd hy List.not_mem_nil

/-- A waiting node with a number below the one of `v` waited before the visit of `v`. -/
theorem Scanned.mem_waiting
    (hs : Consistent g active s)
    (h : Scanned g active s v before low t)
    (hw : w ∈ t.waiting)
    (hlt : t.number w < s.visited.length) :
    w ∈ s.waiting := by
  by_contra hnot
  have hsub : s.visited <:+ t.visited := (List.suffix_cons v s.visited).trans h.visited
  have := length_le_number hsub
    (hs.not_mem_visited_of_waiting h.consistent h.finished hw hnot)
  omega

/-- A successor that was not visited before is visited. -/
theorem Scanned.descend
    (hs : Consistent g active s)
    (h : Scanned g active s v before low t)
    {found : Nat} {t' : ComponentSearch α}
    (hw : w ∈ g.succs v)
    (hnew : w ∉ t.visited)
    (hvisit : Visited g (v :: active) t w found t') :
    Scanned g active s v (before ++ [w]) (min low found) t' := by
  have hsub : s.visited <:+ t.visited := (List.suffix_cons v s.visited).trans h.visited
  have hwaits : ∀ y ∈ s.waiting, y ∈ t.waiting :=
    fun y hy => h.waiting.subset (List.mem_cons_of_mem v hy)
  have hnumber : ∀ y ∈ s.waiting, t.number y = s.number y :=
    fun y hy => number_of_suffix hsub (hs.mem_visited hy)
  refine ⟨hvisit.consistent, h.visited.trans hvisit.visited, h.waiting.trans hvisit.waiting,
    h.finished.trans hvisit.finished, ?_, ?_, ?_, ?_, ?_, ?_⟩
  · intro x hx
    rcases List.mem_append.mp hx with hx | hx
    · exact hvisit.visited.subset (h.seen x hx)
    · rw [List.mem_singleton] at hx
      subst hx
      exact hvisit.mem
  · intro x hx hxs
    by_cases hxt : x ∈ t.visited
    · exact h.reached x hxt hxs
    · exact .step hw (hvisit.reached x hx hxt)
  · exact Nat.le_trans (Nat.min_le_left _ _) h.low_le
  · intro hlt
    by_cases hfound : found < low
    · -- The number found lies below the one of `v`, so it belongs to a node that waited before.
      rw [Nat.min_eq_right (Nat.le_of_lt hfound)] at hlt ⊢
      obtain ⟨y, hy, hnum, hr⟩ := hvisit.low_lt (Nat.lt_of_lt_of_le hlt hsub.length_le)
      have hyw := Scanned.mem_waiting hs h hy (by omega)
      exact ⟨y, hyw, by rw [← hnumber y hyw, hnum], .step hw hr⟩
    · rw [Nat.min_eq_left (by omega)] at hlt ⊢
      exact h.low_lt hlt
  · intro x hx hxs y hxy hy
    by_cases hxt : x ∈ t.waiting
    · exact Nat.le_trans (Nat.min_le_left _ _) (h.edges x hxt hxs y hxy hy)
    · have := hvisit.edges x hx hxt y hxy (hwaits y hy)
      rw [hnumber y hy] at this
      exact Nat.le_trans (Nat.min_le_right _ _) this
  · intro y hy hys
    rcases List.mem_append.mp hy with hy | hy
    · exact Nat.le_trans (Nat.min_le_left _ _) (h.own y hy hys)
    · rw [List.mem_singleton] at hy
      subst hy
      exact absurd (h.consistent.mem_visited (hwaits y hys)) hnew

/-- A successor that waits may lower the number found. -/
theorem Scanned.meet
    (hs : Consistent g active s)
    (h : Scanned g active s v before low t)
    (hw : w ∈ g.succs v)
    (hwait : w ∈ t.waiting) :
    Scanned g active s v (before ++ [w]) (min low (t.number w)) t := by
  have hsub : s.visited <:+ t.visited := (List.suffix_cons v s.visited).trans h.visited
  refine ⟨h.consistent, h.visited, h.waiting, h.finished, ?_, h.reached, ?_, ?_, ?_, ?_⟩
  · intro x hx
    rcases List.mem_append.mp hx with hx | hx
    · exact h.seen x hx
    · rw [List.mem_singleton] at hx
      subst hx
      exact h.consistent.mem_visited hwait
  · exact Nat.le_trans (Nat.min_le_left _ _) h.low_le
  · intro hlt
    by_cases hfound : t.number w < low
    · rw [Nat.min_eq_right (Nat.le_of_lt hfound)] at hlt ⊢
      have hws := Scanned.mem_waiting hs h hwait hlt
      exact ⟨w, hws, (number_of_suffix hsub (hs.mem_visited hws)).symm, .single hw⟩
    · rw [Nat.min_eq_left (by omega)] at hlt ⊢
      exact h.low_lt hlt
  · intro x hx hxs y hxy hy
    exact Nat.le_trans (Nat.min_le_left _ _) (h.edges x hx hxs y hxy hy)
  · intro y hy hys
    rcases List.mem_append.mp hy with hy | hy
    · exact Nat.le_trans (Nat.min_le_left _ _) (h.own y hy hys)
    · rw [List.mem_singleton] at hy
      subst hy
      rw [number_of_suffix hsub (hs.mem_visited hys)]
      exact Nat.min_le_right _ _

/-- A successor that is finished changes nothing. -/
theorem Scanned.skip
    (h : Scanned g active s v before low t)
    (hvisited : w ∈ t.visited)
    (hwait : w ∉ t.waiting) :
    Scanned g active s v (before ++ [w]) low t := by
  refine ⟨h.consistent, h.visited, h.waiting, h.finished, ?_, h.reached, h.low_le, h.low_lt,
    h.edges, ?_⟩
  · intro x hx
    rcases List.mem_append.mp hx with hx | hx
    · exact h.seen x hx
    · rw [List.mem_singleton] at hx
      subst hx
      exact hvisited
  · intro y hy hys
    rcases List.mem_append.mp hy with hy | hy
    · exact h.own y hy hys
    · rw [List.mem_singleton] at hy
      subst hy
      exact absurd (h.waiting.subset (List.mem_cons_of_mem v hys)) hwait

/-- The nodes that wait from `v` on. -/
theorem Scanned.exists_front
    (h : Scanned g active s v before low t) :
    ∃ front, t.waiting = front ++ v :: s.waiting ∧ ∀ x ∈ front, x ∉ v :: s.waiting := by
  obtain ⟨front, hfront⟩ := h.waiting
  have hnodup := h.consistent.waiting_nodup
  rw [← hfront, List.nodup_append] at hnodup
  obtain ⟨_, _, hdisjoint⟩ := hnodup
  refine ⟨front, hfront.symm, ?_⟩
  intro x hx hmem
  exact hdisjoint x hx x hmem rfl

/-- A closed component takes from those that wait all up to its first node. -/
theorem close_waiting
    {front back : List α}
    (hsplit : t.waiting = front ++ v :: back)
    (hfront : v ∉ front) :
    (t.close v).waiting = back ∧ (t.close v).finished = (front ++ [v]) :: t.finished := by
  have hall : ∀ x ∈ front, decide (x ≠ v) = true := by
    intro x hx
    rw [decide_eq_true_eq]
    rintro rfl
    exact hfront hx
  unfold close
  rw [hsplit]
  constructor
  · rw [List.dropWhile_append_of_pos hall]
    simp
  · rw [List.takeWhile_append_of_pos hall]
    simp

section Close

-- The visit of `v` ends and its own number is the least one found; `front` waits above `v`.
variable {front : List α}
  (hs : Consistent g active s)
  (hv : v ∉ s.visited)
  (h : Scanned g active s v (g.succs v) s.visited.length t)
  (hsplit : t.waiting = front ++ v :: s.waiting)
  (hnew : ∀ x ∈ front, x ∉ v :: s.waiting)
include hs hv h hsplit hnew

theorem Scanned.mem_waiting_of_front
    {x : α}
    (hx : x ∈ front ++ [v]) :
    x ∈ t.waiting ∧ x ∉ s.visited := by
  rcases List.mem_append.mp hx with hx | hx
  · have hwait : x ∈ t.waiting := by
      rw [hsplit]
      exact List.mem_append_left _ hx
    refine ⟨hwait, hs.not_mem_visited_of_waiting h.consistent h.finished hwait ?_⟩
    exact fun hxs => hnew x hx (List.mem_cons_of_mem v hxs)
  · rw [List.mem_singleton] at hx
    subst hx
    exact ⟨by rw [hsplit]; simp, hv⟩

/-- No edge leads from the nodes that wait from `v` on to those that waited before. -/
theorem Scanned.succ_mem
    {x y : α}
    (hx : x ∈ front ++ [v])
    (hy : y ∈ g.succs x) :
    y ∈ front ++ [v] ∨ y ∈ t.finished.flatten := by
  obtain ⟨hwait, hxs⟩ := Scanned.mem_waiting_of_front hs hv h hsplit hnew hx
  have hvisited : y ∈ t.visited := by
    by_cases hxv : x = v
    · exact h.seen y (hxv ▸ hy)
    · refine h.consistent.done x (h.consistent.mem_visited hwait) ?_ y hy
      rw [List.mem_cons, not_or]
      exact ⟨hxv, fun hactive => hxs (hs.mem_visited (hs.active_waiting x hactive))⟩
  have hlow : y ∈ s.waiting → s.visited.length ≤ s.number y := by
    intro hys
    by_cases hxv : x = v
    · exact h.own y (hxv ▸ hy) hys
    · refine h.edges x hwait ?_ y hy hys
      rw [List.mem_cons, not_or]
      exact ⟨hxv, fun hxw => hxs (hs.mem_visited hxw)⟩
  rcases (h.consistent.visited_iff y).mp hvisited with hwait | hfin
  · left
    rw [hsplit] at hwait
    rcases List.mem_append.mp hwait with hy | hy
    · exact List.mem_append_left _ hy
    · rcases List.mem_cons.mp hy with rfl | hys
      · simp
      · have := hlow hys
        have := number_lt (hs.mem_visited hys)
        omega
  · exact Or.inr hfin

/-- What is reached from a component that is closed, or from one before, is in one of them. -/
theorem Scanned.reaches_mem
    {x y : α}
    (hx : x ∈ front ++ [v] ∨ x ∈ t.finished.flatten)
    (hr : g.Reaches x y) :
    y ∈ front ++ [v] ∨ y ∈ t.finished.flatten := by
  induction hr with
  | refl _ => exact hx
  | step hedge _ ih =>
      apply ih
      rcases hx with hx | hx
      · exact Scanned.succ_mem hs hv h hsplit hnew hx hedge
      · exact Or.inr (h.consistent.closed t.finished (List.suffix_refl _) _ hx _ hedge)

/-- The nodes that wait from `v` on lead to `v` and are led to by `v`. -/
theorem Scanned.mutual
    {x : α}
    (hx : x ∈ front ++ [v]) :
    g.Reaches v x ∧ g.Reaches x v := by
  obtain ⟨hwait, hxs⟩ := Scanned.mem_waiting_of_front hs hv h hsplit hnew hx
  refine ⟨h.reached x (h.consistent.mem_visited hwait) hxs, ?_⟩
  -- What `x` leads to lies in the new component or is finished, so its active node is `v`.
  obtain ⟨y, hy, _, hr⟩ := h.consistent.below x hwait
  rcases List.mem_cons.mp hy with rfl | hy
  · exact hr
  · have hys := hs.active_waiting y hy
    have hyt : y ∈ t.waiting := h.waiting.subset (List.mem_cons_of_mem v hys)
    rcases Scanned.reaches_mem hs hv h hsplit hnew (Or.inl hx) hr with hmem | hfin
    · have := (Scanned.mem_waiting_of_front hs hv h hsplit hnew hmem).2
      exact absurd (hs.mem_visited hys) this
    · exact absurd hfin (h.consistent.apart y hyt)

/-- A node belongs to the component that is closed exactly if each reaches the other. -/
theorem Scanned.mem_component_iff
    {x y : α}
    (hx : x ∈ front ++ [v]) :
    y ∈ front ++ [v] ↔ g.Reaches x y ∧ g.Reaches y x := by
  obtain ⟨hvx, hxv⟩ := Scanned.mutual hs hv h hsplit hnew hx
  constructor
  · intro hy
    obtain ⟨hvy, hyv⟩ := Scanned.mutual hs hv h hsplit hnew hy
    exact ⟨hxv.trans hvy, hyv.trans hvx⟩
  · rintro ⟨hxy, hyx⟩
    rcases Scanned.reaches_mem hs hv h hsplit hnew (Or.inl hx) hxy with hy | hy
    · exact hy
    · -- Finished nodes lead to finished nodes only, and `v` still waits.
      have hfin : v ∈ t.finished.flatten := h.consistent.finished_reaches hy (hyx.trans hxv)
      exact absurd hfin (h.consistent.apart v (by rw [hsplit]; simp))

/-- Closing a component keeps the search consistent. -/
theorem Scanned.consistent_close :
    Consistent g active (t.close v) := by
  have hfront : v ∉ front := fun hmem => hnew v hmem List.mem_cons_self
  obtain ⟨hwaiting, hfinished⟩ := close_waiting hsplit hfront
  have hvisited : (t.close v).visited = t.visited := rfl
  have hsub : s.visited <:+ t.visited := (List.suffix_cons v s.visited).trans h.visited
  have hold : ∀ x ∈ s.waiting, (t.close v).number x = s.number x :=
    fun x hx => number_of_suffix hsub (hs.mem_visited hx)
  have hflat : ∀ x, x ∈ (t.close v).finished.flatten ↔
      x ∈ front ++ [v] ∨ x ∈ t.finished.flatten := by
    intro x
    rw [hfinished, List.flatten_cons, List.mem_append]
  have hapart : ∀ x ∈ front ++ [v], x ∉ t.finished.flatten :=
    fun x hx => h.consistent.apart x (Scanned.mem_waiting_of_front hs hv h hsplit hnew hx).1
  refine ⟨h.consistent.visited_nodup, ?_, ?_, ?_, ?_, ?_, ?_, ?_, ?_, ?_, ?_⟩
  · rw [hwaiting]
    exact hs.waiting_nodup
  · have hnodup := h.consistent.waiting_nodup
    rw [hsplit, ← List.singleton_append, ← List.append_assoc] at hnodup
    rw [hfinished, List.flatten_cons, List.nodup_append]
    refine ⟨(List.nodup_append.mp hnodup).1, h.consistent.finished_nodup, ?_⟩
    intro x hx y hy hxy
    exact hapart x hx (hxy ▸ hy)
  · intro x
    rw [hvisited, hwaiting, hflat, h.consistent.visited_iff x, hsplit]
    simp only [List.mem_append, List.mem_cons, List.not_mem_nil, or_false]
    tauto
  · intro x hx hfin
    rw [hwaiting] at hx
    rcases (hflat x).mp hfin with hmem | hmem
    · exact (Scanned.mem_waiting_of_front hs hv h hsplit hnew hmem).2 (hs.mem_visited hx)
    · exact h.consistent.apart x (h.waiting.subset (List.mem_cons_of_mem v hx)) hmem
  · intro y hy
    rw [hwaiting]
    exact hs.active_waiting y hy
  · intro x hx hactive y hy
    by_cases hxv : x = v
    · exact h.seen y (hxv ▸ hy)
    · exact h.consistent.done x hx (by simp [hxv, hactive]) y hy
  · intro u hu x hx y hy
    rw [hfinished] at hu
    rcases List.suffix_cons_iff.mp hu with rfl | hu
    · rw [List.flatten_cons, List.mem_append] at hx ⊢
      exact Scanned.reaches_mem hs hv h hsplit hnew hx (.single hy)
    · exact h.consistent.closed u hu x hx y hy
  · intro c hc x hx y
    rw [hfinished] at hc
    rcases List.mem_cons.mp hc with rfl | hc
    · exact Scanned.mem_component_iff hs hv h hsplit hnew hx
    · exact h.consistent.component c hc x hx y
  · intro x hx
    rw [hwaiting] at hx
    obtain ⟨y, hy, hle, hr⟩ := hs.below x hx
    refine ⟨y, hy, ?_, hr⟩
    rw [hold x hx, hold y (hs.active_waiting y hy)]
    exact hle
  · intro y hy x hx hle
    rw [hwaiting] at hx
    rw [hold x hx, hold y (hs.active_waiting y hy)] at hle
    exact hs.above y hy x hx hle

/-- The nodes that wait from `v` on become a component. -/
theorem Scanned.close :
    Visited g active s v s.visited.length (t.close v) := by
  have hfront : v ∉ front := fun hmem => hnew v hmem List.mem_cons_self
  obtain ⟨hwaiting, hfinished⟩ := close_waiting hsplit hfront
  have hsub : s.visited <:+ t.visited := (List.suffix_cons v s.visited).trans h.visited
  refine ⟨Scanned.consistent_close hs hv h hsplit hnew, hsub, ?_, ?_, ?_, h.reached,
    Nat.le_refl _, ?_, ?_⟩
  · rw [hwaiting]
  · rw [hfinished]
    exact h.finished.trans (List.suffix_cons _ _)
  · exact h.visited.subset List.mem_cons_self
  · intro hlt
    exact absurd hlt (Nat.lt_irrefl _)
  · intro x hx hxs
    rw [hwaiting] at hx
    exact absurd hx hxs

end Close

/-- The visit of `v` ends with a number below its own: `v` goes on waiting, and what leads to `v`
leads further down. -/
theorem Scanned.keep
    (hs : Consistent g active s)
    (hv : v ∉ s.visited)
    (h : Scanned g active s v (g.succs v) low t)
    (hlow : low ≠ s.visited.length) :
    Visited g active s v low t := by
  have hsub : s.visited <:+ t.visited := (List.suffix_cons v s.visited).trans h.visited
  have hwaits : ∀ y ∈ s.waiting, y ∈ t.waiting :=
    fun y hy => h.waiting.subset (List.mem_cons_of_mem v hy)
  have hnumber : t.number v = s.visited.length := number_entered h.visited hv
  obtain ⟨z, hz, hzlow, hvz⟩ := h.low_lt (by have := h.low_le; omega)
  -- The node below `v` leads to an active node of the state before.
  have hdown : ∃ y ∈ active, t.number y ≤ t.number v ∧ g.Reaches v y := by
    have hznum : t.number z < s.visited.length := by
      rw [number_of_suffix hsub (hs.mem_visited hz)]
      exact number_lt (hs.mem_visited hz)
    obtain ⟨y, hy, hle, hr⟩ := h.consistent.below z (hwaits z hz)
    rcases List.mem_cons.mp hy with rfl | hy
    · omega
    · exact ⟨y, hy, by omega, hvz.trans hr⟩
  have hconsistent : Consistent g active t := by
    refine ⟨h.consistent.visited_nodup, h.consistent.waiting_nodup, h.consistent.finished_nodup,
      h.consistent.visited_iff, h.consistent.apart, ?_, ?_, h.consistent.closed,
      h.consistent.component, ?_, ?_⟩
    · intro y hy
      exact h.consistent.active_waiting y (List.mem_cons_of_mem v hy)
    · intro x hx hactive y hy
      by_cases hxv : x = v
      · exact h.seen y (hxv ▸ hy)
      · exact h.consistent.done x hx (by simp [hxv, hactive]) y hy
    · intro x hx
      obtain ⟨y, hy, hle, hr⟩ := h.consistent.below x hx
      rcases List.mem_cons.mp hy with rfl | hy
      · obtain ⟨y', hy', hle', hr'⟩ := hdown
        exact ⟨y', hy', by omega, hr.trans hr'⟩
      · exact ⟨y, hy, hle, hr⟩
    · intro y hy x hx hle
      exact h.consistent.above y (List.mem_cons_of_mem v hy) x hx hle
  refine ⟨hconsistent, hsub, (List.suffix_cons v s.waiting).trans h.waiting, h.finished,
    h.visited.subset List.mem_cons_self, h.reached, h.low_le, h.low_lt, ?_⟩
  intro x hx hxs y hxy hy
  by_cases hxv : x = v
  · exact h.own y (hxv ▸ hxy) hy
  · exact h.edges x hx (by simp [hxv, hxs]) y hxy hy

/-- Looking at the successors of `v` one after the other. -/
theorem Scanned.foldl
    {depth : Nat}
    (hs : Consistent g active s)
    (hreach : ∀ y ∈ active, g.Reaches y v)
    (hvisit : ∀ (w : α) (t : ComponentSearch α), Consistent g (v :: active) t →
      w ∉ t.visited → w ∈ g.succs v → (∀ y ∈ v :: active, g.Reaches y w) →
      v :: s.visited ⊆ t.visited →
      Visited g (v :: active) t w (visit g.succs depth w t).1 (visit g.succs depth w t).2) :
    ∀ (rest before : List α) (found : Nat × ComponentSearch α),
      (∀ w ∈ rest, w ∈ g.succs v) →
      Scanned g active s v before found.1 found.2 →
      Scanned g active s v (before ++ rest)
        (rest.foldl (scan g.succs depth) found).1 (rest.foldl (scan g.succs depth) found).2
  | [], before, found, _, h => by simpa using h
  | w :: rest, before, found, hrest, h => by
      have hw : w ∈ g.succs v := hrest w List.mem_cons_self
      have hstep : Scanned g active s v (before ++ [w])
          (scan g.succs depth found w).1 (scan g.succs depth found w).2 := by
        unfold scan
        by_cases hvisited : w ∈ found.2.visited
        · by_cases hwait : w ∈ found.2.waiting
          · simpa [hvisited, hwait] using h.meet hs hw hwait
          · simpa [hvisited, hwait] using h.skip hvisited hwait
        · simp only [hvisited, not_false_eq_true, if_true]
          refine h.descend hs hw hvisited
            (hvisit w found.2 h.consistent hvisited hw ?_ h.visited.subset)
          intro y hy
          rcases List.mem_cons.mp hy with rfl | hy
          · exact .single hw
          · exact (hreach y hy).trans (.single hw)
      have := Scanned.foldl hs hreach hvisit rest (before ++ [w])
        (scan g.succs depth found w) (fun x hx => hrest x (List.mem_cons_of_mem w hx)) hstep
      simpa using this

end Steps

/-- A visit with enough depth for the nodes that were not visited. -/
theorem visit_spec
    {g : Digraph α} :
    ∀ (depth : Nat) (active : List α) (v : α) (s : ComponentSearch α),
      Consistent g active s →
      v ∉ s.visited →
      g.Covers [v] →
      (∀ y ∈ active, g.Reaches y v) →
      room g s.visited < depth →
      Visited g active s v (visit g.succs depth v s).1 (visit g.succs depth v s).2
  | 0, _, _, _, _, _, _, _, hroom => absurd hroom (Nat.not_lt_zero _)
  | depth + 1, active, v, s, hs, hv, hcovers, hreach, hroom => by
      have hvisit : ∀ (w : α) (t : ComponentSearch α), Consistent g (v :: active) t →
          w ∉ t.visited → w ∈ g.succs v → (∀ y ∈ v :: active, g.Reaches y w) →
          v :: s.visited ⊆ t.visited →
          Visited g (v :: active) t w (visit g.succs depth w t).1 (visit g.succs depth w t).2 := by
        intro w t ht hw hedge hactive hsub
        -- `v` has a successor, so it is a listed node that was not visited before
        have hlt := room_cons_lt (hcovers.mem_nodes hedge) hv
        have hle := room_le_of_subset (g := g) hsub
        exact visit_spec depth (v :: active) w t ht hw (hcovers.succ hedge) hactive (by omega)
      have hscan := Scanned.foldl hs hreach hvisit (g.succs v) [] (s.visited.length, s.enter v)
        (fun w hw => hw) (scanned_enter hs hv hreach)
      rw [List.nil_append] at hscan
      rw [visit_succ]
      simp only
      split
      · rename_i heq
        rw [heq] at hscan
        obtain ⟨front, hsplit, hnew⟩ := hscan.exists_front
        exact Scanned.close hs hv hscan hsplit hnew
      · rename_i hne
        exact Scanned.keep hs hv hscan hne

end ComponentSearch

open ComponentSearch

variable {α : Type} [DecidableEq α]

/-- Without active nodes nothing waits. -/
theorem ComponentSearch.Consistent.waiting_eq_nil
    {g : Digraph α} {s : ComponentSearch α}
    (hs : Consistent g [] s) :
    s.waiting = [] := by
  apply List.eq_nil_iff_forall_not_mem.mpr
  intro x hx
  obtain ⟨y, hy, _⟩ := hs.below x hx
  exact absurd hy List.not_mem_nil

theorem room_lt
    (g : Digraph α) (visited : List α) :
    room g visited < g.nodes.length + 1 := by
  have h₁ : room g visited ≤ g.nodes.toFinset.card := Finset.card_le_card Finset.sdiff_subset
  have h₂ := List.toFinset_card_le g.nodes
  omega

/-- The search stays consistent from root to root. -/
theorem componentSearch_consistent
    {g : Digraph α} :
    ∀ (roots : List α) (s : ComponentSearch α),
      g.Covers roots →
      Consistent g [] s →
      let t := roots.foldl
        (fun s v => if v ∈ s.visited then s else (s.visit g.succs (g.nodes.length + 1) v).2) s
      Consistent g [] t ∧ (∀ x ∈ s.visited, x ∈ t.visited) ∧ (∀ r ∈ roots, r ∈ t.visited) ∧
        ∀ x ∈ t.visited, x ∉ s.visited → ∃ r ∈ roots, g.Reaches r x
  | [], s, _, hs => by
      refine ⟨hs, fun x hx => hx, ?_, ?_⟩
      · intro r hr
        exact absurd hr List.not_mem_nil
      · intro x hx hxs
        exact absurd hx hxs
  | v :: roots, s, hroots, hs => by
      have htail : g.Covers roots := hroots.mono fun r hr => List.mem_cons_of_mem v hr
      simp only [List.foldl_cons]
      by_cases hv : v ∈ s.visited
      · rw [if_pos hv]
        obtain ⟨h₁, h₂, h₃, h₄⟩ := componentSearch_consistent roots s htail hs
        refine ⟨h₁, h₂, ?_, ?_⟩
        · intro r hr
          rcases List.mem_cons.mp hr with rfl | hr
          · exact h₂ r hv
          · exact h₃ r hr
        · intro x hx hxs
          obtain ⟨r, hr, hreach⟩ := h₄ x hx hxs
          exact ⟨r, List.mem_cons_of_mem v hr, hreach⟩
      · rw [if_neg hv]
        have hhead : g.Covers [v] := hroots.mono (by simp)
        have hvisit := visit_spec (g.nodes.length + 1) [] v s hs hv hhead
          (fun y hy => absurd hy List.not_mem_nil) (room_lt g s.visited)
        obtain ⟨h₁, h₂, h₃, h₄⟩ := componentSearch_consistent roots _ htail hvisit.consistent
        refine ⟨h₁, fun x hx => h₂ x (hvisit.visited.subset hx), ?_, ?_⟩
        · intro r hr
          rcases List.mem_cons.mp hr with rfl | hr
          · exact h₂ r hvisit.mem
          · exact h₃ r hr
        · intro x hx hxs
          by_cases hxv : x ∈ (s.visit g.succs (g.nodes.length + 1) v).2.visited
          · exact ⟨v, List.mem_cons_self, hvisit.reached x hxv hxs⟩
          · obtain ⟨r, hr, hreach⟩ := h₄ x hx hxv
            exact ⟨r, List.mem_cons_of_mem v hr, hreach⟩

theorem consistent_empty
    (g : Digraph α) :
    Consistent g [] ({} : ComponentSearch α) := by
  constructor <;> simp

section Roots

variable {g : Digraph α} {roots c : List α} {x y : α}

theorem consistent_componentSearch
    (hroots : g.Covers roots) :
    Consistent g [] (g.componentSearch roots) :=
  (componentSearch_consistent roots {} hroots (consistent_empty g)).1

/-- The components hold exactly what the roots lead to. -/
theorem mem_flatten_components_iff
    (hroots : g.Covers roots) :
    x ∈ (g.components roots).flatten ↔ ∃ r ∈ roots, g.Reaches r x := by
  obtain ⟨hs, _, hvisited, hreached⟩ :=
    componentSearch_consistent roots {} hroots (consistent_empty g)
  have hmem : x ∈ (g.components roots).flatten ↔
      x ∈ (g.componentSearch roots).finished.flatten := by
    simp [components]
  rw [hmem]
  constructor
  · intro hx
    exact hreached x ((hs.visited_iff x).mpr (Or.inr hx)) List.not_mem_nil
  · rintro ⟨r, hr, hrx⟩
    have hfin := hs.mem_finished (hvisited r hr)
      (by rw [hs.waiting_eq_nil]; exact List.not_mem_nil)
    exact hs.finished_reaches hfin hrx

/-- Two nodes share a component exactly if each leads to the other. -/
theorem mem_component_iff
    (hroots : g.Covers roots)
    (hc : c ∈ g.components roots)
    (hx : x ∈ c) :
    y ∈ c ↔ g.Reaches x y ∧ g.Reaches y x :=
  (consistent_componentSearch hroots).component c (List.mem_reverse.mp hc) x hx y

/-- No node is listed twice. -/
theorem flatten_components_nodup
    (hroots : g.Covers roots) :
    (g.components roots).flatten.Nodup :=
  ((List.reverse_perm _).flatten.nodup_iff).mpr (consistent_componentSearch hroots).finished_nodup

end Roots

end Digraph
end DefUse
