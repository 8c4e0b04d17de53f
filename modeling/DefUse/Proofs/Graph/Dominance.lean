import DefUse.Graph.Dominance
import DefUse.Proofs.Graph.Reach

/-!
# Dominance by walks

**Results.**
* `mem_dominated_iff`: a node dominates another one exactly if both can be reached from the root and
  every walk from the root to the second visits the first.
* `mem_of_mem_dominated_reverse`: in the graph turned round, every walk from the second to the root
  visits the first.
* `mem_dominated_reverse_iff`: the same exactly, with both nodes leading to the root.
-/

namespace DefUse
namespace Digraph

variable {α : Type} [DecidableEq α]

theorem Closed.avoid
    {g : Digraph α}
    (hg : g.Closed) (a : α) :
    (g.avoid a).Closed := by
  intro v hv w hw
  exact hg v hv w (List.mem_of_mem_filter hw)

theorem reverse_closed
    (g : Digraph α) :
    g.reverse.Closed := by
  intro v _ w hw
  exact List.mem_of_mem_filter hw

/-- A walk without edges into `a` is a walk that visits `a` at most at its start. -/
theorem isWalk_avoid_iff
    {g : Digraph α} {a u : α} {rest : List α} :
    (g.avoid a).IsWalk (u :: rest) ↔ g.IsWalk (u :: rest) ∧ a ∉ rest := by
  induction rest generalizing u with
  | nil => simp [IsWalk]
  | cons v rest ih =>
      rw [isWalk_cons_cons, isWalk_cons_cons, ih]
      simp only [avoid, List.mem_filter, decide_eq_true_eq, List.mem_cons, not_or]
      constructor
      · rintro ⟨⟨hv, hva⟩, hw, ha⟩
        exact ⟨⟨hv, hw⟩, Ne.symm hva, ha⟩
      · rintro ⟨⟨hv, hw⟩, hva, ha⟩
        exact ⟨⟨hv, Ne.symm hva⟩, hw, ha⟩

theorem mem_reachAvoiding_iff
    {g : Digraph α} {root a b : α}
    (hg : g.Closed)
    (hroot : root ∈ g.nodes) :
    b ∈ g.reachAvoiding root a ↔
      ∃ rest, g.IsWalk (root :: rest) ∧ (root :: rest).getLast? = some b ∧ a ∉ root :: rest := by
  unfold reachAvoiding
  rw [mem_reach_iff (hg.avoid a)
    (fun s hs => by
      rw [List.mem_singleton.mp (List.mem_of_mem_filter hs)]
      exact hroot)]
  constructor
  · rintro ⟨s, hs, hr⟩
    simp only [List.mem_filter, List.mem_singleton, decide_eq_true_eq] at hs
    obtain ⟨rfl, hne⟩ := hs
    obtain ⟨rest, hw, hlast⟩ := exists_walk_of_reaches hr
    obtain ⟨hw, ha⟩ := isWalk_avoid_iff.mp hw
    refine ⟨rest, hw, hlast, ?_⟩
    rw [List.mem_cons, not_or]
    exact ⟨Ne.symm hne, ha⟩
  · rintro ⟨rest, hw, hlast, ha⟩
    rw [List.mem_cons, not_or] at ha
    refine ⟨root, by simp [Ne.symm ha.1], ?_⟩
    exact (isWalk_avoid_iff.mpr ⟨hw, ha.2⟩).reaches_of_mem (List.mem_of_getLast? hlast)

/-- A node dominates those that no walk from the root gets to without visiting it. -/
theorem mem_dominated_iff
    {g : Digraph α} {root a b : α}
    (hg : g.Closed)
    (hroot : root ∈ g.nodes) :
    b ∈ g.dominated root a ↔
      g.Reaches root a ∧ g.Reaches root b ∧
      ∀ rest, g.IsWalk (root :: rest) → (root :: rest).getLast? = some b → a ∈ root :: rest := by
  have hreach : ∀ v, v ∈ g.reach [root] ↔ g.Reaches root v := by
    intro v
    rw [mem_reach_iff hg (by simpa using hroot)]
    simp
  unfold dominated
  by_cases ha : g.Reaches root a
  · simp only [(hreach a).mpr ha, if_true, List.mem_filter, hreach, decide_eq_true_eq,
      mem_reachAvoiding_iff hg hroot, ha, true_and]
    constructor
    · rintro ⟨hb, hfree⟩
      refine ⟨hb, ?_⟩
      intro rest hw hlast
      by_contra hnot
      exact hfree ⟨rest, hw, hlast, hnot⟩
    · rintro ⟨hb, hall⟩
      refine ⟨hb, ?_⟩
      rintro ⟨rest, hw, hlast, hnot⟩
      exact hnot (hall rest hw hlast)
  · simp [hreach, ha]

/-- A walk turned round is a walk of the graph turned round. -/
theorem IsWalk.reverse
    {g : Digraph α} {walk : List α}
    (hw : g.IsWalk walk)
    (hnodes : ∀ v ∈ walk, v ∈ g.nodes) :
    g.reverse.IsWalk walk.reverse := by
  unfold IsWalk
  rw [List.isChain_reverse]
  apply List.IsChain.imp_of_mem_imp _ hw
  intro u v hu _ huv
  simp only [Digraph.reverse, List.mem_filter, decide_eq_true_eq]
  exact ⟨hnodes u hu, huv⟩

/-- What dominates a node in the graph turned round lies on every walk from the node to the
root. -/
theorem mem_of_mem_dominated_reverse
    {g : Digraph α} {root a b : α} {rest : List α}
    (hg : g.Closed)
    (hroot : root ∈ g.nodes)
    (hb : b ∈ g.nodes)
    (h : b ∈ g.reverse.dominated root a)
    (hw : g.IsWalk (b :: rest))
    (hlast : (b :: rest).getLast? = some root) :
    a ∈ b :: rest := by
  have hwalk := hw.reverse fun v hv => hg.mem_nodes_of_isWalk hb hw hv
  obtain ⟨_, _, hall⟩ := (mem_dominated_iff (reverse_closed g) hroot).mp h
  obtain ⟨front, hfront⟩ : ∃ front, (b :: rest).reverse = root :: front := by
    rw [← List.head?_reverse] at hlast
    cases hrev : (b :: rest).reverse with
    | nil => simp at hrev
    | cons x front =>
        rw [hrev] at hlast
        simp only [List.head?_cons, Option.some.injEq] at hlast
        exact ⟨front, by rw [hlast]⟩
  rw [hfront] at hwalk
  have hmem := hall front hwalk (by rw [← hfront]; simp)
  rw [← hfront] at hmem
  exact List.mem_reverse.mp hmem

theorem isWalk_of_reverse
    {g : Digraph α} {walk : List α}
    (hw : g.reverse.IsWalk walk) :
    g.IsWalk walk.reverse := by
  unfold IsWalk
  rw [List.isChain_reverse]
  apply List.IsChain.imp _ hw
  intro u v huv
  simpa [Digraph.reverse] using (List.mem_filter.mp huv).2

theorem reaches_of_reverse
    {g : Digraph α} {u v : α}
    (h : g.reverse.Reaches u v) :
    g.Reaches v u := by
  induction h with
  | refl v => exact .refl v
  | step hs _ ih =>
      have hedge := (List.mem_filter.mp hs).2
      exact ih.trans (.single (of_decide_eq_true hedge))

theorem Reaches.reverse
    {g : Digraph α} {u v : α}
    (hg : g.Closed)
    (hu : u ∈ g.nodes)
    (h : g.Reaches u v) :
    g.reverse.Reaches v u := by
  induction h with
  | refl v => exact .refl v
  | @step u v w hs _ ih =>
      refine (ih (hg u hu v hs)).trans (.single ?_)
      exact List.mem_filter.mpr ⟨hu, decide_eq_true hs⟩

/-- In the graph turned round, a node dominates those from which no walk to the root avoids it. -/
theorem mem_dominated_reverse_iff
    {g : Digraph α} {root a b : α}
    (hg : g.Closed)
    (hroot : root ∈ g.nodes)
    (ha : a ∈ g.nodes)
    (hb : b ∈ g.nodes) :
    b ∈ g.reverse.dominated root a ↔
      g.Reaches a root ∧ g.Reaches b root ∧
      ∀ rest, g.IsWalk (b :: rest) → (b :: rest).getLast? = some root → a ∈ b :: rest := by
  have hiff := @mem_dominated_iff _ _ g.reverse root a b (reverse_closed g) hroot
  constructor
  · intro h
    obtain ⟨hroota, hrootb, -⟩ := hiff.mp h
    refine ⟨reaches_of_reverse hroota, reaches_of_reverse hrootb, ?_⟩
    intro rest hw hlast
    exact mem_of_mem_dominated_reverse hg hroot hb h hw hlast
  · rintro ⟨hroota, hrootb, hall⟩
    refine hiff.mpr ⟨hroota.reverse hg ha, hrootb.reverse hg hb, ?_⟩
    intro rest hw hlast
    have hwalk := isWalk_of_reverse hw
    obtain ⟨front, hfront⟩ : ∃ front, (root :: rest).reverse = b :: front := by
      rw [← List.head?_reverse] at hlast
      exact List.head?_eq_some_iff.mp hlast
    rw [hfront] at hwalk
    have hmem := hall front hwalk (by rw [← hfront]; simp)
    rw [← hfront] at hmem
    exact List.mem_reverse.mp hmem

end Digraph
end DefUse
