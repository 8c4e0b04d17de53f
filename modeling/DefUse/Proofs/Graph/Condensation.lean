import DefUse.Proofs.Graph.Components

/-!
# The order of the components

**Method.** A component is finished when all that it leads to is: what the components finished up to
some moment lead to lies in them.  Since no node is in two components, a component leads to those
before it in the list only.

The recursion of the search ends because a node below which the search goes on was not visited
before and has successors, of which there are finitely many nodes.

**Results.**
* `le_of_reaches`: a component leads to components before it and to itself only.
* `ComponentSearch.endsWith_components`: the search ends without a bound on its depth.
* `components_exact`: the components of what the roots lead to, callees first.
-/

namespace DefUse
namespace Digraph

variable {α : Type} [DecidableEq α] {g : Digraph α} {roots : List α}

section Order

/-- A component leads to components before it and to itself only. -/
theorem le_of_reaches
    {i j : Nat} {c d : List α} {x y : α}
    (hroots : g.Covers roots)
    (hc : (g.components roots)[i]? = some c)
    (hd : (g.components roots)[j]? = some d)
    (hx : x ∈ c)
    (hy : y ∈ d)
    (hr : g.Reaches x y) :
    j ≤ i := by
  -- what was finished with the component of `x` leads to nothing else
  have hsuffix :
      ((g.components roots).take (i + 1)).reverse <:+ (g.componentSearch roots).finished := by
    rw [← List.reverse_prefix, List.reverse_reverse]
    exact List.take_prefix _ _
  have hmem : ∀ {z : α}, z ∈ ((g.components roots).take (i + 1)).reverse.flatten ↔
      z ∈ ((g.components roots).take (i + 1)).flatten := by
    intro z
    simp only [List.mem_flatten, List.mem_reverse]
  have hxt : x ∈ ((g.components roots).take (i + 1)).flatten := by
    refine List.mem_flatten.mpr ⟨c, List.mem_of_getElem? (i := i) ?_, hx⟩
    rw [List.getElem?_take_of_lt (Nat.lt_succ_self i), hc]
  have hyt : y ∈ ((g.components roots).take (i + 1)).flatten := by
    rw [← hmem] at hxt ⊢
    refine hr.invariant (P := (· ∈ ((g.components roots).take (i + 1)).reverse.flatten)) ?_ hxt
    exact fun u v huv hu => (consistent_componentSearch hroots).closed _ hsuffix u hu v huv
  by_contra hlt
  have hyd : y ∈ ((g.components roots).drop (i + 1)).flatten := by
    refine List.mem_flatten.mpr ⟨d, List.mem_of_getElem? (i := j - (i + 1)) ?_, hy⟩
    rw [List.getElem?_drop, ← hd]
    congr 1
    omega
  have hnodup := flatten_components_nodup hroots
  rw [← List.take_append_drop (i + 1) (g.components roots), List.flatten_append,
    List.nodup_append] at hnodup
  exact hnodup.2.2 y hyt y hyd rfl

end Order

namespace ComponentSearch

/-- The end of a visit of `v`: if its own number is the least one found, what waits from `v` on is a
component. -/
def leave (own : Nat) (v : α) (found : Nat × ComponentSearch α) : Nat × ComponentSearch α :=
  if found.1 = own then (own, found.2.close v) else found

/-- Looking at the listed nodes one after the other comes to an end: each that was not visited is
visited, by looking at its successors in the same way.  A visit may go to any depth. -/
inductive Ends (succs : α → List α) :
    List α → Nat × ComponentSearch α → Nat × ComponentSearch α → Prop where
  | nil (found : Nat × ComponentSearch α) : Ends succs [] found found
  | descend {w : α} {rest : List α} {low : Nat} {s : ComponentSearch α}
      {below found : Nat × ComponentSearch α}
      (hnew : w ∉ s.visited)
      (hbelow : Ends succs (succs w) (s.visited.length, s.enter w) below)
      (hrest : Ends succs rest
        (min low (leave s.visited.length w below).1, (leave s.visited.length w below).2) found) :
      Ends succs (w :: rest) (low, s) found
  | meet {w : α} {rest : List α} {low : Nat} {s : ComponentSearch α}
      {found : Nat × ComponentSearch α}
      (hvisited : w ∈ s.visited)
      (hwait : w ∈ s.waiting)
      (hrest : Ends succs rest (min low (s.number w), s) found) :
      Ends succs (w :: rest) (low, s) found
  | skip {w : α} {rest : List α} {low : Nat} {s : ComponentSearch α}
      {found : Nat × ComponentSearch α}
      (hvisited : w ∈ s.visited)
      (hwait : w ∉ s.waiting)
      (hrest : Ends succs rest (low, s) found) :
      Ends succs (w :: rest) (low, s) found

/-- The search from the roots ends with the listed components. -/
def EndsWith (g : Digraph α) (roots : List α) (components : List (List α)) : Prop :=
  ∃ low s, Ends g.succs roots (0, {}) (low, s) ∧ s.finished.reverse = components

theorem visit_eq_leave
    (succs : α → List α) (depth : Nat) (v : α) (s : ComponentSearch α) :
    visit succs (depth + 1) v s =
      leave s.visited.length v ((succs v).foldl (scan succs depth) (s.visited.length, s.enter v)) :=
  rfl

/-- Looking at a node keeps what was visited. -/
theorem visited_subset_scan
    {succs : α → List α} {depth : Nat}
    (hvisit : ∀ w (s : ComponentSearch α), s.visited ⊆ (visit succs depth w s).2.visited)
    (found : Nat × ComponentSearch α) (w : α) :
    found.2.visited ⊆ (scan succs depth found w).2.visited := by
  unfold scan
  split
  · exact hvisit w found.2
  · split <;> exact fun _ h => h

theorem visited_subset_visit
    (succs : α → List α) (depth : Nat) :
    ∀ w (s : ComponentSearch α), s.visited ⊆ (visit succs depth w s).2.visited := by
  induction depth with
  | zero => exact fun _ _ _ h => h
  | succ depth ih =>
      intro v s
      have hscan : s.visited ⊆
          ((succs v).foldl (scan succs depth) (s.visited.length, s.enter v)).2.visited :=
        List.foldlRecOn
          (motive := fun found : Nat × ComponentSearch α => s.visited ⊆ found.2.visited)
          _ _ (List.subset_cons_self v s.visited)
          fun found hfound w _ => List.Subset.trans hfound (visited_subset_scan ih found w)
      rw [visit_eq_leave, leave]
      split <;> exact hscan

/-- With enough depth, looking at the listed nodes does what the recursion without a bound does. -/
theorem ends_foldl_scan
    (depth : Nat) :
    ∀ (rest : List α) (low : Nat) (s : ComponentSearch α),
      g.Covers rest →
      (rest ≠ [] → room g s.visited < depth) →
      Ends g.succs rest (low, s) (rest.foldl (scan g.succs depth) (low, s)) := by
  induction depth using Nat.strong_induction_on with
  | _ depth ih =>
      intro rest
      induction rest with
      | nil => exact fun low s _ _ => .nil (low, s)
      | cons w rest ihrest =>
          intro low s hcovers hroom
          have hlt := hroom (List.cons_ne_nil w rest)
          have htail : g.Covers rest := hcovers.mono fun r hr => List.mem_cons_of_mem w hr
          have hhead : g.Covers [w] := hcovers.mono (by simp)
          have hgrow := visited_subset_scan (visited_subset_visit g.succs depth) (low, s) w
          have hnext := ihrest (scan g.succs depth (low, s) w).1 (scan g.succs depth (low, s) w).2
            htail fun _ => Nat.lt_of_le_of_lt (room_le_of_subset hgrow) hlt
          rw [List.foldl_cons]
          by_cases hnew : w ∈ s.visited
          · by_cases hwait : w ∈ s.waiting
            · simp only [scan, hnew, hwait, not_true_eq_false, if_false, if_true] at hnext ⊢
              exact .meet hnew hwait hnext
            · simp only [scan, hnew, hwait, not_true_eq_false, if_false] at hnext ⊢
              exact .skip hnew hwait hnext
          · -- the nodes that were not visited are fewer below `w`
            obtain ⟨depth, rfl⟩ : ∃ d, depth = d + 1 := ⟨depth - 1, by omega⟩
            simp only [scan, hnew, not_false_eq_true, if_true, visit_eq_leave] at hnext ⊢
            refine .descend hnew (ih depth (Nat.lt_succ_self depth) (g.succs w) _ _ ?_ ?_) hnext
            · exact fun r hr => hhead.succ hr r List.mem_cons_self
            · intro hne
              obtain ⟨x, hx⟩ := List.exists_mem_of_ne_nil _ hne
              have := room_cons_lt (hhead.mem_nodes hx) hnew
              simp only [ComponentSearch.enter]
              omega

/-- The search from the roots ends without a bound on its depth. -/
theorem endsWith_components
    (hroots : g.Covers roots) :
    EndsWith g roots (g.components roots) := by
  have hends := ends_foldl_scan (g.nodes.length + 1) roots 0 {} hroots fun _ => room_lt g _
  have hstate : ∀ (rest : List α) (found : Nat × ComponentSearch α),
      (rest.foldl (scan g.succs (g.nodes.length + 1)) found).2 =
        rest.foldl (fun s v =>
          if v ∈ s.visited then s else (s.visit g.succs (g.nodes.length + 1) v).2) found.2 := by
    intro rest
    induction rest with
    | nil => exact fun _ => rfl
    | cons w rest ih =>
        intro found
        rw [List.foldl_cons, List.foldl_cons, ih]
        congr 1
        unfold scan
        by_cases hw : w ∈ found.2.visited
        · simp only [hw, not_true_eq_false, if_false, if_true]
          split <;> rfl
        · simp only [hw, not_false_eq_true, if_true, if_false]
  refine ⟨_, _, hends, ?_⟩
  rw [hstate]
  rfl

end ComponentSearch

/-- A name that has successors has a row. -/
theorem ofNames_covers
    (rows : List (String × List String)) (roots : List String) :
    (ofNames rows).Covers roots := by
  intro _ _ name _ hsuccs
  simp only [ofNames, List.mem_map] at hsuccs ⊢
  cases hlookup : rows.lookup name with
  | none =>
      rw [hlookup] at hsuccs
      exact absurd rfl hsuccs
  | some row =>
      obtain ⟨front, back, rfl, -⟩ := List.lookup_eq_some_iff.mp hlookup
      exact ⟨(name, row), by simp, rfl⟩

/-- The search for components ends, if what the roots lead to has finitely many nodes with
successors.  It lists everything that the roots lead to once and nothing else; two nodes share a
component exactly if each leads to the other; and a component leads to none that comes after it. -/
theorem components_exact
    (hroots : g.Covers roots) :
    ComponentSearch.EndsWith g roots (g.components roots) ∧
    (g.components roots).flatten.Nodup ∧
    (∀ v, v ∈ (g.components roots).flatten ↔ ∃ r ∈ roots, g.Reaches r v) ∧
    (∀ v ∈ (g.components roots).flatten, ∀ w,
      (∃ c ∈ g.components roots, v ∈ c ∧ w ∈ c) ↔ g.Reaches v w ∧ g.Reaches w v) ∧
    ∀ (i j : Nat) c d, (g.components roots)[i]? = some c → (g.components roots)[j]? = some d →
      (∃ v ∈ c, ∃ w ∈ d, g.Reaches v w) → j ≤ i := by
  refine ⟨ComponentSearch.endsWith_components hroots, flatten_components_nodup hroots,
    fun v => mem_flatten_components_iff hroots, fun v hv w => ⟨?_, ?_⟩, ?_⟩
  · rintro ⟨c, hc, hvc, hwc⟩
    exact (mem_component_iff hroots hc hvc).mp hwc
  · intro hmutual
    obtain ⟨c, hc, hvc⟩ := List.mem_flatten.mp hv
    exact ⟨c, hc, hvc, (mem_component_iff hroots hc hvc).mpr hmutual⟩
  · rintro i j c d hc hd ⟨v, hv, w, hw, hr⟩
    exact le_of_reaches hroots hc hd hv hw hr

/-- Two procedures that call each other, one of which calls a third; that one calls something that
is not listed. -/
theorem components_exact_mutual :
    (ofNames [("even", ["odd"]), ("odd", ["even", "log"]), ("log", ["print"])]).Covers ["even"] ∧
      (ofNames [("even", ["odd"]), ("odd", ["even", "log"]), ("log", ["print"])]).components
        ["even"] = [["print"], ["log"], ["odd", "even"]] ∧
      ComponentSearch.EndsWith
        (ofNames [("even", ["odd"]), ("odd", ["even", "log"]), ("log", ["print"])]) ["even"]
        [["print"], ["log"], ["odd", "even"]] := by
  have hcovers := ofNames_covers
    [("even", ["odd"]), ("odd", ["even", "log"]), ("log", ["print"])] ["even"]
  have hvalue : (ofNames [("even", ["odd"]), ("odd", ["even", "log"]),
      ("log", ["print"])]).components ["even"] = [["print"], ["log"], ["odd", "even"]] := by
    decide +kernel
  refine ⟨hcovers, hvalue, ?_⟩
  rw [← hvalue]
  exact (components_exact hcovers).1

end Digraph
end DefUse
