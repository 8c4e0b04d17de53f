import DefUse.Graph.BackEdges
import DefUse.Proofs.Graph.Components
import DefUse.Proofs.Graph.SinkOrder
import Mathlib.Data.List.Basic

/-!
# Back edges of a search

**Method.** A visit adds back edges of newly visited nodes only.  So the edges out of the node that
is being visited are those of the successors looked at so far, whatever was visited in between.

**Results.**
* `mem_backEdges`: a back edge is an edge of a node that the root reaches.
* `backEdges_nodup`: no back edge is listed twice.
* `visited_closed_of_reaches`: what the root reaches is visited and closed.
* `exists_order_forward`: the edges that are no back edges have an order, sinks first.
-/

namespace DefUse
namespace Digraph
namespace DepthSearch

variable {α : Type} [DecidableEq α] {g : Digraph α} {root v w : α} {s t : DepthSearch α}

/-- What is done for one successor of a node that is being visited. -/
def look (succs : α → List α) (depth : Nat) (v : α) (s : DepthSearch α) (w : α) :
    DepthSearch α :=
  if w ∉ s.visited then visit succs depth w s
  else if w ∈ s.closed then s
  else { s with back := (v, w) :: s.back }

theorem visit_succ
    (succs : α → List α) (depth : Nat) (v : α) (s : DepthSearch α) :
    visit succs (depth + 1) v s =
      let s' := (succs v).foldl (look succs depth v) { s with visited := v :: s.visited }
      { s' with closed := v :: s'.closed } :=
  rfl

section Sound

/-- The back edges are edges of nodes that the root reaches. -/
def Sound (g : Digraph α) (root : α) (s : DepthSearch α) : Prop :=
  ∀ e ∈ s.back, g.Reaches root e.1 ∧ e.2 ∈ g.succs e.1

theorem Sound.step
    {depth : Nat}
    (hvisit : ∀ w s, g.Reaches root w → Sound g root s →
      Sound g root (s.visit g.succs depth w))
    (hv : g.Reaches root v)
    (hw : w ∈ g.succs v)
    (hs : s.Sound g root) :
    (look g.succs depth v s w).Sound g root := by
  unfold look
  split
  · exact hvisit w s (hv.trans (.single hw)) hs
  · split
    · exact hs
    · intro e he
      rcases List.mem_cons.mp he with rfl | he
      · exact ⟨hv, hw⟩
      · exact hs e he

theorem Sound.visit
    (depth : Nat) :
    ∀ v s, g.Reaches root v → Sound g root s → Sound g root (s.visit g.succs depth v) := by
  induction depth with
  | zero =>
      intro v s _ hs
      exact hs
  | succ depth ih =>
      intro v s hv hs
      rw [visit_succ]
      refine List.foldlRecOn (motive := Sound g root) _ _ hs ?_
      intro t ht w hw
      exact ht.step ih hv hw

end Sound

section Nodup

/-- What a visit keeps: visited nodes stay visited, and get no further back edges. -/
structure Extends (s t : DepthSearch α) : Prop where
  visited : ∀ v ∈ s.visited, v ∈ t.visited
  back : ∀ e ∈ t.back, e.1 ∈ s.visited → e ∈ s.back

omit [DecidableEq α] in
theorem Extends.trans
    {u : DepthSearch α}
    (hst : s.Extends t)
    (htu : t.Extends u) :
    s.Extends u :=
  ⟨fun v hv => htu.visited v (hst.visited v hv),
    fun e he hs => hst.back e (htu.back e he (hst.visited _ hs)) hs⟩

/-- The back edges of visited nodes are listed once each. -/
structure Single (s : DepthSearch α) : Prop where
  nodup : s.back.Nodup
  visited : ∀ e ∈ s.back, e.1 ∈ s.visited

/-- The state of the visit of a node that has looked at some successors: these are the only targets
of its back edges. -/
structure Looked (v : α) (looked : List α) (s t : DepthSearch α) : Prop where
  single : t.Single
  visited : v ∈ t.visited
  grown : s.Extends t
  targets : ∀ w, (v, w) ∈ t.back → w ∈ looked

omit [DecidableEq α] in
/-- A visit begins: no successor was looked at. -/
theorem Single.looked_enter
    (hs : s.Single)
    (hv : v ∉ s.visited) :
    Looked v [] s { s with visited := v :: s.visited } := by
  refine ⟨⟨hs.nodup, ?_⟩, List.mem_cons_self, ⟨?_, fun e he _ => he⟩, ?_⟩
  · exact fun e he => List.mem_cons_of_mem v (hs.visited e he)
  · exact fun u hu => List.mem_cons_of_mem v hu
  · exact fun w hw => absurd (hs.visited _ hw) hv

theorem Looked.step
    {succs : α → List α} {depth : Nat} {looked : List α}
    (hvisit : ∀ w t, w ∉ t.visited → Single t →
      Single (t.visit succs depth w) ∧ t.Extends (t.visit succs depth w))
    (hv : v ∉ s.visited)
    (hw : w ∉ looked)
    (h : Looked v looked s t) :
    Looked v (looked ++ [w]) s (look succs depth v t w) := by
  have hmore : ∀ x, (v, x) ∈ t.back → x ∈ looked ++ [w] :=
    fun x hx => List.mem_append_left _ (h.targets x hx)
  unfold look
  split
  · rename_i hnew
    obtain ⟨hsingle, hgrow⟩ := hvisit w t hnew h.single
    exact ⟨hsingle, hgrow.visited v h.visited, h.grown.trans hgrow,
      fun x hx => hmore x (hgrow.back _ hx h.visited)⟩
  · split
    · exact ⟨h.single, h.visited, h.grown, hmore⟩
    · refine ⟨⟨?_, ?_⟩, h.visited, ⟨h.grown.visited, ?_⟩, ?_⟩
      · exact List.nodup_cons.mpr ⟨fun hmem => hw (h.targets w hmem), h.single.nodup⟩
      · intro e he
        rcases List.mem_cons.mp he with rfl | he
        · exact h.visited
        · exact h.single.visited e he
      · intro e he hes
        rcases List.mem_cons.mp he with rfl | he
        · exact absurd hes hv
        · exact h.grown.back e he hes
      · intro x hx
        rcases List.mem_cons.mp hx with heq | hx
        · rw [(Prod.mk.inj heq).2]
          exact List.mem_append_right _ List.mem_cons_self
        · exact hmore x hx

theorem Looked.foldl
    {succs : α → List α} {depth : Nat}
    (hvisit : ∀ w t, w ∉ t.visited → Single t →
      Single (t.visit succs depth w) ∧ t.Extends (t.visit succs depth w))
    (hv : v ∉ s.visited)
    (rest : List α) :
    ∀ {looked : List α} {t : DepthSearch α}, (looked ++ rest).Nodup → Looked v looked s t →
      Looked v (looked ++ rest) s (rest.foldl (look succs depth v) t) := by
  induction rest with
  | nil =>
      intro looked t _ h
      rw [List.append_nil]
      exact h
  | cons w rest ih =>
      intro looked t hnodup h
      have hw : w ∉ looked := fun hmem =>
        (List.nodup_append.mp hnodup).2.2 w hmem w List.mem_cons_self rfl
      rw [List.append_cons] at hnodup ⊢
      exact ih hnodup (h.step hvisit hv hw)

theorem visit_single
    {succs : α → List α}
    (hsuccs : ∀ v, (succs v).Nodup)
    (depth : Nat) :
    ∀ v s, v ∉ s.visited → Single s →
      Single (s.visit succs depth v) ∧ s.Extends (s.visit succs depth v) := by
  induction depth with
  | zero =>
      intro v s _ hs
      exact ⟨hs, fun _ h => h, fun _ h _ => h⟩
  | succ depth ih =>
      intro v s hv hs
      obtain ⟨hsingle, -, hext, -⟩ := (hs.looked_enter hv).foldl ih hv (succs v) (hsuccs v)
      rw [visit_succ]
      exact ⟨⟨hsingle.nodup, hsingle.visited⟩, hext.visited, hext.back⟩

end Nodup

section Completes

/-- What a search that goes on keeps; the nodes that it visits meanwhile are closed in the end. -/
structure Completes (s t : DepthSearch α) : Prop where
  visited : s.visited ⊆ t.visited
  closed : s.closed ⊆ t.closed
  back : s.back ⊆ t.back
  new : ∀ v ∈ t.visited, v ∈ s.visited ∨ v ∈ t.closed

omit [DecidableEq α] in
theorem Completes.refl
    (s : DepthSearch α) :
    s.Completes s :=
  ⟨fun _ h => h, fun _ h => h, fun _ h => h, fun _ h => Or.inl h⟩

omit [DecidableEq α] in
theorem Completes.trans
    {u : DepthSearch α}
    (hst : s.Completes t)
    (htu : t.Completes u) :
    s.Completes u := by
  refine ⟨fun v hv => htu.visited (hst.visited hv), fun v hv => htu.closed (hst.closed hv),
    fun e he => htu.back (hst.back he), ?_⟩
  intro v hv
  rcases htu.new v hv with hv | hv
  · exact (hst.new v hv).imp_right fun hv => htu.closed hv
  · exact Or.inr hv

omit [DecidableEq α] in
theorem completes_back
    (s : DepthSearch α) (e : α × α) :
    s.Completes { s with back := e :: s.back } :=
  ⟨fun _ h => h, fun _ h => h, fun _ h => List.mem_cons_of_mem _ h, fun _ h => Or.inl h⟩

theorem completes_look
    {succs : α → List α} {depth : Nat}
    (hvisit : ∀ w (s : DepthSearch α), s.Completes (s.visit succs depth w))
    (v : α) (s : DepthSearch α) (w : α) :
    s.Completes (look succs depth v s w) := by
  unfold look
  split
  · exact hvisit w s
  · split
    · exact .refl s
    · exact completes_back s (v, w)

theorem completes_foldl_look
    {succs : α → List α} {depth : Nat}
    (hvisit : ∀ w (s : DepthSearch α), s.Completes (s.visit succs depth w))
    (v : α) (s : DepthSearch α) (rest : List α) :
    s.Completes (rest.foldl (look succs depth v) s) :=
  List.foldlRecOn (motive := s.Completes) _ _ (.refl s)
    fun t ht w _ => ht.trans (completes_look hvisit v t w)

/-- A visit closes what it visits. -/
theorem completes_visit
    (succs : α → List α) (depth : Nat) :
    ∀ v (s : DepthSearch α), s.Completes (s.visit succs depth v) := by
  induction depth with
  | zero => exact fun v s => .refl s
  | succ depth ih =>
      intro v s
      have hscan := completes_foldl_look ih v { s with visited := v :: s.visited } (succs v)
      rw [visit_succ]
      refine ⟨?_, ?_, hscan.back, ?_⟩
      · exact fun x hx => hscan.visited (List.mem_cons_of_mem v hx)
      · exact fun x hx => List.mem_cons_of_mem v (hscan.closed hx)
      · intro x hx
        rcases hscan.new x hx with hx | hx
        · rcases List.mem_cons.mp hx with rfl | hx
          · exact Or.inr List.mem_cons_self
          · exact Or.inl hx
        · exact Or.inr (List.mem_cons_of_mem v hx)

end Completes

section Finished

open ComponentSearch (room room_le_of_subset room_cons_lt)

/-- The successors of a closed node were visited, and were closed before it unless a back edge
leads to them. -/
def Finished (succs : α → List α) (s : DepthSearch α) : Prop :=
  ∀ front v rest, s.closed = front ++ v :: rest →
    ∀ w ∈ succs v, w ∈ s.visited ∧ (w ∈ rest ∨ (v, w) ∈ s.back)

/-- The state of the visit of a node that has looked at some successors: each of them was closed or
is the target of a back edge. -/
structure Scans (succs : α → List α) (v : α) (looked : List α) (s t : DepthSearch α) : Prop where
  completes : s.Completes t
  finished : t.Finished succs
  seen : ∀ w ∈ looked, w ∈ t.visited ∧ (w ∈ t.closed ∨ (v, w) ∈ t.back)

theorem Scans.step
    {succs : α → List α} {depth : Nat} {looked : List α}
    (hvisit : w ∉ t.visited → (t.visit succs depth w).Finished succs ∧
      w ∈ (t.visit succs depth w).visited ∧ w ∈ (t.visit succs depth w).closed)
    (h : Scans succs v looked s t) :
    Scans succs v (looked ++ [w]) s (look succs depth v t w) := by
  have hmore : ∀ {t' : DepthSearch α}, t.Completes t' →
      w ∈ t'.visited ∧ (w ∈ t'.closed ∨ (v, w) ∈ t'.back) →
      ∀ x ∈ looked ++ [w], x ∈ t'.visited ∧ (x ∈ t'.closed ∨ (v, x) ∈ t'.back) := by
    intro t' hgrow hw x hx
    rcases List.mem_append.mp hx with hx | hx
    · obtain ⟨hvisited, hseen⟩ := h.seen x hx
      exact ⟨hgrow.visited hvisited,
        hseen.imp (fun hx => hgrow.closed hx) fun hx => hgrow.back hx⟩
    · rw [List.mem_singleton.mp hx]
      exact hw
  unfold look
  split
  · rename_i hnew
    obtain ⟨hfinished, hvisited, hclosed⟩ := hvisit hnew
    have hgrow := completes_visit succs depth w t
    exact ⟨h.completes.trans hgrow, hfinished, hmore hgrow ⟨hvisited, Or.inl hclosed⟩⟩
  · rename_i hold
    have hvisited : w ∈ t.visited := not_not.mp hold
    split
    · rename_i hclosed
      exact ⟨h.completes, h.finished, hmore (.refl t) ⟨hvisited, Or.inl hclosed⟩⟩
    · have hgrow := completes_back t (v, w)
      refine ⟨h.completes.trans hgrow, ?_, hmore hgrow ⟨hvisited, Or.inr List.mem_cons_self⟩⟩
      intro front x rest hsplit y hy
      obtain ⟨hseen, hy⟩ := h.finished front x rest hsplit y hy
      exact ⟨hseen, hy.imp_right (List.mem_cons_of_mem _)⟩

theorem Scans.foldl
    {succs : α → List α} {depth : Nat}
    (hvisit : ∀ w ∈ succs v, ∀ t, s.Completes t → t.Finished succs → w ∉ t.visited →
      (t.visit succs depth w).Finished succs ∧
      w ∈ (t.visit succs depth w).visited ∧ w ∈ (t.visit succs depth w).closed)
    (rest : List α) :
    ∀ {looked : List α} {t : DepthSearch α}, (∀ w ∈ rest, w ∈ succs v) →
      Scans succs v looked s t →
      Scans succs v (looked ++ rest) s (rest.foldl (look succs depth v) t) := by
  induction rest with
  | nil =>
      intro looked t _ h
      rw [List.append_nil]
      exact h
  | cons w rest ih =>
      intro looked t hrest h
      rw [List.append_cons]
      refine ih (fun x hx => hrest x (List.mem_cons_of_mem w hx)) (h.step ?_)
      exact hvisit w (hrest w List.mem_cons_self) t h.completes h.finished

/-- A visit that has depth enough for the nodes that were not visited closes the node. -/
theorem visit_finished
    (hg : g.Closed)
    (depth : Nat) :
    ∀ (v : α) (s : DepthSearch α), v ∈ g.nodes → v ∉ s.visited → room g s.visited ≤ depth →
      s.Finished g.succs →
      (s.visit g.succs depth v).Finished g.succs ∧
      v ∈ (s.visit g.succs depth v).visited ∧ v ∈ (s.visit g.succs depth v).closed := by
  induction depth with
  | zero =>
      intro v s hnode hv hroom _
      have hlt := room_cons_lt hnode hv
      omega
  | succ depth ih =>
      intro v s hnode hv hroom hs
      have hlt := room_cons_lt hnode hv
      let start : DepthSearch α := { s with visited := v :: s.visited }
      have hscan : Scans g.succs v [] start start := by
        refine ⟨.refl start, ?_, ?_⟩
        · intro front x rest hsplit y hy
          obtain ⟨hseen, hy⟩ := hs front x rest hsplit y hy
          exact ⟨List.mem_cons_of_mem v hseen, hy⟩
        · exact fun w hw => absurd hw List.not_mem_nil
      have hvisit : ∀ w ∈ g.succs v, ∀ t, start.Completes t → t.Finished g.succs →
          w ∉ t.visited →
          (t.visit g.succs depth w).Finished g.succs ∧
          w ∈ (t.visit g.succs depth w).visited ∧ w ∈ (t.visit g.succs depth w).closed := by
        intro w hw t hgrow hfinished hnew
        refine ih w t (hg v hnode w hw) hnew ?_ hfinished
        exact Nat.le_trans (room_le_of_subset hgrow.visited) (Nat.le_of_lt_succ
          (Nat.lt_of_lt_of_le hlt hroom))
      have hend := hscan.foldl hvisit (g.succs v) fun _ hw => hw
      rw [List.nil_append] at hend
      rw [visit_succ]
      refine ⟨?_, hend.completes.visited List.mem_cons_self, List.mem_cons_self⟩
      intro front x rest hsplit y hy
      cases front with
      | nil =>
          obtain ⟨rfl, rfl⟩ := List.cons.inj hsplit
          exact hend.seen y hy
      | cons z front =>
          obtain ⟨-, hsplit⟩ := List.cons.inj hsplit
          exact hend.finished front x rest hsplit y hy

end Finished

end DepthSearch

variable {α : Type} [DecidableEq α] {g : Digraph α} {root : α}

theorem mem_backEdges
    {e : α × α}
    (he : e ∈ g.backEdges root) :
    g.Reaches root e.1 ∧ e.2 ∈ g.succs e.1 := by
  have hsound : (g.depthSearch root).Sound g root :=
    DepthSearch.Sound.visit _ root {} (.refl root) (fun e he => absurd he List.not_mem_nil)
  exact hsound e (List.mem_reverse.mp he)

theorem backEdges_nodup
    (hsuccs : ∀ v, (g.succs v).Nodup) :
    (g.backEdges root).Nodup := by
  have hsingle : (g.depthSearch root).Single :=
    (DepthSearch.visit_single hsuccs _ root {} List.not_mem_nil
      ⟨List.nodup_nil, fun e he => absurd he List.not_mem_nil⟩).1
  exact List.pairwise_reverse.mpr (hsingle.nodup.imp Ne.symm)

/-- The successors of a node by edges that are no back edges. -/
def forward (g : Digraph α) (root v : α) : List α :=
  (g.succs v).filter fun w => (v, w) ∉ g.backEdges root

/-- The search has depth enough for the nodes that there are. -/
theorem depthSearch_finished
    (hg : g.Closed)
    (hroot : root ∈ g.nodes) :
    (g.depthSearch root).Finished g.succs ∧
      root ∈ (g.depthSearch root).visited ∧ root ∈ (g.depthSearch root).closed :=
  DepthSearch.visit_finished hg (g.nodes.length + 1) root {} hroot List.not_mem_nil
    (Nat.le_succ_of_le ((Finset.card_le_card Finset.sdiff_subset).trans (List.toFinset_card_le _)))
    fun front v rest h => absurd h (by simp)

/-- The search visits and closes what the root reaches. -/
theorem visited_closed_of_reaches
    (hg : g.Closed)
    (hroot : root ∈ g.nodes)
    {v : α}
    (hv : g.Reaches root v) :
    v ∈ (g.depthSearch root).visited ∧ v ∈ (g.depthSearch root).closed := by
  obtain ⟨hfinished, hstart⟩ := depthSearch_finished hg hroot
  have hcompletes := DepthSearch.completes_visit g.succs (g.nodes.length + 1) root {}
  refine hv.invariant
    (P := fun v => v ∈ (g.depthSearch root).visited ∧ v ∈ (g.depthSearch root).closed) ?_ hstart
  intro u w hw hu
  obtain ⟨front, rest, hsplit⟩ := List.append_of_mem hu.2
  have hvisited := (hfinished front u rest hsplit w hw).1
  exact ⟨hvisited, (hcompletes.new w hvisited).resolve_left List.not_mem_nil⟩

/-- The nodes that the root reaches can be ordered so that every edge but the back edges leads to an
earlier one. -/
theorem exists_order_forward
    (hg : g.Closed)
    (hroot : root ∈ g.nodes) :
    ∃ order, SinksFirst (g.forward root) order ∧ ∀ v, g.Reaches root v → v ∈ order := by
  refine ⟨(g.depthSearch root).closed.reverse, ?_,
    fun v hv => List.mem_reverse.mpr (visited_closed_of_reaches hg hroot hv).2⟩
  intro front v back hsplit w hw
  obtain ⟨hw, hback⟩ := List.mem_filter.mp hw
  have hclosed : (g.depthSearch root).closed = back.reverse ++ v :: front.reverse := by
    rw [← List.reverse_reverse (g.depthSearch root).closed, hsplit]
    simp
  have hnot : (v, w) ∉ (g.depthSearch root).back := fun hmem =>
    of_decide_eq_true hback (List.mem_reverse.mpr hmem)
  have hfinished := (depthSearch_finished hg hroot).1
  exact List.mem_reverse.mp (((hfinished _ v _ hclosed w hw).2).resolve_right hnot)

end Digraph
end DefUse
