import DefUse.Iterate
import DefUse.Proofs.Graph.BackEdges
import DefUse.Proofs.Iterate

/-!
# Back edges cut the cycles

**Method.** The open nodes of a search are those on the way from the root to the node that is being
visited, so an edge to an open node closes a cycle.  A node is entered by an edge to a node that was
not visited; since no edge is looked at twice, that edge does not become a back edge later, and the
edges by which nodes are entered span what was visited.

**Results.**
* `StackSearch.endsWith_backEdges`: a loop over a stack of open nodes ends with the back edges.
* `reaches_of_mem_backEdges`: the target of a back edge leads to its source.
* `reaches_without_backEdges` and `not_leads_without_backEdges`: without the back edges, everything
  stays reachable and no cycle is left.
* `backEdges_cut_cycles`: the back edges of a table of successors.
-/

namespace DefUse
namespace Digraph

/-- The graph without the listed edges. -/
def without {α : Type} [DecidableEq α] (g : Digraph α) (cut : List (α × α)) : Digraph α where
  nodes := g.nodes
  succs := fun v => (g.succs v).filter fun w => !cut.contains (v, w)

theorem mem_without_succs_iff
    {α : Type} [DecidableEq α] {g : Digraph α} {cut : List (α × α)} {v w : α} :
    w ∈ (g.without cut).succs v ↔ w ∈ g.succs v ∧ (v, w) ∉ cut := by
  simp only [without, List.mem_filter, Bool.not_eq_true', List.contains_eq_mem,
    decide_eq_false_iff_not]

/-- What is reachable stays reachable when edges are added. -/
theorem Reaches.mono
    {α : Type} {g g' : Digraph α} {u v : α}
    (h : g.Reaches u v)
    (hsub : ∀ x y, y ∈ g.succs x → y ∈ g'.succs x) :
    g'.Reaches u v := by
  induction h with
  | refl _ => exact .refl _
  | step hedge _ ih => exact .step (hsub _ _ hedge) ih

theorem Reaches.of_without
    {α : Type} [DecidableEq α] {g : Digraph α} {cut : List (α × α)} {u v : α}
    (h : (g.without cut).Reaches u v) :
    g.Reaches u v :=
  h.mono fun _ _ hy => (mem_without_succs_iff.mp hy).1

/-- A depth-first search as a loop: a stack of open nodes, each with the successors that were not
looked at yet, and what was seen so far. -/
structure StackSearch (α : Type) where
  /-- The open nodes, the latest first. -/
  frames : List (α × List α)
  /-- What was seen. -/
  seen : DepthSearch α

namespace StackSearch

variable {α : Type} [DecidableEq α]

/-- The open node on top looks at its next successor, or is closed. -/
def step (succs : α → List α) : StackSearch α → Option (StackSearch α)
  | ⟨[], _⟩ => none
  | ⟨(v, []) :: below, s⟩ => some ⟨below, { s with closed := v :: s.closed }⟩
  | ⟨(v, w :: rest) :: below, s⟩ =>
    if w ∉ s.visited then
      some ⟨(w, succs w) :: (v, rest) :: below, { s with visited := w :: s.visited }⟩
    else if w ∈ s.closed then some ⟨(v, rest) :: below, s⟩
    else some ⟨(v, rest) :: below, { s with back := (v, w) :: s.back }⟩

/-- Only the root was visited, and none of its successors was looked at. -/
def start (g : Digraph α) (root : α) : StackSearch α where
  frames := [(root, g.succs root)]
  seen := { visited := [root] }

/-- The loop ends with the listed back edges. -/
def EndsWith (g : Digraph α) (root : α) (cut : List (α × α)) : Prop :=
  ∃ steps s, s.back.reverse = cut ∧
    ∀ bound, steps ≤ bound → runSteps (step g.succs) bound (start g root) = ⟨[], s⟩

variable {succs : α → List α} {below : List (α × List α)} {s t : StackSearch α}

/-- Some number of steps leads from one state of the loop to another. -/
def Passes (succs : α → List α) (s t : StackSearch α) : Prop :=
  ∃ steps, ∀ more, runSteps (step succs) (steps + more) s = runSteps (step succs) more t

theorem Passes.trans
    {u : StackSearch α}
    (hst : Passes succs s t)
    (htu : Passes succs t u) :
    Passes succs s u := by
  obtain ⟨m, hm⟩ := hst
  obtain ⟨n, hn⟩ := htu
  refine ⟨m + n, fun more => ?_⟩
  rw [Nat.add_assoc, hm, hn]

theorem Passes.of_step
    (h : step succs s = some t) :
    Passes succs s t := by
  refine ⟨1, fun more => ?_⟩
  rw [Nat.add_comm, runSteps, h]

section Simulation

open ComponentSearch (room room_le_of_subset room_cons_lt)
open DepthSearch (look visit_succ completes_look completes_visit)

variable {g : Digraph α}

/-- The loop looks at the successors of the node on top and closes it, as the recursive search does
if it has depth enough for the nodes that were not visited. -/
theorem passes_foldl_look
    (hg : g.Closed)
    (depth : Nat) :
    ∀ (rest : List α) (v : α) (below : List (α × List α)) (s : DepthSearch α),
      (∀ w ∈ rest, w ∈ g.nodes) →
      room g s.visited ≤ depth →
      Passes g.succs ⟨(v, rest) :: below, s⟩
        ⟨below, { rest.foldl (look g.succs depth v) s with
          closed := v :: (rest.foldl (look g.succs depth v) s).closed }⟩ := by
  induction depth using Nat.strong_induction_on with
  | _ depth ih =>
      intro rest
      induction rest with
      | nil => exact fun v below s _ _ => .of_step rfl
      | cons w rest ihrest =>
          intro v below s hrest hroom
          have hnext : Passes g.succs ⟨(v, w :: rest) :: below, s⟩
              ⟨(v, rest) :: below, look g.succs depth v s w⟩ := by
            unfold look
            split
            · rename_i hnew
              have hnode := hrest w List.mem_cons_self
              have hlt := room_cons_lt hnode hnew
              -- the nodes that were not visited are fewer below `w`
              obtain ⟨depth, rfl⟩ : ∃ d, depth = d + 1 := ⟨depth - 1, by omega⟩
              have hdown := ih depth (Nat.lt_succ_self depth) (g.succs w) w ((v, rest) :: below)
                { s with visited := w :: s.visited } (hg w hnode) (by simpa using by omega)
              refine .trans (.of_step ?_) hdown
              simp only [step, if_pos hnew]
            · rename_i hold
              split
              · rename_i hclosed
                refine .of_step ?_
                simp only [step, if_neg hold, if_pos hclosed]
              · rename_i hopen
                refine .of_step ?_
                simp only [step, if_neg hold, if_neg hopen]
          have hgrow := completes_look (completes_visit g.succs depth) v s w
          exact hnext.trans (ihrest v below _ (fun x hx => hrest x (List.mem_cons_of_mem w hx))
            ((room_le_of_subset hgrow.visited).trans hroom))

/-- The loop ends with the back edges of the recursive search. -/
theorem endsWith_backEdges
    {root : α}
    (hg : g.Closed)
    (hroot : root ∈ g.nodes) :
    EndsWith g root (g.backEdges root) := by
  have hroom : room g [root] ≤ g.nodes.length :=
    (Finset.card_le_card Finset.sdiff_subset).trans (List.toFinset_card_le _)
  obtain ⟨steps, hsteps⟩ := passes_foldl_look hg g.nodes.length (g.succs root) root []
    { visited := [root] } (hg root hroot) hroom
  refine ⟨steps, g.depthSearch root, rfl, fun bound hbound => ?_⟩
  obtain ⟨more, rfl⟩ := Nat.exists_eq_add_of_le hbound
  refine (hsteps more).trans ?_
  cases more with
  | zero => rfl
  | succ more => rfl

end Simulation

end StackSearch

namespace DepthSearch

variable {α : Type} [DecidableEq α] {g : Digraph α} {v w : α} {s t : DepthSearch α}

section Cycles

/-- Every back edge closes a cycle. -/
def Cyclic (g : Digraph α) (s : DepthSearch α) : Prop :=
  ∀ e ∈ s.back, g.Reaches e.2 e.1

/-- The open nodes lead to a node. -/
def LeadsTo (g : Digraph α) (v : α) (s : DepthSearch α) : Prop :=
  ∀ x ∈ s.visited, x ∉ s.closed → g.Reaches x v

omit [DecidableEq α] in
/-- What a search that goes on leaves open was open before. -/
theorem LeadsTo.of_completes
    (h : s.LeadsTo g v)
    (hst : s.Completes t) :
    t.LeadsTo g v := by
  intro x hx hopen
  rcases hst.new x hx with hx | hclosed
  · exact h x hx fun hclosed => hopen (hst.closed hclosed)
  · exact absurd hclosed hopen

theorem Cyclic.step
    {depth : Nat}
    (hvisit : ∀ w (s : DepthSearch α), s.LeadsTo g w → s.Cyclic g →
      (s.visit g.succs depth w).Cyclic g)
    (hw : w ∈ g.succs v)
    (hopen : s.LeadsTo g v)
    (hs : s.Cyclic g) :
    (look g.succs depth v s w).Cyclic g := by
  unfold look
  split
  · exact hvisit w s (fun x hx hx' => (hopen x hx hx').trans (.single hw)) hs
  · rename_i hold
    split
    · exact hs
    · rename_i hclosed
      intro e he
      rcases List.mem_cons.mp he with rfl | he
      · exact hopen w (not_not.mp hold) hclosed
      · exact hs e he

theorem Cyclic.visit
    (depth : Nat) :
    ∀ v (s : DepthSearch α), s.LeadsTo g v → s.Cyclic g → (s.visit g.succs depth v).Cyclic g := by
  induction depth with
  | zero => exact fun _ _ _ hs => hs
  | succ depth ih =>
      intro v s hopen hs
      have hstart : LeadsTo g v { s with visited := v :: s.visited } := by
        intro x hx hx'
        rcases List.mem_cons.mp hx with rfl | hx
        · exact .refl x
        · exact hopen x hx hx'
      rw [visit_succ]
      refine (List.foldlRecOn (motive := fun t => LeadsTo g v t ∧ Cyclic g t) (g.succs v) _
        ⟨hstart, hs⟩ ?_).2
      intro t ht w hw
      exact ⟨ht.1.of_completes (completes_look (completes_visit g.succs depth) v t w),
        ht.2.step ih hw ht.1⟩

end Cycles

section Spanning

/-- The edges by which a visit of `v` from the state `s` may have entered nodes: they leave nodes
that were visited since, and are no back edges; those of `v` itself lead to what was looked at. -/
def entering (g : Digraph α) (v : α) (looked : List α) (s t : DepthSearch α) : Digraph α where
  nodes := g.nodes
  succs := fun u => ((g.without t.back).succs u).filter fun w =>
    u ∈ t.visited ∧ u ∉ s.visited ∧ (u = v → w ∈ looked)

theorem mem_entering_iff
    {looked : List α} {u : α} :
    w ∈ (entering g v looked s t).succs u ↔ w ∈ g.succs u ∧
      u ∈ t.visited ∧ u ∉ s.visited ∧ (u, w) ∉ t.back ∧ (u = v → w ∈ looked) := by
  simp only [entering, List.mem_filter, mem_without_succs_iff, decide_eq_true_eq]
  tauto

/-- What was visited since the visit of `v` began was entered by edges from `v` on. -/
def Spanned (g : Digraph α) (v : α) (looked : List α) (s t : DepthSearch α) : Prop :=
  ∀ x ∈ t.visited, x ∉ s.visited → (entering g v looked s t).Reaches v x

/-- An edge by which a node was entered stays one when the search goes on. -/
theorem Spanned.reaches_of_extends
    {looked : List α} {t' : DepthSearch α} {x : α}
    (h : Spanned g v looked s t)
    (hvisited : ∀ u ∈ t.visited, u ∈ t'.visited)
    (hback : ∀ u y, u ∈ t.visited → (u = v → y ∈ looked) → (u, y) ∈ t'.back → (u, y) ∈ t.back)
    (hx : x ∈ t.visited)
    (hxs : x ∉ s.visited) :
    (entering g v (looked ++ [w]) s t').Reaches v x := by
  refine (h x hx hxs).mono fun u y hy => ?_
  obtain ⟨hedge, hu, hus, hnot, hseen⟩ := mem_entering_iff.mp hy
  exact mem_entering_iff.mpr ⟨hedge, hvisited u hu, hus,
    fun hmem => hnot (hback u y hu hseen hmem), fun huv => List.mem_append_left _ (hseen huv)⟩

theorem Spanned.step
    {depth : Nat} {looked : List α}
    (hgrows : w ∉ t.visited → t.Extends (t.visit g.succs depth w))
    (hvisit : w ∉ t.visited → Spanned g w (g.succs w) t (t.visit g.succs depth w))
    (hw : w ∈ g.succs v)
    (hnew : w ∉ looked)
    (hv : v ∉ s.visited)
    (hlooked : Looked v looked s t)
    (h : Spanned g v looked s t) :
    Spanned g v (looked ++ [w]) s (look g.succs depth v t w) := by
  unfold look
  split
  · rename_i hfresh
    have hgrow := hgrows hfresh
    have hspan := hvisit hfresh
    intro x hx hxs
    by_cases hxt : x ∈ t.visited
    · exact h.reaches_of_extends hgrow.visited (fun u y hu _ hmem => hgrow.back _ hmem hu) hxt hxs
    · -- `x` was entered below `w`, and `w` by the edge that is looked at
      have hbelow : (entering g v (looked ++ [w]) s (t.visit g.succs depth w)).Reaches w x := by
        refine (hspan x hx hxt).mono fun u y hy => ?_
        obtain ⟨hedge, hu, hut, hnot, -⟩ := mem_entering_iff.mp hy
        refine mem_entering_iff.mpr
          ⟨hedge, hu, fun hus => hut (hlooked.grown.visited u hus), hnot, ?_⟩
        rintro rfl
        exact absurd hlooked.visited hut
      refine .step (mem_entering_iff.mpr ⟨hw, hgrow.visited v hlooked.visited, hv, ?_, ?_⟩) hbelow
      · exact fun hmem => hnew (hlooked.targets w (hgrow.back _ hmem hlooked.visited))
      · exact fun _ => List.mem_append_right _ List.mem_cons_self
  · split
    · exact fun x hx hxs =>
        h.reaches_of_extends (fun _ hu => hu) (fun _ _ _ _ hmem => hmem) hx hxs
    · intro x hx hxs
      refine h.reaches_of_extends (fun _ hu => hu) (fun u y _ hseen hmem => ?_) hx hxs
      rcases List.mem_cons.mp hmem with heq | hmem
      · obtain ⟨rfl, rfl⟩ := Prod.mk.inj heq
        exact absurd (hseen rfl) hnew
      · exact hmem

theorem Spanned.foldl
    {depth : Nat}
    (hsuccs : ∀ v, (g.succs v).Nodup)
    (hvisit : ∀ w (t : DepthSearch α), w ∉ t.visited → t.Single →
      Spanned g w (g.succs w) t (t.visit g.succs depth w))
    (hv : v ∉ s.visited)
    (rest : List α) :
    ∀ {looked : List α} {t : DepthSearch α}, (looked ++ rest).Nodup → (∀ w ∈ rest, w ∈ g.succs v) →
      Looked v looked s t → Spanned g v looked s t →
      Spanned g v (looked ++ rest) s (rest.foldl (look g.succs depth v) t) := by
  induction rest with
  | nil =>
      intro looked t _ _ _ h
      rw [List.append_nil]
      exact h
  | cons w rest ih =>
      intro looked t hnodup hrest hlooked h
      have hnew : w ∉ looked := fun hmem =>
        (List.nodup_append.mp hnodup).2.2 w hmem w List.mem_cons_self rfl
      rw [List.append_cons] at hnodup ⊢
      refine ih hnodup (fun x hx => hrest x (List.mem_cons_of_mem w hx))
        (hlooked.step (visit_single hsuccs depth) hv hnew) ?_
      exact h.step (fun hfresh => (visit_single hsuccs depth w t hfresh hlooked.single).2)
        (fun hfresh => hvisit w t hfresh hlooked.single) (hrest w List.mem_cons_self) hnew hv
        hlooked

/-- What a visit enters is spanned by edges that are no back edges in the end. -/
theorem Spanned.visit
    (hsuccs : ∀ v, (g.succs v).Nodup)
    (depth : Nat) :
    ∀ v (s : DepthSearch α), v ∉ s.visited → s.Single →
      Spanned g v (g.succs v) s (s.visit g.succs depth v) := by
  induction depth with
  | zero => exact fun _ _ _ _ _ hx hxs => absurd hx hxs
  | succ depth ih =>
      intro v s hv hs
      have hstart : Spanned g v [] s { s with visited := v :: s.visited } := by
        intro x hx hxs
        obtain rfl := (List.mem_cons.mp hx).resolve_right hxs
        exact .refl x
      exact Spanned.foldl hsuccs ih hv (g.succs v) (hsuccs v) (fun _ hw => hw)
        (hs.looked_enter hv) hstart

end Spanning

end DepthSearch

section Cut

variable {α : Type} [DecidableEq α] {g : Digraph α} {root v w : α}

/-- The target of a back edge leads to its source. -/
theorem reaches_of_mem_backEdges
    {e : α × α}
    (he : e ∈ g.backEdges root) :
    g.Reaches e.2 e.1 := by
  have hcyclic : (g.depthSearch root).Cyclic g :=
    DepthSearch.Cyclic.visit _ root {} (fun x hx => absurd hx List.not_mem_nil)
      fun e he => absurd he List.not_mem_nil
  exact hcyclic e (List.mem_reverse.mp he)

/-- The edges that are no back edges lead from the root to all that is visited. -/
theorem reaches_without_of_mem_visited
    (hsuccs : ∀ v, (g.succs v).Nodup)
    (hv : v ∈ (g.depthSearch root).visited) :
    (g.without (g.backEdges root)).Reaches root v := by
  have hspan := DepthSearch.Spanned.visit hsuccs (g.nodes.length + 1) root {} List.not_mem_nil
    ⟨List.nodup_nil, fun e he => absurd he List.not_mem_nil⟩
  refine (hspan v hv List.not_mem_nil).mono fun u w hw => ?_
  obtain ⟨hedge, -, -, hnot, -⟩ := DepthSearch.mem_entering_iff.mp hw
  exact mem_without_succs_iff.mpr ⟨hedge, fun hmem => hnot (List.mem_reverse.mp hmem)⟩

/-- Without the back edges, the root reaches what it reached before. -/
theorem reaches_without_backEdges
    (hg : g.Closed)
    (hroot : root ∈ g.nodes)
    (hsuccs : ∀ v, (g.succs v).Nodup)
    (hv : g.Reaches root v) :
    (g.without (g.backEdges root)).Reaches root v :=
  reaches_without_of_mem_visited hsuccs (visited_closed_of_reaches hg hroot hv).1

/-- The edges that are left without the back edges are the forward edges. -/
theorem mem_forward_of_without
    (hw : w ∈ (g.without (g.backEdges root)).succs v) :
    w ∈ g.forward root v := by
  obtain ⟨hedge, hnot⟩ := mem_without_succs_iff.mp hw
  exact List.mem_filter.mpr ⟨hedge, decide_eq_true hnot⟩

/-- Without the back edges, no cycle is left among the nodes that the root reaches. -/
theorem not_leads_without_backEdges
    (hg : g.Closed)
    (hroot : root ∈ g.nodes)
    (hv : g.Reaches root v) :
    ¬ (g.without (g.backEdges root)).Leads v v := by
  obtain ⟨order, hsinks, hall⟩ := exists_order_forward hg hroot
  -- edges lead to smaller positions of the order
  have hlt : ∀ {x y : α}, (g.without (g.backEdges root)).Reaches x y → g.Reaches root x →
      order.idxOf y ≤ order.idxOf x := by
    intro x y hxy
    induction hxy with
    | refl _ => exact fun _ => Nat.le_refl _
    | step hedge _ ih =>
        intro hx
        have hstep := hsinks.idxOf_lt (hall _ hx) (mem_forward_of_without hedge)
        exact (ih (hx.trans (.single (mem_without_succs_iff.mp hedge).1))).trans
          (Nat.le_of_lt hstep)
  rintro ⟨w, hw, hwv⟩
  have hstep := hsinks.idxOf_lt (hall v hv) (mem_forward_of_without hw)
  have := hlt hwv (hv.trans (.single (mem_without_succs_iff.mp hw).1))
  omega

/-- There are no back edges exactly if the root reaches no cycle. -/
theorem backEdges_eq_nil_iff
    (hg : g.Closed)
    (hroot : root ∈ g.nodes) :
    g.backEdges root = [] ↔ ∀ v, g.Reaches root v → ¬ g.Leads v v := by
  constructor
  · rintro hnil v hv ⟨w, hw, hwv⟩
    refine not_leads_without_backEdges hg hroot hv ⟨w, ?_, hwv.mono fun x y hy => ?_⟩
    · exact mem_without_succs_iff.mpr ⟨hw, by simp [hnil]⟩
    · exact mem_without_succs_iff.mpr ⟨hy, by simp [hnil]⟩
  · intro hacyclic
    by_contra hne
    obtain ⟨e, he⟩ := List.exists_mem_of_ne_nil _ hne
    obtain ⟨hsource, hedge⟩ := mem_backEdges he
    exact hacyclic e.1 hsource ⟨e.2, hedge, reaches_of_mem_backEdges he⟩

end Cut

section Tables

variable {rows : Array (List Int)} {root : Int}

theorem mem_ofTable_succs_iff
    {v w : Int} :
    w ∈ (ofTable rows).succs v ↔ ∃ row, item? rows v = some row ∧ w ∈ row := by
  simp only [ofTable]
  cases item? rows v with
  | none => simp
  | some row => simp

theorem ofTable_closed
    (hrows : ∀ row ∈ rows, ∀ w ∈ row, w ∈ positions rows.size) :
    (ofTable rows).Closed := by
  intro v hv w hw
  obtain ⟨row, hrow, hmem⟩ := item?_eq_some_of_mem_positions hv
  obtain ⟨row', hrow', hw⟩ := mem_ofTable_succs_iff.mp hw
  obtain rfl := Option.some.inj (hrow.symm.trans hrow')
  exact hrows row hmem w hw

theorem ofTable_nodup
    (hrows : ∀ row ∈ rows, row.Nodup)
    (v : Int) :
    ((ofTable rows).succs v).Nodup := by
  by_cases hv : v ∈ positions rows.size
  · obtain ⟨row, hrow, hmem⟩ := item?_eq_some_of_mem_positions hv
    simpa only [ofTable, hrow, Option.getD_some] using hrows row hmem
  · rw [mem_positions] at hv
    simp only [ofTable, item?_eq_none hv, Option.getD_none, List.nodup_nil]

/-- The back edges of a table of successors without repetitions are found, and are distinct edges of
nodes that the root reaches.  Without them no cycle is left and everything stays reachable; each of
them closes a cycle. -/
theorem backEdges_cut_cycles
    (hrows : ∀ row ∈ rows, row.Nodup ∧ ∀ w ∈ row, w ∈ positions rows.size)
    (hroot : root ∈ positions rows.size) :
    ∃ cut,
      tableBackEdges? rows.size rows root = .ok (cut.map Edge.ofPair) ∧
      StackSearch.EndsWith (ofTable rows) root cut ∧
      cut.Nodup ∧
      (∀ e ∈ cut, (ofTable rows).Reaches root e.1 ∧ e.2 ∈ (ofTable rows).succs e.1 ∧
        (ofTable rows).Reaches e.2 e.1) ∧
      (∀ v, (ofTable rows).Reaches root v → ((ofTable rows).without cut).Reaches root v ∧
        ¬ ((ofTable rows).without cut).Leads v v) ∧
      (cut = [] ↔ ∀ v, (ofTable rows).Reaches root v → ¬ (ofTable rows).Leads v v) := by
  have hclosed : (ofTable rows).Closed := ofTable_closed fun row hrow => (hrows row hrow).2
  have hnodup := ofTable_nodup fun row hrow => (hrows row hrow).1
  refine ⟨(ofTable rows).backEdges root, ?_, StackSearch.endsWith_backEdges hclosed hroot,
    backEdges_nodup hnodup, fun e he => ?_, fun v hv => ?_, backEdges_eq_nil_iff hclosed hroot⟩
  · -- the search visits nodes of the table only
    have hfault :
        visitFault rows.size rows ((ofTable rows).depthSearch root).visited.reverse = none := by
      rw [visitFault, List.findSome?_eq_none_iff]
      intro v hv
      have hreach := (reaches_without_of_mem_visited hnodup (List.mem_reverse.mp hv)).of_without
      have hnode : v ∈ positions rows.size := hclosed.reaches hroot hreach
      have hrow := (item?_isSome_iff rows v).mpr (mem_positions.mp hnode)
      rw [if_pos (mem_positions.mp hnode), if_neg (by simp [Option.isNone_eq_false_iff.mpr hrow])]
    simp only [tableBackEdges?, hfault]
    rfl
  · obtain ⟨hsource, hedge⟩ := mem_backEdges he
    exact ⟨hsource, hedge, reaches_of_mem_backEdges he⟩
  · exact ⟨reaches_without_backEdges hclosed hroot hnodup hv,
      not_leads_without_backEdges hclosed hroot hv⟩

/-- A loop with two entries, and an edge from a node to itself. -/
theorem backEdges_cut_cycles_twoEntries :
    tableBackEdges? 3 #[[1, 2], [2], [1, 2]] 0 = .ok [⟨2, 1⟩, ⟨2, 2⟩] ∧
      ∃ cut,
        tableBackEdges? 3 #[[1, 2], [2], [1, 2]] 0 = .ok (cut.map Edge.ofPair) ∧
        ∀ v, (ofTable #[[1, 2], [2], [1, 2]]).Reaches 0 v →
          ¬ ((ofTable #[[1, 2], [2], [1, 2]]).without cut).Leads v v := by
  refine ⟨by decide +kernel, ?_⟩
  obtain ⟨cut, hrun, -, -, -, hcut, -⟩ :=
    @backEdges_cut_cycles #[[1, 2], [2], [1, 2]] 0 (by decide) (by decide)
  exact ⟨cut, hrun, fun v hv => (hcut v hv).2⟩

end Tables

end Digraph
end DefUse
