import DefUse.Order.GraphOrder
import DefUse.Proofs.Graph.Components
import DefUse.Proofs.Graph.Dominance
import DefUse.Proofs.Program.Finalized

/-!
# What the tables of the order say about walks

**Results.**
* `reaches_iff`: inside a procedure, the oracle knows the way between two points exactly if edges
  lead from the one to the other or the procedure can call itself.
* `mem_front_of_dominates` and `mem_back_of_postdominates`: on a walk through a procedure, what
  dominates a node stands before it, and what post-dominates it stands after it.
* `dominates_iff` and `postdominates_iff`: the oracle knows dominance exactly.
* `mem_selfCalling_iff`: the procedures on cycles of calls are those that can call themselves.
-/

namespace DefUse

/-- A walk through a procedure, from its entry to its exit. -/
structure Procedure.IsComplete (f : Procedure) (walk : List Int) : Prop where
  isWalk : f.graph.IsWalk walk
  starts : walk.head? = some entryId
  ends : walk.getLast? = some exitId

namespace Procedure

/-- The entry leads to both nodes, and every walk from it to the second one visits the first. -/
def Dominates (f : Procedure) (a b : Int) : Prop :=
  f.graph.Reaches entryId a ∧ f.graph.Reaches entryId b ∧
    ∀ walk, f.graph.IsWalk walk → walk.head? = some entryId → walk.getLast? = some b → a ∈ walk

/-- Both nodes lead to the exit, and every walk from the second one to it visits the first. -/
def Postdominates (f : Procedure) (a b : Int) : Prop :=
  f.graph.Reaches a exitId ∧ f.graph.Reaches b exitId ∧
    ∀ walk, f.graph.IsWalk walk → walk.head? = some b → walk.getLast? = some exitId → a ∈ walk

/-- The first node executes before the second one whenever both do. -/
def Precedes (f : Procedure) (a b : Int) : Prop :=
  f.Dominates a b ∨ f.Postdominates b a

/-- A node that precedes some node from the one side precedes itself. -/
theorem Precedes.refl_right
    {f : Procedure} {a b : Int}
    (h : f.Precedes a b) :
    f.Precedes b b := by
  rcases h with ⟨-, hb, -⟩ | ⟨hb, -, -⟩
  · refine Or.inl ⟨hb, hb, ?_⟩
    intro walk _ _ hlast
    exact List.mem_of_getLast? hlast
  · refine Or.inr ⟨hb, hb, ?_⟩
    intro walk _ hhead _
    exact List.mem_of_mem_head? hhead

end Procedure

namespace Program

variable {prog : Program} {p : Int}

/-- A procedure that can call itself is listed as such. -/
theorem mem_selfCalling_of_leads
    (hprog : prog.Finalized)
    (hp : p ∈ prog.procIds)
    (h : prog.calls.Leads p p) :
    p ∈ prog.selfCalling := by
  obtain ⟨q, hq, hback⟩ := h
  unfold selfCalling
  simp only [List.mem_append, List.mem_flatten, List.mem_filter, decide_eq_true_eq]
  by_cases hqp : q = p
  · subst hqp
    exact Or.inr ⟨hp, hq⟩
  · left
    have hflat : p ∈ (prog.calls.components prog.procIds).flatten :=
      (Digraph.mem_flatten_components_iff (hprog.calls_closed.covers fun _ h => h)).mpr
        ⟨p, hp, .refl p⟩
    obtain ⟨c, hc, hpc⟩ := List.mem_flatten.mp hflat
    have hqc : q ∈ c :=
      (Digraph.mem_component_iff (hprog.calls_closed.covers fun _ h => h) hc hpc).mpr
        ⟨.single hq, hback⟩
    refine ⟨c, ⟨hc, ?_⟩, hpc⟩
    match c, hpc, hqc with
    | [x], hx, hy =>
        exact absurd ((List.mem_singleton.mp hy).trans (List.mem_singleton.mp hx).symm) hqp
    | _ :: _ :: _, _, _ => simp

/-- The procedures listed as calling themselves are those that one or more calls lead back to. -/
theorem mem_selfCalling_iff
    (hprog : prog.Finalized)
    (hp : p ∈ prog.procIds) :
    p ∈ prog.selfCalling ↔ prog.calls.Leads p p := by
  constructor
  · intro h
    unfold selfCalling at h
    simp only [List.mem_append, List.mem_flatten, List.mem_filter, decide_eq_true_eq] at h
    rcases h with ⟨c, ⟨hc, hlong⟩, hpc⟩ | ⟨-, hcallee⟩
    · have hnodup : c.Nodup := (List.nodup_flatten.mp
        (Digraph.flatten_components_nodup (hprog.calls_closed.covers fun _ h => h))).1 c hc
      obtain ⟨q, hq, hne⟩ : ∃ q ∈ c, q ≠ p := by
        match c, hlong, hnodup with
        | x :: y :: _, _, hnodup =>
            by_cases hx : x = p
            · refine ⟨y, by simp, ?_⟩
              rintro rfl
              simp [hx] at hnodup
            · exact ⟨x, by simp, hx⟩
      obtain ⟨hpq, hqp⟩ :=
        (Digraph.mem_component_iff (hprog.calls_closed.covers fun _ h => h) hc hpc).mp hq
      cases hpq with
      | refl _ => exact absurd rfl hne
      | step hs hrest => exact ⟨_, hs, hrest.trans hqp⟩
    · exact ⟨p, hcallee, .refl p⟩
  · exact mem_selfCalling_of_leads hprog hp

end Program

namespace GraphOrder

variable {prog : Program} {a b : Point}

theorem fetch_procs
    (ha : a.proc ∈ prog.procIds) :
    fetch (ofProgram prog).procs a.proc = .ok (.ofProcedure (prog.proc a.proc)) :=
  Program.fetch_map_procs _ ha

theorem mem_procIds_of_fetch
    {order : ProcOrder}
    (h : fetch (ofProgram prog).procs a.proc = .ok order) :
    a.proc ∈ prog.procIds := by
  rw [fetch_eq_ok_iff] at h
  have hsome : (item? (ofProgram prog).procs a.proc).isSome := by rw [h]; rfl
  rw [item?_isSome_iff] at hsome
  rw [Program.procIds, mem_positions]
  simpa [ofProgram] using hsome

/-- The answer for two points of one procedure. -/
theorem reaches?_eq
    (ha : prog.HasPoint a)
    (hproc : a.proc = b.proc)
    (across : Bool) :
    (ofProgram prog).reaches? a b across =
      .ok (across && decide (a.proc ∈ prog.selfCalling) ||
        ((prog.proc a.proc).graph.reachFrom a.node).contains b.node) := by
  have hself : fetch (ofProgram prog).selfCalling a.proc =
      .ok (decide (a.proc ∈ prog.selfCalling)) :=
    fetch_map_positions _ ha.1
  have hreach : fetch (ProcOrder.ofProcedure (prog.proc a.proc)).reach a.node =
      .ok ((prog.proc a.proc).graph.reachFrom a.node) :=
    fetch_map_positions _ ha.2
  unfold reaches?
  have hsame : ¬ a.proc ≠ b.proc := not_not.mpr hproc
  simp only [hsame, if_false, hself, fetch_procs ha.1, hreach, bind, Except.bind,
    pure, Except.pure]
  cases across
  · simp
  · by_cases hmem : a.proc ∈ prog.selfCalling
    · simp [hmem]
    · simp [hmem]

theorem reaches_iff
    (hprog : prog.Finalized)
    (ha : a.proc ∈ prog.procIds)
    (hn : a.node ∈ (prog.proc a.proc).ids)
    (hb : b.proc = a.proc) :
    (ofProgram prog).oracle.reaches a b true = true ↔
      a.proc ∈ prog.selfCalling ∨ (prog.proc a.proc).graph.Leads a.node b.node := by
  rw [← Digraph.mem_reachFrom_iff (hprog.graph_closed ha) (by simpa using hn)]
  simp [oracle, reaches?_eq ⟨ha, hn⟩ hb.symm, answer]

theorem exists_of_answer_bind
    {α : Type} {x : Except Fault α} {f : α → Except Fault Bool}
    (h : answer (x >>= f) = true) :
    ∃ v, x = .ok v ∧ answer (f v) = true := by
  cases x with
  | error e => exact absurd h Bool.false_ne_true
  | ok v => exact ⟨v, rfl, h⟩

theorem eq_of_fetch_positions
    {α : Type} {f : Int → α} {n : Nat} {i : Int} {x : α}
    (h : fetch ((positions n).map f).toArray i = .ok x) :
    f i = x := by
  rw [fetch_eq_ok_iff] at h
  have hi : i ∈ positions n := by
    have hsome : (item? ((positions n).map f).toArray i).isSome := by
      rw [h]
      rfl
    rw [item?_isSome_iff] at hsome
    rw [mem_positions]
    simpa [positions] using hsome
  rw [item?_map_positions _ hi] at h
  exact Option.some.inj h

theorem mem_of_lookupDominated
    {table : Int → List Int} {n : Nat} {x y : Int}
    (h : answer (lookupDominated ((positions n).map table).toArray x y) = true) :
    y ∈ table x := by
  obtain ⟨row, hrow, h⟩ := exists_of_answer_bind h
  obtain rfl := eq_of_fetch_positions hrow
  split at h
  · exact absurd h Bool.false_ne_true
  · obtain ⟨_, _, h⟩ := exists_of_answer_bind h
    simpa [answer, pure, Except.pure] using h

/-- Both tables of dominated nodes are consulted in the same way. -/
theorem mem_of_answer
    {select : ProcOrder → Array (List Int)} {table : Procedure → Int → List Int}
    (hselect : ∀ f, select (.ofProcedure f) = (f.ids.map (table f)).toArray)
    (h : answer (do
      if a.proc ≠ b.proc then return false
      let order ← fetch (ofProgram prog).procs a.proc
      lookupDominated (select order) a.node b.node) = true) :
    a.proc = b.proc ∧ a.proc ∈ prog.procIds ∧ b.node ∈ table (prog.proc a.proc) a.node := by
  split at h
  · exact absurd h Bool.false_ne_true
  · rename_i hproc
    obtain ⟨order, horder, h⟩ := exists_of_answer_bind h
    have ha := mem_procIds_of_fetch horder
    obtain rfl := Except.ok.inj ((fetch_procs ha).symm.trans horder)
    rw [hselect] at h
    exact ⟨not_not.mp hproc, ha, mem_of_lookupDominated h⟩

theorem dominates_spec
    (h : (ofProgram prog).oracle.dominates a b = true) :
    a.proc = b.proc ∧ a.proc ∈ prog.procIds ∧
      b.node ∈ (prog.proc a.proc).graph.dominated entryId a.node :=
  mem_of_answer (fun _ => rfl) h

theorem postdominates_spec
    (h : (ofProgram prog).oracle.postdominates a b = true) :
    a.proc = b.proc ∧ a.proc ∈ prog.procIds ∧
      b.node ∈ (prog.proc a.proc).graph.reverse.dominated exitId a.node :=
  mem_of_answer (fun _ => rfl) h

theorem lookupDominated_eq
    {table : Int → List Int} {n : Nat} {x y : Int}
    (hx : x ∈ positions n)
    (hy : y ∈ positions n) :
    lookupDominated ((positions n).map table).toArray x y = .ok ((table x).contains y) := by
  simp only [lookupDominated, fetch_map_positions _ hx, fetch_map_positions _ hy, bind,
    Except.bind, pure, Except.pure]
  cases table x <;> rfl

/-- For points of one procedure both tables of dominated nodes answer exactly. -/
theorem answer_iff
    {select : ProcOrder → Array (List Int)} {table : Procedure → Int → List Int}
    (hselect : ∀ f, select (.ofProcedure f) = (f.ids.map (table f)).toArray)
    (ha : a.proc ∈ prog.procIds)
    (hb : b.proc = a.proc)
    (hna : a.node ∈ (prog.proc a.proc).ids)
    (hnb : b.node ∈ (prog.proc a.proc).ids) :
    answer (do
      if a.proc ≠ b.proc then return false
      let order ← fetch (ofProgram prog).procs a.proc
      lookupDominated (select order) a.node b.node) = true ↔
      b.node ∈ table (prog.proc a.proc) a.node := by
  constructor
  · intro h
    exact (mem_of_answer hselect h).2.2
  · intro h
    rw [if_neg (not_not.mpr hb.symm), fetch_procs ha]
    simp only [bind, Except.bind, hselect]
    rw [Procedure.ids] at hna hnb ⊢
    rw [lookupDominated_eq hna hnb, List.contains_iff_mem.mpr h]
    rfl

/-- The oracle knows dominance exactly. -/
theorem dominates_iff
    (hprog : prog.Finalized)
    (ha : a.proc ∈ prog.procIds)
    (hb : b.proc = a.proc)
    (hna : a.node ∈ (prog.proc a.proc).ids)
    (hnb : b.node ∈ (prog.proc a.proc).ids) :
    (ofProgram prog).oracle.dominates a b = true ↔
      (prog.proc a.proc).Dominates a.node b.node := by
  refine (answer_iff (fun _ => rfl) ha hb hna hnb).trans ?_
  rw [Digraph.mem_dominated_iff (hprog.graph_closed ha) (by simpa using hprog.entry_mem ha)]
  refine and_congr_right fun _ => and_congr_right fun _ => ?_
  constructor
  · intro hall walk hwalk hhead hlast
    obtain ⟨rest, rfl⟩ := List.head?_eq_some_iff.mp hhead
    exact hall rest hwalk hlast
  · intro hall rest hwalk hlast
    exact hall _ hwalk rfl hlast

/-- The oracle knows post-dominance exactly. -/
theorem postdominates_iff
    (hprog : prog.Finalized)
    (ha : a.proc ∈ prog.procIds)
    (hb : b.proc = a.proc)
    (hna : a.node ∈ (prog.proc a.proc).ids)
    (hnb : b.node ∈ (prog.proc a.proc).ids) :
    (ofProgram prog).oracle.postdominates a b = true ↔
      (prog.proc a.proc).Postdominates a.node b.node := by
  refine (answer_iff (fun _ => rfl) ha hb hna hnb).trans ?_
  rw [Digraph.mem_dominated_reverse_iff (hprog.graph_closed ha)
    (by simpa using hprog.exit_mem ha) (by simpa using hna) (by simpa using hnb)]
  refine and_congr_right fun _ => and_congr_right fun _ => ?_
  constructor
  · intro hall walk hwalk hhead hlast
    obtain ⟨rest, rfl⟩ := List.head?_eq_some_iff.mp hhead
    exact hall rest hwalk hlast
  · intro hall rest hwalk hlast
    exact hall _ hwalk rfl hlast

section Walks

variable {walk front back : List Int}

/-- What dominates a node of a walk through the procedure stands before it. -/
theorem mem_front_of_dominates
    (hprog : prog.Finalized)
    (h : (ofProgram prog).oracle.dominates a b = true)
    (hne : a.node ≠ b.node)
    (hwalk : (prog.proc a.proc).IsComplete walk)
    (hsplit : walk = front ++ b.node :: back) :
    a.node ∈ front := by
  obtain ⟨-, ha, hdom⟩ := dominates_spec h
  have hentry : entryId ∈ (prog.proc a.proc).graph.nodes := by
    rw [Procedure.graph_nodes]
    exact hprog.entry_mem ha
  obtain ⟨-, -, hall⟩ := (Digraph.mem_dominated_iff (hprog.graph_closed ha) hentry).mp hdom
  have hfront : (prog.proc a.proc).graph.IsWalk (front ++ [b.node]) := by
    refine hwalk.isWalk.infix ⟨[], back, ?_⟩
    rw [hsplit]
    simp
  obtain ⟨rest, hrest⟩ : ∃ rest, front ++ [b.node] = entryId :: rest := by
    have hstarts := hwalk.starts
    rw [hsplit] at hstarts
    cases front with
    | nil => exact ⟨[], by simpa using hstarts⟩
    | cons x front =>
        obtain rfl : x = entryId := by simpa using hstarts
        exact ⟨front ++ [b.node], rfl⟩
  have hmem := hall rest (hrest ▸ hfront) (by rw [← hrest]; simp)
  rw [← hrest, List.mem_append, List.mem_singleton] at hmem
  exact hmem.resolve_right hne

/-- What post-dominates a node of a walk through the procedure stands after it. -/
theorem mem_back_of_postdominates
    (hprog : prog.Finalized)
    (h : (ofProgram prog).oracle.postdominates a b = true)
    (hne : a.node ≠ b.node)
    (hwalk : (prog.proc a.proc).IsComplete walk)
    (hsplit : walk = front ++ b.node :: back) :
    a.node ∈ back := by
  obtain ⟨-, ha, hdom⟩ := postdominates_spec h
  have hclosed := hprog.graph_closed ha
  have hentry : entryId ∈ (prog.proc a.proc).graph.nodes := by
    rw [Procedure.graph_nodes]
    exact hprog.entry_mem ha
  have hexit : exitId ∈ (prog.proc a.proc).graph.nodes := by
    rw [Procedure.graph_nodes]
    exact hprog.exit_mem ha
  have hback : (prog.proc a.proc).graph.IsWalk (b.node :: back) := by
    refine hwalk.isWalk.infix ⟨front, [], ?_⟩
    rw [hsplit]
    simp
  have hnode : b.node ∈ (prog.proc a.proc).graph.nodes := by
    obtain ⟨rest, rfl⟩ := List.head?_eq_some_iff.mp hwalk.starts
    refine hclosed.mem_nodes_of_isWalk hentry hwalk.isWalk ?_
    rw [hsplit]
    simp
  have hlast : (b.node :: back).getLast? = some exitId := by
    have hends := hwalk.ends
    rw [hsplit, List.getLast?_append] at hends
    simpa using hends
  have hmem := Digraph.mem_of_mem_dominated_reverse hclosed hexit hnode hdom hback hlast
  rw [List.mem_cons] at hmem
  exact hmem.resolve_left hne

end Walks

end GraphOrder

end DefUse
