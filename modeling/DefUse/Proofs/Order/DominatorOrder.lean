import DefUse.Order.DominatorOrder
import DefUse.Proofs.Graph.DominatorTree
import DefUse.Proofs.Order.Exact

/-!
# Exact answers on dominance

The numbered trees of a program and the tables of dominated nodes give the same answers, whatever
search the trees are made with, provided that it finds immediate dominators.

**Results.**
* `exists_lookup_eq` and `exists_lookupDominated_eq`: a tree and a table answer exactly.
* `dominance_exact`: both answer for all points, by the walks of the procedure of both points.
* `isExact_immediateDominator?`: the search that follows the definition is exact.
-/

namespace DefUse

/-- The search is given graphs without loops whose edges stay inside, with a root in them, and finds
the immediate dominators and nothing else. -/
def DominatorSearch.IsExact (search : DominatorSearch) : Prop :=
  ∀ g root, g.Closed → root ∈ g.nodes → (∀ v, v ∉ g.succs v) →
    FindsImmediateDominators search g root

namespace Procedure

variable {f : Procedure} {a b : Int}

theorem dominates_iff :
    f.graph.Dominates entryId a b ↔ f.Dominates a b := by
  refine and_congr_right fun _ => and_congr_right fun _ => ?_
  exact ⟨fun h walk hwalk hhead hlast => h walk ⟨hwalk, hhead, hlast⟩,
    fun h walk hwalk => h walk hwalk.isWalk hwalk.starts hwalk.ends⟩

/-- Dominance from the exit in the graph turned round is post-dominance. -/
theorem postdominates_iff
    (hclosed : f.graph.Closed)
    (hexit : exitId ∈ f.ids)
    (ha : a ∈ f.ids)
    (hb : b ∈ f.ids) :
    f.graph.reverse.Dominates exitId a b ↔ f.Postdominates a b := by
  rw [← graph_nodes] at hexit ha hb
  rw [← Digraph.mem_dominated_iff_dominates (Digraph.reverse_closed _) hexit,
    Digraph.mem_dominated_reverse_iff hclosed hexit ha hb]
  refine and_congr_right fun _ => and_congr_right fun _ => ?_
  constructor
  · intro h walk hwalk hhead hlast
    obtain ⟨rest, rfl⟩ := List.head?_eq_some_iff.mp hhead
    exact h rest hwalk hlast
  · intro h rest hwalk hlast
    exact h _ hwalk rfl hlast

end Procedure

namespace DominatorOrder

variable {prog : Program} {search : DominatorSearch} {a b : Point}

/-- The answer of the tree of a procedure for two of its points. -/
theorem exists_lookup_eq
    (graph : Procedure → Digraph Int) {root : Int}
    (hsearch : search.IsExact)
    (hproc : a.proc = b.proc)
    (ha : a.proc ∈ prog.procIds)
    (hclosed : (graph (prog.proc a.proc)).Closed)
    (hnodes : (graph (prog.proc a.proc)).nodes = (prog.proc a.proc).ids)
    (hroot : root ∈ (prog.proc a.proc).ids)
    (hna : a.node ∈ (prog.proc a.proc).ids)
    (hnb : b.node ∈ (prog.proc a.proc).ids) :
    ∃ answer,
      lookup (prog.procs.map fun f => .ofGraph search (graph f) root) a b = .ok answer ∧
      (answer = true ↔ (graph (prog.proc a.proc)).Dominates root a.node b.node) := by
  have hfetch : fetch (prog.procs.map fun f => .ofGraph search (graph f) root) a.proc =
      .ok (DominatorTree.ofGraph search (graph (prog.proc a.proc)) root) :=
    Program.fetch_map_procs _ ha
  have hfinds : FindsImmediateDominators search (graph (prog.proc a.proc)).withoutLoops root := by
    refine hsearch _ root hclosed.withoutLoops (hnodes ▸ hroot) ?_
    intro v hv
    simpa using (List.mem_filter.mp hv).2
  obtain ⟨answer, hanswer, hiff⟩ := DominatorTree.exists_dominates?_eq hclosed hnodes
    (hnodes ▸ hroot) hfinds (hnodes ▸ hna) (hnodes ▸ hnb)
  refine ⟨answer, ?_, hiff⟩
  have hsame : ¬ a.proc ≠ b.proc := not_not.mpr hproc
  simp only [lookup, hsame, if_false, hfetch, bind, Except.bind]
  exact hanswer

theorem lookup_of_ne
    {trees : Array DominatorTree}
    (hproc : a.proc ≠ b.proc) :
    lookup trees a b = .ok false := by
  unfold lookup
  rw [if_pos hproc]
  rfl

end DominatorOrder

namespace GraphOrder

variable {prog : Program} {a b : Point}

/-- The answer of a table for two points of a procedure. -/
theorem exists_lookupDominated_eq
    {select : ProcOrder → Array (List Int)} {graph : Procedure → Digraph Int} {root : Int}
    (hselect : ∀ f, select (.ofProcedure f) = (f.ids.map ((graph f).dominated root)).toArray)
    (hproc : a.proc = b.proc)
    (ha : a.proc ∈ prog.procIds)
    (hclosed : (graph (prog.proc a.proc)).Closed)
    (hroot : root ∈ (graph (prog.proc a.proc)).nodes)
    (hna : a.node ∈ (prog.proc a.proc).ids)
    (hnb : b.node ∈ (prog.proc a.proc).ids) :
    ∃ answer,
      (do
        if a.proc ≠ b.proc then return false
        let order ← fetch (ofProgram prog).procs a.proc
        lookupDominated (select order) a.node b.node) = .ok answer ∧
      (answer = true ↔ (graph (prog.proc a.proc)).Dominates root a.node b.node) := by
  have hsame : ¬ a.proc ≠ b.proc := not_not.mpr hproc
  refine ⟨((graph (prog.proc a.proc)).dominated root a.node).contains b.node, ?_, ?_⟩
  · simp only [hsame, if_false, fetch_procs ha, bind, Except.bind]
    rw [hselect]
    exact lookupDominated_eq hna hnb
  · rw [List.contains_iff_mem, Digraph.mem_dominated_iff_dominates hclosed hroot]

end GraphOrder

namespace DominatorOrder

variable {prog : Program} {search : DominatorSearch} {a b : Point}

/-- The trees and the tables made from the same graphs give the same answers. -/
theorem exists_answer
    (select : ProcOrder → Array (List Int)) (graph : Procedure → Digraph Int) {root : Int}
    (hselect : ∀ f, select (.ofProcedure f) = (f.ids.map ((graph f).dominated root)).toArray)
    (hsearch : search.IsExact)
    (ha : prog.HasPoint a)
    (hb : prog.HasPoint b)
    (hclosed : (graph (prog.proc a.proc)).Closed)
    (hnodes : (graph (prog.proc a.proc)).nodes = (prog.proc a.proc).ids)
    (hroot : root ∈ (prog.proc a.proc).ids) :
    ∃ answer,
      lookup (prog.procs.map fun f => .ofGraph search (graph f) root) a b = .ok answer ∧
      (do
        if a.proc ≠ b.proc then return false
        let order ← fetch (GraphOrder.ofProgram prog).procs a.proc
        GraphOrder.lookupDominated (select order) a.node b.node) = .ok answer ∧
      (answer = true ↔
        a.proc = b.proc ∧ (graph (prog.proc a.proc)).Dominates root a.node b.node) := by
  by_cases hproc : a.proc = b.proc
  · have hnb : b.node ∈ (prog.proc a.proc).ids := hproc ▸ hb.2
    obtain ⟨answer, htree, hiff⟩ := exists_lookup_eq graph hsearch hproc ha.1 hclosed hnodes
      hroot ha.2 hnb
    obtain ⟨answer', htable, hiff'⟩ := GraphOrder.exists_lookupDominated_eq hselect hproc ha.1
      hclosed (hnodes ▸ hroot) ha.2 hnb
    obtain rfl : answer = answer' := Bool.eq_iff_iff.mpr (hiff.trans hiff'.symm)
    exact ⟨answer, htree, htable, by rw [hiff, and_iff_right hproc]⟩
  · refine ⟨false, lookup_of_ne hproc, ?_, by simp [hproc]⟩
    rw [if_pos hproc]
    rfl

/-- For all points, the numbered trees and the tables answer alike, and they say yes exactly if the
points are in one procedure in which the first one dominates, or post-dominates, the second. -/
theorem dominance_exact
    (prog : Program) (search : DominatorSearch) (a b : Point)
    (hprog : prog.Finalized)
    (hsearch : search.IsExact)
    (ha : prog.HasPoint a)
    (hb : prog.HasPoint b) :
    ∃ dom pdom,
      (ofProgram search prog).dominates? a b = .ok dom ∧
      (ofProgram search prog).postdominates? a b = .ok pdom ∧
      (GraphOrder.ofProgram prog).dominates? a b = .ok dom ∧
      (GraphOrder.ofProgram prog).postdominates? a b = .ok pdom ∧
      (dom = true ↔ a.proc = b.proc ∧ (prog.proc a.proc).Dominates a.node b.node) ∧
      (pdom = true ↔ a.proc = b.proc ∧ (prog.proc a.proc).Postdominates a.node b.node) := by
  obtain ⟨dom, htree, htable, hdom⟩ :=
    exists_answer ProcOrder.dominated Procedure.graph (fun _ => rfl) hsearch ha hb
      (hprog.graph_closed ha.1) (by simp) (hprog.entry_mem ha.1)
  obtain ⟨pdom, htree', htable', hpdom⟩ :=
    exists_answer ProcOrder.postdominated (fun f => f.graph.reverse) (fun _ => rfl) hsearch ha hb
      (Digraph.reverse_closed _) (by simp [Digraph.reverse])
      (hprog.exit_mem ha.1)
  refine ⟨dom, pdom, htree, htree', htable, htable', ?_, ?_⟩
  · rw [hdom, Procedure.dominates_iff]
  · rw [hpdom]
    refine and_congr_right fun hproc => ?_
    exact Procedure.postdominates_iff (hprog.graph_closed ha.1) (hprog.exit_mem ha.1) ha.2
      (hproc ▸ hb.2)

end DominatorOrder

theorem isExact_immediateDominator? :
    DominatorSearch.IsExact immediateDominator? :=
  fun _ _ hg hroot _ => findsImmediateDominators_immediateDominator? hg hroot

namespace DominatorOrder

/-- A branch with a loop on one side and a node that nothing leads to. -/
def detour : Program :=
  (Program.ofBlueprints
    [{ name := "f"
       nodes := [{ label := "if c" }, { label := "while d" }, { label := "return" },
         { label := "unused" }]
       edges := [(0, 2), (2, 3), (2, 4), (3, 3), (3, 4), (4, 1), (5, 4)] }] []).toOption.getD {}

/-- The branch dominates the node after it, which post-dominates the branch. -/
theorem dominance_exact_detour :
    detour.Finalized ∧ DominatorSearch.IsExact immediateDominator? ∧
      detour.HasPoint ⟨0, 2⟩ ∧ detour.HasPoint ⟨0, 4⟩ ∧
      (detour.proc 0).Dominates 2 4 ∧ ¬ (detour.proc 0).Postdominates 2 4 := by
  have hprog : detour.Finalized := by decide +kernel
  have ha : detour.HasPoint ⟨0, 2⟩ := by decide +kernel
  have hb : detour.HasPoint ⟨0, 4⟩ := by decide +kernel
  obtain ⟨dom, pdom, htree, htree', -, -, hdom, hpdom⟩ :=
    dominance_exact detour immediateDominator? ⟨0, 2⟩ ⟨0, 4⟩ hprog isExact_immediateDominator? ha hb
  have hyes : (ofProgram immediateDominator? detour).dominates? ⟨0, 2⟩ ⟨0, 4⟩ = .ok true := by
    decide +kernel
  have hno : (ofProgram immediateDominator? detour).postdominates? ⟨0, 2⟩ ⟨0, 4⟩ = .ok false := by
    decide +kernel
  obtain rfl : true = dom := Except.ok.inj (hyes.symm.trans htree)
  obtain rfl : false = pdom := Except.ok.inj (hno.symm.trans htree')
  exact ⟨hprog, isExact_immediateDominator?, ha, hb, (hdom.mp rfl).2,
    fun h => absurd (hpdom.mpr ⟨rfl, h⟩) Bool.false_ne_true⟩

end DominatorOrder

end DefUse
