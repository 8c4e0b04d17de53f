import DefUse.Proofs.Association.Reached
import DefUse.Proofs.Flow.Passes
import DefUse.Proofs.Order.Exact

/-!
# Killers and reachability

Which definitions can execute after a definition is found twice: backwards over the flow equations,
with sets of definitions, and forwards in the table of the nodes that one or more edges lead to.

**Results.** `LocalFlow.killersOf_exact`: the killers of a local definition are the other local
definitions of its variable in the procedure that the table says are reached, whatever the order of
the visits.
-/

namespace DefUse

/-- Inside a procedure the table says yes exactly if one or more edges lead to the point. -/
theorem GraphOrder.reaches?_eq_true_iff_leads
    {prog : Program} {a b : Point}
    (hprog : prog.Finalized)
    (ha : prog.HasPoint a)
    (hproc : a.proc = b.proc) :
    (ofProgram prog).reaches? a b false = .ok true ↔
      (prog.proc a.proc).graph.Leads a.node b.node := by
  rw [reaches?_eq ha hproc, Bool.false_and, Bool.false_or, Except.ok.injEq, List.contains_iff_mem]
  exact Digraph.mem_reachFrom_iff (hprog.graph_closed ha.1) (by simpa using ha.2)

namespace LocalFlow

/-- The passes over the definitions of a procedure come to an end, whatever the order in which they
visit the nodes.  The killers of a definition are listed once each: they are the other definitions
of its variable in the procedure that are reached from it. -/
theorem killersOf_exact
    (prog : Program) (formalsAsDefs : Bool) (order : List Int) (d : Def)
    (hprog : prog.Finalized)
    (hd : prog.IsLocalDef formalsAsDefs d)
    (horder : ∀ i, i ∈ order ↔ i ∈ (prog.proc d.site.proc).ids) :
    let flow := inOrder prog formalsAsDefs d.site.proc order
    let problem := defProblem (prog.proc d.site.proc) flow.defs
    HaltsAt (problem.repass order) problem.unvisited
        ⟨problem.solve order, flow.defsOut, false⟩ ∧
      (flow.killersOf d).Nodup ∧
      ∀ k, k ∈ flow.killersOf d ↔
        prog.IsLocalDef formalsAsDefs k ∧ k.site.proc = d.site.proc ∧ k ≠ d ∧ k.var = d.var ∧
          (GraphOrder.ofProgram prog).reaches? d.site k.site false = .ok true := by
  intro flow problem
  have hclosed := hprog.graph_closed hd.proc_mem
  have hn := hd.node_mem hprog
  have hsized : problem.Sized (prog.proc d.site.proc).nodes.size := defProblem_sized hclosed
  refine ⟨hsized.haltsAt_solve horder, defsFrom_nodup.filter _, ?_⟩
  intro k
  rw [killersOf, List.mem_filter, decide_eq_true_eq,
    mem_defsFrom_iff hclosed (fun i => (horder i).mpr) hn]
  constructor
  · rintro ⟨⟨hk, hproc, hvar, hleads⟩, hne⟩
    exact ⟨hk, hproc, hne, hvar,
      (GraphOrder.reaches?_eq_true_iff_leads hprog ⟨hd.proc_mem, hn⟩ hproc.symm).mpr hleads⟩
  · rintro ⟨hk, hproc, hne, hvar, hreaches⟩
    exact ⟨⟨hk, hproc, hvar,
      (GraphOrder.reaches?_eq_true_iff_leads hprog ⟨hd.proc_mem, hn⟩ hproc.symm).mp hreaches⟩, hne⟩

/-- The definition in the loop kills the one before it, and leads to itself without being a killer
of itself. -/
theorem killersOf_exact_counting :
    let before : Def := ⟨⟨0, 2⟩, .ofLocal "f" "x", false⟩
    let inside : Def := ⟨⟨0, 4⟩, .ofLocal "f" "x", false⟩
    counting.Finalized ∧ counting.IsLocalDef false before ∧ counting.IsLocalDef false inside ∧
      (∀ i, i ∈ countingOrder ↔ i ∈ (counting.proc 0).ids) ∧
      inside ∈ (inOrder counting false 0 countingOrder).killersOf before ∧
      inside ∉ (inOrder counting false 0 countingOrder).killersOf inside ∧
      (GraphOrder.ofProgram counting).reaches? inside.site inside.site false = .ok true := by
  intro before inside
  have hprog : counting.Finalized := by decide +kernel
  have hbefore : counting.IsLocalDef false before :=
    ⟨by decide +kernel, Or.inl (by decide +kernel)⟩
  have hinside : counting.IsLocalDef false inside :=
    ⟨by decide +kernel, Or.inl (by decide +kernel)⟩
  refine ⟨hprog, hbefore, hinside, mem_countingOrder_iff, ?_, ?_, by decide +kernel⟩
  · obtain ⟨-, -, hexact⟩ := killersOf_exact counting false countingOrder before hprog hbefore
      mem_countingOrder_iff
    exact (hexact inside).mpr ⟨hinside, rfl, by decide, rfl, by decide +kernel⟩
  · obtain ⟨-, -, hexact⟩ := killersOf_exact counting false countingOrder inside hprog hinside
      mem_countingOrder_iff
    intro hmem
    exact ((hexact inside).mp hmem).2.2.1 rfl

end LocalFlow
end DefUse
