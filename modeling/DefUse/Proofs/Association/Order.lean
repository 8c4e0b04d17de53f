import DefUse.Proofs.Association.Build
import DefUse.Proofs.Order.GraphOrder

/-!
# What the order of execution tells about an association

The analysis asks the oracle that is computed from the graphs of the program.

**Results.**
* `mayReach_eq_false_iff`: no way back from a point excludes edges and recursion.
* `executesBefore_cases`: a point is known to execute before another one by dominance or by
  post-dominance; `executesBefore_iff` says so exactly.
* `eq_of_mem_witnesses` and `mem_killers_of_not_selfCalling`: in a procedure that cannot call
  itself, a use of the procedure is reached through itself only, and what kills a definition of the
  procedure there is a definition of the same variable.
-/

namespace DefUse

/-- The procedure that an item behind a formal lies in. -/
def itemProc : Use ⊕ Def → Int
  | .inl u => u.site.proc
  | .inr d => d.site.proc

namespace Program

variable {prog : Program} {formalsAsDefs : Bool} {d k : Def} {u w : Use} {x : Formal}

theorem mem_callees_of_isPassedTo
    (hprog : prog.Finalized)
    (hw : w.site.proc ∈ prog.procIds)
    (h : prog.IsPassedTo formalsAsDefs w x) :
    (x.proc : Int) ∈ prog.callees w.site.proc := by
  obtain ⟨c, i, harg, hpass⟩ := h
  exact hprog.mem_callees_of_call hw harg.call hpass.callee

/-- What stands behind a formal lies in a procedure that calls lead to. -/
theorem reaches_of_behind
    (hprog : prog.Finalized)
    {item : Use ⊕ Def}
    (h : FormalTable.Behind prog (localFlows prog formalsAsDefs) x item) :
    prog.calls.Reaches x.proc (itemProc item) := by
  induction h with
  | @added x fl param item hx hadd =>
      obtain ⟨hp, rfl⟩ := getElem?_localFlows_iff.mp hx.flow
      cases item with
      | inl u =>
          rw [itemProc, ((inl_mem_adds_iff hprog hp).mp hadd).1.proc]
          exact .refl _
      | inr d =>
          rw [itemProc, ((inr_mem_adds_iff hprog hp).mp hadd).2.1]
          exact .refl _
  | @passed x y fl param item hx hy _ ih =>
      obtain ⟨hp, rfl⟩ := getElem?_localFlows_iff.mp hx.flow
      obtain ⟨w, hw, hpassed⟩ := (mem_passes_iff hprog hp).mp hy
      have hcallee := mem_callees_of_isPassedTo hprog (by rw [hw.proc]; exact hp) hpassed
      rw [hw.proc] at hcallee
      exact .step hcallee ih

theorem leads_of_passed_behind
    (hprog : prog.Finalized)
    {item : Use ⊕ Def}
    (hw : w.site.proc ∈ prog.procIds)
    (hpassed : prog.IsPassedTo formalsAsDefs w x)
    (h : FormalTable.Behind prog (localFlows prog formalsAsDefs) x item) :
    prog.calls.Leads w.site.proc (itemProc item) :=
  ⟨x.proc, mem_callees_of_isPassedTo hprog hw hpassed, reaches_of_behind hprog h⟩

/-- In a procedure that cannot call itself, a use is reached through itself only. -/
theorem eq_of_mem_witnesses
    (hprog : prog.Finalized)
    (hd : prog.IsLocalDef formalsAsDefs d)
    (hself : d.site.proc ∉ prog.selfCalling)
    (hproc : u.site.proc = d.site.proc)
    (hw : w ∈ (prog.reachedFrom formalsAsDefs d).witnesses u) :
    u = w ∧ prog.IsEndpoint formalsAsDefs u ∧
      prog.LocallyReached formalsAsDefs d.site d.var u := by
  obtain ⟨hreached, ⟨rfl, hend⟩ | ⟨x, hpassed, hbehind⟩⟩ := (mem_witnesses_iff hprog hd).mp hw
  · exact ⟨rfl, hend, hreached⟩
  · have hleads := leads_of_passed_behind hprog (by rw [hreached.proc]; exact hd.proc_mem)
      hpassed hbehind
    rw [hreached.proc, itemProc, hproc] at hleads
    exact absurd (mem_selfCalling_of_leads hprog hd.proc_mem hleads) hself

/-- In a procedure that cannot call itself, only definitions of the same variable kill. -/
theorem mem_killers_of_not_selfCalling
    (hprog : prog.Finalized)
    (hd : prog.IsLocalDef formalsAsDefs d)
    (hself : d.site.proc ∉ prog.selfCalling)
    (hproc : k.site.proc = d.site.proc)
    (hk : k ∈ (prog.reachedFrom formalsAsDefs d).killers) :
    k ≠ d ∧ k.var = d.var ∧
      (prog.proc d.site.proc).graph.Leads d.site.node k.site.node := by
  obtain ⟨hne, ⟨-, -, hvar, hleads⟩ | ⟨w, x, hreached, hpassed, hbehind⟩⟩ :=
    (mem_killers_iff hprog hd).mp hk
  · exact ⟨hne, hvar, hleads⟩
  · have hleads := leads_of_passed_behind hprog (by rw [hreached.proc]; exact hd.proc_mem)
      hpassed hbehind
    rw [hreached.proc, itemProc, hproc] at hleads
    exact absurd (mem_selfCalling_of_leads hprog hd.proc_mem hleads) hself

/-- A use lies at a node of a procedure of the program. -/
theorem IsUse.node_mem
    (hu : prog.IsUse u) :
    u.site.node ∈ (prog.proc u.site.proc).ids := by
  rcases hu with hplain | ⟨c, i, harg⟩
  · exact mem_ids_of_isPlainUse hplain
  · exact mem_ids_of_isArgument harg

theorem LocallyReached.leads
    (h : prog.LocallyReached formalsAsDefs d.site d.var u)
    (hcomputation : u.isPredicate = false) :
    (prog.proc d.site.proc).graph.Leads d.site.node u.site.node := by
  obtain ⟨walk, hwalk⟩ := h.walk
  obtain ⟨rest, rfl⟩ := List.head?_eq_some_iff.mp hwalk.starts
  have harrives := hwalk.arrives
  rw [Use.arrival, if_neg (by simp [hcomputation]), List.suffix_cons_iff] at harrives
  rcases harrives with hshort | hrest
  · have hlong := hwalk.long
    rw [← hshort] at hlong
    exact absurd hlong (by simp)
  · exact hwalk.isWalk.leads_of_mem (hrest.subset List.mem_cons_self)

end Program

namespace Analysis

variable {prog : Program} {settings : Settings} {a b : Point}

/-- The analysis with the order of execution of the program's own graphs. -/
def ofGraphs (prog : Program) (settings : Settings) : Analysis :=
  prog.analysis (GraphOrder.ofProgram prog).oracle settings

theorem mayReach_eq_false_iff
    (hprog : prog.Finalized)
    (ha : a.proc ∈ prog.procIds)
    (hn : a.node ∈ (prog.proc a.proc).ids)
    (hb : b.proc = a.proc) :
    (ofGraphs prog settings).mayReach a b = false ↔
      settings.useReachability = true ∧ a.proc ∉ prog.selfCalling ∧
        ¬ (prog.proc a.proc).graph.Leads a.node b.node := by
  have hiff := GraphOrder.reaches_iff hprog ha hn hb
  have hoption : (ofGraphs prog settings).mayReach a b =
      if settings.useReachability then (GraphOrder.ofProgram prog).oracle.reaches a b true
      else true := rfl
  rw [hoption]
  split
  · rename_i huse
    rw [Bool.eq_false_iff, ne_eq, hiff, not_or]
    simp [huse]
  · rename_i huse
    simp [huse]

theorem executesBefore_cases
    (h : (ofGraphs prog settings).executesBefore a b = true) :
    (GraphOrder.ofProgram prog).oracle.dominates a b = true ∨
      (GraphOrder.ofProgram prog).oracle.postdominates b a = true := by
  have hoption : (ofGraphs prog settings).executesBefore a b =
      (settings.useDominance && ((GraphOrder.ofProgram prog).oracle.dominates a b ||
        (GraphOrder.ofProgram prog).oracle.postdominates b a)) := rfl
  rw [hoption, Bool.and_eq_true, Bool.or_eq_true] at h
  exact h.2

theorem executesBefore_iff
    (hprog : prog.Finalized)
    (ha : a.proc ∈ prog.procIds)
    (hb : b.proc = a.proc)
    (hna : a.node ∈ (prog.proc a.proc).ids)
    (hnb : b.node ∈ (prog.proc a.proc).ids) :
    (ofGraphs prog settings).executesBefore a b = true ↔
      settings.useDominance = true ∧ (prog.proc a.proc).Precedes a.node b.node := by
  have hoption : (ofGraphs prog settings).executesBefore a b =
      (settings.useDominance && ((GraphOrder.ofProgram prog).oracle.dominates a b ||
        (GraphOrder.ofProgram prog).oracle.postdominates b a)) := rfl
  have hpost := @GraphOrder.postdominates_iff prog b a hprog (by rw [hb]; exact ha) hb.symm
    (by rw [hb]; exact hnb) (by rw [hb]; exact hna)
  rw [hoption, Bool.and_eq_true, Bool.or_eq_true,
    GraphOrder.dominates_iff hprog ha hb hna hnb, hpost, hb]
  rfl

theorem proc_eq_of_executesBefore
    (h : (ofGraphs prog settings).executesBefore a b = true) :
    a.proc = b.proc := by
  rcases executesBefore_cases h with hdom | hpdom
  · exact (GraphOrder.dominates_spec hdom).1
  · exact (GraphOrder.postdominates_spec hpdom).1.symm

end Analysis

end DefUse
