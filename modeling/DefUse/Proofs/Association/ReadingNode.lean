import DefUse.Proofs.Association.Kills
import DefUse.Proofs.Association.Order

/-!
# Hard kills at the nodes that read

A node reads before it writes: a definition at the node of a computation use executes after the
use.  Dominance is reflexive, however, and the order that makes a kill hard is asked of the node of
the kill and the node of the use, so that a definition at the reading node counts as executing
before the use.

**Results.**
* `hardKill_at_reading_node_iff`: when exactly a definition at the node of a local use is a hard
  kill.
* `hardKill_at_reading_node`: in a loop that updates a variable, the update is a hard kill of the
  value that it reads first.
-/

namespace DefUse

/-- The node comes after the definition and before the local uses at other nodes, and nothing leads
back to the definition. -/
structure Association.Between (prog : Program) (a : Association) (n : Int) : Prop where
  noRecursion : ¬ prog.calls.Leads a.definition.site.proc a.definition.site.proc
  after : (prog.proc a.definition.site.proc).Precedes a.definition.site.node n
  before : ∀ w ∈ a.localUses, w.site.node ≠ n →
    (prog.proc a.definition.site.proc).Precedes n w.site.node
  noReturn : ∀ w ∈ a.localUses,
    ¬ (prog.proc a.definition.site.proc).graph.Leads w.site.node a.definition.site.node

section Reading

variable {prog : Program} {settings : Settings} {a : Association} {k : Def} {w : Use}

/-- A computation use is reached through computation uses. -/
theorem Association.LocalFacts.localUse_computation
    {oracle : Oracle}
    (h : a.LocalFacts prog oracle settings)
    (hprog : prog.Finalized)
    (hcomputation : a.use.isPredicate = false)
    (hw : w ∈ a.localUses) :
    w.isPredicate = false := by
  rw [h.localUses] at hw
  obtain ⟨-, ⟨huse, -⟩ | ⟨x, ⟨c, i, harg, -⟩, -⟩⟩ :=
    (Program.mem_witnesses_iff hprog h.isLocalDef).mp hw
  · rw [← huse]
    exact hcomputation
  · rw [harg.computation]
    rfl

theorem Association.LocalFacts.localUse_reached
    {oracle : Oracle}
    (h : a.LocalFacts prog oracle settings)
    (hprog : prog.Finalized)
    (hw : w ∈ a.localUses) :
    prog.LocallyReached settings.formalsAsDefs a.definition.site a.definition.var w := by
  rw [h.localUses] at hw
  exact ((Program.mem_witnesses_iff hprog h.isLocalDef).mp hw).1

/-- The order that makes a kill hard, by walks, for a kill at the node of a local use. -/
theorem Association.LocalFacts.inOrder_iff_between
    (h : a.LocalFacts prog (GraphOrder.ofProgram prog).oracle settings)
    (hprog : prog.Finalized)
    (hw : w ∈ a.localUses) :
    ((Analysis.ofGraphs prog settings).executesBefore a.definition.site w.site = true ∧
      ∀ w' ∈ a.localUses,
        (Analysis.ofGraphs prog settings).executesBefore w.site w'.site = true ∧
        (Analysis.ofGraphs prog settings).mayReach w'.site a.definition.site = false) ↔
      settings.useDominance = true ∧ settings.useReachability = true ∧
        a.Between prog w.site.node := by
  have hp := h.isLocalDef.proc_mem
  have hd := h.isLocalDef.node_mem hprog
  have hproc : ∀ {v}, v ∈ a.localUses → v.site.proc = a.definition.site.proc :=
    fun hv => (h.localUse_reached hprog hv).proc
  have hnode : ∀ {v}, v ∈ a.localUses →
      v.site.node ∈ (prog.proc a.definition.site.proc).ids := by
    intro v hv
    rw [← hproc hv]
    exact (h.localUse_reached hprog hv).isUse.node_mem
  have hafter := @Analysis.executesBefore_iff prog settings a.definition.site w.site hprog hp
    (hproc hw) hd (hnode hw)
  have hbefore : ∀ {v}, v ∈ a.localUses →
      ((Analysis.ofGraphs prog settings).executesBefore w.site v.site = true ↔
        settings.useDominance = true ∧
          (prog.proc a.definition.site.proc).Precedes w.site.node v.site.node) := by
    intro v hv
    have hiff := @Analysis.executesBefore_iff prog settings w.site v.site hprog
    rw [hproc hw] at hiff
    exact hiff hp (hproc hv) (hnode hw) (hnode hv)
  have hback : ∀ {v}, v ∈ a.localUses →
      ((Analysis.ofGraphs prog settings).mayReach v.site a.definition.site = false ↔
        settings.useReachability = true ∧
          ¬ prog.calls.Leads a.definition.site.proc a.definition.site.proc ∧
          ¬ (prog.proc a.definition.site.proc).graph.Leads v.site.node
            a.definition.site.node) := by
    intro v hv
    have hiff := @Analysis.mayReach_eq_false_iff prog settings v.site a.definition.site hprog
    rw [hproc hv, Program.mem_selfCalling_iff hprog hp] at hiff
    exact hiff hp (hnode hv) rfl
  constructor
  · rintro ⟨hdef, hall⟩
    obtain ⟨hdominance, hprecedes⟩ := hafter.mp hdef
    obtain ⟨hreachability, hself, -⟩ := (hback hw).mp (hall w hw).2
    refine ⟨hdominance, hreachability, hself, hprecedes, ?_, ?_⟩
    · intro v hv _
      exact ((hbefore hv).mp (hall v hv).1).2
    · intro v hv
      exact ((hback hv).mp (hall v hv).2).2.2
  · rintro ⟨hdominance, hreachability, hbetween⟩
    refine ⟨hafter.mpr ⟨hdominance, hbetween.after⟩, ?_⟩
    intro v hv
    refine ⟨(hbefore hv).mpr ⟨hdominance, ?_⟩, ?_⟩
    · -- at the node itself the order is asked of the node and itself
      by_cases hsame : v.site.node = w.site.node
      · rw [hsame]
        exact hbetween.after.refl_right
      · exact hbetween.before v hv hsame
    · exact (hback hv).mpr ⟨hreachability, hbetween.noRecursion, hbetween.noReturn v hv⟩

/-- What the order leaves of the killers at the node of a local use. -/
theorem Association.LocalFacts.killer_at_localUse_iff
    {oracle : Oracle}
    (h : a.LocalFacts prog oracle settings)
    (hprog : prog.Finalized)
    (hcomputation : a.use.isPredicate = false)
    (hw : w ∈ a.localUses)
    (hsite : k.site = w.site)
    (hbetween : a.Between prog w.site.node) :
    k ∈ (prog.reachedFrom settings.formalsAsDefs a.definition).killers ↔
      prog.IsLocalDef settings.formalsAsDefs k ∧ k.var = a.definition.var := by
  have hd := h.isLocalDef
  have hreached := h.localUse_reached hprog hw
  have hproc : k.site.proc = a.definition.site.proc := by rw [hsite, hreached.proc]
  constructor
  · intro hk
    have hself : a.definition.site.proc ∉ prog.selfCalling := by
      rw [Program.mem_selfCalling_iff hprog hd.proc_mem]
      exact hbetween.noRecursion
    exact ⟨Program.isLocalDef_of_mem_killers hprog hd hk,
      (Program.mem_killers_of_not_selfCalling hprog hd hself hproc hk).2.1⟩
  · rintro ⟨hk, hvar⟩
    have hleads := hreached.leads (h.localUse_computation hprog hcomputation hw)
    have hne : k ≠ a.definition := by
      rintro rfl
      apply hbetween.noReturn w hw
      rwa [← hsite] at hleads ⊢
    rw [← hsite] at hleads
    exact (Program.mem_killers_iff hprog hd).mpr ⟨hne, Or.inl ⟨hk, hproc, hvar, hleads⟩⟩

/-- A definition at the node of a local use of a computation is a hard kill exactly if the orders
are asked for, the node is outside of exception handlers, the definition writes the variable and is
associated with the same use, and the node lies between the definition and the other local
uses. -/
theorem hardKill_at_reading_node_iff
    (prog : Program) (settings : Settings)
    (hprog : prog.Finalized) :
    ∃ set events,
      analyzeProgram prog (GraphOrder.ofProgram prog).oracle settings = .ok (set, events) ∧
      ∀ a ∈ set.items, a.heap = false → a.use.isPredicate = false →
        ∀ w ∈ a.localUses, ∀ k : Def, k.site = w.site →
          (k ∈ a.hardKills ↔
            (settings.useDominance = true ∧ settings.useReachability = true ∧
              a.Between prog w.site.node) ∧
            (prog.node w.site).handler = false ∧
            prog.IsLocalDef settings.formalsAsDefs k ∧ k.var = a.definition.var ∧
            ∃ b ∈ set.items, b.definition = k ∧ b.use = a.use) := by
  obtain ⟨events, hrun⟩ :=
    @analyzeProgram_eq prog (GraphOrder.ofProgram prog).oracle settings hprog
  refine ⟨_, events, hrun, ?_⟩
  intro a ha hheap hcomputation w hw k hsite
  have hfacts := localFacts_of_mem hprog ha hheap
  have horder := hfacts.inOrder_iff_between hprog hw
  rw [hfacts.mem_hardKills_iff hprog, hsite]
  constructor
  · rintro ⟨⟨hkiller, hchain⟩, hhandler, hinOrder⟩
    have hbetween := horder.mp hinOrder
    obtain ⟨hk, hvar⟩ :=
      (hfacts.killer_at_localUse_iff hprog hcomputation hw hsite hbetween.2.2).mp hkiller
    rw [← hsite] at hchain
    exact ⟨hbetween, hhandler, hk, hvar, (associated_iff_chain hprog hk).mpr hchain⟩
  · rintro ⟨hbetween, hhandler, hk, hvar, hassociated⟩
    have hkiller :=
      (hfacts.killer_at_localUse_iff hprog hcomputation hw hsite hbetween.2.2).mpr ⟨hk, hvar⟩
    have hchain := (associated_iff_chain hprog hk).mp hassociated
    rw [hsite] at hchain
    exact ⟨⟨hkiller, hchain⟩, hhandler, horder.mpr hbetween⟩

/-- A variable is set, and then updated in a loop. -/
def loopUpdate : Program where
  procs := #[
    { name := "f"
      params := [.ofLocal "f" "c"]
      nodes := #[
        { label := "entry", succs := [2] },
        { label := "exit", preds := [4] },
        { label := "x = 0", defs := [.ofLocal "f" "x"], succs := [3], preds := [0] },
        { label := "x = x + 1", defs := [.ofLocal "f" "x"], uses := [.ofLocal "f" "x"],
          succs := [4], preds := [2, 4] },
        { label := "if c", uses := [.ofLocal "f" "c"], predicate := true, succs := [3, 1],
          preds := [3] }] }]
  callGraph := ⟨#[[]], #[[]]⟩

/-- The first definition of the variable and the update that reads it. -/
def loopUpdatePair : Association where
  definition := ⟨⟨0, 2⟩, .ofLocal "f" "x", false⟩
  use := .computation ⟨0, 3⟩ (.ofLocal "f" "x")
  localUses := [.computation ⟨0, 3⟩ (.ofLocal "f" "x")]
  inferrable := true
  hardKills := [⟨⟨0, 3⟩, .ofLocal "f" "x", false⟩]

theorem loopUpdatePair_listed :
    ((analyzeProgram loopUpdate (GraphOrder.ofProgram loopUpdate).oracle {}).map
      fun r => decide (loopUpdatePair ∈ r.1.items)) = .ok true := by
  decide +kernel

/-- The update comes after the first definition, which is never reached again. -/
theorem hardKill_at_reading_node_iff_loopUpdate :
    loopUpdate.Finalized ∧ loopUpdatePair.Between loopUpdate 3 := by
  have hprog : loopUpdate.Finalized := by decide +kernel
  refine ⟨hprog, ?_⟩
  obtain ⟨set, events, hrun, hall⟩ := hardKill_at_reading_node_iff loopUpdate {} hprog
  have hmem := mem_items_of_listed hrun loopUpdatePair_listed
  exact ((hall loopUpdatePair hmem rfl rfl _ List.mem_cons_self _ rfl).mp
    List.mem_cons_self).1.2.2

/-- A definition at the node that reads the value before is a hard kill. -/
theorem hardKill_at_reading_node :
    ¬ ∃ set events,
      analyzeProgram loopUpdate (GraphOrder.ofProgram loopUpdate).oracle {} =
        .ok (set, events) ∧
      ∀ a ∈ set.items, a.heap = false → a.use.isPredicate = false →
        ∀ k ∈ a.hardKills, ∀ w ∈ a.localUses, k.site ≠ w.site := by
  rintro ⟨set, events, hrun, hall⟩
  have hmem := mem_items_of_listed hrun loopUpdatePair_listed
  exact hall loopUpdatePair hmem rfl rfl _ List.mem_cons_self _ List.mem_cons_self rfl

end Reading

end DefUse
