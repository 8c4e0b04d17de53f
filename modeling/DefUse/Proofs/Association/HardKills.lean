import DefUse.Proofs.Association.Inferred
import DefUse.Proofs.Program.Built

/-!
# Hard kills lie between the ends

**Method.** A kill is known to execute after the definition and before the use by dominance or by
post-dominance each.  If one fact looks back from the kill and the other one forward, or both look
the same way, the order on a walk follows from the two facts.  If the kill post-dominates the
definition and dominates the use, a use that came before the kill would lead to the kill and
through an earlier visit of it to the definition, and there is no way back.

**Results.** `hardKills_between`: on every walk through the procedure that visits a definition, a
hard kill and a local use, they come in this order.
-/

namespace DefUse

namespace Program

variable {prog : Program} {formalsAsDefs : Bool} {d k : Def}

/-- Two definitions of a variable at one point are the same, unless the point is an entry, where a
formal may be a definition besides that of the node. -/
theorem IsLocalDef.eq_or_entry
    (hd : prog.IsLocalDef formalsAsDefs d)
    (hk : prog.IsLocalDef formalsAsDefs k)
    (hsite : k.site = d.site)
    (hvar : k.var = d.var) :
    k = d ∨ d.site.node = entryId := by
  obtain ⟨-, hdef | ⟨-, hformal⟩⟩ := hd
  · obtain ⟨-, hdef' | ⟨-, hformal'⟩⟩ := hk
    · left
      obtain ⟨-, -, hconstant⟩ := mem_defsOf_iff.mp hdef
      obtain ⟨-, -, hconstant'⟩ := mem_defsOf_iff.mp hdef'
      rw [hsite] at hconstant'
      cases d
      cases k
      simp only at hsite hvar hconstant hconstant'
      rw [Def.mk.injEq]
      exact ⟨hsite, hvar, hconstant'.trans hconstant.symm⟩
    · right
      obtain ⟨hentry, -, -, -⟩ := mem_formalDefs_iff.mp hformal'
      rw [← hsite, hentry]
  · right
    obtain ⟨hentry, -, -, -⟩ := mem_formalDefs_iff.mp hformal
    rw [hentry]

end Program

section Between

variable {prog : Program} {settings : Settings} {a b c : Point} {walk : List Int}

/-- The second point post-dominates the first one and dominates the third one. -/
theorem exists_between_of_postdominates_dominates
    {w₁ w₂ back : List Int}
    (hprog : prog.Finalized)
    (hdom : (GraphOrder.ofProgram prog).oracle.dominates b c = true)
    (hproc : b.proc = a.proc)
    (hne : a.node ≠ b.node)
    (hne' : b.node ≠ c.node)
    (hback : ¬ (prog.proc a.proc).graph.Leads c.node a.node)
    (hwalk : (prog.proc a.proc).IsComplete walk)
    (hsplit : walk = w₁ ++ a.node :: (w₂ ++ b.node :: back))
    (hc : c.node ∈ walk) :
    ∃ w₁ w₂ w₃ w₄, walk = w₁ ++ a.node :: (w₂ ++ b.node :: (w₃ ++ c.node :: w₄)) := by
  have hisWalk := hwalk.isWalk
  have hbefore : ∀ {front middle}, walk = front ++ c.node :: middle → b.node ∈ front :=
    fun h => GraphOrder.mem_front_of_dominates hprog hdom hne' (hproc ▸ hwalk) h
  -- an earlier visit of the second point would lead to the first one
  have hearlier : b.node ∈ w₁ → (prog.proc a.proc).graph.Leads b.node a.node := by
    intro hmem
    obtain ⟨front, middle, rfl⟩ := List.append_of_mem hmem
    rw [hsplit, List.append_assoc, List.cons_append] at hisWalk
    exact hisWalk.leads
  rw [hsplit] at hc
  simp only [List.mem_append, List.mem_cons] at hc
  rcases hc with hc | hc | hc | hc | hc
  · obtain ⟨front, middle, rfl⟩ := List.append_of_mem hc
    rw [hsplit, List.append_assoc, List.cons_append] at hisWalk
    exact absurd hisWalk.leads hback
  · have hmem : b.node ∈ w₁ := hbefore (hc ▸ hsplit)
    rw [hsplit] at hisWalk
    rw [hc] at hback
    exact absurd (hisWalk.leads.trans (hearlier hmem)) hback
  · obtain ⟨middle, w₄, rfl⟩ := List.append_of_mem hc
    have hsplit' : walk = (w₁ ++ a.node :: middle) ++ c.node :: (w₄ ++ b.node :: back) := by
      rw [hsplit]
      simp
    have hmem := hbefore hsplit'
    simp only [List.mem_append, List.mem_cons] at hmem
    rcases hmem with hmem | hmem | hmem
    · rw [hsplit'] at hisWalk
      exact absurd (hisWalk.leads.trans (hearlier hmem)) hback
    · exact absurd hmem.symm hne
    · obtain ⟨w₂, w₃, rfl⟩ := List.append_of_mem hmem
      exact ⟨w₁, w₂, w₃, w₄ ++ b.node :: back, by rw [hsplit]; simp⟩
  · exact absurd hc.symm hne'
  · obtain ⟨w₃, w₄, rfl⟩ := List.append_of_mem hc
    exact ⟨w₁, w₂, w₃, w₄, hsplit⟩

/-- Three points of a procedure of which the first executes before the second and the second before
the third, and the third does not lead back to the first, come in this order on every walk
through the procedure. -/
theorem exists_between
    (hprog : prog.Finalized)
    (hab : (Analysis.ofGraphs prog settings).executesBefore a b = true)
    (hbc : (Analysis.ofGraphs prog settings).executesBefore b c = true)
    (hne : a.node ≠ b.node)
    (hne' : b.node ≠ c.node)
    (hback : ¬ (prog.proc a.proc).graph.Leads c.node a.node)
    (hwalk : (prog.proc a.proc).IsComplete walk)
    (ha : a.node ∈ walk)
    (hb : b.node ∈ walk)
    (hc : c.node ∈ walk) :
    ∃ w₁ w₂ w₃ w₄, walk = w₁ ++ a.node :: (w₂ ++ b.node :: (w₃ ++ c.node :: w₄)) := by
  have hproc := Analysis.proc_eq_of_executesBefore hab
  have hproc' := Analysis.proc_eq_of_executesBefore hbc
  have hwalkb : (prog.proc b.proc).IsComplete walk := hproc ▸ hwalk
  have hwalkc : (prog.proc c.proc).IsComplete walk := hproc' ▸ hwalkb
  rcases Analysis.executesBefore_cases hab with hdom | hpdom
  · rcases Analysis.executesBefore_cases hbc with hdom' | hpdom'
    · obtain ⟨front, w₄, hsplit⟩ := List.append_of_mem hc
      have hmem := GraphOrder.mem_front_of_dominates hprog hdom' hne' hwalkb hsplit
      obtain ⟨front, w₃, rfl⟩ := List.append_of_mem hmem
      have hsplit' : walk = front ++ b.node :: (w₃ ++ c.node :: w₄) := by
        rw [hsplit]
        simp
      have hmem' := GraphOrder.mem_front_of_dominates hprog hdom hne hwalk hsplit'
      obtain ⟨w₁, w₂, rfl⟩ := List.append_of_mem hmem'
      exact ⟨w₁, w₂, w₃, w₄, by rw [hsplit']; simp⟩
    · obtain ⟨front, back, hsplit⟩ := List.append_of_mem hb
      have hmem := GraphOrder.mem_front_of_dominates hprog hdom hne hwalk hsplit
      have hmem' := GraphOrder.mem_back_of_postdominates hprog hpdom' hne'.symm hwalkc hsplit
      obtain ⟨w₁, w₂, rfl⟩ := List.append_of_mem hmem
      obtain ⟨w₃, w₄, rfl⟩ := List.append_of_mem hmem'
      exact ⟨w₁, w₂, w₃, w₄, by rw [hsplit]; simp⟩
  · obtain ⟨w₁, back, hsplit⟩ := List.append_of_mem ha
    have hmem := GraphOrder.mem_back_of_postdominates hprog hpdom hne.symm hwalkb hsplit
    obtain ⟨w₂, back, rfl⟩ := List.append_of_mem hmem
    rcases Analysis.executesBefore_cases hbc with hdom' | hpdom'
    · exact exists_between_of_postdominates_dominates hprog hdom' hproc.symm hne hne' hback hwalk
        hsplit hc
    · have hsplit' : walk = (w₁ ++ a.node :: w₂) ++ b.node :: back := by
        rw [hsplit]
        simp
      have hmem' := GraphOrder.mem_back_of_postdominates hprog hpdom' hne'.symm hwalkc hsplit'
      obtain ⟨w₃, w₄, rfl⟩ := List.append_of_mem hmem'
      exact ⟨w₁, w₂, w₃, w₄, hsplit⟩

/-- What makes a kill hard: it executes between the definition and every local use, which does not
lead back to the definition. -/
theorem Association.LocalFacts.hardKill_order
    {a : Association} {k : Def} {w : Use}
    (h : a.LocalFacts prog (GraphOrder.ofProgram prog).oracle settings)
    (hprog : prog.Finalized)
    (hk : k ∈ a.hardKills)
    (hw : w ∈ a.localUses) :
    k ∈ (prog.reachedFrom settings.formalsAsDefs a.definition).killers ∧
      (Analysis.ofGraphs prog settings).executesBefore a.definition.site k.site = true ∧
      (Analysis.ofGraphs prog settings).executesBefore k.site w.site = true ∧
      (Analysis.ofGraphs prog settings).mayReach w.site a.definition.site = false := by
  obtain ⟨⟨hkiller, -⟩, -, hbefore, hafter⟩ := (h.mem_hardKills_iff hprog).mp hk
  exact ⟨hkiller, hbefore, hafter w hw⟩

theorem Association.LocalFacts.hardKill_between
    {a : Association} {k : Def} {w : Use}
    (h : a.LocalFacts prog (GraphOrder.ofProgram prog).oracle settings)
    (hbuilt : prog.Built)
    (hprog : prog.Finalized)
    (hk : k ∈ a.hardKills)
    (hw : w ∈ a.localUses)
    (hsites : k.site ≠ w.site) :
    k.site.proc = a.definition.site.proc ∧
      ∀ walk, (prog.proc a.definition.site.proc).IsComplete walk →
        a.definition.site.node ∈ walk → k.site.node ∈ walk → w.site.node ∈ walk →
        ∃ w₁ w₂ w₃ w₄, walk =
          w₁ ++ a.definition.site.node :: (w₂ ++ k.site.node :: (w₃ ++ w.site.node :: w₄)) := by
  have hd := h.isLocalDef
  obtain ⟨hkiller, hbefore, hafter, hnoway⟩ := h.hardKill_order hprog hk hw
  rw [h.localUses] at hw
  have hreached := ((Program.mem_witnesses_iff hprog hd).mp hw).1
  obtain ⟨-, hself, hback⟩ := (Analysis.mayReach_eq_false_iff hprog
    (by rw [hreached.proc]; exact hd.proc_mem) hreached.isUse.node_mem
    hreached.proc.symm).mp hnoway
  rw [hreached.proc] at hself hback
  have hproc : k.site.proc = a.definition.site.proc :=
    (Analysis.proc_eq_of_executesBefore hbefore).symm
  have hkill : k.site = ⟨a.definition.site.proc, k.site.node⟩ := by rw [← hproc]
  obtain ⟨hkd, hvar, hleads⟩ :=
    Program.mem_killers_of_not_selfCalling hprog hd hself hproc hkiller
  have hne : a.definition.site.node ≠ k.site.node := by
    intro heq
    have hsite : k.site = a.definition.site := by rw [hkill, ← heq]
    have hlocal := Program.isLocalDef_of_mem_killers hprog hd hkiller
    rcases hd.eq_or_entry hlocal hsite hvar with hsame | hentry
    · exact hkd hsame
    · rw [hsite, hentry] at hleads
      exact hbuilt.not_leads_entry hprog hd.proc_mem _ hleads
  have hne' : k.site.node ≠ w.site.node := by
    intro heq
    apply hsites
    rw [hkill, heq, ← hreached.proc]
  exact ⟨hproc, fun walk hwalk hdef hvisit huse =>
    exists_between hprog hbefore hafter hne hne' hback hwalk hdef hvisit huse⟩

theorem exists_positions
    (x y z : Int) (w₁ w₂ w₃ w₄ : List Int) :
    ∃ i j l : Nat, i < j ∧ j < l ∧
      (w₁ ++ x :: (w₂ ++ y :: (w₃ ++ z :: w₄)))[i]? = some x ∧
      (w₁ ++ x :: (w₂ ++ y :: (w₃ ++ z :: w₄)))[j]? = some y ∧
      (w₁ ++ x :: (w₂ ++ y :: (w₃ ++ z :: w₄)))[l]? = some z := by
  have hat : ∀ (front : List Int) (v : Int) (back : List Int),
      (front ++ v :: back)[front.length]? = some v := by
    intro front v back
    simp
  have hy := hat (w₁ ++ x :: w₂) y (w₃ ++ z :: w₄)
  have hz := hat (w₁ ++ x :: (w₂ ++ y :: w₃)) z w₄
  simp only [List.append_assoc, List.cons_append] at hy hz
  refine ⟨w₁.length, _, _, ?_, ?_, hat w₁ x _, hy, hz⟩
  · simp
  · simp

/-- Hard kills, the definition before them and the local uses after them come in this order on
every walk through the procedure. -/
theorem hardKills_between
    (prog : Program) (settings : Settings)
    (hbuilt : prog.Built)
    (hprog : prog.Finalized) :
    ∃ set events,
      analyzeProgram prog (GraphOrder.ofProgram prog).oracle settings = .ok (set, events) ∧
      ∀ a ∈ set.items, a.heap = false → ∀ k ∈ a.hardKills, ∀ w ∈ a.localUses, k.site ≠ w.site →
        k.site.proc = a.definition.site.proc ∧
        ∀ walk, (prog.proc a.definition.site.proc).IsComplete walk →
          a.definition.site.node ∈ walk → k.site.node ∈ walk → w.site.node ∈ walk →
          ∃ i j l : Nat, i < j ∧ j < l ∧ walk[i]? = some a.definition.site.node ∧
            walk[j]? = some k.site.node ∧ walk[l]? = some w.site.node := by
  obtain ⟨events, hrun⟩ :=
    @analyzeProgram_eq prog (GraphOrder.ofProgram prog).oracle settings hprog
  refine ⟨_, events, hrun, ?_⟩
  intro a ha hheap k hk w hw hsites
  have hfacts := localFacts_of_mem hprog ha hheap
  obtain ⟨hproc, hbetween⟩ := hfacts.hardKill_between hbuilt hprog hk hw hsites
  refine ⟨hproc, ?_⟩
  intro walk hwalk hdef hkill huse
  obtain ⟨w₁, w₂, w₃, w₄, rfl⟩ := hbetween walk hwalk hdef hkill huse
  exact exists_positions _ _ _ w₁ w₂ w₃ w₄

/-- The steps that build the program with the variable that is set again. -/
def redefinitionSteps : List BuildStep :=
  [.procedure "f" [.ofLocal "f" "c"],
    .node 0 "x = 1", .define ⟨0, 2⟩ [.ofLocal "f" "x"],
    .node 0 "if c", .use ⟨0, 3⟩ [.ofLocal "f" "c"], .mark ⟨0, 3⟩ false true false,
    .node 0 "x = 2", .define ⟨0, 4⟩ [.ofLocal "f" "x"],
    .node 0 "y = x", .use ⟨0, 5⟩ [.ofLocal "f" "x"],
    .edge 0 0 2, .edge 0 2 3, .edge 0 3 4, .edge 0 3 5, .edge 0 4 5, .edge 0 5 1, .finalize]

/-- On the way with both definitions, the second one lies between the first one and the use. -/
theorem hardKills_between_redefinition :
    redefinition.Built ∧ redefinition.Finalized ∧
      (redefinition.proc 0).IsComplete [0, 2, 3, 4, 5, 1] ∧
      ∃ i j l : Nat, i < j ∧ j < l ∧ ([0, 2, 3, 4, 5, 1] : List Int)[i]? = some 2 ∧
        ([0, 2, 3, 4, 5, 1] : List Int)[j]? = some 4 ∧
        ([0, 2, 3, 4, 5, 1] : List Int)[l]? = some 5 := by
  have hbuilt : redefinition.Built := ⟨redefinitionSteps, by decide +kernel⟩
  have hprog : redefinition.Finalized := by decide +kernel
  have hwalk : (redefinition.proc 0).IsComplete [0, 2, 3, 4, 5, 1] := by
    refine ⟨?_, rfl, rfl⟩
    unfold Digraph.IsWalk
    decide +kernel
  refine ⟨hbuilt, hprog, hwalk, ?_⟩
  obtain ⟨set, events, hrun, hall⟩ := hardKills_between redefinition {} hbuilt hprog
  have hlisted := redefinitionPair_listed
  rw [hrun] at hlisted
  have hmem : redefinitionPair ∈ set.items := by simpa [Except.map] using hlisted
  obtain ⟨-, hbetween⟩ := hall redefinitionPair hmem rfl _ List.mem_cons_self _
    List.mem_cons_self (by decide)
  exact hbetween _ hwalk (by decide) (by decide) (by decide)

end Between

end DefUse
