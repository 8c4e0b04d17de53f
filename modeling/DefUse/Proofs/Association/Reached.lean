import DefUse.Association.Build
import DefUse.Proofs.Flow.Formals

/-!
# What a definition reaches

A definition reaches the uses at the ends of chains: each link of a chain brings the value by a
walk inside one procedure to a use, and passes it there to a formal of the next procedure.

**Results.**
* `behind_use_iff`: the uses behind a formal are the ends of the chains from the entry.
* `mem_pairs_iff` and `mem_killers_iff`: the pairs and the killers noted for a definition.
* `mem_uses_iff_chain`: a definition reaches exactly the ends of its chains.
-/

namespace DefUse

/-- A use that is reached is reached through some local use. -/
theorem Reached.witnesses_ne_nil
    {r : Reached} {u : Use}
    (hu : u ∈ r.uses) :
    r.witnesses u ≠ [] := by
  simp only [uses, mem_sortDistinct, List.mem_map, Prod.exists, exists_and_right,
    exists_eq_right] at hu
  obtain ⟨w, hpair⟩ := hu
  refine List.ne_nil_of_mem (a := w) ?_
  simp [witnesses, hpair]

namespace Program

/-- A chain of walks brings the value that a variable has after a point to a use.  Every use
before the last one passes the value to a local formal, and the chain goes on from the entry of
the formal's procedure; the last use is an endpoint. -/
inductive Chain (prog : Program) (formalsAsDefs : Bool) : Point → Variable → Use → Prop
  | last {site : Point} {v : Variable} {u : Use}
      (hreached : prog.LocallyReached formalsAsDefs site v u)
      (hend : prog.IsEndpoint formalsAsDefs u) :
      Chain prog formalsAsDefs site v u
  | pass {site : Point} {v param : Variable} {w u : Use} {x : Formal}
      (hreached : prog.LocallyReached formalsAsDefs site v w)
      (hpassed : prog.IsPassedTo formalsAsDefs w x)
      (hparam : (prog.proc x.proc).params[x.index]? = some param)
      (hlocal : param.isLocal = true)
      (hrest : Chain prog formalsAsDefs ⟨x.proc, entryId⟩ param u) :
      Chain prog formalsAsDefs site v u

/-- The summaries of the formals of a program. -/
def summaries (prog : Program) (formalsAsDefs : Bool) : FormalTable :=
  (formalProgress prog formalsAsDefs (localFlows prog formalsAsDefs)).table

/-- What a definition of the program reaches. -/
def reachedFrom (prog : Program) (formalsAsDefs : Bool) (d : Def) : Reached :=
  (LocalFlow.ofProcedure prog formalsAsDefs d.site.proc).reachedBy
    (prog.summaries formalsAsDefs) d

variable {prog : Program} {formalsAsDefs : Bool} {d : Def} {u w : Use} {x : Formal}

theorem IsPassedTo.notZero
    {param : Variable}
    (h : prog.IsPassedTo formalsAsDefs w x)
    (hparam : (prog.proc x.proc).params[x.index]? = some param) :
    param.isZero = false := by
  obtain ⟨c, i, -, hpass⟩ := h
  obtain ⟨param', hparam', hzero⟩ := hpass.formal
  rw [hpass.index, hparam'] at hparam
  rwa [← Option.some.inj hparam]

theorem IsLocalDef.proc_mem
    (hd : prog.IsLocalDef formalsAsDefs d) :
    d.site.proc ∈ prog.procIds := by
  by_contra hout
  obtain ⟨-, hdef | ⟨-, hformal⟩⟩ := hd
  · obtain ⟨-, hvar, -⟩ := mem_defsOf_iff.mp hdef
    rw [proc_eq_empty hout, node_eq_empty (by simp [Procedure.ids, positions])] at hvar
    exact absurd hvar List.not_mem_nil
  · obtain ⟨-, hvar, -, -⟩ := mem_formalDefs_iff.mp hformal
    rw [proc_eq_empty hout] at hvar
    exact absurd hvar List.not_mem_nil

theorem IsLocalDef.node_mem
    (hprog : prog.Finalized)
    (hd : prog.IsLocalDef formalsAsDefs d) :
    d.site.node ∈ (prog.proc d.site.proc).ids := by
  have hproc := hd.proc_mem
  obtain ⟨-, hdef | ⟨-, hformal⟩⟩ := hd
  · obtain ⟨-, hvar, -⟩ := mem_defsOf_iff.mp hdef
    exact mem_ids_of_mem_defs hvar
  · obtain ⟨hsite, -, -, -⟩ := mem_formalDefs_iff.mp hformal
    have hentry := hprog.entry_mem hproc
    rw [hsite] at hentry ⊢
    exact hentry

/-- The flows of a program are those of its procedures, by position. -/
theorem getElem?_localFlows_iff
    {p : Nat} {fl : LocalFlow} :
    (localFlows prog formalsAsDefs)[p]? = some fl ↔
      (p : Int) ∈ prog.procIds ∧ fl = LocalFlow.ofProcedure prog formalsAsDefs p := by
  have hmem : (p : Int) ∈ prog.procIds ↔ p < prog.procs.size := by
    rw [procIds, mem_positions]
    omega
  rw [hmem, localFlows, procIds, positions]
  by_cases hp : p < prog.procs.size
  · simp [hp, eq_comm]
  · simp [hp]

theorem callersKnown_localFlows
    (hprog : prog.Finalized) :
    FormalTable.CallersKnown prog (localFlows prog formalsAsDefs) := by
  intro q fl u y hfl hlink
  obtain ⟨hq, rfl⟩ := getElem?_localFlows_iff.mp hfl
  obtain ⟨hproc, c, i, harg, hpass⟩ := LocalFlow.mem_links_iff.mp hlink
  have hcall : c ∈ ((prog.proc q).node u.site.node).calls := by
    rw [← hproc]
    exact harg.call
  have hcallee := hprog.mem_callees_of_call hq hcall hpass.callee
  exact (hprog.mem_callers_iff (lookup?_lt hpass.callee) hq).mpr hcallee

/-- The summary of a formal that something is passed to holds what the rules put behind it. -/
theorem IsPassedTo.mem_summaries_iff
    (hprog : prog.Finalized)
    {item : Use ⊕ Def}
    (h : prog.IsPassedTo formalsAsDefs w x) :
    item ∈ ((prog.summaries formalsAsDefs).summary x).items ↔
      FormalTable.Behind prog (localFlows prog formalsAsDefs) x item := by
  obtain ⟨c, i, -, hpass⟩ := h
  have hlinked := hpass.linked
  subst hlinked
  exact FormalTable.mem_items_solveFrom_iff hprog (callersKnown_localFlows hprog)
    fun p hp => FormalTable.mem_calleesFirst hprog hp

section Flows

variable {p : Int} {n : Int} {v : Variable}

theorem mem_usesFrom_ofProcedure_iff
    (hprog : prog.Finalized)
    (hp : p ∈ prog.procIds)
    (hn : n ∈ (prog.proc p).ids) :
    u ∈ (LocalFlow.ofProcedure prog formalsAsDefs p).usesFrom n v ↔
      prog.LocallyReached formalsAsDefs ⟨p, n⟩ v u :=
  LocalFlow.mem_usesFrom_iff (hprog.graph_closed hp) (fun _ hi => List.mem_reverse.mpr hi) hn

theorem mem_defsFrom_ofProcedure_iff
    (hprog : prog.Finalized)
    (hp : p ∈ prog.procIds)
    (hn : n ∈ (prog.proc p).ids) :
    d ∈ (LocalFlow.ofProcedure prog formalsAsDefs p).defsFrom n v ↔
      prog.IsLocalDef formalsAsDefs d ∧ d.site.proc = p ∧ d.var = v ∧
        (prog.proc p).graph.Leads n d.site.node :=
  LocalFlow.mem_defsFrom_iff (hprog.graph_closed hp) (fun _ hi => List.mem_reverse.mpr hi) hn

theorem isEndpoint_ofProcedure_iff :
    (LocalFlow.ofProcedure prog formalsAsDefs p).isEndpoint u = true ↔
      u.site.proc = p ∧ prog.IsEndpoint formalsAsDefs u :=
  LocalFlow.isEndpoint_iff

theorem mem_links_ofProcedure_iff :
    x ∈ (LocalFlow.ofProcedure prog formalsAsDefs p).links u ↔
      u.site.proc = p ∧ prog.IsPassedTo formalsAsDefs u x :=
  LocalFlow.mem_links_iff

theorem inl_mem_adds_iff
    (hprog : prog.Finalized)
    (hp : p ∈ prog.procIds) :
    .inl u ∈ (LocalFlow.ofProcedure prog formalsAsDefs p).adds v ↔
      prog.LocallyReached formalsAsDefs ⟨p, entryId⟩ v u ∧ prog.IsEndpoint formalsAsDefs u := by
  simp only [LocalFlow.adds, List.mem_append, List.mem_map, List.mem_filter, Sum.inl.injEq,
    exists_eq_right, reduceCtorEq, and_false, exists_false, or_false,
    mem_usesFrom_ofProcedure_iff hprog hp (hprog.entry_mem hp), isEndpoint_ofProcedure_iff]
  constructor
  · rintro ⟨hreached, -, hend⟩
    exact ⟨hreached, hend⟩
  · rintro ⟨hreached, hend⟩
    exact ⟨hreached, hreached.proc, hend⟩

theorem inr_mem_adds_iff
    (hprog : prog.Finalized)
    (hp : p ∈ prog.procIds) :
    .inr d ∈ (LocalFlow.ofProcedure prog formalsAsDefs p).adds v ↔
      prog.IsLocalDef formalsAsDefs d ∧ d.site.proc = p ∧ d.var = v ∧
        (prog.proc p).graph.Leads entryId d.site.node := by
  simp only [LocalFlow.adds, List.mem_append, List.mem_map, Sum.inr.injEq, exists_eq_right,
    reduceCtorEq, and_false, exists_false, false_or,
    mem_defsFrom_ofProcedure_iff hprog hp (hprog.entry_mem hp)]

theorem mem_passes_iff
    (hprog : prog.Finalized)
    (hp : p ∈ prog.procIds) :
    x ∈ (LocalFlow.ofProcedure prog formalsAsDefs p).passes v ↔
      ∃ w, prog.LocallyReached formalsAsDefs ⟨p, entryId⟩ v w ∧
        prog.IsPassedTo formalsAsDefs w x := by
  simp only [LocalFlow.passes, List.mem_flatMap, mem_links_ofProcedure_iff,
    mem_usesFrom_ofProcedure_iff hprog hp (hprog.entry_mem hp)]
  constructor
  · rintro ⟨w, hw, -, hpassed⟩
    exact ⟨w, hw, hpassed⟩
  · rintro ⟨w, hw, hpassed⟩
    exact ⟨w, hw, hw.proc, hpassed⟩

end Flows

theorem isSummarised_localFlows
    {param : Variable} (formalsAsDefs : Bool)
    (hparam : (prog.proc x.proc).params[x.index]? = some param)
    (hzero : param.isZero = false)
    (hlocal : param.isLocal = true) :
    FormalTable.IsSummarised prog (localFlows prog formalsAsDefs) x
      (LocalFlow.ofProcedure prog formalsAsDefs x.proc) param := by
  refine ⟨getElem?_localFlows_iff.mpr ⟨?_, rfl⟩, hparam, hzero, hlocal⟩
  by_contra hout
  rw [proc_eq_empty hout] at hparam
  exact absurd hparam (by simp)

/-- The uses behind a formal are the ends of the chains that start at the entry. -/
theorem behind_use_iff
    (hprog : prog.Finalized) :
    FormalTable.Behind prog (localFlows prog formalsAsDefs) x (.inl u) ↔
      ∃ param, (prog.proc x.proc).params[x.index]? = some param ∧ param.isZero = false ∧
        param.isLocal = true ∧ prog.Chain formalsAsDefs ⟨x.proc, entryId⟩ param u := by
  constructor
  · intro h
    generalize hitem : (Sum.inl u : Use ⊕ Def) = item at h
    induction h with
    | @added x fl param item hx hadd =>
        subst hitem
        obtain ⟨hp, rfl⟩ := getElem?_localFlows_iff.mp hx.flow
        obtain ⟨hreached, hend⟩ := (inl_mem_adds_iff hprog hp).mp hadd
        exact ⟨param, hx.formal, hx.notZero, hx.isLocal, .last hreached hend⟩
    | @passed x y fl param item hx hy _ ih =>
        obtain ⟨hp, rfl⟩ := getElem?_localFlows_iff.mp hx.flow
        obtain ⟨w, hw, hpassed⟩ := (mem_passes_iff hprog hp).mp hy
        obtain ⟨param', hparam', -, hlocal', hchain⟩ := ih hitem
        exact ⟨param, hx.formal, hx.notZero, hx.isLocal,
          .pass hw hpassed hparam' hlocal' hchain⟩
  · rintro ⟨param, hparam, hzero, hlocal, hchain⟩
    generalize hsite : (⟨x.proc, entryId⟩ : Point) = site at hchain
    induction hchain generalizing x with
    | @last site v u hreached hend =>
        subst hsite
        have hx := isSummarised_localFlows formalsAsDefs hparam hzero hlocal
        obtain ⟨hp, -⟩ := getElem?_localFlows_iff.mp hx.flow
        exact .added hx ((inl_mem_adds_iff hprog hp).mpr ⟨hreached, hend⟩)
    | @pass site v param' w u y hreached hpassed hparam' hlocal' _ ih =>
        subst hsite
        have hx := isSummarised_localFlows formalsAsDefs hparam hzero hlocal
        obtain ⟨hp, -⟩ := getElem?_localFlows_iff.mp hx.flow
        exact .passed hx ((mem_passes_iff hprog hp).mpr ⟨w, hreached, hpassed⟩)
          (ih hparam' (hpassed.notZero hparam') hlocal' rfl)

/-- Only definitions of local variables stand behind formals. -/
theorem isLocalDef_of_behind
    (hprog : prog.Finalized)
    (h : FormalTable.Behind prog (localFlows prog formalsAsDefs) x (.inr d)) :
    prog.IsLocalDef formalsAsDefs d := by
  generalize hitem : (Sum.inr d : Use ⊕ Def) = item at h
  induction h with
  | passed _ _ _ ih => exact ih hitem
  | @added x fl param item hx hadd =>
      subst hitem
      obtain ⟨hp, rfl⟩ := getElem?_localFlows_iff.mp hx.flow
      exact ((inr_mem_adds_iff hprog hp).mp hadd).1

section Noted

/-- The pairs noted for a definition: local uses that are reached, with what they stand for. -/
theorem mem_pairs_iff
    (hprog : prog.Finalized)
    (hd : prog.IsLocalDef formalsAsDefs d) :
    (u, w) ∈ (prog.reachedFrom formalsAsDefs d).pairs ↔
      prog.LocallyReached formalsAsDefs d.site d.var w ∧
        (u = w ∧ prog.IsEndpoint formalsAsDefs w ∨
          ∃ x, prog.IsPassedTo formalsAsDefs w x ∧
            FormalTable.Behind prog (localFlows prog formalsAsDefs) x (.inl u)) := by
  have hsummary : ∀ {x}, prog.IsPassedTo formalsAsDefs w x →
      (u ∈ ((prog.summaries formalsAsDefs).summary x).uses ↔
        FormalTable.Behind prog (localFlows prog formalsAsDefs) x (.inl u)) := by
    intro x hpassed
    rw [← hpassed.mem_summaries_iff hprog]
    simp [FormalSummary.items]
  simp only [reachedFrom, LocalFlow.reachedBy, LocalFlow.standsFor, List.mem_flatMap,
    List.mem_map, Prod.mk.injEq, List.mem_append,
    mem_usesFrom_ofProcedure_iff hprog hd.proc_mem (hd.node_mem hprog)]
  constructor
  · rintro ⟨w, hw, u, hu | ⟨x, hlink, hu⟩, rfl, rfl⟩
    · split at hu
      · rename_i hend
        exact ⟨hw, Or.inl ⟨List.mem_singleton.mp hu, (isEndpoint_ofProcedure_iff.mp hend).2⟩⟩
      · exact absurd hu List.not_mem_nil
    · obtain ⟨-, hpassed⟩ := mem_links_ofProcedure_iff.mp hlink
      exact ⟨hw, Or.inr ⟨x, hpassed, (hsummary hpassed).mp hu⟩⟩
  · rintro ⟨hw, ⟨rfl, hend⟩ | ⟨x, hpassed, hu⟩⟩
    · refine ⟨u, hw, u, Or.inl ?_, rfl, rfl⟩
      rw [if_pos (isEndpoint_ofProcedure_iff.mpr ⟨hw.proc, hend⟩)]
      exact List.mem_singleton_self u
    · refine ⟨w, hw, u, Or.inr ⟨x, ?_, (hsummary hpassed).mpr hu⟩, rfl, rfl⟩
      exact mem_links_ofProcedure_iff.mpr ⟨hw.proc, hpassed⟩

/-- The killers noted for a definition: other definitions of its variable that it leads to, and
definitions of the formals that the variable is passed to. -/
theorem mem_killers_iff
    {k : Def}
    (hprog : prog.Finalized)
    (hd : prog.IsLocalDef formalsAsDefs d) :
    k ∈ (prog.reachedFrom formalsAsDefs d).killers ↔
      k ≠ d ∧
      (prog.IsLocalDef formalsAsDefs k ∧ k.site.proc = d.site.proc ∧ k.var = d.var ∧
          (prog.proc d.site.proc).graph.Leads d.site.node k.site.node ∨
        ∃ w x, prog.LocallyReached formalsAsDefs d.site d.var w ∧
          prog.IsPassedTo formalsAsDefs w x ∧
          FormalTable.Behind prog (localFlows prog formalsAsDefs) x (.inr k)) := by
  have hremote : k ∈ ((LocalFlow.ofProcedure prog formalsAsDefs d.site.proc).usesFrom
        d.site.node d.var).flatMap ((LocalFlow.ofProcedure prog formalsAsDefs
          d.site.proc).overwrites (prog.summaries formalsAsDefs)) ↔
      ∃ w x, prog.LocallyReached formalsAsDefs d.site d.var w ∧
        prog.IsPassedTo formalsAsDefs w x ∧
        FormalTable.Behind prog (localFlows prog formalsAsDefs) x (.inr k) := by
    simp only [LocalFlow.overwrites, List.mem_flatMap,
      mem_usesFrom_ofProcedure_iff hprog hd.proc_mem (hd.node_mem hprog)]
    constructor
    · rintro ⟨w, hw, x, hlink, hk⟩
      obtain ⟨-, hpassed⟩ := mem_links_ofProcedure_iff.mp hlink
      refine ⟨w, x, hw, hpassed, ?_⟩
      rw [← hpassed.mem_summaries_iff hprog]
      simpa [FormalSummary.items] using hk
    · rintro ⟨w, x, hw, hpassed, hk⟩
      refine ⟨w, hw, x, mem_links_ofProcedure_iff.mpr ⟨hw.proc, hpassed⟩, ?_⟩
      rw [← hpassed.mem_summaries_iff hprog] at hk
      simpa [FormalSummary.items] using hk
  have hown : k ∈ (LocalFlow.ofProcedure prog formalsAsDefs d.site.proc).killersOf d ↔
      (prog.IsLocalDef formalsAsDefs k ∧ k.site.proc = d.site.proc ∧ k.var = d.var ∧
        (prog.proc d.site.proc).graph.Leads d.site.node k.site.node) ∧ k ≠ d := by
    rw [LocalFlow.killersOf, List.mem_filter, decide_eq_true_eq,
      mem_defsFrom_ofProcedure_iff hprog hd.proc_mem (hd.node_mem hprog)]
  simp only [reachedFrom, LocalFlow.reachedBy, List.mem_append, List.mem_filter,
    mem_sortDistinct, hremote, Bool.and_eq_true, decide_eq_true_eq]
  constructor
  · rintro (hk | ⟨hfar, hne, -⟩)
    · obtain ⟨hk, hne⟩ := hown.mp hk
      exact ⟨hne, Or.inl hk⟩
    · exact ⟨hne, Or.inr hfar⟩
  · rintro ⟨hne, hk | hfar⟩
    · exact Or.inl (hown.mpr ⟨hk, hne⟩)
    · by_cases hk : k ∈ (LocalFlow.ofProcedure prog formalsAsDefs d.site.proc).killersOf d
      · exact Or.inl hk
      · exact Or.inr ⟨hfar, hne, hk⟩

/-- A definition reaches exactly the ends of its chains. -/
theorem mem_uses_iff_chain
    (hprog : prog.Finalized)
    (hd : prog.IsLocalDef formalsAsDefs d) :
    u ∈ (prog.reachedFrom formalsAsDefs d).uses ↔ prog.Chain formalsAsDefs d.site d.var u := by
  simp only [Reached.uses, mem_sortDistinct, List.mem_map, Prod.exists, exists_and_right,
    exists_eq_right]
  constructor
  · rintro ⟨w, hpair⟩
    obtain ⟨hw, ⟨rfl, hend⟩ | ⟨x, hpassed, hu⟩⟩ := (mem_pairs_iff hprog hd).mp hpair
    · exact .last hw hend
    · obtain ⟨param, hparam, -, hlocal, hchain⟩ := (behind_use_iff hprog).mp hu
      exact .pass hw hpassed hparam hlocal hchain
  · intro h
    cases h with
    | last hw hend => exact ⟨u, (mem_pairs_iff hprog hd).mpr ⟨hw, Or.inl ⟨rfl, hend⟩⟩⟩
    | @pass _ _ param w _ x hw hpassed hparam hlocal hchain =>
        have hbehind := (behind_use_iff hprog).mpr
          ⟨param, hparam, hpassed.notZero hparam, hlocal, hchain⟩
        exact ⟨w, (mem_pairs_iff hprog hd).mpr ⟨hw, Or.inr ⟨x, hpassed, hbehind⟩⟩⟩

theorem mem_witnesses_iff
    (hprog : prog.Finalized)
    (hd : prog.IsLocalDef formalsAsDefs d) :
    w ∈ (prog.reachedFrom formalsAsDefs d).witnesses u ↔
      prog.LocallyReached formalsAsDefs d.site d.var w ∧
        (u = w ∧ prog.IsEndpoint formalsAsDefs w ∨
          ∃ x, prog.IsPassedTo formalsAsDefs w x ∧
            FormalTable.Behind prog (localFlows prog formalsAsDefs) x (.inl u)) := by
  rw [← mem_pairs_iff hprog hd]
  simp [Reached.witnesses]

end Noted

end Program

end DefUse
