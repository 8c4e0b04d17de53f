import DefUse.Proofs.Association.Build

/-!
# Exactness of the kills

The kills of an association are collected from three sources: definitions of the variable in the
procedure of the definition, definitions of a formal that the variable is passed to, and those of
formals that the value is passed on to from there.  They are merged, and divided into hard and
possible kills.

**Results.**
* `behind_def_iff`: the definitions behind a formal are those that write what is bound to it.
* `killLists_exact`: the two lists are disjoint and without repetition, and hold exactly the other
  definitions that write the variable again and are associated with the same use.
-/

namespace DefUse

namespace Program

/-- The definition writes the value bound to a formal: it is a definition of the formal that edges
lead to from the entry, or it writes the value bound to a formal that the value is passed on
to. -/
inductive Overwrites (prog : Program) (formalsAsDefs : Bool) : Formal → Def → Prop
  | here {x : Formal} {k : Def}
      (hparam : (prog.proc x.proc).params[x.index]? = some k.var)
      (hdef : prog.IsLocalDef formalsAsDefs k)
      (hproc : k.site.proc = x.proc)
      (hleads : (prog.proc x.proc).graph.Leads entryId k.site.node) :
      Overwrites prog formalsAsDefs x k
  | further {x y : Formal} {param : Variable} {w : Use} {k : Def}
      (hparam : (prog.proc x.proc).params[x.index]? = some param)
      (hreached : prog.LocallyReached formalsAsDefs ⟨x.proc, entryId⟩ param w)
      (hpassed : prog.IsPassedTo formalsAsDefs w y)
      (hrest : Overwrites prog formalsAsDefs y k) :
      Overwrites prog formalsAsDefs x k

/-- After a definition its variable may be written again: edges lead to another definition of the
variable, or an argument that the value reaches is bound to a formal whose value is written. -/
def WritesAgain (prog : Program) (formalsAsDefs : Bool) (d k : Def) : Prop :=
  k.site.proc = d.site.proc ∧ k.var = d.var ∧
      (prog.proc d.site.proc).graph.Leads d.site.node k.site.node ∨
    ∃ w x, prog.LocallyReached formalsAsDefs d.site d.var w ∧
      prog.IsPassedTo formalsAsDefs w x ∧ prog.Overwrites formalsAsDefs x k

variable {prog : Program} {formalsAsDefs : Bool} {d k : Def} {w : Use} {x : Formal}

theorem overwrites_of_behind
    (hprog : prog.Finalized)
    (h : FormalTable.Behind prog (localFlows prog formalsAsDefs) x (.inr k)) :
    prog.Overwrites formalsAsDefs x k := by
  generalize hitem : (Sum.inr k : Use ⊕ Def) = item at h
  induction h with
  | @added x fl param item hx hadd =>
      subst hitem
      obtain ⟨hp, rfl⟩ := getElem?_localFlows_iff.mp hx.flow
      obtain ⟨hdef, hproc, hvar, hleads⟩ := (inr_mem_adds_iff hprog hp).mp hadd
      exact .here (by rw [hvar]; exact hx.formal) hdef hproc hleads
  | @passed x y fl param item hx hy _ ih =>
      obtain ⟨hp, rfl⟩ := getElem?_localFlows_iff.mp hx.flow
      obtain ⟨w, hreached, hpassed⟩ := (mem_passes_iff hprog hp).mp hy
      exact .further hx.formal hreached hpassed (ih hitem)

theorem behind_of_overwrites
    (hprog : prog.Finalized)
    (h : prog.Overwrites formalsAsDefs x k)
    (hzero : ∀ param, (prog.proc x.proc).params[x.index]? = some param → param.isZero = false) :
    FormalTable.Behind prog (localFlows prog formalsAsDefs) x (.inr k) := by
  -- only formals with a name have a summary, and what is passed on is bound to such formals
  induction h with
  | @here x k hparam hdef hproc hleads =>
      have hx := isSummarised_localFlows formalsAsDefs hparam (hzero _ hparam) hdef.1
      obtain ⟨hp, -⟩ := getElem?_localFlows_iff.mp hx.flow
      exact .added hx ((inr_mem_adds_iff hprog hp).mpr ⟨hdef, hproc, rfl, hleads⟩)
  | @further x y param w k hparam hreached hpassed _ ih =>
      have hlocal : param.isLocal = true := by
        rw [← hreached.var]
        exact hreached.isUse.isLocal
      have hx := isSummarised_localFlows formalsAsDefs hparam (hzero _ hparam) hlocal
      obtain ⟨hp, -⟩ := getElem?_localFlows_iff.mp hx.flow
      exact .passed hx ((mem_passes_iff hprog hp).mpr ⟨w, hreached, hpassed⟩)
        (ih fun _ hparam => hpassed.notZero hparam)

/-- The definitions behind a formal that something is passed to write what is bound to it. -/
theorem behind_def_iff
    (hprog : prog.Finalized)
    (hpassed : prog.IsPassedTo formalsAsDefs w x) :
    FormalTable.Behind prog (localFlows prog formalsAsDefs) x (.inr k) ↔
      prog.Overwrites formalsAsDefs x k := by
  constructor
  · exact overwrites_of_behind hprog
  · intro h
    exact behind_of_overwrites hprog h fun _ hparam => hpassed.notZero hparam

theorem mem_killers_iff_writesAgain
    (hprog : prog.Finalized)
    (hd : prog.IsLocalDef formalsAsDefs d) :
    k ∈ (prog.reachedFrom formalsAsDefs d).killers ↔
      prog.IsLocalDef formalsAsDefs k ∧ k ≠ d ∧ prog.WritesAgain formalsAsDefs d k := by
  constructor
  · intro hk
    refine ⟨isLocalDef_of_mem_killers hprog hd hk, ?_⟩
    obtain ⟨hne, ⟨-, hown⟩ | ⟨w, x, hreached, hpassed, hbehind⟩⟩ :=
      (mem_killers_iff hprog hd).mp hk
    · exact ⟨hne, Or.inl hown⟩
    · exact ⟨hne, Or.inr ⟨w, x, hreached, hpassed, (behind_def_iff hprog hpassed).mp hbehind⟩⟩
  · rintro ⟨hk, hne, hown | ⟨w, x, hreached, hpassed, hover⟩⟩
    · exact (mem_killers_iff hprog hd).mpr ⟨hne, Or.inl ⟨hk, hown⟩⟩
    · exact (mem_killers_iff hprog hd).mpr
        ⟨hne, Or.inr ⟨w, x, hreached, hpassed, (behind_def_iff hprog hpassed).mpr hover⟩⟩

/-- What was found in the procedure itself is not listed again with what lies behind formals. -/
theorem killers_nodup
    (d : Def) :
    (prog.reachedFrom formalsAsDefs d).killers.Nodup := by
  refine List.nodup_append.mpr ⟨LocalFlow.defsFrom_nodup.filter _,
    (sortDistinct_nodup _).filter _, ?_⟩
  intro k hown k' hfar
  simp only [List.mem_filter, Bool.and_eq_true, decide_eq_true_eq] at hfar
  rintro rfl
  exact hfar.2.2 hown

end Program

section Exact

variable {prog : Program} {oracle : Oracle} {settings : Settings} {a : Association} {k : Def}

theorem Association.LocalFacts.kills_divided
    (h : a.LocalFacts prog oracle settings) :
    a.hardKills.Nodup ∧ a.possibleKills.Nodup ∧ a.hardKills.Disjoint a.possibleKills := by
  have hkills := (@Program.killers_nodup prog settings.formalsAsDefs a.definition).filter
    ((prog.analysis oracle settings).reachesUse · a.use)
  exact List.nodup_append'.mp (h.kills_perm.nodup_iff.mpr hkills)

theorem associated_iff_chain
    {u : Use}
    (hprog : prog.Finalized)
    (hk : prog.IsLocalDef settings.formalsAsDefs k) :
    (∃ b ∈ clearPredicates (prog.listed oracle settings), b.definition = k ∧ b.use = u) ↔
      prog.Chain settings.formalsAsDefs k.site k.var u := by
  constructor
  · rintro ⟨b, hb, rfl, rfl⟩
    exact (localFacts_of_mem hprog hb (heap_eq_false_of_isLocal hb (Or.inl hk.1))).chain
  · intro hchain
    obtain ⟨b, hb, -, hdef, huse⟩ := exists_mem_of_chain hprog hk hchain
    exact ⟨b, hb, hdef, huse⟩

/-- The kills of an association of local variables are exactly the other definitions that write
its variable again and are associated with its use, each listed once. -/
theorem killLists_exact
    (prog : Program) (oracle : Oracle) (settings : Settings)
    (hprog : prog.Finalized) :
    ∃ set events, analyzeProgram prog oracle settings = .ok (set, events) ∧
      ∀ a ∈ set.items, a.heap = false →
        a.hardKills.Nodup ∧ a.possibleKills.Nodup ∧ a.hardKills.Disjoint a.possibleKills ∧
        ∀ k, k ∈ a.hardKills ++ a.possibleKills ↔
          prog.IsLocalDef settings.formalsAsDefs k ∧ k ≠ a.definition ∧
            (∃ b ∈ set.items, b.definition = k ∧ b.use = a.use) ∧
            prog.WritesAgain settings.formalsAsDefs a.definition k := by
  obtain ⟨events, hrun⟩ := @analyzeProgram_eq prog oracle settings hprog
  refine ⟨_, events, hrun, ?_⟩
  intro a ha hheap
  have hfacts := localFacts_of_mem hprog ha hheap
  obtain ⟨hhard, hpossible, hdisjoint⟩ := hfacts.kills_divided
  refine ⟨hhard, hpossible, hdisjoint, ?_⟩
  intro k
  rw [hfacts.mem_kills_iff hprog,
    Program.mem_killers_iff_writesAgain hprog hfacts.isLocalDef]
  constructor
  · rintro ⟨⟨hk, hne, hagain⟩, hchain⟩
    exact ⟨hk, hne, (associated_iff_chain hprog hk).mpr hchain, hagain⟩
  · rintro ⟨hk, hne, hassociated, hagain⟩
    exact ⟨⟨hk, hne, hagain⟩, (associated_iff_chain hprog hk).mp hassociated⟩

/-- A variable is passed to a procedure that reads it, writes it, and passes it on to itself. -/
def writtenBehind : Program where
  procs := #[
    { name := "main"
      nodes := #[
        { label := "entry", succs := [2] },
        { label := "exit", preds := [3] },
        { label := "x = g()", defs := [.ofLocal "main" "x"], succs := [3], preds := [0] },
        { label := "f(x)", succs := [1], preds := [2],
          calls := [⟨"f", [.ofLocal "main" "x"]⟩] }] },
    { name := "f"
      params := [.ofLocal "f" "p"]
      nodes := #[
        { label := "entry", succs := [2] },
        { label := "exit", preds := [4] },
        { label := "use(p)", uses := [.ofLocal "f" "p"], succs := [3], preds := [0] },
        { label := "p = g()", defs := [.ofLocal "f" "p"], succs := [4], preds := [2] },
        { label := "f(p)", succs := [1], preds := [3],
          calls := [⟨"f", [.ofLocal "f" "p"]⟩] }] }]
  callGraph := ⟨#[[1], [1]], #[[], [0, 1]]⟩

/-- The definition and the use behind the formal. -/
def writtenBehindPair : Association where
  definition := ⟨⟨0, 2⟩, .ofLocal "main" "x", false⟩
  use := .computation ⟨1, 2⟩ (.ofLocal "f" "p")
  localUses := [.computation ⟨0, 3⟩ (.ofLocal "main" "x")]
  possibleKills := [⟨⟨1, 3⟩, .ofLocal "f" "p", false⟩]

theorem writtenBehindPair_listed :
    ((analyzeProgram writtenBehind .null {}).map fun r =>
      decide (writtenBehindPair ∈ r.1.items)) = .ok true := by
  decide +kernel

/-- The definition behind the formal writes the variable again, although no edge leads there. -/
theorem killLists_exact_writtenBehind :
    writtenBehind.Finalized ∧
      writtenBehind.WritesAgain false ⟨⟨0, 2⟩, .ofLocal "main" "x", false⟩
        ⟨⟨1, 3⟩, .ofLocal "f" "p", false⟩ := by
  have hprog : writtenBehind.Finalized := by decide +kernel
  refine ⟨hprog, ?_⟩
  obtain ⟨set, events, hrun, hall⟩ := killLists_exact writtenBehind .null {} hprog
  have hmem := mem_items_of_listed hrun writtenBehindPair_listed
  obtain ⟨-, -, -, hkills⟩ := hall writtenBehindPair hmem rfl
  exact ((hkills _).mp List.mem_cons_self).2.2.2

end Exact

end DefUse
