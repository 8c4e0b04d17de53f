import DefUse.Proofs.Association.Kills
import DefUse.Proofs.Program.Built

/-!
# Linked formals as compositions

Formals are linked to the arguments that are bound to them, so that one association leads through
calls, or they are definitions, so that an association ends at every argument and another one
starts at the formal.

**Method.** Nothing leads back to an entry, and whether entries write their formals makes no
difference inside of a walk: the same uses are reached locally.  If formals are definitions, the
associations are those of the uses that are reached locally.  A chain through linked formals is
one of them for each of its walks.

**Results.** `linked_iff_composed`: the associations through linked formals are the compositions,
through arguments and formals, of the associations with formals as definitions.
-/

namespace DefUse

namespace Program

/-- The use is the argument of a call of a procedure of the program, and the definition is that of
the local formal at the position of the argument. -/
structure BindsTo (prog : Program) (w : Use) (c : CallSite) (i g : Nat) (f : Def) : Prop where
  argument : prog.IsArgument w c i
  callee : prog.lookup? c.callee = some g
  formal : (prog.proc g).params[i]? = some f.var
  notZero : f.var.isZero = false
  isLocal : f.var.isLocal = true
  site : f.site = ⟨g, entryId⟩
  constant : f.constant = false

/-- Associations compose from a definition to a use: an association has these ends, or one leads
to an argument, and associations compose from the formal that it is bound to. -/
inductive Composes (prog : Program) (items : List Association) : Def → Use → Prop
  | last {d : Def} {u : Use}
      (hpair : ∃ a ∈ items, a.definition = d ∧ a.use = u) :
      Composes prog items d u
  | bind {d f : Def} {w u : Use} {c : CallSite} {i g : Nat}
      (hpair : ∃ a ∈ items, a.definition = d ∧ a.use = w)
      (hbinds : prog.BindsTo w c i g f)
      (hrest : Composes prog items f u) :
      Composes prog items d u

/-- The definition is one of a formal, and the entry itself does not have it. -/
def IsMereFormal (prog : Program) (d : Def) : Prop :=
  d ∈ prog.formalDefs d.site.proc ∧ d ∉ (prog.proc d.site.proc).defsOf d.site

variable {prog : Program} {b b' : Bool} {d f : Def} {site : Point} {v : Variable} {u w : Use}

theorem IsLocalDef.linked
    (hd : prog.IsLocalDef b d)
    (hmere : ¬ prog.IsMereFormal d) :
    prog.IsLocalDef false d := by
  obtain ⟨hlocal, hdef | ⟨-, hformal⟩⟩ := hd
  · exact ⟨hlocal, Or.inl hdef⟩
  · refine ⟨hlocal, Or.inl ?_⟩
    by_contra hdef
    exact hmere ⟨hformal, hdef⟩

theorem IsLocalDef.split
    (hd : prog.IsLocalDef false d) :
    prog.IsLocalDef true d := by
  obtain ⟨hlocal, hdef | ⟨hflag, -⟩⟩ := hd
  · exact ⟨hlocal, Or.inl hdef⟩
  · exact absurd hflag (by decide)

theorem BindsTo.isLocalDef
    {c : CallSite} {i g : Nat}
    (h : prog.BindsTo w c i g f) :
    prog.IsLocalDef true f := by
  refine ⟨h.isLocal, Or.inr ⟨rfl, mem_formalDefs_iff.mpr ?_⟩⟩
  rw [h.site]
  exact ⟨rfl, List.mem_of_getElem? h.formal, h.notZero, h.constant⟩

theorem BindsTo.isPassedTo
    {c : CallSite} {i g : Nat}
    (h : prog.BindsTo w c i g f) :
    prog.IsPassedTo false w ⟨g, i⟩ :=
  ⟨c, i, h.argument, rfl, h.callee, rfl, f.var, h.formal, h.notZero⟩

theorem IsEndpoint.isUse
    (h : prog.IsEndpoint b u) :
    prog.IsUse u := by
  rcases h with hplain | ⟨c, i, harg, -⟩
  · exact Or.inl hplain
  · exact Or.inr ⟨c, i, harg⟩

/-- Only an entry may write a variable as one of its formals. -/
theorem Writes.of_ne_entry
    (h : prog.Writes b site v)
    (hsite : site.node ≠ entryId) :
    prog.Writes b' site v := by
  rcases h with hdef | ⟨-, hentry, -⟩
  · exact Or.inl hdef
  · exact absurd hentry hsite

/-- No walk comes to an entry again, and what entries write does not matter inside of it. -/
theorem Delivers.of_built
    {walk : List Int}
    (h : prog.Delivers b site v u walk)
    (hbuilt : prog.Built)
    (hprog : prog.Finalized)
    (hp : site.proc ∈ prog.procIds) :
    prog.Delivers b' site v u walk := by
  refine { h with clear := ?_ }
  intro n hn hwrites
  refine h.clear n hn (hwrites.of_ne_entry ?_)
  rintro rfl
  cases walk with
  | nil => exact absurd hn List.not_mem_nil
  | cons m rest =>
      have hrest : entryId ∈ rest := List.mem_of_mem_dropLast hn
      exact hbuilt.not_leads_entry hprog hp m (h.isWalk.leads_of_mem hrest)

theorem LocallyReached.of_built
    (h : prog.LocallyReached b site v u)
    (hbuilt : prog.Built)
    (hprog : prog.Finalized)
    (hp : site.proc ∈ prog.procIds) :
    prog.LocallyReached b' site v u := by
  obtain ⟨walk, hwalk⟩ := h.walk
  exact { h with walk := ⟨walk, hwalk.of_built hbuilt hprog hp⟩ }

/-- Nothing is passed through to formals that are definitions. -/
theorem chain_true_iff :
    prog.Chain true site v u ↔ prog.LocallyReached true site v u := by
  constructor
  · intro h
    cases h with
    | last hreached _ => exact hreached
    | pass _ hpassed _ _ _ =>
        obtain ⟨c, i, -, hthrough⟩ := hpassed
        exact absurd hthrough.linked (by decide)
  · intro h
    refine .last h ?_
    rcases h.isUse with hplain | ⟨c, i, harg⟩
    · exact Or.inl hplain
    · refine Or.inr ⟨c, i, harg, ?_⟩
      intro x hthrough
      exact absurd hthrough.linked (by decide)

end Program

section Composed

variable {prog : Program} {oracle : Oracle} {settings : Settings} {d : Def} {u w : Use}

/-- With formals as definitions, a definition is associated with the uses that it reaches in its
procedure, even if formals were linked. -/
theorem associated_iff_locallyReached
    (hbuilt : prog.Built)
    (hprog : prog.Finalized)
    (hsplit : settings.formalsAsDefs = true)
    (hd : prog.IsLocalDef true d) :
    (∃ a ∈ clearPredicates (prog.listed oracle settings), a.definition = d ∧ a.use = u) ↔
      prog.LocallyReached false d.site d.var u := by
  have hd' : prog.IsLocalDef settings.formalsAsDefs d := by
    rw [hsplit]
    exact hd
  rw [associated_iff_chain hprog hd', hsplit, Program.chain_true_iff]
  constructor
  · intro h
    exact h.of_built hbuilt hprog hd.proc_mem
  · intro h
    exact h.of_built hbuilt hprog hd.proc_mem

theorem isLocalDef_of_associated
    (hprog : prog.Finalized)
    (hsplit : settings.formalsAsDefs = true)
    (hpair : ∃ a ∈ clearPredicates (prog.listed oracle settings),
      a.definition = d ∧ a.use = u)
    (hlocal : u.var.isLocal = true) :
    prog.IsLocalDef true d := by
  obtain ⟨a, ha, rfl, rfl⟩ := hpair
  have hfacts := localFacts_of_mem hprog ha (heap_eq_false_of_isLocal ha (Or.inr hlocal))
  rw [← hsplit]
  exact hfacts.isLocalDef

theorem composes_of_chain
    {site : Point} {v : Variable}
    (hbuilt : prog.Built)
    (hprog : prog.Finalized)
    (hsplit : settings.formalsAsDefs = true)
    (hchain : prog.Chain false site v u)
    (hd : prog.IsLocalDef true d)
    (hsite : d.site = site)
    (hvar : d.var = v) :
    prog.Composes (clearPredicates (prog.listed oracle settings)) d u := by
  -- the chain goes on at an entry, which the definition of the formal stands for
  induction hchain generalizing d with
  | last hreached _ =>
      subst hsite hvar
      exact .last ((associated_iff_locallyReached hbuilt hprog hsplit hd).mpr hreached)
  | @pass _ _ param w u x hreached hpassed hparam hlocal _ ih =>
      subst hsite hvar
      have hzero := hpassed.notZero hparam
      obtain ⟨c, i, harg, hthrough⟩ := hpassed
      have hbinds : prog.BindsTo w c i x.proc ⟨⟨x.proc, entryId⟩, param, false⟩ :=
        ⟨harg, hthrough.callee, by rw [← hthrough.index]; exact hparam, hzero, hlocal, rfl, rfl⟩
      exact .bind ((associated_iff_locallyReached hbuilt hprog hsplit hd).mpr hreached) hbinds
        (ih hbinds.isLocalDef rfl rfl)

theorem chain_of_composes
    (hbuilt : prog.Built)
    (hprog : prog.Finalized)
    (hsplit : settings.formalsAsDefs = true)
    (hcomposes : prog.Composes (clearPredicates (prog.listed oracle settings)) d u)
    (hend : prog.IsEndpoint false u) :
    prog.IsLocalDef true d ∧ prog.Chain false d.site d.var u := by
  induction hcomposes with
  | last hpair =>
      have hd := isLocalDef_of_associated hprog hsplit hpair hend.isUse.isLocal
      have hreached := (associated_iff_locallyReached hbuilt hprog hsplit hd).mp hpair
      exact ⟨hd, .last hreached hend⟩
  | bind hpair hbinds _ ih =>
      -- an argument is a local variable, so that no association of the heap leads to it
      have hd := isLocalDef_of_associated hprog hsplit hpair hbinds.argument.isLocal
      have hreached := (associated_iff_locallyReached hbuilt hprog hsplit hd).mp hpair
      have hrest := (ih hend).2
      rw [hbinds.site] at hrest
      exact ⟨hd, .pass hreached hbinds.isPassedTo hbinds.formal hbinds.isLocal hrest⟩

/-- A definition and an endpoint are associated through linked formals exactly if associations
with formals as definitions compose from the one to the other. -/
theorem linked_iff_composed
    (prog : Program) (oracle oracle' : Oracle) (settings : Settings)
    (hbuilt : prog.Built)
    (hprog : prog.Finalized) :
    ∃ linked events split events',
      analyzeProgram prog oracle { settings with formalsAsDefs := false } =
        .ok (linked, events) ∧
      analyzeProgram prog oracle' { settings with formalsAsDefs := true } =
        .ok (split, events') ∧
      ∀ d u, ¬ prog.IsMereFormal d → prog.IsEndpoint false u →
        ((∃ a ∈ linked.items, a.heap = false ∧ a.definition = d ∧ a.use = u) ↔
          prog.Composes split.items d u) := by
  obtain ⟨events, hlinked⟩ :=
    @analyzeProgram_eq prog oracle { settings with formalsAsDefs := false } hprog
  obtain ⟨events', hsplit⟩ :=
    @analyzeProgram_eq prog oracle' { settings with formalsAsDefs := true } hprog
  refine ⟨_, events, _, events', hlinked, hsplit, ?_⟩
  intro d u hmere hend
  constructor
  · rintro ⟨a, ha, hheap, rfl, rfl⟩
    have hfacts := localFacts_of_mem hprog ha hheap
    exact composes_of_chain hbuilt hprog rfl hfacts.chain hfacts.isLocalDef.split rfl rfl
  · intro hcomposes
    obtain ⟨hd, hchain⟩ := chain_of_composes hbuilt hprog rfl hcomposes hend
    exact exists_mem_of_chain hprog (hd.linked hmere) hchain

/-- The steps that build the program with the variable that is written behind a formal. -/
def writtenBehindSteps : List BuildStep :=
  [.procedure "main" [], .procedure "f" [.ofLocal "f" "p"],
    .node 0 "x = g()", .define ⟨0, 2⟩ [.ofLocal "main" "x"],
    .node 0 "f(x)", .call ⟨0, 3⟩ "f" [.ofLocal "main" "x"],
    .edge 0 0 2, .edge 0 2 3, .edge 0 3 1,
    .node 1 "use(p)", .use ⟨1, 2⟩ [.ofLocal "f" "p"],
    .node 1 "p = g()", .define ⟨1, 3⟩ [.ofLocal "f" "p"],
    .node 1 "f(p)", .call ⟨1, 4⟩ "f" [.ofLocal "f" "p"],
    .edge 1 0 2, .edge 1 2 3, .edge 1 3 4, .edge 1 4 1, .finalize]

/-- The association through the formal is composed of associations of the two procedures. -/
theorem linked_iff_composed_writtenBehind :
    writtenBehind.Built ∧ writtenBehind.Finalized ∧
      ∃ split events, analyzeProgram writtenBehind .null { formalsAsDefs := true } =
          .ok (split, events) ∧
        writtenBehindPair.ends ∉ split.items.map Association.ends ∧
        writtenBehind.Composes split.items writtenBehindPair.definition
          writtenBehindPair.use := by
  have hbuilt : writtenBehind.Built := ⟨writtenBehindSteps, by decide +kernel⟩
  have hprog : writtenBehind.Finalized := by decide +kernel
  refine ⟨hbuilt, hprog, ?_⟩
  obtain ⟨linked, events, split, events', hlinked, hsplit, hall⟩ :=
    linked_iff_composed writtenBehind .null .null {} hbuilt hprog
  have hmem := mem_items_of_listed hlinked writtenBehindPair_listed
  have hapart : ((analyzeProgram writtenBehind .null { formalsAsDefs := true }).map fun r =>
      decide (writtenBehindPair.ends ∉ r.1.items.map Association.ends)) = .ok true := by
    decide +kernel
  rw [hsplit] at hapart
  refine ⟨split, events', hsplit, by simpa [Except.map] using hapart, ?_⟩
  refine (hall _ _ ?_ ?_).mp ⟨writtenBehindPair, hmem, rfl, rfl, rfl⟩
  · unfold Program.IsMereFormal
    decide +kernel
  · refine Or.inl ⟨?_, ?_⟩ <;> decide +kernel

end Composed

end DefUse
