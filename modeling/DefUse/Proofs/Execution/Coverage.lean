import DefUse.Program.Blueprint
import DefUse.Proofs.Association.Reordered
import DefUse.Proofs.Execution.Tracing

/-!
# What coverage of the ends tells about an association between procedures

An execution covers an association of two procedures if it takes the value of the definition,
through one of the local uses and then through formals, to the use.  It may execute both ends and no
kill without that: the procedure of the use can be called from elsewhere, with an argument that is
no variable.

**Method.** Whatever definition an execution takes to the use reaches it in the program.  An
inferrable association has no other definition outside the procedure of the use, and a definition
inside it that overwrites the formal is a kill.

**Results.**
* `Takes.definition_eq`: what reaches the use of an inferrable association from outside is its
  definition.
* `Takes.killed`: what reaches it from inside is a kill that was executed.
* `inferrable_remote_covered_iff`: an execution covers the association exactly if it takes some
  value to the use from outside; without kills, exactly if it takes any.
-/

namespace DefUse
namespace Program

/-- An execution of the use takes its value from the definition; the second use is the one through
which the value has left the activation of the definition. -/
def Takes (prog : Program) (run : List (List Activation)) (u : Use) (d : Def)
    (through : Option Use) : Prop :=
  ∃ t rest, t :: rest ∈ run ∧ t.ArrivesAt u ∧ prog.Traced (t :: rest) u.var d through

/-- The execution takes the value of the definition through a local use to the use. -/
def CoveredBy (prog : Program) (a : Association) (run : List (List Activation)) : Prop :=
  ∃ w ∈ a.localUses, prog.Takes run a.use a.definition (some w)

variable {prog : Program} {oracle : Oracle} {settings : Settings} {run : List (List Activation)}
  {a : Association} {d k : Def} {u : Use} {through : Option Use}

/-- The use at the end of a chain is a use that ends associations. -/
theorem Chain.isEndpoint
    {site : Point} {v : Variable} {formalsAsDefs : Bool}
    (h : prog.Chain formalsAsDefs site v u) :
    prog.IsUse u ∧ prog.IsEndpoint formalsAsDefs u := by
  induction h with
  | last hreached hend => exact ⟨hreached.isUse, hend⟩
  | pass _ _ _ _ _ ih => exact ih

/-- The use through which a value has left the activation of a definition is noted for the
definition. -/
theorem Takes.mem_witnesses
    (h : prog.Takes run u d through)
    (hprog : prog.Finalized)
    (hbare : prog.BareEntries)
    (hrun : prog.IsExecution run)
    (hu : prog.IsUse u)
    (hend : prog.IsEndpoint false u) :
    through.getD u ∈ (prog.reachedFrom false d).witnesses u := by
  obtain ⟨t, rest, hmem, harrives, htraced⟩ := h
  exact htraced.mem_witnesses hprog hbare (hrun.sound_of_mem hmem) rfl harrives hu rfl
    (Or.inl ⟨rfl, hend⟩)

/-- The value of a definition that is taken to a use in an execution reaches it in the program. -/
theorem Takes.chain
    (h : prog.Takes run u d through)
    (hprog : prog.Finalized)
    (hbare : prog.BareEntries)
    (hrun : prog.IsExecution run)
    (hu : prog.IsUse u)
    (hend : prog.IsEndpoint false u) :
    prog.Chain false d.site d.var u := by
  have hnoted := h.mem_witnesses hprog hbare hrun hu hend
  obtain ⟨_, _, _, _, htraced⟩ := h
  refine (mem_uses_iff_chain hprog htraced.isLocalDef).mp ?_
  simp only [Reached.witnesses, mem_sortDistinct, List.mem_map, List.mem_filter] at hnoted
  obtain ⟨pair, ⟨hpair, hfst⟩, -⟩ := hnoted
  rw [Reached.uses, mem_sortDistinct, List.mem_map]
  exact ⟨pair, hpair, of_decide_eq_true hfst⟩

/-- A definition outside the procedure of the use has its value taken through some use. -/
theorem Takes.exists_through
    (h : prog.Takes run u d through)
    (hproc : d.site.proc ≠ u.site.proc) :
    ∃ w, through = some w := by
  obtain ⟨t, rest, -, harrives, htraced⟩ := h
  rcases htraced.proc_eq_or rfl with ⟨-, hown⟩ | ⟨hsome, -⟩
  · exact absurd (hown.trans harrives.1) hproc
  · exact Option.ne_none_iff_exists'.mp hsome

/-- A definition in the procedure at the end of a chain writes what is bound to the formal that the
chain starts from. -/
theorem Chain.overwrites
    {x : Formal} {param : Variable} {formalsAsDefs : Bool}
    (h : prog.Chain formalsAsDefs ⟨x.proc, entryId⟩ param u)
    (hparam : (prog.proc x.proc).params[x.index]? = some param)
    (hk : prog.IsLocalDef formalsAsDefs k)
    (hproc : k.site.proc = u.site.proc)
    (hvar : k.var = u.var)
    (hleads : (prog.proc u.site.proc).graph.Leads entryId k.site.node) :
    prog.Overwrites formalsAsDefs x k := by
  generalize hsite : (⟨x.proc, entryId⟩ : Point) = site at h
  induction h generalizing x with
  | @last site v u hreached _ =>
      subst hsite
      have hown : u.site.proc = x.proc := hreached.proc
      exact .here (by rw [hvar, hreached.var, hparam]) hk (hproc.trans hown) (hown ▸ hleads)
  | pass hreached hpassed hparam' _ _ ih =>
      subst hsite
      exact .further hparam hreached hpassed (ih hparam' hproc hvar hleads rfl)

/-- An activation has executed the definition and, without writing its variable again, the use. -/
structure Brings (prog : Program) (t : Activation) (d : Def) (u : Use) : Prop where
  placed : prog.Placed t
  isLocalDef : prog.IsLocalDef false d
  arrives : t.ArrivesAt u
  var : u.var = d.var
  proc : d.site.proc = t.proc
  passed : ∃ front back, t.past = front ++ d.site.node :: back ∧
    ∀ n ∈ back, ¬ prog.Writes false ⟨t.proc, n⟩ d.var

namespace Brings

variable {t : Activation}

theorem locallyReached
    (h : prog.Brings t d u)
    (hu : prog.IsUse u) :
    prog.LocallyReached false d.site d.var u := by
  obtain ⟨front, back, hpast, hclear⟩ := h.passed
  exact locallyReached_of_written h.placed h.proc hpast hclear hu h.var h.arrives

theorem mem_past
    (h : prog.Brings t d u) :
    d.site.node ∈ t.past := by
  obtain ⟨front, back, hpast, -⟩ := h.passed
  rw [hpast]
  simp

/-- What an activation has executed since its entry comes after the entry. -/
theorem leads
    (h : prog.Brings t d u)
    (hbare : prog.BareEntries) :
    (prog.proc t.proc).graph.Leads entryId d.site.node := by
  obtain ⟨tail, htail⟩ := List.head?_eq_some_iff.mp h.placed.connects.starts
  have hmem : d.site.node ∈ t.walk := List.mem_append_left _ h.mem_past
  have hwalk := h.placed.connects.isWalk
  rw [htail] at hmem hwalk
  rcases List.mem_cons.mp hmem with hentry | hmem
  · have hsite : d.site = ⟨t.proc, entryId⟩ := by
      rw [← h.proc, ← hentry]
    obtain ⟨-, hdef | ⟨hflag, -⟩⟩ := h.isLocalDef
    · obtain ⟨-, hvar, -⟩ := mem_defsOf_iff.mp hdef
      rw [hsite,
        show ((prog.proc t.proc).node entryId).defs = [] from (hbare _ h.placed.proc).1] at hvar
      exact absurd hvar List.not_mem_nil
    · exact absurd hflag (by decide)
  · exact hwalk.leads_of_mem hmem

end Brings

/-- A definition in the procedure of the use has its value brought by one activation, unless the
procedure can call itself. -/
theorem Takes.exists_brings
    (h : prog.Takes run u d through)
    (hrun : prog.IsExecution run)
    (hself : ¬ Relation.TransGen prog.Calls u.site.proc u.site.proc)
    (hd : d.site.proc = u.site.proc) :
    (∃ t, prog.Brings t d u) ∧ Visits run d.site := by
  obtain ⟨t, rest, hmem, harrives, htraced⟩ := h
  have hsound := hrun.sound_of_mem hmem
  -- From a deeper activation of the same procedure, the value would have come by a recursive call.
  have hown : through = none := by
    rcases htraced.proc_eq_or rfl with ⟨hnone, -⟩ | ⟨-, y, hy, hyproc⟩
    · exact hnone
    · have hcalls := hsound.transGen_calls hy
      rw [← hyproc, hd, harrives.1] at hcalls
      exact absurd hcalls hself
  subst hown
  obtain ⟨hvar, hproc, hpassed⟩ := htraced.exists_written rfl
  have hbrings : prog.Brings t d u :=
    ⟨hsound.placed t List.mem_cons_self, htraced.isLocalDef, harrives, hvar, hproc, hpassed⟩
  refine ⟨⟨t, hbrings⟩, ?_⟩
  have hvisited := hrun.visits hmem t List.mem_cons_self _
    (List.mem_append_left _ hbrings.mem_past)
  rwa [← hproc] at hvisited

end Program

/-- At most one definition outside its procedure reaches the use. -/
theorem Analysis.eq_of_remoteDefs_le_one
    {prog : Program} {oracle : Oracle} {settings : Settings} {d e : Def} {u : Use}
    (h : (prog.analysis oracle settings).remoteDefs u ≤ 1)
    (hprog : prog.Finalized)
    (hd : prog.IsLocalDef settings.formalsAsDefs d)
    (hdproc : d.site.proc ≠ u.site.proc)
    (hdchain : prog.Chain settings.formalsAsDefs d.site d.var u)
    (he : prog.IsLocalDef settings.formalsAsDefs e)
    (heproc : e.site.proc ≠ u.site.proc)
    (hechain : prog.Chain settings.formalsAsDefs e.site e.var u) :
    d = e := by
  rw [Analysis.remoteDefs, Program.reached_eq, List.countP_map, List.countP_eq_length_filter] at h
  have hcounted : ∀ {k}, prog.IsLocalDef settings.formalsAsDefs k → k.site.proc ≠ u.site.proc →
      prog.Chain settings.formalsAsDefs k.site k.var u →
      k ∈ (prog.allLocalDefs settings.formalsAsDefs).filter
        ((fun r : Reached => r.definition.site.proc ≠ u.site.proc &&
          (r.pairs.map Prod.fst).contains u) ∘ prog.reachedFrom settings.formalsAsDefs) := by
    intro k hk hproc hchain
    have huses := (Program.mem_uses_iff_chain hprog hk).mpr hchain
    rw [Reached.uses, mem_sortDistinct] at huses
    rw [List.mem_filter, Program.mem_allLocalDefs_iff]
    refine ⟨hk, ?_⟩
    simp only [Function.comp_apply, Program.reachedFrom_definition, Bool.and_eq_true,
      List.contains_iff_mem]
    exact ⟨decide_eq_true hproc, huses⟩
  exact eq_of_mem_of_length_le_one h (hcounted hd hdproc hdchain) (hcounted he heproc hechain)

namespace Association.LocalFacts

open Program

variable {prog : Program} {oracle : Oracle} {settings : Settings} {run : List (List Activation)}
  {a : Association} {d : Def} {through : Option Use}

/-- A definition outside the procedure of the use that an execution takes to the use is the one of
the association, if the association is inferrable. -/
theorem definition_eq
    (h : a.LocalFacts prog oracle settings)
    (hremote : (prog.analysis oracle settings).remoteDefs a.use ≤ 1)
    (hprog : prog.Finalized)
    (hbare : prog.BareEntries)
    (hlinked : settings.formalsAsDefs = false)
    (hproc : a.definition.site.proc ≠ a.use.site.proc)
    (hrun : prog.IsExecution run)
    (htakes : prog.Takes run a.use d through)
    (hd : d.site.proc ≠ a.use.site.proc) :
    d = a.definition := by
  have hchain := h.chain
  have hlocal := h.isLocalDef
  rw [hlinked] at hchain hlocal
  obtain ⟨hu, hend⟩ := hchain.isEndpoint
  have hfrom := htakes.chain hprog hbare hrun hu hend
  obtain ⟨_, _, _, _, htraced⟩ := htakes
  rw [← hlinked] at hchain hlocal hfrom
  exact Analysis.eq_of_remoteDefs_le_one hremote hprog (hlinked ▸ htraced.isLocalDef) hd hfrom
    hlocal hproc hchain

/-- A definition in the procedure of the use that an execution takes to the use is a kill of an
association of two procedures, unless the procedure can call itself. -/
theorem killed
    (h : a.LocalFacts prog oracle settings)
    (hprog : prog.Finalized)
    (hbare : prog.BareEntries)
    (hlinked : settings.formalsAsDefs = false)
    (hproc : a.definition.site.proc ≠ a.use.site.proc)
    (hself : ¬ Relation.TransGen prog.Calls a.use.site.proc a.use.site.proc)
    (hrun : prog.IsExecution run)
    (htakes : prog.Takes run a.use d through)
    (hd : d.site.proc = a.use.site.proc) :
    d ∈ a.hardKills ++ a.possibleKills ∧ Visits run d.site := by
  obtain ⟨⟨t, hbrings⟩, hvisited⟩ := htakes.exists_brings hrun hself hd
  refine ⟨?_, hvisited⟩
  have hchain := h.chain
  have hdefinition := h.isLocalDef
  rw [h.mem_kills_iff hprog]
  rw [hlinked] at hchain hdefinition ⊢
  obtain ⟨hu, hend⟩ := hchain.isEndpoint
  have hne : d ≠ a.definition := by
    rintro rfl
    exact hproc hd
  have hagain : prog.WritesAgain false a.definition d := by
    cases hchain with
    | last hreached _ => exact absurd hreached.proc.symm hproc
    | pass hreached hpassed hparam _ hrest =>
        have hleads := hbrings.leads hbare
        rw [← hbrings.proc, hd] at hleads
        exact Or.inr ⟨_, _, hreached, hpassed,
          hrest.overwrites hparam hbrings.isLocalDef hd hbrings.var.symm hleads⟩
  exact ⟨(mem_killers_iff_writesAgain hprog hdefinition).mpr
    ⟨hbrings.isLocalDef, hne, hagain⟩, .last (hbrings.locallyReached hu) hend⟩

end Association.LocalFacts
section Result

variable {prog : Program} {oracle : Oracle} {settings : Settings} {a : Association}

/-- Only associations of local variables are inferrable. -/
theorem heap_eq_false_of_inferrable
    (ha : a ∈ clearPredicates (prog.listed oracle settings))
    (hinferrable : a.inferrable = true) :
    a.heap = false := by
  rw [clearPredicates_eq] at ha
  obtain ⟨b, hb, rfl⟩ := List.mem_map.mp ha
  have hkept := (cleared_inferrable hb hinferrable).1
  rw [cleared_eq]
  rw [Program.listed, mem_sortBy, List.mem_append] at hb
  rcases hb with hb | hb
  · obtain ⟨d, -, u, -, rfl⟩ := Analysis.mem_associations_iff.mp hb
    rfl
  · split at hb
    · exact absurd hb List.not_mem_nil
    · simp only [Program.heapAssociations, List.mem_flatMap, List.mem_map] at hb
      obtain ⟨d, -, u, -, rfl⟩ := hb
      exact absurd hkept Bool.false_ne_true

/-- In linked mode, an execution covers an inferrable association between procedures exactly if it
takes to the use the value of some definition outside the procedure of the use.  If it executes no
kill, and that procedure cannot call itself, it does so exactly if it takes the value of any
definition to the use. -/
theorem inferrable_remote_covered_iff
    (prog : Program) (settings : Settings)
    (hprog : prog.Finalized)
    (hbare : prog.BareEntries)
    (hlinked : settings.formalsAsDefs = false) :
    ∃ set events,
      analyzeProgram prog (GraphOrder.ofProgram prog).oracle settings = .ok (set, events) ∧
      ∀ a ∈ set.items, a.inferrable = true → a.definition.site.proc ≠ a.use.site.proc →
        ∀ run, prog.IsExecution run →
          (prog.CoveredBy a run ↔
            ∃ d through, prog.Takes run a.use d through ∧ d.site.proc ≠ a.use.site.proc) ∧
          (¬ Relation.TransGen prog.Calls a.use.site.proc a.use.site.proc →
            (∀ k ∈ a.hardKills ++ a.possibleKills, ¬ Program.Visits run k.site) →
            (prog.CoveredBy a run ↔ ∃ d through, prog.Takes run a.use d through)) := by
  obtain ⟨events, hanalysis⟩ :=
    @analyzeProgram_eq prog (GraphOrder.ofProgram prog).oracle settings hprog
  refine ⟨_, events, hanalysis, ?_⟩
  intro a ha hinferrable hproc run hrun
  have hheap := heap_eq_false_of_inferrable ha hinferrable
  have hfacts := localFacts_of_mem hprog ha hheap
  have hremote := ((inferrable_iff hprog ha hheap).mp hinferrable).2.1
  have houter : prog.CoveredBy a run ↔
      ∃ d through, prog.Takes run a.use d through ∧ d.site.proc ≠ a.use.site.proc := by
    constructor
    · rintro ⟨w, -, htakes⟩
      exact ⟨_, _, htakes, hproc⟩
    · -- What comes from outside comes from the definition, through a use that is noted for it.
      rintro ⟨d, through, htakes, hd⟩
      obtain rfl := hfacts.definition_eq hremote hprog hbare hlinked hproc hrun htakes hd
      obtain ⟨w, rfl⟩ := htakes.exists_through hd
      refine ⟨w, ?_, htakes⟩
      have hchain := hfacts.chain
      rw [hlinked] at hchain
      rw [hfacts.localUses, hlinked]
      exact htakes.mem_witnesses hprog hbare hrun hchain.isEndpoint.1 hchain.isEndpoint.2
  refine ⟨houter, ?_⟩
  intro hself hclean
  rw [houter]
  constructor
  · rintro ⟨d, through, htakes, -⟩
    exact ⟨d, through, htakes⟩
  · rintro ⟨d, through, htakes⟩
    refine ⟨d, through, htakes, ?_⟩
    intro hd
    obtain ⟨hkill, hvisited⟩ := hfacts.killed hprog hbare hlinked hproc hself hrun htakes hd
    exact hclean d hkill hvisited

end Result

section Example

/-- A procedure that reads its formal on a branch only is called with a variable, then with a
constant. -/
def optionalRead : Program :=
  (Program.ofBlueprints
    [{ name := "main"
       nodes := [{ label := "x = 1", defs := [.ofLocal "main" "x"] },
         { label := "g(x)", calls := [⟨"g", [.ofLocal "main" "x"]⟩] },
         { label := "g(0)", calls := [⟨"g", [.zero]⟩] }]
       edges := [(0, 2), (2, 3), (3, 4), (4, 1)] },
     { name := "g"
       params := [.ofLocal "g" "p"]
       nodes := [{ label := "if c", predicate := true },
         { label := "use(p)", uses := [.ofLocal "g" "p"] }]
       edges := [(0, 2), (2, 3), (2, 1), (3, 1)] }] []).toOption.getD {}

/-- The variable with the use of the formal. -/
def optionalReadPair : Association where
  definition := ⟨⟨0, 2⟩, .ofLocal "main" "x", false⟩
  use := .computation ⟨1, 3⟩ (.ofLocal "g" "p")
  localUses := [.computation ⟨0, 3⟩ (.ofLocal "main" "x")]
  inferrable := true

theorem optionalReadPair_listed :
    ((analyzeProgram optionalRead (GraphOrder.ofProgram optionalRead).oracle {}).map fun r =>
      decide (optionalReadPair ∈ r.1.items)) = .ok true := by
  decide +kernel

/-- The caller at the call with the variable. -/
def firstCaller : Activation := { proc := 0, past := [0, 2], node := 3 }

/-- The caller at the call with the constant. -/
def secondCaller : Activation := { proc := 0, past := [0, 2, 3], node := 4 }

def callee (arg : Variable) (past : List Int) (node : Int) : Activation :=
  { proc := 1, call := some ⟨"g", [arg]⟩, past, node }

/-- The execution up to the branch in the first call. -/
def upToBranch : List (List Activation) :=
  [[{ proc := 0 }], [{ proc := 0, past := [0], node := 2 }], [firstCaller],
    [callee (.ofLocal "main" "x") [] 0, firstCaller],
    [callee (.ofLocal "main" "x") [0] 2, firstCaller]]

/-- The first call reads its formal. -/
def readsFirst : List (List Activation) :=
  upToBranch ++ [[callee (.ofLocal "main" "x") [0, 2] 3, firstCaller]]

/-- The first call does not read its formal, and the second one does. -/
def readsSecond : List (List Activation) :=
  upToBranch ++
    [[callee (.ofLocal "main" "x") [0, 2] 1, firstCaller], [firstCaller], [secondCaller],
      [callee .zero [] 0, secondCaller], [callee .zero [0] 2, secondCaller],
      [callee .zero [0, 2] 3, secondCaller], [callee .zero [0, 2, 3] 1, secondCaller],
      [secondCaller], [{ proc := 0, past := [0, 2, 3, 4], node := 1 }]]

theorem isExecution_readsFirst :
    optionalRead.IsExecution readsFirst := by
  refine ⟨⟨0, by decide +kernel, rfl⟩, ?_⟩
  unfold readsFirst upToBranch
  simp only [List.cons_append, List.nil_append, List.isChain_cons_cons, List.isChain_singleton,
    and_true]
  exact ⟨.follow (n := 2) (by decide +kernel), .follow (n := 3) (by decide +kernel),
    .call (c := ⟨"g", [.ofLocal "main" "x"]⟩) (p := 1) (by decide +kernel) (by decide +kernel),
    .follow (n := 2) (by decide +kernel), .follow (n := 3) (by decide +kernel)⟩

/-- The first call takes the value of the variable to the use of the formal. -/
theorem takes_readsFirst :
    optionalRead.Takes readsFirst optionalReadPair.use optionalReadPair.definition
      (some (.computation ⟨0, 3⟩ (.ofLocal "main" "x"))) := by
  have hdef : optionalRead.IsLocalDef false optionalReadPair.definition :=
    ⟨rfl, Or.inl (by decide +kernel)⟩
  have hwritten : optionalRead.Traced [firstCaller] (.ofLocal "main" "x")
      optionalReadPair.definition none :=
    .written hdef rfl (show firstCaller.past = [0] ++ 2 :: [] from rfl) (by simp)
  have hclear : ∀ n ∈ ([0, 2] : List Int),
      ¬ optionalRead.Writes false ⟨1, n⟩ (.ofLocal "g" "p") := by
    unfold Program.Writes
    decide +kernel
  refine ⟨callee (.ofLocal "main" "x") [0, 2] 3, [firstCaller], by decide +kernel,
    by decide +kernel, ?_⟩
  exact .bound (i := 0) (x := ⟨1, 0⟩) hclear rfl ⟨by decide +kernel, rfl, rfl, rfl, rfl⟩
    ⟨rfl, by decide +kernel, rfl, .ofLocal "g" "p", by decide +kernel, rfl⟩ (by decide +kernel)
    hwritten

/-- In the execution whose first call reads its formal the association is covered. -/
theorem inferrable_remote_covered_iff_readsFirst :
    optionalRead.Finalized ∧ optionalRead.BareEntries ∧
      optionalRead.IsExecution readsFirst ∧ optionalRead.CoveredBy optionalReadPair readsFirst := by
  have hprog : optionalRead.Finalized := by decide +kernel
  have hbare : optionalRead.BareEntries := by decide +kernel
  obtain ⟨set, events, hrun, hall⟩ := inferrable_remote_covered_iff optionalRead {} hprog hbare rfl
  have hmem := mem_items_of_listed hrun optionalReadPair_listed
  have hiff := (hall optionalReadPair hmem rfl (by decide) readsFirst isExecution_readsFirst).1
  exact ⟨hprog, hbare, isExecution_readsFirst,
    hiff.mpr ⟨_, _, takes_readsFirst, by decide⟩⟩

theorem isExecution_readsSecond :
    optionalRead.IsExecution readsSecond := by
  refine ⟨⟨0, by decide +kernel, rfl⟩, ?_⟩
  unfold readsSecond upToBranch
  simp only [List.cons_append, List.nil_append, List.isChain_cons_cons, List.isChain_singleton,
    and_true]
  exact ⟨.follow (n := 2) (by decide +kernel), .follow (n := 3) (by decide +kernel),
    .call (c := ⟨"g", [.ofLocal "main" "x"]⟩) (p := 1) (by decide +kernel) (by decide +kernel),
    .follow (n := 2) (by decide +kernel), .follow (n := 1) (by decide +kernel), .leave rfl,
    .follow (n := 4) (by decide +kernel),
    .call (c := ⟨"g", [.zero]⟩) (p := 1) (by decide +kernel) (by decide +kernel),
    .follow (n := 2) (by decide +kernel), .follow (n := 3) (by decide +kernel),
    .follow (n := 1) (by decide +kernel), .leave rfl, .follow (n := 1) (by decide +kernel)⟩

/-- The only execution of the use is in the call with the constant. -/
theorem not_coveredBy_readsSecond :
    ¬ optionalRead.CoveredBy optionalReadPair readsSecond := by
  rintro ⟨w, -, t, rest, hmem, harrives, htraced⟩
  have hcall : ∀ stack ∈ readsSecond, ∀ t ∈ stack.head?, t.ArrivesAt optionalReadPair.use →
      t.call = some ⟨"g", [.zero]⟩ := by
    decide +kernel
  obtain ⟨c, hc, arg, harg, hzero⟩ := htraced.exists_argument rfl
  obtain rfl : _ = c := Option.some.inj ((hcall _ hmem t rfl harrives).symm.trans hc)
  rw [List.mem_singleton.mp harg] at hzero
  exact absurd hzero (by decide)

/-- An execution can execute both ends of an inferrable association between procedures, and no kill,
without covering it. -/
theorem inferrable_remote_not_covered :
    ¬ ∀ (prog : Program), prog.Finalized →
      ∃ set events,
        analyzeProgram prog (GraphOrder.ofProgram prog).oracle {} = .ok (set, events) ∧
        ∀ a ∈ set.items, a.inferrable = true → a.definition.site.proc ≠ a.use.site.proc →
          ∀ run, prog.IsExecution run → Program.Visits run a.definition.site →
            (∃ t rest, t :: rest ∈ run ∧ t.ArrivesAt a.use) →
            (∀ k ∈ a.hardKills ++ a.possibleKills, ¬ Program.Visits run k.site) →
            prog.CoveredBy a run := by
  intro hall
  obtain ⟨set, events, hrun, hcovered⟩ := hall optionalRead (by decide +kernel)
  have hmem := mem_items_of_listed hrun optionalReadPair_listed
  refine not_coveredBy_readsSecond
    (hcovered optionalReadPair hmem rfl (by decide) readsSecond isExecution_readsSecond ?_ ?_ ?_)
  · exact ⟨{ proc := 0, past := [0], node := 2 }, [], by decide +kernel, rfl⟩
  · exact ⟨callee .zero [0, 2] 3, [secondCaller], by decide +kernel, by decide +kernel⟩
  · intro k hk
    exact absurd hk List.not_mem_nil

end Example

end DefUse
