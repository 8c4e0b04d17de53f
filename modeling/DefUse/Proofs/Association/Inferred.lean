import DefUse.Proofs.Association.Order
import Mathlib.Data.Finset.Insert

/-!
# What coverage of the ends tells about an association

A set of walks through a procedure covers the definition of an association on one walk and its
use on another one.  If the association is inferrable and no kill was covered, some walk should
bring the value from the definition to the use.

**Method.** On a walk that visits the definition and arrives at the use, the definition comes
first, since the use does not lead back to it.  The last node before the arrival that writes the
variable is the definition, or it is a kill.

**Results.**
* `covers_or_killed`: the walk covers the association or visits a kill.
* `inferrable_computation_covered`: for computation uses, coverage of the ends suffices.
* `inferrable_branch_covered_iff`: for branches it suffices exactly if every walk that takes the
  branch visits the definition, or the other way round.
-/

namespace DefUse

namespace Program

/-- A segment of the walk brings the value of a definition to a use. -/
def Covers (prog : Program) (formalsAsDefs : Bool) (d : Def) (u : Use) (walk : List Int) : Prop :=
  ∃ seg, seg <:+: walk ∧ prog.Delivers formalsAsDefs d.site d.var u seg

/-- A finite set of walks through the procedure of an association that covers both ends of the
association and none of its kills. -/
structure CoversEnds (prog : Program) (a : Association) (suite : Finset (List Int)) : Prop where
  complete : ∀ walk ∈ suite, (prog.proc a.definition.site.proc).IsComplete walk
  definition : ∃ walk ∈ suite, a.definition.site.node ∈ walk
  use : ∃ walk ∈ suite, a.use.arrival <:+: walk
  noKill : ∀ k ∈ a.hardKills ++ a.possibleKills, k.site.proc = a.definition.site.proc →
    ∀ walk ∈ suite, k.site.node ∉ walk

variable {prog : Program} {formalsAsDefs : Bool} {d : Def} {u : Use} {walk : List Int}

theorem Covers.mem
    (h : prog.Covers formalsAsDefs d u walk) :
    d.site.node ∈ walk := by
  obtain ⟨seg, hseg, hdelivers⟩ := h
  exact hseg.subset (List.mem_of_mem_head? hdelivers.starts)

theorem Covers.arrives
    (h : prog.Covers formalsAsDefs d u walk) :
    u.arrival <:+: walk := by
  obtain ⟨seg, hseg, hdelivers⟩ := h
  exact hdelivers.arrives.isInfix.trans hseg

theorem exists_arrival_eq
    (u : Use) :
    ∃ more, u.arrival = u.site.node :: more ∧ more.length ≤ 1 ∧
      (u.isPredicate = true → more ≠ []) := by
  unfold Use.arrival
  split
  · exact ⟨[u.succ], rfl, by simp, by simp⟩
  · rename_i hpred
    exact ⟨[], rfl, by simp, fun h => absurd h hpred⟩

/-- A walk that visits a definition and arrives at a use that does not lead back has a segment
from the one to the other. -/
theorem exists_segment
    (hreached : prog.LocallyReached formalsAsDefs d.site d.var u)
    (hback : ¬ (prog.proc d.site.proc).graph.Leads u.site.node d.site.node)
    (hwalk : (prog.proc d.site.proc).graph.IsWalk walk)
    (hdef : d.site.node ∈ walk)
    (huse : u.arrival <:+: walk) :
    ∃ rest, d.site.node :: rest <:+: walk ∧ 2 ≤ (d.site.node :: rest).length ∧
      u.arrival <:+ d.site.node :: rest := by
  obtain ⟨front, back, hsplit⟩ := huse
  obtain ⟨more, harrival, -, hbranch⟩ := exists_arrival_eq u
  rw [harrival] at hsplit
  have hafter : d.site.node ∉ more ++ back := by
    intro hmem
    apply hback
    have hsuffix : (prog.proc d.site.proc).graph.IsWalk (u.site.node :: (more ++ back)) := by
      refine hwalk.infix ⟨front, [], ?_⟩
      rw [← hsplit]
      simp
    exact hsuffix.leads_of_mem hmem
  have hbefore : d.site.node ∈ front ∨ d.site.node = u.site.node := by
    rw [← hsplit] at hdef
    simp only [List.mem_append, List.mem_cons] at hdef hafter
    tauto
  rcases hbefore with hfront | heq
  · obtain ⟨front, middle, rfl⟩ := List.append_of_mem hfront
    refine ⟨middle ++ u.arrival, ⟨front, back, ?_⟩, ?_, ?_⟩
    · rw [← hsplit, harrival]
      simp
    · simp only [harrival, List.length_cons, List.length_append]
      omega
    · exact ⟨d.site.node :: middle, by simp⟩
  · -- a definition at the node itself is read only by the branches that leave the node
    have hpred : u.isPredicate = true := by
      by_contra hcomputation
      apply hback
      have hleads := hreached.leads (by simpa using hcomputation)
      rwa [heq] at hleads ⊢
    refine ⟨more, ⟨front, back, by rw [heq, hsplit]⟩, ?_, ?_⟩
    · have := List.length_pos_iff.mpr (hbranch hpred)
      rw [List.length_cons]
      omega
    · rw [harrival, heq]

/-- A walk that visits a definition and arrives at a use that does not lead back covers the
association, or it visits another definition that leads to the use. -/
theorem covers_or_killed
    (hreached : prog.LocallyReached formalsAsDefs d.site d.var u)
    (hback : ¬ (prog.proc d.site.proc).graph.Leads u.site.node d.site.node)
    (hwalk : (prog.proc d.site.proc).graph.IsWalk walk)
    (hdef : d.site.node ∈ walk)
    (huse : u.arrival <:+: walk) :
    prog.Covers formalsAsDefs d u walk ∨
      ∃ k, prog.IsLocalDef formalsAsDefs k ∧ k.site.proc = d.site.proc ∧
        k.site.node ≠ d.site.node ∧ k.var = d.var ∧ k.site.node ∈ walk ∧
        (prog.proc d.site.proc).graph.Leads d.site.node k.site.node ∧
        prog.LocallyReached formalsAsDefs k.site k.var u := by
  obtain ⟨rest, hseg, hlong, harrives⟩ := exists_segment hreached hback hwalk hdef huse
  have hisWalk := hwalk.infix hseg
  have hshort : u.arrival.length ≤ 2 := by
    obtain ⟨more, harrival, hmore, -⟩ := exists_arrival_eq u
    rw [harrival, List.length_cons]
    omega
  -- the last node before the arrival that is the definition or writes the variable
  obtain hclear | ⟨x, tail, hx, hP, hsuffix, hlong', harrives', hclear⟩ :=
    @Digraph.exists_clear_segment _
      (fun x => x = d.site.node ∨ prog.Writes formalsAsDefs ⟨d.site.proc, x⟩ d.var)
      _ _ hlong harrives hshort
  · left
    exact ⟨_, hseg, hisWalk, rfl, hlong, harrives, fun x hx hw => hclear x hx (Or.inr hw)⟩
  · have htail := hsuffix.isInfix.trans hseg
    by_cases hxd : x = d.site.node
    · left
      subst hxd
      exact ⟨_, htail, hwalk.infix htail, rfl, hlong', harrives',
        fun y hy hw => hclear y hy (Or.inr hw)⟩
    · right
      have hwrites := hP.resolve_left hxd
      have hlocal : d.var.isLocal = true := by
        rw [← hreached.var]
        exact hreached.isUse.isLocal
      obtain ⟨k, hk, hnode, hvar⟩ := (writes_iff hlocal).mp hwrites
      obtain ⟨hkdef, hkproc⟩ := mem_localDefs_iff.mp hk
      have hsite : k.site = ⟨d.site.proc, x⟩ := by
        rw [← hkproc, ← hnode]
      refine ⟨k, hkdef, hkproc, by rw [hnode]; exact hxd, hvar, ?_, ?_, ?_⟩
      · rw [hnode]
        exact htail.subset List.mem_cons_self
      · rw [hnode]
        exact hisWalk.leads_of_mem (List.mem_of_mem_dropLast hx)
      · rw [hsite, hvar]
        refine ⟨hreached.proc, hreached.var, hreached.isUse, _, hwalk.infix htail, rfl, hlong',
          harrives', fun y hy hw => hclear y hy (Or.inr hw)⟩

end Program

namespace Association

variable {prog : Program} {settings : Settings} {a : Association}

/-- What is known of an inferrable association inside one procedure. -/
structure InferredFacts (prog : Program) (settings : Settings) (a : Association) : Prop where
  reached : prog.LocallyReached settings.formalsAsDefs a.definition.site a.definition.var a.use
  isEndpoint : prog.IsEndpoint settings.formalsAsDefs a.use
  before : (Analysis.ofGraphs prog settings).executesBefore a.definition.site a.use.site = true
  notBack : ¬ (prog.proc a.definition.site.proc).graph.Leads a.use.site.node
    a.definition.site.node

theorem LocalFacts.inferredFacts
    (hprog : prog.Finalized)
    (h : a.LocalFacts prog (GraphOrder.ofProgram prog).oracle settings)
    (hinferrable : a.inferrable = true)
    (hproc : a.use.site.proc = a.definition.site.proc) :
    a.InferredFacts prog settings := by
  have hd := h.isLocalDef
  have hany := h.inferrable hinferrable
  simp only [Analysis.association, Bool.and_eq_true, List.any_eq_true, mem_distinct,
    List.mem_map] at hany
  obtain ⟨⟨site, ⟨w, hw, rfl⟩, hordered⟩, -⟩ := hany
  rw [Program.reachedFrom_definition, Analysis.ordered] at hordered
  split at hordered
  · exact absurd hordered Bool.false_ne_true
  · rw [Bool.and_eq_true, Bool.not_eq_true'] at hordered
    obtain ⟨hbefore, hnoway⟩ := hordered
    have hwreached := ((Program.mem_witnesses_iff hprog hd).mp hw).1
    have hwproc := hwreached.proc
    obtain ⟨-, hself, hback⟩ := (Analysis.mayReach_eq_false_iff hprog
      (by rw [hwproc]; exact hd.proc_mem) hwreached.isUse.node_mem hwproc.symm).mp hnoway
    rw [hwproc] at hself hback
    obtain ⟨huse, hend, hreached⟩ := Program.eq_of_mem_witnesses hprog hd hself hproc hw
    rw [← huse] at hbefore hback
    exact ⟨hreached, hend, hbefore, hback⟩

/-- Another definition that leads to the use of an inferrable association is one of its kills. -/
theorem LocalFacts.mem_kills
    (hprog : prog.Finalized)
    {oracle : Oracle} {k : Def}
    (h : a.LocalFacts prog oracle settings)
    (hk : prog.IsLocalDef settings.formalsAsDefs k)
    (hproc : k.site.proc = a.definition.site.proc)
    (hne : k ≠ a.definition)
    (hvar : k.var = a.definition.var)
    (hleads : (prog.proc a.definition.site.proc).graph.Leads a.definition.site.node k.site.node)
    (hchain : prog.Chain settings.formalsAsDefs k.site k.var a.use) :
    k ∈ a.hardKills ++ a.possibleKills := by
  have hkiller : k ∈ (prog.reachedFrom settings.formalsAsDefs a.definition).killers :=
    (Program.mem_killers_iff hprog h.isLocalDef).mpr ⟨hne, Or.inl ⟨hk, hproc, hvar, hleads⟩⟩
  exact (h.mem_kills_iff hprog).mpr ⟨hkiller, hchain⟩

end Association

section Covered

variable {prog : Program} {settings : Settings} {a : Association} {suite : Finset (List Int)}

/-- If the definition executes before the use, some walk of the set visits both. -/
theorem exists_walk_visits_both
    (hprog : prog.Finalized)
    (h : a.InferredFacts prog settings)
    (hsuite : prog.CoversEnds a suite)
    (hcomputation : a.use.isPredicate = false) :
    ∃ walk ∈ suite, a.definition.site.node ∈ walk ∧ a.use.arrival <:+: walk := by
  have harrival : a.use.arrival = [a.use.site.node] := by simp [Use.arrival, hcomputation]
  have hne : a.definition.site.node ≠ a.use.site.node := by
    intro heq
    apply h.notBack
    have hleads := h.reached.leads hcomputation
    rwa [heq] at hleads ⊢
  rcases Analysis.executesBefore_cases h.before with hdom | hpdom
  · obtain ⟨walk, hwalk, front, back, hsplit⟩ := hsuite.use
    have hsplit' : walk = front ++ a.use.site.node :: back := by
      rw [← hsplit, harrival]
      simp
    have hfront := GraphOrder.mem_front_of_dominates hprog hdom hne
      (hsuite.complete walk hwalk) hsplit'
    refine ⟨walk, hwalk, ?_, ⟨front, back, hsplit⟩⟩
    rw [hsplit']
    exact List.mem_append_left _ hfront
  · obtain ⟨walk, hwalk, hmem⟩ := hsuite.definition
    obtain ⟨front, back, hsplit⟩ := List.append_of_mem hmem
    have hcomplete := hsuite.complete walk hwalk
    rw [← h.reached.proc] at hcomplete
    have hback := GraphOrder.mem_back_of_postdominates hprog hpdom hne.symm hcomplete hsplit
    have hvisit : a.use.site.node ∈ walk := by
      rw [hsplit]
      exact List.mem_append_right _ (List.mem_cons_of_mem _ hback)
    obtain ⟨front', back', hsplit'⟩ := List.append_of_mem hvisit
    refine ⟨walk, hwalk, hmem, ⟨front', back', ?_⟩⟩
    rw [harrival, hsplit']
    simp

/-- An inferrable association with a computation use is covered by some walk of every set that
covers its ends and none of its kills. -/
theorem inferrable_computation_covered
    (prog : Program) (settings : Settings)
    (hprog : prog.Finalized) :
    ∃ set events,
      analyzeProgram prog (GraphOrder.ofProgram prog).oracle settings = .ok (set, events) ∧
      ∀ a ∈ set.items, a.heap = false → a.inferrable = true → a.use.isPredicate = false →
        a.use.site.proc = a.definition.site.proc →
        ∀ suite, prog.CoversEnds a suite →
          ∃ walk ∈ suite, prog.Covers settings.formalsAsDefs a.definition a.use walk := by
  obtain ⟨events, hrun⟩ :=
    @analyzeProgram_eq prog (GraphOrder.ofProgram prog).oracle settings hprog
  refine ⟨_, events, hrun, ?_⟩
  intro a ha hheap hinferrable hcomputation hproc suite hsuite
  have hfacts := localFacts_of_mem hprog ha hheap
  have hinferred := hfacts.inferredFacts hprog hinferrable hproc
  obtain ⟨walk, hwalk, hdef, huse⟩ :=
    exists_walk_visits_both hprog hinferred hsuite hcomputation
  refine ⟨walk, hwalk, ?_⟩
  obtain hcovers | ⟨k, hk, hkproc, hnode, hvar, hvisit, hleads, hreached⟩ :=
    Program.covers_or_killed hinferred.reached hinferred.notBack
      (hsuite.complete walk hwalk).isWalk hdef huse
  · exact hcovers
  · have hne : k ≠ a.definition := by
      rintro rfl
      exact hnode rfl
    have hkill := hfacts.mem_kills hprog hk hkproc hne hvar hleads
      (.last hreached hinferred.isEndpoint)
    exact absurd hvisit (hsuite.noKill k hkill hkproc walk hwalk)

/-- A variable is set, on one of two ways set again, and read where the ways meet. -/
def redefinition : Program where
  procs := #[
    { name := "f"
      params := [.ofLocal "f" "c"]
      nodes := #[
        { label := "entry", succs := [2] },
        { label := "exit", preds := [5] },
        { label := "x = 1", defs := [.ofLocal "f" "x"], succs := [3], preds := [0] },
        { label := "if c", uses := [.ofLocal "f" "c"], predicate := true, succs := [4, 5],
          preds := [2] },
        { label := "x = 2", defs := [.ofLocal "f" "x"], succs := [5], preds := [3] },
        { label := "y = x", uses := [.ofLocal "f" "x"], succs := [1], preds := [3, 4] }] }]
  callGraph := ⟨#[[]], #[[]]⟩

/-- The first definition of the variable and its use; the second definition is a kill. -/
def redefinitionPair : Association where
  definition := ⟨⟨0, 2⟩, .ofLocal "f" "x", false⟩
  use := .computation ⟨0, 5⟩ (.ofLocal "f" "x")
  localUses := [.computation ⟨0, 5⟩ (.ofLocal "f" "x")]
  inferrable := true
  hardKills := [⟨⟨0, 4⟩, .ofLocal "f" "x", false⟩]

theorem redefinitionPair_listed :
    ((analyzeProgram redefinition (GraphOrder.ofProgram redefinition).oracle {}).map
      fun r => decide (redefinitionPair ∈ r.1.items)) = .ok true := by
  decide +kernel

/-- The way without the second definition covers the pair. -/
theorem inferrable_computation_covered_redefinition :
    redefinition.Finalized ∧ redefinition.CoversEnds redefinitionPair {[0, 2, 3, 5, 1]} ∧
      ∃ walk ∈ ({[0, 2, 3, 5, 1]} : Finset (List Int)),
        redefinition.Covers false redefinitionPair.definition redefinitionPair.use walk := by
  have hprog : redefinition.Finalized := by decide +kernel
  have hsuite : redefinition.CoversEnds redefinitionPair {[0, 2, 3, 5, 1]} := by
    refine ⟨?_, ⟨_, Finset.mem_singleton_self _, by decide⟩,
      ⟨_, Finset.mem_singleton_self _, by decide⟩, ?_⟩
    · intro walk hwalk
      rw [Finset.mem_singleton.mp hwalk]
      refine ⟨?_, rfl, rfl⟩
      unfold Digraph.IsWalk
      decide +kernel
    · intro k hk _ walk hwalk
      rw [Finset.mem_singleton.mp hwalk, List.mem_singleton.mp hk]
      decide
  refine ⟨hprog, hsuite, ?_⟩
  obtain ⟨set, events, hrun, hall⟩ := inferrable_computation_covered redefinition {} hprog
  have hlisted := redefinitionPair_listed
  rw [hrun] at hlisted
  have hmem : redefinitionPair ∈ set.items := by simpa [Except.map] using hlisted
  exact hall redefinitionPair hmem rfl rfl rfl rfl _ hsuite

/-- Only its own definition reaches a branch whose association is inferrable, so that a walk which
visits both covers the association. -/
theorem covers_branch_iff
    {walk : List Int}
    (hfacts : a.LocalFacts prog (GraphOrder.ofProgram prog).oracle settings)
    (hinferred : a.InferredFacts prog settings)
    (hinferrable : a.inferrable = true)
    (hpred : a.use.isPredicate = true)
    (hwalk : (prog.proc a.definition.site.proc).graph.IsWalk walk) :
    prog.Covers settings.formalsAsDefs a.definition a.use walk ↔
      a.definition.site.node ∈ walk ∧ a.use.arrival <:+: walk := by
  constructor
  · intro h
    exact ⟨h.mem, h.arrives⟩
  · rintro ⟨hdef, huse⟩
    obtain hcovers | ⟨k, hk, -, hnode, -, -, -, hreached⟩ :=
      Program.covers_or_killed hinferred.reached hinferred.notBack hwalk hdef huse
    · exact hcovers
    · have hsame := hfacts.single hinferrable hpred k hk (.last hreached hinferred.isEndpoint)
      rw [hsame] at hnode
      exact absurd rfl hnode

/-- An inferrable association with a branch has no kills. -/
theorem not_mem_kills_of_branch
    {oracle : Oracle} {k : Def}
    (hprog : prog.Finalized)
    (hfacts : a.LocalFacts prog oracle settings)
    (hinferrable : a.inferrable = true)
    (hpred : a.use.isPredicate = true) :
    k ∉ a.hardKills ++ a.possibleKills := by
  intro hk
  obtain ⟨hkiller, hchain⟩ := (hfacts.mem_kills_iff hprog).mp hk
  have hlocal := Program.isLocalDef_of_mem_killers hprog hfacts.isLocalDef hkiller
  exact ((Program.mem_killers_iff hprog hfacts.isLocalDef).mp hkiller).1
    (hfacts.single hinferrable hpred k hlocal hchain)

/-- For an inferrable association with a branch, coverage of the ends tells that of the
association exactly if every walk through the procedure that takes the branch visits the
definition, or every one that visits the definition takes the branch. -/
theorem inferrable_branch_covered_iff
    (prog : Program) (settings : Settings)
    (hprog : prog.Finalized) :
    ∃ set events,
      analyzeProgram prog (GraphOrder.ofProgram prog).oracle settings = .ok (set, events) ∧
      ∀ a ∈ set.items, a.heap = false → a.inferrable = true → a.use.isPredicate = true →
        a.use.site.proc = a.definition.site.proc →
        ((∀ suite, prog.CoversEnds a suite →
            ∃ walk ∈ suite, prog.Covers settings.formalsAsDefs a.definition a.use walk) ↔
          (∀ walk, (prog.proc a.definition.site.proc).IsComplete walk →
            a.use.arrival <:+: walk → a.definition.site.node ∈ walk) ∨
          (∀ walk, (prog.proc a.definition.site.proc).IsComplete walk →
            a.definition.site.node ∈ walk → a.use.arrival <:+: walk)) := by
  obtain ⟨events, hrun⟩ :=
    @analyzeProgram_eq prog (GraphOrder.ofProgram prog).oracle settings hprog
  refine ⟨_, events, hrun, ?_⟩
  intro a ha hheap hinferrable hpred hproc
  have hfacts := localFacts_of_mem hprog ha hheap
  have hinferred := hfacts.inferredFacts hprog hinferrable hproc
  constructor
  · intro hall
    by_contra hneither
    simp only [not_or, not_forall, exists_prop] at hneither
    obtain ⟨⟨walk, hwalk, htakes, hmisses⟩, walk', hwalk', hvisits, havoids⟩ := hneither
    -- one walk for each end, neither of which visits the other end
    have hsuite : prog.CoversEnds a {walk, walk'} := by
      refine ⟨?_, ⟨walk', by simp, hvisits⟩, ⟨walk, by simp, htakes⟩, ?_⟩
      · intro w hw
        rw [Finset.mem_insert, Finset.mem_singleton] at hw
        rcases hw with rfl | rfl
        · exact hwalk
        · exact hwalk'
      · intro k hk
        exact absurd hk (not_mem_kills_of_branch hprog hfacts hinferrable hpred)
    obtain ⟨w, hw, hcovers⟩ := hall {walk, walk'} hsuite
    rw [Finset.mem_insert, Finset.mem_singleton] at hw
    rcases hw with rfl | rfl
    · exact hmisses hcovers.mem
    · exact havoids hcovers.arrives
  · rintro (hall | hall) suite hsuite
    · obtain ⟨walk, hwalk, htakes⟩ := hsuite.use
      have hcomplete := hsuite.complete walk hwalk
      exact ⟨walk, hwalk, (covers_branch_iff hfacts hinferred hinferrable hpred
        hcomplete.isWalk).mpr ⟨hall walk hcomplete htakes, htakes⟩⟩
    · obtain ⟨walk, hwalk, hvisits⟩ := hsuite.definition
      have hcomplete := hsuite.complete walk hwalk
      exact ⟨walk, hwalk, (covers_branch_iff hfacts hinferred hinferrable hpred
        hcomplete.isWalk).mpr ⟨hvisits, hall walk hcomplete hvisits⟩⟩

/-- A variable that may be set on one of two ways, and on which both ways then branch. -/
def optionalDefinition : Program where
  procs := #[
    { name := "f"
      params := [.ofLocal "f" "x"]
      nodes := #[
        { label := "entry", succs := [2] },
        { label := "exit", preds := [6, 7] },
        { label := "if c", succs := [3, 4], preds := [0] },
        { label := "x = g()", defs := [.ofLocal "f" "x"], succs := [5], preds := [2] },
        { label := "skip", succs := [5], preds := [2] },
        { label := "if x", uses := [.ofLocal "f" "x"], predicate := true, succs := [6, 7],
          preds := [3, 4] },
        { label := "then", succs := [1], preds := [5] },
        { label := "else", succs := [1], preds := [5] }] }]
  callGraph := ⟨#[[]], #[[]]⟩

/-- The definition and the first branch. -/
def optionalPair : Association where
  definition := ⟨⟨0, 3⟩, .ofLocal "f" "x", false⟩
  use := .branch ⟨0, 5⟩ 6 (.ofLocal "f" "x")
  localUses := [.branch ⟨0, 5⟩ 6 (.ofLocal "f" "x")]
  inferrable := true

theorem optionalPair_listed :
    ((analyzeProgram optionalDefinition (GraphOrder.ofProgram optionalDefinition).oracle {}).map
      fun r => decide (optionalPair ∈ r.1.items)) = .ok true := by
  decide +kernel

/-- One walk sets the variable and takes the second branch, the other one takes the first branch
with the value that the variable had before. -/
def optionalSuite : Finset (List Int) :=
  {[0, 2, 3, 5, 7, 1], [0, 2, 4, 5, 6, 1]}

theorem optionalSuite_coversEnds :
    optionalDefinition.CoversEnds optionalPair optionalSuite := by
  refine ⟨?_, ⟨[0, 2, 3, 5, 7, 1], by decide, by decide⟩,
    ⟨[0, 2, 4, 5, 6, 1], by decide, by decide⟩, ?_⟩
  · intro walk hwalk
    rw [optionalSuite, Finset.mem_insert, Finset.mem_singleton] at hwalk
    rcases hwalk with rfl | rfl
    · refine ⟨?_, rfl, rfl⟩
      unfold Digraph.IsWalk
      decide +kernel
    · refine ⟨?_, rfl, rfl⟩
      unfold Digraph.IsWalk
      decide +kernel
  · intro k hk
    exact absurd hk List.not_mem_nil

theorem not_covers_of_mem_optionalSuite
    {walk : List Int}
    (hwalk : walk ∈ optionalSuite) :
    ¬ optionalDefinition.Covers false optionalPair.definition optionalPair.use walk := by
  intro hcovers
  rw [optionalSuite, Finset.mem_insert, Finset.mem_singleton] at hwalk
  rcases hwalk with rfl | rfl
  · exact absurd hcovers.arrives (by decide)
  · exact absurd hcovers.mem (by decide)

/-- The ends of an inferrable association with a branch are covered, and the association is
not. -/
theorem inferrable_branch_not_covered :
    ¬ ∃ set events,
      analyzeProgram optionalDefinition (GraphOrder.ofProgram optionalDefinition).oracle {} =
        .ok (set, events) ∧
      ∀ a ∈ set.items, a.heap = false → a.inferrable = true → a.use.isPredicate = true →
        a.use.site.proc = a.definition.site.proc →
        ∀ suite, optionalDefinition.CoversEnds a suite →
          ∃ walk ∈ suite, optionalDefinition.Covers false a.definition a.use walk := by
  rintro ⟨set, events, hrun, hall⟩
  have hlisted := optionalPair_listed
  rw [hrun] at hlisted
  have hmem : optionalPair ∈ set.items := by simpa [Except.map] using hlisted
  obtain ⟨walk, hwalk, hcovers⟩ :=
    hall optionalPair hmem rfl rfl rfl rfl optionalSuite optionalSuite_coversEnds
  exact not_covers_of_mem_optionalSuite hwalk hcovers

/-- Some walk takes the branch without the definition, and some walk goes the other way round. -/
theorem inferrable_branch_covered_iff_optional :
    optionalDefinition.Finalized ∧
      ¬ ((∀ walk, (optionalDefinition.proc 0).IsComplete walk →
          optionalPair.use.arrival <:+: walk → optionalPair.definition.site.node ∈ walk) ∨
        (∀ walk, (optionalDefinition.proc 0).IsComplete walk →
          optionalPair.definition.site.node ∈ walk → optionalPair.use.arrival <:+: walk)) := by
  have hprog : optionalDefinition.Finalized := by decide +kernel
  refine ⟨hprog, ?_⟩
  obtain ⟨set, events, hrun, hall⟩ := inferrable_branch_covered_iff optionalDefinition {} hprog
  have hlisted := optionalPair_listed
  rw [hrun] at hlisted
  have hmem : optionalPair ∈ set.items := by simpa [Except.map] using hlisted
  rw [show (0 : Int) = optionalPair.definition.site.proc from rfl,
    ← hall optionalPair hmem rfl rfl rfl rfl]
  intro hcovered
  obtain ⟨walk, hwalk, hcovers⟩ := hcovered optionalSuite optionalSuite_coversEnds
  exact not_covers_of_mem_optionalSuite hwalk hcovers

end Covered

end DefUse
