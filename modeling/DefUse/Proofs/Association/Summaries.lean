import DefUse.Program.Blueprint
import DefUse.Proofs.Association.Reached
import DefUse.Proofs.Program.Edited
import Mathlib.Order.Bounds.Basic

/-!
# The least family behind the formals

The list of waiting procedures is kept with a mark for every procedure that is in it, so that no
procedure waits twice.  The order of the list at the start is free, as long as every procedure is in
it once.

**Method.** The marks are those of the procedures in the list, so a caller without a mark is one
that the list lacks, and the loop with marks goes step by step with `FormalTable.advance`.  What
that loop finds is given by two rules, and a family is closed if and only if it contains what the
rules give.

**Results.** `Queue.haltsAt_solveFrom`: the loop with marks comes to an end, with the summaries of
`FormalTable.solveFrom`; `summaries_least`: these are the least closed family, whatever the order.
-/

namespace DefUse
namespace FormalTable

/-- The state of the loop: the waiting procedures, their marks and the summaries found so far. -/
structure Queue where
  /-- The procedures to recompute. -/
  waiting : List Nat
  /-- The procedure is marked as waiting. -/
  queued : Nat → Bool
  /-- The summaries. -/
  table : FormalTable

namespace Queue

/-- The listed procedures wait, and nothing stands behind any formal. -/
def initial (prog : Program) (waiting : List Nat) : Queue :=
  ⟨waiting, fun p => decide (p ∈ waiting), start prog⟩

/-- A procedure without a mark gets one and waits. -/
def enqueue (q : Queue) (p : Nat) : Queue :=
  if q.queued p then q
  else { q with waiting := q.waiting ++ [p], queued := Function.update q.queued p true }

/-- The first procedure waits no longer. -/
def pop (q : Queue) (p : Nat) (rest : List Nat) : Queue :=
  { q with waiting := rest, queued := Function.update q.queued p false }

/-- Recomputes the first waiting procedure, and lets its callers wait if a summary grew. -/
def step (prog : Program) (flows : Array LocalFlow) (q : Queue) : Option Queue :=
  match q.waiting with
  | [] => none
  | p :: rest =>
    let table := flows[p]?.elim q.table fun fl => update prog fl p q.table
    some (if table = q.table then q.pop p rest
      else ((prog.callers p).map Int.toNat).foldl enqueue { q.pop p rest with table })

/-- The marked procedures are those that wait, and each of them waits once. -/
structure Marked (q : Queue) : Prop where
  queued_iff : ∀ p, q.queued p = true ↔ p ∈ q.waiting
  nodup : q.waiting.Nodup

/-- The loop with marks has come as far as the one without. -/
structure Follows (s : Progress) (q : Queue) : Prop where
  waiting : q.waiting = s.waiting
  table : q.table = s.table
  marked : q.Marked

section Marks

variable {q : Queue} {p : Nat} {rest : List Nat}

theorem Marked.pop
    (hq : q.Marked)
    (hwaiting : q.waiting = p :: rest) :
    (q.pop p rest).Marked := by
  have hnodup := hq.nodup
  rw [hwaiting, List.nodup_cons] at hnodup
  refine ⟨fun x => ?_, hnodup.2⟩
  by_cases hx : x = p
  · subst hx
    simp [Queue.pop, hnodup.1]
  · simp [Queue.pop, hx, hq.queued_iff, hwaiting]

theorem Marked.enqueue
    (hq : q.Marked)
    (hp : p ∉ q.waiting) :
    (q.enqueue p).Marked ∧ (q.enqueue p).waiting = q.waiting ++ [p] ∧
      (q.enqueue p).table = q.table := by
  have hunmarked : q.queued p ≠ true := fun h => hp ((hq.queued_iff p).mp h)
  unfold Queue.enqueue
  rw [if_neg hunmarked]
  refine ⟨⟨fun x => ?_, ?_⟩, rfl, rfl⟩
  · by_cases hx : x = p
    · subst hx
      simp
    · simp [hx, hq.queued_iff]
  · exact hq.nodup.append (List.nodup_singleton p) (List.disjoint_singleton.mpr hp)

/-- Of the listed procedures, those that do not wait join the list in order. -/
theorem Marked.foldl_enqueue
    {callers : List Nat}
    (hq : q.Marked)
    (hcallers : callers.Nodup) :
    (callers.foldl Queue.enqueue q).Marked ∧
      (callers.foldl Queue.enqueue q).waiting = q.waiting ++ callers.filter (· ∉ q.waiting) ∧
      (callers.foldl Queue.enqueue q).table = q.table := by
  induction callers generalizing q with
  | nil => exact ⟨hq, by simp, rfl⟩
  | cons c rest ih =>
      obtain ⟨hc, hrest⟩ := List.nodup_cons.mp hcallers
      rw [List.foldl_cons]
      by_cases hwaits : c ∈ q.waiting
      · have hsame : q.enqueue c = q := if_pos ((hq.queued_iff c).mpr hwaits)
        rw [hsame, List.filter_cons_of_neg (by simpa using hwaits)]
        exact ih hq hrest
      · obtain ⟨hmarked, hwaiting, htable⟩ := hq.enqueue hwaits
        obtain ⟨h₁, h₂, h₃⟩ := ih hmarked hrest
        refine ⟨h₁, ?_, h₃.trans htable⟩
        -- the others of the list are not the caller that just joined
        have hfilter : rest.filter (· ∉ q.waiting ++ [c]) = rest.filter (· ∉ q.waiting) := by
          refine List.filter_congr fun x hx => ?_
          have hne : x ≠ c := fun h => hc (h ▸ hx)
          simp [hne]
        rw [h₂, hwaiting, hfilter, List.filter_cons_of_pos (by simpa using hwaits),
          List.append_assoc, List.singleton_append]

end Marks

section Loop

variable {prog : Program} {flows : Array LocalFlow} {s s' : Progress} {q : Queue}
  {waiting : List Nat}

theorem callers_toNat_nodup
    (hprog : prog.Finalized) (p : Int) :
    ((prog.callers p).map Int.toNat).Nodup := by
  rw [hprog.callers_eq]
  split
  · refine ((positions_nodup _).filter _).map_on ?_
    intro a ha b hb hab
    have ha₀ := (mem_positions.mp (List.mem_filter.mp ha).1).1
    have hb₀ := (mem_positions.mp (List.mem_filter.mp hb).1).1
    omega
  · exact List.nodup_nil

/-- The loop with marks rests when the one without does. -/
theorem Follows.step_eq_none
    (h : Follows s q)
    (hs : advance prog flows s = none) :
    step prog flows q = none := by
  have hempty : s.waiting = [] := by
    unfold advance at hs
    split at hs
    · assumption
    · split at hs <;> exact absurd hs (Option.some_ne_none _)
  unfold step
  rw [h.waiting, hempty]

/-- The loop with marks takes a step when the one without does. -/
theorem Follows.step
    (hprog : prog.Finalized)
    (h : Follows s q)
    (hs : advance prog flows s = some s') :
    ∃ q', Queue.step prog flows q = some q' ∧ Follows s' q' := by
  obtain ⟨p, rest, hwaiting, hcase⟩ := advance_cases hs
  have hqueue : q.waiting = p :: rest := h.waiting.trans hwaiting
  have hpopped := h.marked.pop hqueue
  refine ⟨_, by rw [Queue.step, hqueue], ?_⟩
  rcases hcase with ⟨hflow, hrest, htable⟩ | ⟨fl, hflow, htable, hgrows⟩
  · rw [hflow, Option.elim_none, if_pos rfl]
    exact ⟨hrest.symm, h.table.trans htable.symm, hpopped⟩
  · rw [hflow, Option.elim_some, h.table, ← htable]
    rcases hgrows with ⟨hsame, hrest⟩ | ⟨hne, hjoined⟩
    · rw [if_pos hsame]
      exact ⟨hrest.symm, h.table.trans hsame.symm, hpopped⟩
    · rw [if_neg hne]
      have hmarked : ({ q.pop p rest with table := s'.table } : Queue).Marked :=
        ⟨hpopped.queued_iff, hpopped.nodup⟩
      obtain ⟨h₁, h₂, h₃⟩ := hmarked.foldl_enqueue (callers_toNat_nodup hprog p)
      exact ⟨h₂.trans hjoined.symm, h₃, h₁⟩

/-- The loop comes to an end, with the summaries that `solveFrom` finds. -/
theorem haltsAt_solveFrom
    (hprog : prog.Finalized)
    (hknown : CallersKnown prog flows)
    (hwaiting : waiting.Perm (List.range prog.procs.size)) :
    HaltsAt (step prog flows) (initial prog waiting)
      ⟨[], fun _ => false, (solveFrom prog flows waiting).table⟩ := by
  obtain ⟨-, hempty⟩ := settled_solveFrom hprog hknown
    fun p hp => hwaiting.mem_iff.mpr (List.mem_range.mpr hp)
  have hhalts : HaltsAt (advance prog flows) { waiting, table := start prog }
      (solveFrom prog flows waiting) := by
    refine ⟨?_, _, rfl⟩
    unfold advance
    rw [hempty]
  have hinitial : Follows { waiting, table := start prog } (initial prog waiting) :=
    ⟨rfl, rfl, fun p => decide_eq_true_iff, hwaiting.nodup_iff.mpr List.nodup_range⟩
  obtain ⟨q, hq, hfollows⟩ := hhalts.simulates (fun h hs => h.step_eq_none hs)
    (fun h hs => h.step hprog hs) hinitial
  obtain ⟨list, queued, table⟩ := q
  obtain ⟨hlist, rfl, hmarked⟩ := hfollows
  obtain rfl : list = [] := hlist.trans hempty
  have hqueued : queued = fun _ => false := by
    funext p
    exact Bool.eq_false_iff.mpr fun hp => List.not_mem_nil ((hmarked.queued_iff p).mp hp)
  rwa [hqueued] at hq

end Loop

end Queue

/-- The order of the analysis lists every procedure once. -/
theorem calleesFirst_perm
    {prog : Program}
    (hprog : prog.Finalized) :
    (calleesFirst prog).Perm (List.range prog.procs.size) := by
  have hcovers := hprog.calls_closed.covers fun _ h => h
  have hprocs : ∀ p ∈ (prog.calls.components prog.procIds).flatten, p ∈ prog.procIds := by
    intro p hp
    obtain ⟨r, hr, hreach⟩ := (Digraph.mem_flatten_components_iff hcovers).mp hp
    exact hprog.calls_closed.reaches hr hreach
  refine (List.perm_ext_iff_of_nodup ?_ List.nodup_range).mpr fun p => ⟨?_, ?_⟩
  · refine (Digraph.flatten_components_nodup hcovers).map_on fun a ha b hb hab => ?_
    have ha₀ := (mem_positions.mp (hprocs a ha)).1
    have hb₀ := (mem_positions.mp (hprocs b hb)).1
    omega
  · intro hp
    obtain ⟨a, ha, rfl⟩ := List.mem_map.mp hp
    have hbounds := mem_positions.mp (hprocs a ha)
    rw [List.mem_range]
    omega
  · exact fun hp => mem_calleesFirst hprog (List.mem_range.mp hp)

end FormalTable

/-- Uses and definitions for every formal. -/
abbrev FormalFamily := Formal → Set Use × Set Def

/-- What the summaries of a table hold. -/
def FormalTable.family (t : FormalTable) : FormalFamily :=
  fun x => ({u | u ∈ (t.summary x).uses}, {d | d ∈ (t.summary x).kills})

namespace FormalFamily

/-- The family has a use or a definition behind a formal. -/
def Holds (F : FormalFamily) (x : Formal) : Use ⊕ Def → Prop
  | .inl u => u ∈ (F x).1
  | .inr d => d ∈ (F x).2

theorem le_iff
    {F G : FormalFamily} {x y : Formal} :
    F y ≤ G x ↔ ∀ item, F.Holds y item → G.Holds x item := by
  constructor
  · rintro ⟨huses, hkills⟩ (u | d) hitem
    · exact huses hitem
    · exact hkills hitem
  · intro h
    exact ⟨fun u hu => h (.inl u) hu, fun d hd => h (.inr d) hd⟩

theorem holds_family_iff
    {t : FormalTable} {x : Formal} {item : Use ⊕ Def} :
    t.family.Holds x item ↔ item ∈ (t.summary x).items := by
  cases item with
  | inl u => simp [Holds, FormalTable.family, FormalSummary.items]
  | inr d => simp [Holds, FormalTable.family, FormalSummary.items]

end FormalFamily

namespace Program

/-- The formal is a local variable other than zero. -/
structure IsLocalFormal (prog : Program) (x : Formal) (param : Variable) : Prop where
  formal : (prog.proc x.proc).params[x.index]? = some param
  notZero : param.isZero = false
  isLocal : param.isLocal = true

/-- Behind every local formal the family has the endpoints that read the formal and are reached from
the entry, the definitions of the formal that are reached from the entry, and what it has behind
the formals that a use reached from there is passed to. -/
structure IsClosedFamily (prog : Program) (F : FormalFamily) : Prop where
  uses : ∀ {x param u}, prog.IsLocalFormal x param →
    prog.LocallyReached false ⟨x.proc, entryId⟩ param u → prog.IsEndpoint false u → u ∈ (F x).1
  kills : ∀ {x param d}, prog.IsLocalFormal x param → prog.IsLocalDef false d →
    d.site.proc = x.proc → d.var = param →
    (prog.proc x.proc).graph.Leads entryId d.site.node → d ∈ (F x).2
  passed : ∀ {x y param w}, prog.IsLocalFormal x param →
    prog.LocallyReached false ⟨x.proc, entryId⟩ param w → prog.IsPassedTo false w y → F y ≤ F x

variable {prog : Program} {F : FormalFamily} {x : Formal} {param : Variable}

theorem IsLocalFormal.isSummarised
    (hx : prog.IsLocalFormal x param) :
    FormalTable.IsSummarised prog (localFlows prog false) x
      (LocalFlow.ofProcedure prog false x.proc) param :=
  isSummarised_localFlows false hx.formal hx.notZero hx.isLocal

/-- A closed family contains what the rules put behind the formals. -/
theorem IsClosedFamily.holds_of_behind
    (hprog : prog.Finalized)
    (hF : prog.IsClosedFamily F)
    {item : Use ⊕ Def}
    (h : FormalTable.Behind prog (localFlows prog false) x item) :
    F.Holds x item := by
  induction h with
  | @added x fl param item hx hitem =>
      obtain ⟨hp, rfl⟩ := getElem?_localFlows_iff.mp hx.flow
      have hformal : prog.IsLocalFormal x param := ⟨hx.formal, hx.notZero, hx.isLocal⟩
      cases item with
      | inl u =>
          obtain ⟨hreached, hend⟩ := (inl_mem_adds_iff hprog hp).mp hitem
          exact hF.uses hformal hreached hend
      | inr d =>
          obtain ⟨hd, hproc, hvar, hleads⟩ := (inr_mem_adds_iff hprog hp).mp hitem
          exact hF.kills hformal hd hproc hvar hleads
  | @passed x y fl param item hx hy _ ih =>
      obtain ⟨hp, rfl⟩ := getElem?_localFlows_iff.mp hx.flow
      obtain ⟨w, hreached, hpassed⟩ := (mem_passes_iff hprog hp).mp hy
      exact FormalFamily.le_iff.mp
        (hF.passed ⟨hx.formal, hx.notZero, hx.isLocal⟩ hreached hpassed) item ih

/-- A family of what the rules put behind the formals is closed. -/
theorem isClosedFamily_of_holds_iff
    (hprog : prog.Finalized)
    (hF : ∀ x item, F.Holds x item ↔ FormalTable.Behind prog (localFlows prog false) x item) :
    prog.IsClosedFamily F := by
  have hproc : ∀ {x param}, prog.IsLocalFormal x param → (x.proc : Int) ∈ prog.procIds :=
    fun hx => (getElem?_localFlows_iff.mp hx.isSummarised.flow).1
  refine ⟨?_, ?_, ?_⟩
  · intro x param u hx hreached hend
    exact (hF x (.inl u)).mpr
      (.added hx.isSummarised ((inl_mem_adds_iff hprog (hproc hx)).mpr ⟨hreached, hend⟩))
  · intro x param d hx hd hdproc hvar hleads
    exact (hF x (.inr d)).mpr (.added hx.isSummarised
      ((inr_mem_adds_iff hprog (hproc hx)).mpr ⟨hd, hdproc, hvar, hleads⟩))
  · intro x y param w hx hreached hpassed
    refine FormalFamily.le_iff.mpr fun item hitem => (hF x item).mpr ?_
    exact .passed hx.isSummarised
      ((mem_passes_iff hprog (hproc hx)).mpr ⟨w, hreached, hpassed⟩) ((hF y item).mp hitem)

/-- From every list of waiting procedures that has each procedure once, the loop comes to an end
with no procedure marked.  The summaries are then the least closed family, and those of other
formals are empty. -/
theorem summaries_least
    (prog : Program) (waiting : List Nat)
    (hprog : prog.Finalized)
    (hwaiting : waiting.Perm (List.range prog.procs.size)) :
    let flows := localFlows prog false
    let t := (FormalTable.solveFrom prog flows waiting).table
    HaltsAt (FormalTable.Queue.step prog flows) (.initial prog waiting) ⟨[], fun _ => false, t⟩ ∧
      IsLeast {F | prog.IsClosedFamily F} t.family ∧
      ∀ x, (∀ param, ¬ prog.IsLocalFormal x param) → t.summary x = {} := by
  intro flows t
  have hknown : FormalTable.CallersKnown prog flows := callersKnown_localFlows hprog
  have hitems : ∀ x item, item ∈ (t.summary x).items ↔ FormalTable.Behind prog flows x item :=
    fun x item => FormalTable.mem_items_solveFrom_iff hprog hknown
      fun p hp => hwaiting.mem_iff.mpr (List.mem_range.mpr hp)
  have hholds : ∀ x item, t.family.Holds x item ↔ FormalTable.Behind prog flows x item :=
    fun x item => FormalFamily.holds_family_iff.trans (hitems x item)
  refine ⟨FormalTable.Queue.haltsAt_solveFrom hprog hknown hwaiting,
    ⟨isClosedFamily_of_holds_iff hprog hholds, ?_⟩, ?_⟩
  · intro F hF x
    exact FormalFamily.le_iff.mpr fun item hitem =>
      hF.holds_of_behind hprog ((hholds x item).mp hitem)
  · intro x hx
    have hnone : ∀ item, item ∉ (t.summary x).items := by
      intro item hitem
      cases (hitems x item).mp hitem with
      | added hformal _ => exact hx _ ⟨hformal.formal, hformal.notZero, hformal.isLocal⟩
      | passed hformal _ _ => exact hx _ ⟨hformal.formal, hformal.notZero, hformal.isLocal⟩
    have hempty := List.eq_nil_iff_forall_not_mem.mpr hnone
    rw [FormalSummary.items, List.append_eq_nil_iff, List.map_eq_nil_iff,
      List.map_eq_nil_iff] at hempty
    cases hsummary : t.summary x
    rw [hsummary] at hempty
    rw [FormalSummary.mk.injEq]
    exact hempty

/-- Two procedures that pass their formals to each other; the second one reads its formal in a
branch and writes it. -/
def relay : Program :=
  (ofBlueprints
    [{ name := "f"
       params := [.ofLocal "f" "p"]
       nodes := [{ label := "g(p)", calls := [⟨"g", [.ofLocal "f" "p"]⟩] }]
       edges := [(0, 2), (2, 1)] },
     { name := "g"
       params := [.ofLocal "g" "q"]
       nodes := [
         { label := "if q && f(q)", uses := [.ofLocal "g" "q"], predicate := true,
           calls := [⟨"f", [.ofLocal "g" "q"]⟩] },
         { label := "q = 0", defs := [.ofLocal "g" "q"] }]
       edges := [(0, 2), (2, 3), (2, 1), (3, 1)] }] []).toOption.getD {}

/-- Every closed family has the definition of the second procedure behind the formal of the first
one. -/
theorem summaries_least_relay :
    relay.Finalized ∧ (FormalTable.calleesFirst relay).Perm (List.range relay.procs.size) ∧
      ∀ F, relay.IsClosedFamily F →
        (⟨⟨1, 3⟩, .ofLocal "g" "q", false⟩ : Def) ∈ (F ⟨0, 0⟩).2 := by
  have hprog : relay.Finalized := by decide +kernel
  have hwaiting := FormalTable.calleesFirst_perm hprog
  refine ⟨hprog, hwaiting, fun F hF => ?_⟩
  obtain ⟨-, ⟨-, hleast⟩, -⟩ :=
    summaries_least relay (FormalTable.calleesFirst relay) hprog hwaiting
  have hfound : (⟨⟨1, 3⟩, .ofLocal "g" "q", false⟩ : Def) ∈
      ((FormalTable.solve relay (localFlows relay false)).table.summary ⟨0, 0⟩).kills := by
    decide +kernel
  exact (hleast hF ⟨0, 0⟩).2 hfound

end Program
end DefUse
