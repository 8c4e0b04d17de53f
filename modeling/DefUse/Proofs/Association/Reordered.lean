import DefUse.Proofs.Association.Composition
import DefUse.Proofs.Association.Order
import DefUse.Proofs.Program.Less
import DefUse.Proofs.Program.Rearranged

/-!
# The order of the procedures does not matter

The positions of the procedures decide in which order procedures, definitions and associations are
listed and formals are summarised.  They do not decide what is found.

**Method.** Everything that the run finds was described by walks and chains of calls.  Such a
description carries over from a program to its rearrangement, and back by symmetry.  The local uses
of an association lie in one procedure, so that even their order is kept.

**Results.** `analyzeProgram_reordered`: the same procedures in another order have the same
associations up to the positions, with the same local uses, inferrability, grade and kills.
-/

namespace DefUse

/-- The second association is the first one with the positions of the procedures changed. -/
structure Association.RenamedTo (σ : Int → Int) (a b : Association) : Prop where
  definition : b.definition = a.definition.rename σ
  use : b.use = a.use.rename σ
  heap : b.heap = a.heap
  localUses : b.localUses = a.localUses.map (Use.rename σ)
  inferrable : b.inferrable = a.inferrable
  hardKills : ∀ k, k ∈ b.hardKills ↔ k ∈ a.hardKills.map (Def.rename σ)
  possibleKills : ∀ k, k ∈ b.possibleKills ↔ k ∈ a.possibleKills.map (Def.rename σ)
  classification : b.classification = a.classification

/-- The renamed definitions are those that were listed before they were renamed. -/
theorem mem_map_rename_iff
    (σ : Int ≃ Int) {k : Def} {xs : List Def} :
    k ∈ xs.map (Def.rename σ) ↔ k.rename σ.symm ∈ xs := by
  rw [← List.mem_map_of_injective (Def.rename_injective σ) (l := xs), Def.symm_rename]

/-- Renaming back relates the same associations. -/
theorem Association.RenamedTo.symm
    {σ : Int ≃ Int} {a b : Association}
    (h : b.RenamedTo σ.symm a) :
    a.RenamedTo σ b := by
  refine ⟨by simp [h.definition], by simp [h.use], h.heap.symm, ?_, h.inferrable.symm, ?_, ?_,
    h.classification.symm⟩
  · simp [h.localUses, Function.comp_def]
  · intro k
    rw [mem_map_rename_iff, h.hardKills, mem_map_rename_iff, Equiv.symm_symm, Def.symm_rename]
  · intro k
    rw [mem_map_rename_iff, h.possibleKills, mem_map_rename_iff, Equiv.symm_symm,
      Def.symm_rename]

/-- Uses of one procedure keep their order. -/
theorem Use.less_rename
    (σ : Int → Int) {u w : Use}
    (h : u.site.proc = w.site.proc) :
    (u.rename σ).less (w.rename σ) = u.less w := by
  have hsite : u.site.rename σ = w.site.rename σ ↔ u.site = w.site := by
    rcases u with ⟨_, ⟨p, i⟩, _, _⟩
    rcases w with ⟨_, ⟨q, j⟩, _, _⟩
    obtain rfl : p = q := h
    simp [Point.rename]
  have hbelow : (u.site.rename σ).less (w.site.rename σ) = u.site.less w.site := by
    simp [Point.less, Point.rename, h]
  unfold Use.less
  simp only [Use.rename_site, ne_eq, hsite, hbelow]
  rfl

section Grades

variable {prog : Program} {oracle : Oracle} {settings : Settings} {items : List Association}
  {a : Association}

/-- A list without repetition whose members are all the same has one member at most. -/
theorem length_le_one_of_forall_eq
    {α : Type} {xs : List α} {x : α}
    (hnodup : xs.Nodup)
    (h : ∀ y ∈ xs, y = x) :
    xs.length ≤ 1 := by
  match xs, hnodup, h with
  | [], _, _ => exact Nat.zero_le 1
  | [_], _, _ => exact Nat.le_refl 1
  | y :: z :: _, hnodup, h =>
      have hyz : y = z := (h y (by simp)).trans (h z (by simp)).symm
      simp [hyz] at hnodup

/-- A mark stays where no other definition reaches the branches of the use. -/
theorem cleared_eq_self
    (h : a.heap = false → a.use.isPredicate = true →
      ∀ b ∈ items, b.heap = false → b.use = a.use → b.definition = a.definition) :
    cleared items a = a := by
  unfold cleared
  simp only
  split
  · rename_i hmany
    simp only [Bool.and_eq_true, Bool.not_eq_true', decide_eq_true_eq] at hmany
    obtain ⟨⟨hheap, hpred⟩, hlong⟩ := hmany
    refine absurd (length_le_one_of_forall_eq (x := a.definition) (distinct_nodup _) ?_)
      (not_le.mpr hlong)
    intro d hd
    rw [mem_distinct, List.mem_map] at hd
    obtain ⟨b, hb, rfl⟩ := hd
    simp only [List.mem_filter, Bool.and_eq_true, Bool.not_eq_true', decide_eq_true_eq] at hb
    exact h hheap hpred b hb.1 hb.2.1.1 hb.2.2
  · rfl

/-- An association is inferrable if its definition is ordered before a local use, no other
procedure brings a second definition, and a branch has no other definition at all. -/
theorem inferrable_iff
    (hprog : prog.Finalized)
    (ha : a ∈ clearPredicates (prog.listed oracle settings))
    (hheap : a.heap = false) :
    a.inferrable = true ↔
      (∃ w ∈ a.localUses,
        (prog.analysis oracle settings).ordered a.definition.site w.site = true) ∧
      (prog.analysis oracle settings).remoteDefs a.use ≤ 1 ∧
      (a.use.isPredicate = true → ∀ k, prog.IsLocalDef settings.formalsAsDefs k →
        prog.Chain settings.formalsAsDefs k.site k.var a.use → k = a.definition) := by
  have hfacts := localFacts_of_mem hprog ha hheap
  have hbuilt : ((prog.analysis oracle settings).association
      (prog.reachedFrom settings.formalsAsDefs a.definition) a.use).inferrable = true ↔
        (∃ w ∈ a.localUses,
          (prog.analysis oracle settings).ordered a.definition.site w.site = true) ∧
        (prog.analysis oracle settings).remoteDefs a.use ≤ 1 := by
    simp [Analysis.association, hfacts.localUses]
  rw [← and_assoc, ← hbuilt]
  constructor
  · intro h
    exact ⟨hfacts.inferrable h, hfacts.single h⟩
  · rintro ⟨hinferrable, hsingle⟩
    rw [clearPredicates_eq] at ha
    obtain ⟨b, hb, rfl⟩ := List.mem_map.mp ha
    have hsame : cleared (prog.listed oracle settings) b = b := by
      refine cleared_eq_self ?_
      intro _ hpred c hc hheap' huse
      rw [cleared_eq] at hsingle
      have hfacts' : (cleared (prog.listed oracle settings) c).LocalFacts prog oracle settings := by
        refine localFacts_of_mem hprog (List.mem_map_of_mem hc) ?_
        rw [cleared_eq]
        exact hheap'
      rw [cleared_eq] at hfacts'
      refine hsingle hpred c.definition hfacts'.isLocalDef ?_
      rw [← huse]
      exact hfacts'.chain
    rw [hsame] at hheap hinferrable ⊢
    obtain ⟨d, -, u, -, rfl⟩ := Analysis.mem_associations_iff.mp ((mem_listed_iff hheap).mp hb)
    exact hinferrable

/-- The possible kills are the kills that are not hard. -/
theorem Association.LocalFacts.mem_possibleKills_iff
    {k : Def}
    (h : a.LocalFacts prog oracle settings) :
    k ∈ a.possibleKills ↔ k ∈ a.hardKills ++ a.possibleKills ∧ k ∉ a.hardKills := by
  obtain ⟨-, -, hdisjoint⟩ := h.kills_divided
  rw [List.mem_append]
  constructor
  · intro hk
    exact ⟨Or.inr hk, fun hhard => hdisjoint hhard hk⟩
  · rintro ⟨hhard | hk, hnot⟩
    · exact absurd hhard hnot
    · exact hk

end Grades

namespace Program

namespace Rearranged

variable {prog prog' : Program} {σ : Int ≃ Int} {formalsAsDefs : Bool} {site : Point}
  {v : Variable} {d k : Def} {u w : Use} {x : Formal}

section Found

/-- The entry of a renamed procedure is the renamed entry. -/
theorem entry_rename
    (h : Rearranged prog prog' σ)
    (hpassed : prog.IsPassedTo formalsAsDefs w x) :
    (⟨(x.rename σ).proc, entryId⟩ : Point) = Point.rename σ ⟨x.proc, entryId⟩ := by
  obtain ⟨c, i, -, hpass⟩ := hpassed
  rw [Formal.rename, (h.lookup_eq hpass.callee).2]
  rfl

/-- A formal keeps its variable. -/
theorem param_rename
    (h : Rearranged prog prog' σ)
    {param : Variable}
    (hpassed : prog.IsPassedTo formalsAsDefs w x)
    (hparam : (prog.proc x.proc).params[x.index]? = some param) :
    (prog'.proc (x.rename σ).proc).params[(x.rename σ).index]? = some param := by
  obtain ⟨c, i, -, hpass⟩ := hpassed
  rw [h.params_rename hpass.callee]
  exact hparam

/-- A chain through formals is renamed link by link. -/
theorem chain
    (h : Rearranged prog prog' σ)
    (hchain : prog.Chain formalsAsDefs site v u) :
    prog'.Chain formalsAsDefs (site.rename σ) v (u.rename σ) := by
  induction hchain with
  | last hreached hend => exact .last (h.locallyReached hreached) (h.isEndpoint hend)
  | pass hreached hpassed hparam hlocal _ ih =>
      refine .pass (h.locallyReached hreached) (h.isPassedTo hpassed)
        (h.param_rename hpassed hparam) hlocal ?_
      rw [h.entry_rename hpassed]
      exact ih

/-- A chain leads to a renamed use exactly if one leads to the use. -/
theorem chain_iff
    (h : Rearranged prog prog' σ) :
    prog'.Chain formalsAsDefs (site.rename σ) v (u.rename σ) ↔
      prog.Chain formalsAsDefs site v u := by
  constructor
  · intro hchain
    simpa using h.symm.chain hchain
  · exact h.chain

/-- What is behind a formal is renamed with it. -/
theorem behind
    (h : Rearranged prog prog' σ)
    (hpassed : prog.IsPassedTo formalsAsDefs w x)
    (hbehind : FormalTable.Behind prog (localFlows prog formalsAsDefs) x (.inl u)) :
    FormalTable.Behind prog' (localFlows prog' formalsAsDefs) (x.rename σ)
      (.inl (u.rename σ)) := by
  obtain ⟨param, hparam, hzero, hlocal, hchain⟩ := (behind_use_iff h.finalized).mp hbehind
  refine (behind_use_iff h.finalized').mpr
    ⟨param, h.param_rename hpassed hparam, hzero, hlocal, ?_⟩
  rw [h.entry_rename hpassed]
  exact h.chain hchain

/-- A definition that overwrites behind a formal does so behind the renamed one. -/
theorem overwrites
    (h : Rearranged prog prog' σ)
    (hpassed : prog.IsPassedTo formalsAsDefs w x)
    (hover : prog.Overwrites formalsAsDefs x k) :
    prog'.Overwrites formalsAsDefs (x.rename σ) (k.rename σ) := by
  induction hover generalizing w with
  | @here x k hparam hdef hproc hleads =>
      have hentry : ((x.rename σ).proc : Int) = σ x.proc :=
        congrArg Point.proc (h.entry_rename hpassed)
      refine .here (h.param_rename hpassed hparam) (h.isLocalDef_iff.mpr hdef) ?_ ?_
      · rw [Def.rename_site, Point.rename_proc, hproc]
        exact hentry.symm
      · rw [hentry, h.proc]
        exact hleads
  | further hparam hreached hpassed' _ ih =>
      refine .further (h.param_rename hpassed hparam) ?_ (h.isPassedTo hpassed') (ih hpassed')
      rw [h.entry_rename hpassed]
      exact h.locallyReached hreached

/-- A definition that writes a value again is renamed with it. -/
theorem writesAgain
    (h : Rearranged prog prog' σ)
    (hagain : prog.WritesAgain formalsAsDefs d k) :
    prog'.WritesAgain formalsAsDefs (d.rename σ) (k.rename σ) := by
  rcases hagain with ⟨hproc, hvar, hleads⟩ | ⟨w, x, hreached, hpassed, hover⟩
  · refine Or.inl ⟨congrArg σ hproc, hvar, ?_⟩
    rw [Def.rename_site, Point.rename_proc, h.proc]
    exact hleads
  · exact Or.inr ⟨_, _, h.locallyReached hreached, h.isPassedTo hpassed, h.overwrites hpassed hover⟩

theorem mem_killers
    (h : Rearranged prog prog' σ)
    (hd : prog.IsLocalDef formalsAsDefs d)
    (hk : k ∈ (prog.reachedFrom formalsAsDefs d).killers) :
    k.rename σ ∈ (prog'.reachedFrom formalsAsDefs (d.rename σ)).killers := by
  obtain ⟨hlocal, hne, hagain⟩ := (mem_killers_iff_writesAgain h.finalized hd).mp hk
  refine (mem_killers_iff_writesAgain h.finalized' (h.isLocalDef_iff.mpr hd)).mpr
    ⟨h.isLocalDef_iff.mpr hlocal, ?_, h.writesAgain hagain⟩
  exact fun heq => hne (Def.rename_injective σ heq)

/-- The killers of a definition are renamed with it. -/
theorem mem_killers_iff
    (h : Rearranged prog prog' σ)
    (hd : prog.IsLocalDef formalsAsDefs d) :
    k.rename σ ∈ (prog'.reachedFrom formalsAsDefs (d.rename σ)).killers ↔
      k ∈ (prog.reachedFrom formalsAsDefs d).killers := by
  constructor
  · intro hk
    simpa using h.symm.mem_killers (h.isLocalDef_iff.mpr hd) hk
  · exact h.mem_killers hd

theorem mem_witnesses
    (h : Rearranged prog prog' σ)
    (hd : prog.IsLocalDef formalsAsDefs d)
    (hw : w ∈ (prog.reachedFrom formalsAsDefs d).witnesses u) :
    w.rename σ ∈ (prog'.reachedFrom formalsAsDefs (d.rename σ)).witnesses (u.rename σ) := by
  obtain ⟨hreached, hends⟩ := (mem_witnesses_iff h.finalized hd).mp hw
  refine (mem_witnesses_iff h.finalized' (h.isLocalDef_iff.mpr hd)).mpr
    ⟨h.locallyReached hreached, ?_⟩
  rcases hends with ⟨rfl, hend⟩ | ⟨x, hpassed, hbehind⟩
  · exact Or.inl ⟨rfl, h.isEndpoint hend⟩
  · exact Or.inr ⟨_, h.isPassedTo hpassed, h.behind hpassed hbehind⟩

/-- The local uses through which a use is reached are renamed with it. -/
theorem mem_witnesses_iff
    (h : Rearranged prog prog' σ)
    (hd : prog.IsLocalDef formalsAsDefs d) :
    w.rename σ ∈ (prog'.reachedFrom formalsAsDefs (d.rename σ)).witnesses (u.rename σ) ↔
      w ∈ (prog.reachedFrom formalsAsDefs d).witnesses u := by
  constructor
  · intro hw
    simpa using h.symm.mem_witnesses (h.isLocalDef_iff.mpr hd) hw
  · exact h.mem_witnesses hd

/-- The local uses of one procedure keep their order. -/
theorem witnesses_eq
    (h : Rearranged prog prog' σ)
    (hd : prog.IsLocalDef formalsAsDefs d) :
    (prog'.reachedFrom formalsAsDefs (d.rename σ)).witnesses (u.rename σ) =
      ((prog.reachedFrom formalsAsDefs d).witnesses u).map (Use.rename σ) := by
  refine sortDistinct_eq Use.less_iff Use.key_injective ?_ ?_
  · rw [List.pairwise_map]
    refine (sortDistinct_pairwise Use.less_iff Use.key_injective _).imp_of_mem ?_
    intro w w' hw hw' hless
    have hproc := ((Program.mem_witnesses_iff h.finalized hd).mp hw).1.proc
    have hproc' := ((Program.mem_witnesses_iff h.finalized hd).mp hw').1.proc
    rw [Use.less_rename σ (hproc.trans hproc'.symm)]
    exact hless
  · intro w
    obtain ⟨w, rfl⟩ : ∃ w₀, Use.rename σ w₀ = w := ⟨_, Use.symm_rename σ w⟩
    rw [List.mem_map_of_injective (Use.rename_injective σ), ← h.mem_witnesses_iff hd,
      Reached.witnesses, mem_sortDistinct]

end Found

section Ordered

variable {settings : Settings} {a b : Point}

/-- The order of execution does not depend on the positions of procedures. -/
theorem executesBefore_eq
    (h : Rearranged prog prog' σ) :
    (Analysis.ofGraphs prog' settings).executesBefore (a.rename σ) (b.rename σ) =
      (Analysis.ofGraphs prog settings).executesBefore a b := by
  have hdom := @dominates_eq _ _ _ a b h
  have hpost := @postdominates_eq _ _ _ b a h
  exact congrArg (settings.useDominance && ·) (congrArg₂ (· || ·) hdom hpost)

/-- What may be executed later does not depend on the positions of procedures. -/
theorem mayReach_eq
    (h : Rearranged prog prog' σ)
    (ha : a.proc ∈ prog.procIds)
    (hn : a.node ∈ (prog.proc a.proc).ids) :
    (Analysis.ofGraphs prog' settings).mayReach (a.rename σ) (b.rename σ) =
      (Analysis.ofGraphs prog settings).mayReach a b := by
  have hreaches := @reaches_eq _ _ _ a b h ha hn
  exact congrArg (fun r => if settings.useReachability = true then r else true) hreaches

/-- Whether points are in order does not depend on the positions of procedures. -/
theorem ordered_eq
    (h : Rearranged prog prog' σ)
    (hb : b.proc ∈ prog.procIds)
    (hn : b.node ∈ (prog.proc b.proc).ids) :
    (Analysis.ofGraphs prog' settings).ordered (a.rename σ) (b.rename σ) =
      (Analysis.ofGraphs prog settings).ordered a b := by
  unfold Analysis.ordered
  rw [h.executesBefore_eq, h.mayReach_eq hb hn]
  change (if ((prog'.node (a.rename σ)).handler || (prog'.node (b.rename σ)).handler) = true
    then false else _) = _
  rw [h.node_rename, h.node_rename]
  rfl

end Ordered

section Inferred

variable {settings : Settings}

/-- The definitions of other procedures that reach a use are counted one by one. -/
theorem remoteDefs_eq_countP :
    (Analysis.ofGraphs prog settings).remoteDefs u =
      (prog.allLocalDefs settings.formalsAsDefs).countP fun d =>
        d.site.proc ≠ u.site.proc &&
          ((prog.reachedFrom settings.formalsAsDefs d).pairs.map Prod.fst).contains u := by
  unfold Analysis.remoteDefs Analysis.ofGraphs
  rw [reached_eq, List.countP_map]
  rfl

/-- A definition reaches the renamed use exactly if it reached the use. -/
theorem contains_fst_eq
    (h : Rearranged prog prog' σ)
    (hd : prog.IsLocalDef formalsAsDefs d) :
    ((prog'.reachedFrom formalsAsDefs (d.rename σ)).pairs.map Prod.fst).contains (u.rename σ) =
      ((prog.reachedFrom formalsAsDefs d).pairs.map Prod.fst).contains u := by
  have huses := mem_uses_iff_chain (u := u) h.finalized hd
  have huses' := mem_uses_iff_chain (u := u.rename σ) h.finalized' (h.isLocalDef_iff.mpr hd)
  rw [Reached.uses, mem_sortDistinct] at huses huses'
  rw [Bool.eq_iff_iff, List.contains_iff_mem, List.contains_iff_mem, huses, huses',
    Def.rename_site, Def.rename_var, h.chain_iff]

/-- The definitions of all procedures are the renamed ones, in another order. -/
theorem allLocalDefs_perm
    (h : Rearranged prog prog' σ) :
    (prog'.allLocalDefs formalsAsDefs).Perm
      ((prog.allLocalDefs formalsAsDefs).map (Def.rename σ)) := by
  rw [List.perm_ext_iff_of_nodup allLocalDefs_nodup
    (allLocalDefs_nodup.map (Def.rename_injective σ))]
  intro d
  obtain ⟨d, rfl⟩ : ∃ d₀, Def.rename σ d₀ = d := ⟨_, Def.symm_rename σ d⟩
  rw [List.mem_map_of_injective (Def.rename_injective σ), mem_allLocalDefs_iff,
    mem_allLocalDefs_iff, h.isLocalDef_iff]

/-- As many definitions of other procedures reach a use as before. -/
theorem remoteDefs_eq
    (h : Rearranged prog prog' σ) :
    (Analysis.ofGraphs prog' settings).remoteDefs (u.rename σ) =
      (Analysis.ofGraphs prog settings).remoteDefs u := by
  rw [remoteDefs_eq_countP, remoteDefs_eq_countP, h.allLocalDefs_perm.countP_eq, List.countP_map]
  refine List.countP_congr ?_
  intro d hd
  have hproc : (d.rename σ).site.proc = (u.rename σ).site.proc ↔ d.site.proc = u.site.proc :=
    σ.injective.eq_iff
  simp only [Function.comp_apply, h.contains_fst_eq (mem_allLocalDefs_iff.mp hd), ne_eq, hproc]

end Inferred

section Renamed

variable {settings : Settings} {a b : Association}

/-- The local uses of an association are renamed with it, and keep their order. -/
theorem localUses_eq
    (h : Rearranged prog prog' σ)
    (ha : a.LocalFacts prog (GraphOrder.ofProgram prog).oracle settings)
    (hb : b.LocalFacts prog' (GraphOrder.ofProgram prog').oracle settings)
    (hdef : b.definition = a.definition.rename σ)
    (huse : b.use = a.use.rename σ) :
    b.localUses = a.localUses.map (Use.rename σ) := by
  rw [hb.localUses, ha.localUses, hdef, huse, h.witnesses_eq ha.isLocalDef]

/-- The local uses of an association are at nodes of the program. -/
theorem localUse_mem
    (h : Rearranged prog prog' σ)
    (ha : a.LocalFacts prog (GraphOrder.ofProgram prog).oracle settings)
    (hw : w ∈ a.localUses) :
    w.site.proc ∈ prog.procIds ∧ w.site.node ∈ (prog.proc w.site.proc).ids := by
  rw [ha.localUses] at hw
  have hreached := ((Program.mem_witnesses_iff h.finalized ha.isLocalDef).mp hw).1
  refine ⟨?_, hreached.isUse.node_mem⟩
  rw [hreached.proc]
  exact ha.isLocalDef.proc_mem

/-- The only definition that reaches a use is renamed to the only one. -/
theorem single
    (h : Rearranged prog prog' σ)
    (hsingle : ∀ k, prog.IsLocalDef formalsAsDefs k →
      prog.Chain formalsAsDefs k.site k.var u → k = d) :
    ∀ k, prog'.IsLocalDef formalsAsDefs k →
      prog'.Chain formalsAsDefs k.site k.var (u.rename σ) → k = d.rename σ := by
  intro k hk hchain
  obtain ⟨k, rfl⟩ : ∃ k₀, Def.rename σ k₀ = k := ⟨_, Def.symm_rename σ k⟩
  rw [hsingle k (h.isLocalDef_iff.mp hk) (h.chain_iff.mp hchain)]

/-- A mark that an association has is kept where it is renamed. -/
theorem inferrable
    (h : Rearranged prog prog' σ)
    (ha : a ∈ clearPredicates (prog.listed (GraphOrder.ofProgram prog).oracle settings))
    (hb : b ∈ clearPredicates (prog'.listed (GraphOrder.ofProgram prog').oracle settings))
    (hheap : a.heap = false)
    (hheap' : b.heap = false)
    (hdef : b.definition = a.definition.rename σ)
    (huse : b.use = a.use.rename σ)
    (hinferrable : a.inferrable = true) :
    b.inferrable = true := by
  have hfacts := localFacts_of_mem h.finalized ha hheap
  have hlocal := h.localUses_eq hfacts (localFacts_of_mem h.finalized' hb hheap') hdef huse
  obtain ⟨⟨w, hw, hordered⟩, hremote, hsingle⟩ :=
    (inferrable_iff h.finalized ha hheap).mp hinferrable
  refine (inferrable_iff h.finalized' hb hheap').mpr ⟨⟨w.rename σ, ?_, ?_⟩, ?_, ?_⟩
  · rw [hlocal]
    exact List.mem_map_of_mem hw
  · obtain ⟨hproc, hnode⟩ := h.localUse_mem hfacts hw
    rw [hdef]
    exact (h.ordered_eq hproc hnode).trans hordered
  · rw [huse]
    exact h.remoteDefs_eq.trans_le hremote
  · rw [hdef, huse]
    intro hpred
    exact h.single (hsingle hpred)

/-- Hard kills are renamed with their association. -/
theorem mem_hardKills
    (h : Rearranged prog prog' σ)
    (ha : a.LocalFacts prog (GraphOrder.ofProgram prog).oracle settings)
    (hb : b.LocalFacts prog' (GraphOrder.ofProgram prog').oracle settings)
    (hdef : b.definition = a.definition.rename σ)
    (huse : b.use = a.use.rename σ) :
    k.rename σ ∈ b.hardKills ↔ k ∈ a.hardKills := by
  rw [ha.mem_hardKills_iff h.finalized, hb.mem_hardKills_iff h.finalized', hdef, huse,
    h.localUses_eq ha hb hdef huse, h.mem_killers_iff ha.isLocalDef]
  simp only [Def.rename_site, Def.rename_var, h.chain_iff, h.node_rename, List.mem_map,
    forall_exists_index, and_imp, forall_apply_eq_imp_iff₂, Use.rename_site]
  refine and_congr_right fun _ => and_congr_right fun _ => and_congr ?_ ?_
  · exact Eq.congr_left h.executesBefore_eq
  · refine forall₂_congr fun w hw => and_congr ?_ ?_
    · exact Eq.congr_left h.executesBefore_eq
    · obtain ⟨hproc, hnode⟩ := h.localUse_mem ha hw
      exact Eq.congr_left (h.mayReach_eq hproc hnode)

/-- Possible kills are renamed with their association. -/
theorem mem_possibleKills
    (h : Rearranged prog prog' σ)
    (ha : a.LocalFacts prog (GraphOrder.ofProgram prog).oracle settings)
    (hb : b.LocalFacts prog' (GraphOrder.ofProgram prog').oracle settings)
    (hdef : b.definition = a.definition.rename σ)
    (huse : b.use = a.use.rename σ) :
    k.rename σ ∈ b.possibleKills ↔ k ∈ a.possibleKills := by
  rw [ha.mem_possibleKills_iff, hb.mem_possibleKills_iff, h.mem_hardKills ha hb hdef huse,
    ha.mem_kills_iff h.finalized, hb.mem_kills_iff h.finalized', hdef, huse,
    h.mem_killers_iff ha.isLocalDef, Def.rename_site, Def.rename_var, h.chain_iff]

/-- Associations of local variables with the same ends agree in everything else. -/
theorem renamedTo
    (h : Rearranged prog prog' σ)
    (ha : a ∈ clearPredicates (prog.listed (GraphOrder.ofProgram prog).oracle settings))
    (hb : b ∈ clearPredicates (prog'.listed (GraphOrder.ofProgram prog').oracle settings))
    (hheap : a.heap = false)
    (hheap' : b.heap = false)
    (hdef : b.definition = a.definition.rename σ)
    (huse : b.use = a.use.rename σ) :
    a.RenamedTo σ b := by
  have hfa := localFacts_of_mem h.finalized ha hheap
  have hfb := localFacts_of_mem h.finalized' hb hheap'
  have hinferrable : b.inferrable = a.inferrable := by
    rw [Bool.eq_iff_iff]
    constructor
    · exact h.symm.inferrable hb ha hheap' hheap (by simp [hdef]) (by simp [huse])
    · exact h.inferrable ha hb hheap hheap' hdef huse
  have hhard : ∀ k, k ∈ b.hardKills ↔ k ∈ a.hardKills.map (Def.rename σ) := by
    intro k
    rw [mem_map_rename_iff, ← h.mem_hardKills hfa hfb hdef huse, Def.symm_rename]
  have hpossible : ∀ k, k ∈ b.possibleKills ↔ k ∈ a.possibleKills.map (Def.rename σ) := by
    intro k
    rw [mem_map_rename_iff, ← h.mem_possibleKills hfa hfb hdef huse, Def.symm_rename]
  have hempty : b.possibleKills.isEmpty = a.possibleKills.isEmpty := by
    rw [Bool.eq_iff_iff, List.isEmpty_iff, List.isEmpty_iff, List.eq_nil_iff_forall_not_mem,
      ← List.map_eq_nil_iff (f := Def.rename σ), List.eq_nil_iff_forall_not_mem]
    exact forall_congr' fun k => not_congr (hpossible k)
  refine ⟨hdef, huse, hheap'.trans hheap.symm, h.localUses_eq hfa hfb hdef huse, hinferrable,
    hhard, hpossible, ?_⟩
  rw [Association.classification, Association.classification, hinferrable, hempty]

/-- Every association of local variables has its counterpart. -/
theorem exists_renamedTo
    (h : Rearranged prog prog' σ)
    (ha : a ∈ clearPredicates (prog.listed (GraphOrder.ofProgram prog).oracle settings))
    (hheap : a.heap = false) :
    ∃ b ∈ clearPredicates (prog'.listed (GraphOrder.ofProgram prog').oracle settings),
      a.RenamedTo σ b := by
  have hfacts := localFacts_of_mem h.finalized ha hheap
  obtain ⟨b, hb, hheap', hdef, huse⟩ :=
    @exists_mem_of_chain prog' (GraphOrder.ofProgram prog').oracle settings h.finalized' _ _
      (h.isLocalDef_iff.mpr hfacts.isLocalDef) (h.chain hfacts.chain)
  exact ⟨b, hb, h.renamedTo ha hb hheap hheap' hdef huse⟩

end Renamed

section Heap

variable {settings : Settings} {a : Association}

theorem mem_points
    (h : Rearranged prog prog' σ)
    (hsite : site ∈ prog.points) :
    site.rename σ ∈ prog'.points := by
  unfold points at hsite ⊢
  simp only [List.mem_flatMap, List.mem_map] at hsite ⊢
  obtain ⟨p, hp, i, hi, rfl⟩ := hsite
  refine ⟨σ p, (h.mem p).mpr hp, i, ?_, rfl⟩
  rw [h.proc]
  exact hi

theorem defsAt_rename
    (h : Rearranged prog prog' σ) :
    prog'.defsAt formalsAsDefs (site.rename σ) =
      (prog.defsAt formalsAsDefs site).map (Def.rename σ) := by
  have hdefs : (prog.proc site.proc).defsOf (site.rename σ) =
      ((prog.proc site.proc).defsOf site).map (Def.rename σ) := by
    unfold Procedure.defsOf
    rw [List.map_map]
    rfl
  unfold defsAt
  simp only [Point.rename_proc, h.proc, hdefs, List.map_append, Point.rename_node,
    apply_ite (List.map (Def.rename σ)), List.map_map]
  rfl

theorem mem_heapDefs
    (h : Rearranged prog prog' σ)
    (hd : d ∈ prog.heapDefs settings) :
    d.rename σ ∈ prog'.heapDefs settings := by
  unfold heapDefs at hd ⊢
  simp only [mem_sortDistinct, List.mem_filter, List.mem_flatMap] at hd ⊢
  obtain ⟨⟨site, hsite, hd⟩, htracks⟩ := hd
  refine ⟨⟨site.rename σ, h.mem_points hsite, ?_⟩, htracks⟩
  rw [h.defsAt_rename]
  exact List.mem_map_of_mem hd

theorem mem_heapUses
    (h : Rearranged prog prog' σ)
    (hu : u ∈ prog.heapUses settings) :
    u.rename σ ∈ prog'.heapUses settings := by
  unfold heapUses at hu ⊢
  simp only [mem_sortDistinct, List.mem_filter, List.mem_flatMap] at hu ⊢
  obtain ⟨⟨site, hsite, hu⟩, htracks⟩ := hu
  refine ⟨⟨site.rename σ, h.mem_points hsite, ?_⟩, htracks⟩
  rw [Point.rename_proc, h.proc, Procedure.usesOf_rename]
  exact List.mem_map_of_mem hu

/-- Which variables may be one on the heap does not depend on the positions of procedures. -/
theorem heapMayAlias_eq
    (h : Rearranged prog prog' σ)
    (v w : Variable) :
    prog'.heapMayAlias v w = prog.heapMayAlias v w := by
  unfold heapMayAlias possibleTypes
  rw [h.subtypes]

/-- Every association on the heap is renamed to one on the heap. -/
theorem exists_renamedTo_heap
    (h : Rearranged prog prog' σ)
    (ha : a ∈ prog.heapAssociations settings) :
    ∃ b ∈ prog'.heapAssociations settings, a.RenamedTo σ b := by
  unfold heapAssociations at ha ⊢
  simp only [List.mem_flatMap, List.mem_map, List.mem_filter] at ha ⊢
  obtain ⟨d, hd, u, ⟨hu, halias⟩, rfl⟩ := ha
  refine ⟨_, ⟨d.rename σ, h.mem_heapDefs hd, u.rename σ, ⟨h.mem_heapUses hu, ?_⟩, rfl⟩, ?_⟩
  · rw [h.heapMayAlias_eq]
    exact halias
  · exact ⟨rfl, rfl, rfl, rfl, rfl, fun k => by simp, fun k => by simp, rfl⟩

end Heap

end Rearranged

end Program

section Reordered

variable {prog prog' : Program} {oracle : Oracle} {settings : Settings} {σ : Int ≃ Int}
  {a : Association}

/-- Marks do not matter for associations on the heap. -/
theorem mem_clearPredicates_heap_iff
    (hheap : a.heap = true) :
    a ∈ clearPredicates (prog.listed oracle settings) ↔
      settings.localOnly = false ∧ a ∈ prog.heapAssociations settings := by
  have hself : ∀ b : Association, b.heap = true →
      cleared (prog.listed oracle settings) b = b := by
    intro b hb
    refine cleared_eq_self ?_
    intro hlocal
    exact absurd (hlocal.symm.trans hb) Bool.false_ne_true
  have hlocal : a ∉ (prog.analysis oracle settings).associations := by
    intro hmem
    obtain ⟨d, -, u, -, rfl⟩ := Analysis.mem_associations_iff.mp hmem
    exact Bool.false_ne_true hheap
  have hlisted : a ∈ prog.listed oracle settings ↔
      settings.localOnly = false ∧ a ∈ prog.heapAssociations settings := by
    unfold Program.listed
    rw [mem_sortBy, List.mem_append, or_iff_right hlocal]
    cases settings.localOnly <;> simp
  rw [← hlisted, clearPredicates_eq, List.mem_map]
  constructor
  · rintro ⟨b, hb, rfl⟩
    have hb' : b.heap = true := by
      rw [cleared_eq] at hheap
      exact hheap
    rw [hself b hb']
    exact hb
  · intro ha
    exact ⟨a, ha, hself a hheap⟩

/-- Every association of a program is renamed to one of the rearranged program. -/
theorem Program.Rearranged.exists_listed
    (h : prog.Rearranged prog' σ)
    (ha : a ∈ clearPredicates (prog.listed (GraphOrder.ofProgram prog).oracle settings)) :
    ∃ b ∈ clearPredicates (prog'.listed (GraphOrder.ofProgram prog').oracle settings),
      a.RenamedTo σ b := by
  cases hheap : a.heap with
  | false => exact h.exists_renamedTo ha hheap
  | true =>
      obtain ⟨honly, hmem⟩ := (mem_clearPredicates_heap_iff hheap).mp ha
      obtain ⟨b, hb, hrenamed⟩ := h.exists_renamedTo_heap hmem
      refine ⟨b, ?_, hrenamed⟩
      exact (mem_clearPredicates_heap_iff (hrenamed.heap.trans hheap)).mpr ⟨honly, hb⟩

/-- The same procedures in another order have the same associations up to their positions. -/
theorem analyzeProgram_reordered
    (prog : Program) (settings : Settings) (procs : Array Procedure)
    (hbuilt : prog.Built)
    (hprog : prog.Finalized)
    (hperm : procs.toList.Perm prog.procs.toList) :
    (prog.reordered procs).Finalized ∧
    ∃ σ : Int ≃ Int,
      (∀ p ∈ prog.procIds, σ p ∈ (prog.reordered procs).procIds ∧
        (prog.reordered procs).proc (σ p) = prog.proc p) ∧
      ∃ set events set' events',
        analyzeProgram prog (GraphOrder.ofProgram prog).oracle settings = .ok (set, events) ∧
        analyzeProgram (prog.reordered procs)
          (GraphOrder.ofProgram (prog.reordered procs)).oracle settings = .ok (set', events') ∧
        (∀ a ∈ set.items, ∃ b ∈ set'.items, a.RenamedTo σ b) ∧
        (∀ b ∈ set'.items, ∃ a ∈ set.items, a.RenamedTo σ b) := by
  have hprog' : (prog.reordered procs).Finalized := hprog.reordered hperm
  obtain ⟨σ, h⟩ := Program.exists_rearranged hbuilt.names_nodup hprog hprog' hperm rfl
  refine ⟨hprog', σ, fun p hp => ⟨(h.mem p).mpr hp, h.proc p⟩, ?_⟩
  obtain ⟨events, hrun⟩ :=
    @analyzeProgram_eq prog (GraphOrder.ofProgram prog).oracle settings hprog
  obtain ⟨events', hrun'⟩ :=
    @analyzeProgram_eq (prog.reordered procs)
      (GraphOrder.ofProgram (prog.reordered procs)).oracle settings hprog'
  refine ⟨_, events, _, events', hrun, hrun', fun a ha => h.exists_listed ha, ?_⟩
  intro b hb
  obtain ⟨a, ha, hrenamed⟩ := h.symm.exists_listed hb
  exact ⟨a, ha, hrenamed.symm⟩

/-- With the callee first, the association through its formal has the positions exchanged. -/
theorem analyzeProgram_reordered_writtenBehind :
    writtenBehind.Built ∧ writtenBehind.Finalized ∧
      ∃ σ : Int ≃ Int, σ 0 = 1 ∧ σ 1 = 0 ∧
        ∃ set' events',
          analyzeProgram (writtenBehind.reordered #[writtenBehind.proc 1, writtenBehind.proc 0])
            (GraphOrder.ofProgram (writtenBehind.reordered
              #[writtenBehind.proc 1, writtenBehind.proc 0])).oracle {} = .ok (set', events') ∧
          ∃ b ∈ set'.items, b.ends = (writtenBehindPair.definition.rename σ,
            writtenBehindPair.use.rename σ) := by
  have hbuilt : writtenBehind.Built := ⟨writtenBehindSteps, by decide +kernel⟩
  have hprog : writtenBehind.Finalized := by decide +kernel
  obtain ⟨-, σ, hσ, set, events, set', events', hrun, hrun', hforth, -⟩ :=
    analyzeProgram_reordered writtenBehind {} #[writtenBehind.proc 1, writtenBehind.proc 0]
      hbuilt hprog (by decide +kernel)
  have hswap : ∀ p ∈ writtenBehind.procIds, ∀ q ∈ (writtenBehind.reordered
      #[writtenBehind.proc 1, writtenBehind.proc 0]).procIds,
      (writtenBehind.reordered #[writtenBehind.proc 1, writtenBehind.proc 0]).proc q =
        writtenBehind.proc p → q = 1 - p := by decide +kernel
  have hzero := hσ 0 (by decide +kernel)
  have hone := hσ 1 (by decide +kernel)
  refine ⟨hbuilt, hprog, σ, hswap 0 (by decide +kernel) _ hzero.1 hzero.2,
    hswap 1 (by decide +kernel) _ hone.1 hone.2, set', events', hrun', ?_⟩
  have hlisted : ((analyzeProgram writtenBehind (GraphOrder.ofProgram writtenBehind).oracle {}).map
      fun r => decide (∃ a ∈ r.1.items, a.ends = writtenBehindPair.ends)) = .ok true := by
    decide +kernel
  rw [hrun] at hlisted
  obtain ⟨a, ha, hends⟩ := of_decide_eq_true (Except.ok.inj hlisted)
  obtain ⟨b, hb, hrenamed⟩ := hforth a ha
  obtain ⟨hdef, huse⟩ := Prod.mk.inj hends
  refine ⟨b, hb, ?_⟩
  rw [Association.ends, hrenamed.definition, hrenamed.use, hdef, huse]

end Reordered

end DefUse
