import DefUse.Proofs.Association.Reached

/-!
# The books of the analysis agree

**Method.** The checks of the construction are discharged one by one: every use that a definition
reaches has a local use it is reached through, a local use that leads out of the procedure is
passed on, every kill has an entry of its own, and no two associations have the same ends.

**Results.**
* `analyzeProgram_eq`: the analysis of a checked program gives a set of associations.
* `exists_listed_of_chain`: the ends of every chain from a definition are associated.
* `localFacts_of_mem`: every association of local variables in the result is what the construction
  makes of its ends.
-/

namespace DefUse

section Except

variable {α β ε : Type}

theorem mapM_eq_ok
    {f : α → Except ε β} {g : α → β} {xs : List α}
    (h : ∀ a ∈ xs, f a = .ok (g a)) :
    xs.mapM f = .ok (xs.map g) := by
  induction xs with
  | nil => rfl
  | cons a rest ih =>
      rw [List.mapM_cons, h a List.mem_cons_self, ih fun b hb => h b (List.mem_cons_of_mem a hb)]
      rfl

theorem forM_eq_ok
    {f : α → Except ε PUnit} {xs : List α}
    (h : ∀ a ∈ xs, f a = .ok ⟨⟩) :
    xs.forM f = .ok ⟨⟩ := by
  induction xs with
  | nil => rfl
  | cons a rest ih =>
      rw [List.forM_eq_forM, List.forM_cons, h a List.mem_cons_self]
      exact ih fun b hb => h b (List.mem_cons_of_mem a hb)

theorem foldlM_filter_eq_ok
    {f : List α → α → Except ε (List α)} {P : α → Bool} {xs : List α}
    (h : ∀ acc, ∀ a ∈ xs, f acc a = .ok (if P a then acc ++ [a] else acc))
    (acc : List α) :
    xs.foldlM f acc = .ok (acc ++ xs.filter P) := by
  induction xs generalizing acc with
  | nil => simp [pure, Except.pure]
  | cons a rest ih =>
      rw [List.foldlM_cons, h acc a List.mem_cons_self, List.filter_cons]
      have hrest := ih (fun acc b hb => h acc b (List.mem_cons_of_mem a hb))
      split
      · exact (hrest (acc ++ [a])).trans (by simp)
      · exact hrest acc

end Except

namespace Program

/-- All definitions of local variables of a program. -/
def allLocalDefs (prog : Program) (formalsAsDefs : Bool) : List Def :=
  prog.procIds.flatMap (prog.localDefs formalsAsDefs)

/-- What the construction of the associations of a program works with. -/
def analysis (prog : Program) (oracle : Oracle) (settings : Settings) : Analysis :=
  (prepare prog oracle settings).1

variable {prog : Program} {oracle : Oracle} {settings : Settings} {formalsAsDefs : Bool}
  {d k : Def} {u w : Use}

theorem mem_allLocalDefs_iff :
    d ∈ prog.allLocalDefs formalsAsDefs ↔ prog.IsLocalDef formalsAsDefs d := by
  simp only [allLocalDefs, List.mem_flatMap, mem_localDefs_iff]
  constructor
  · rintro ⟨p, -, hd, -⟩
    exact hd
  · intro hd
    exact ⟨d.site.proc, hd.proc_mem, hd, rfl⟩

theorem allLocalDefs_nodup :
    (prog.allLocalDefs formalsAsDefs).Nodup := by
  refine List.nodup_flatMap.mpr ⟨fun p _ => distinct_nodup _, ?_⟩
  refine (positions_nodup _).imp ?_
  intro p q hne d hp hq
  exact hne ((mem_localDefs_iff.mp hp).2.symm.trans (mem_localDefs_iff.mp hq).2)

@[simp] theorem reachedFrom_definition :
    (prog.reachedFrom formalsAsDefs d).definition = d :=
  rfl

theorem reached_eq :
    (prog.analysis oracle settings).reached =
      (prog.allLocalDefs settings.formalsAsDefs).map
        (prog.reachedFrom settings.formalsAsDefs) := by
  simp only [analysis, prepare, localFlows, allLocalDefs, List.flatMap_map, List.map_flatMap]
  rw [List.flatMap_def, List.flatMap_def]
  apply congrArg List.flatten
  apply List.map_congr_left
  intro p _
  apply List.map_congr_left
  intro d hd
  have hmem : d ∈ prog.localDefs settings.formalsAsDefs p := by
    simpa [LocalFlow.ofProcedure, LocalFlow.inOrder] using hd
  rw [reachedFrom, (mem_localDefs_iff.mp hmem).2]
  rfl

theorem mem_reached_iff
    {r : Reached} :
    r ∈ (prog.analysis oracle settings).reached ↔
      ∃ d, prog.IsLocalDef settings.formalsAsDefs d ∧
        prog.reachedFrom settings.formalsAsDefs d = r := by
  simp only [reached_eq, List.mem_map, mem_allLocalDefs_iff]

theorem reachedBy?_eq
    (hk : prog.IsLocalDef settings.formalsAsDefs k) :
    (prog.analysis oracle settings).reachedBy? k =
      some (prog.reachedFrom settings.formalsAsDefs k) := by
  unfold Analysis.reachedBy?
  cases hfind : (prog.analysis oracle settings).reached.find? (·.definition = k) with
  | none =>
      rw [List.find?_eq_none] at hfind
      exact absurd (hfind _ (mem_reached_iff.mpr ⟨k, hk, rfl⟩)) (by simp)
  | some r =>
      obtain ⟨d, -, rfl⟩ := mem_reached_iff.mp (List.mem_of_find?_eq_some hfind)
      have htest := List.find?_some hfind
      have hdef : d = k := of_decide_eq_true htest
      rw [hdef]

/-- Whatever may kill a definition is a definition of a local variable itself. -/
theorem isLocalDef_of_mem_killers
    (hprog : prog.Finalized)
    (hd : prog.IsLocalDef formalsAsDefs d)
    (hk : k ∈ (prog.reachedFrom formalsAsDefs d).killers) :
    prog.IsLocalDef formalsAsDefs k := by
  obtain ⟨-, ⟨hk, -⟩ | ⟨w, x, -, -, hk⟩⟩ := (mem_killers_iff hprog hd).mp hk
  · exact hk
  · exact isLocalDef_of_behind hprog hk

end Program

namespace Analysis

def reachesUse (s : Analysis) (k : Def) (u : Use) : Bool :=
  ((s.reachedBy? k).map fun hit => (hit.pairs.map Prod.fst).contains u).getD false

/-- The association of a definition and a use, without the checks. -/
def association (s : Analysis) (r : Reached) (u : Use) : Association :=
  let targets := distinct ((r.witnesses u).map Use.site)
  let kills := r.killers.filter (s.reachesUse · u)
  { definition := r.definition
    use := u
    localUses := r.witnesses u
    inferrable := targets.any (s.ordered r.definition.site) && s.remoteDefs u ≤ 1
    hardKills := kills.filter fun k => s.killInOrder r.definition k targets
    possibleKills := kills.filter fun k => !s.killInOrder r.definition k targets }

variable {prog : Program} {oracle : Oracle} {settings : Settings} {d k : Def} {u w : Use}

/-- A kill is in order if it is executed after the definition and before every target, none of which
leads back to the definition. -/
theorem killInOrder_iff
    {s : Analysis} {targets : List Point} :
    s.killInOrder d k targets = true ↔
      (s.prog.node k.site).handler = false ∧ s.executesBefore d.site k.site = true ∧
        ∀ t ∈ targets, s.executesBefore k.site t = true ∧ s.mayReach t d.site = false := by
  unfold killInOrder inHandler
  cases (s.prog.node k.site).handler with
  | true => simp
  | false =>
      cases s.executesBefore d.site k.site with
      | true => simp
      | false => simp

/-- A definition reaches a use exactly if a chain of walks leads there. -/
theorem reachesUse_iff
    (hprog : prog.Finalized)
    (hk : prog.IsLocalDef settings.formalsAsDefs k) :
    (prog.analysis oracle settings).reachesUse k u = true ↔
      prog.Chain settings.formalsAsDefs k.site k.var u := by
  rw [reachesUse, Program.reachedBy?_eq hk, ← Program.mem_uses_iff_chain hprog hk]
  simp [Reached.uses]

/-- The local uses that lead to a use pass the check of the analysis. -/
theorem checkWitness_eq_ok
    (hprog : prog.Finalized)
    (hd : prog.IsLocalDef settings.formalsAsDefs d)
    (hw : w ∈ (prog.reachedFrom settings.formalsAsDefs d).witnesses u) :
    (prog.analysis oracle settings).checkWitness d u w = .ok () := by
  obtain ⟨hreached, hcase⟩ := (Program.mem_witnesses_iff hprog hd).mp hw
  unfold checkWitness
  rw [if_neg (not_not.mpr hreached.proc)]
  split
  · rfl
  · rename_i hproc
    rcases hcase with ⟨rfl, -⟩ | ⟨x, hpassed, -⟩
    · exact absurd hreached.proc hproc
    · have hflow : item? (prog.analysis oracle settings).flows d.site.proc =
          some (.ofProcedure prog settings.formalsAsDefs d.site.proc) :=
        item?_map_positions _ hd.proc_mem
      have hlink : x ∈ (LocalFlow.ofProcedure prog settings.formalsAsDefs d.site.proc).links w :=
        Program.mem_links_ofProcedure_iff.mpr ⟨hreached.proc, hpassed⟩
      rw [hflow, Option.map_some, Option.getD_some, if_neg]
      rw [List.isEmpty_iff]
      exact List.ne_nil_of_mem hlink

/-- The links to a use pass the check of the analysis. -/
theorem checkLink_eq_ok
    (hprog : prog.Finalized)
    (hd : prog.IsLocalDef settings.formalsAsDefs d)
    (hu : u ∈ (prog.reachedFrom settings.formalsAsDefs d).uses) :
    (prog.analysis oracle settings).checkLink d u
      ((prog.reachedFrom settings.formalsAsDefs d).witnesses u) = .ok () := by
  unfold checkLink
  rw [if_neg]
  · exact forM_eq_ok fun w hw => checkWitness_eq_ok hprog hd hw
  · rw [List.isEmpty_iff]
    exact Reached.witnesses_ne_nil hu

/-- The kills of a use are the killers of the definition that reach the use themselves. -/
theorem killsOf_eq_ok
    (hprog : prog.Finalized)
    (hd : prog.IsLocalDef settings.formalsAsDefs d) :
    (prog.analysis oracle settings).killsOf (prog.reachedFrom settings.formalsAsDefs d) u =
      .ok ((prog.reachedFrom settings.formalsAsDefs d).killers.filter
        ((prog.analysis oracle settings).reachesUse · u)) := by
  refine foldlM_filter_eq_ok ?_ []
  intro acc k hk
  have hlocal := Program.isLocalDef_of_mem_killers hprog hd hk
  rw [Program.reachedBy?_eq hlocal, reachesUse, Program.reachedBy?_eq hlocal]
  rfl

/-- No check stands in the way of an association. -/
theorem localAssociation_eq_ok
    (hprog : prog.Finalized)
    (hd : prog.IsLocalDef settings.formalsAsDefs d)
    (hu : u ∈ (prog.reachedFrom settings.formalsAsDefs d).uses) :
    (prog.analysis oracle settings).localAssociation
        (prog.reachedFrom settings.formalsAsDefs d) u =
      .ok ((prog.analysis oracle settings).association
        (prog.reachedFrom settings.formalsAsDefs d) u) := by
  unfold localAssociation
  simp only [Program.reachedFrom_definition, checkLink_eq_ok hprog hd hu,
    killsOf_eq_ok hprog hd]
  rfl

/-- The associations of local variables, without the checks. -/
def associations (s : Analysis) : List Association :=
  (sortBy (fun a b => a.definition.less b.definition) s.reached).flatMap fun r =>
    r.uses.map (s.association r)

/-- No check stands in the way of the associations of a program. -/
theorem localAssociations_eq_ok
    (hprog : prog.Finalized) :
    (prog.analysis oracle settings).localAssociations =
      .ok (prog.analysis oracle settings).associations := by
  unfold localAssociations
  simp only
  rw [mapM_eq_ok (g := fun r => r.uses.map ((prog.analysis oracle settings).association r))]
  · rfl
  · intro r hr
    obtain ⟨d, hd, rfl⟩ := Program.mem_reached_iff.mp ((mem_sortBy _).mp hr)
    exact mapM_eq_ok fun u hu => localAssociation_eq_ok hprog hd hu

/-- There is an association for every definition with every use that it reaches. -/
theorem mem_associations_iff
    {a : Association} :
    a ∈ (prog.analysis oracle settings).associations ↔
      ∃ d, prog.IsLocalDef settings.formalsAsDefs d ∧
        ∃ u ∈ (prog.reachedFrom settings.formalsAsDefs d).uses,
          (prog.analysis oracle settings).association
            (prog.reachedFrom settings.formalsAsDefs d) u = a := by
  simp only [associations, List.mem_flatMap, List.mem_map, mem_sortBy, Program.mem_reached_iff]
  constructor
  · rintro ⟨r, ⟨d, hd, rfl⟩, u, hu, rfl⟩
    exact ⟨d, hd, u, hu, rfl⟩
  · rintro ⟨d, hd, u, hu, rfl⟩
    exact ⟨_, ⟨d, hd, rfl⟩, u, hu, rfl⟩

end Analysis

def Association.ends (a : Association) : Def × Use := (a.definition, a.use)

section Ends

variable {prog : Program} {oracle : Oracle} {settings : Settings}

/-- Groups with different definitions, each of which lists its uses once, list no pair twice. -/
theorem nodup_ends_of_groups
    {ι : Type} {groups : List ι} {uses : ι → List Use} {make : ι → Use → Association}
    (definition : ι → Def)
    (hends : ∀ i u, (make i u).ends = (definition i, u))
    (hgroups : (groups.map definition).Nodup)
    (huses : ∀ i, (uses i).Nodup) :
    ((groups.flatMap fun i => (uses i).map (make i)).map Association.ends).Nodup := by
  rw [List.map_flatMap]
  refine List.nodup_flatMap.mpr ⟨?_, ?_⟩
  · intro i _
    rw [List.map_map]
    refine (huses i).map ?_
    intro u w h
    simp only [Function.comp_apply, hends, Prod.mk.injEq, true_and] at h
    exact h
  · rw [List.Nodup, List.pairwise_map] at hgroups
    refine hgroups.imp ?_
    intro i j hne e hi hj
    simp only [List.map_map, List.mem_map, Function.comp_apply, hends] at hi hj
    obtain ⟨u, -, rfl⟩ := hi
    obtain ⟨w, -, hw⟩ := hj
    exact hne (Prod.mk.inj hw).1.symm

/-- No pair of a definition and a use is associated twice. -/
theorem nodup_ends_associations :
    ((prog.analysis oracle settings).associations.map Association.ends).Nodup := by
  refine nodup_ends_of_groups Reached.definition (fun _ _ => rfl) ?_
    fun r => sortDistinct_nodup _
  refine ((sortBy_perm _).map Reached.definition).nodup_iff.mpr ?_
  rw [Program.reached_eq, List.map_map]
  refine Program.allLocalDefs_nodup.map ?_
  intro d k h
  exact h

/-- No pair on the heap is associated twice. -/
theorem nodup_ends_heapAssociations :
    ((prog.heapAssociations settings).map Association.ends).Nodup := by
  refine nodup_ends_of_groups id (fun _ _ => rfl) ?_ fun d => ?_
  · rw [List.map_id]
    exact sortDistinct_nodup _
  · exact (sortDistinct_nodup _).filter _

/-- What is tracked on the heap is not local. -/
theorem isLocal_of_tracks
    {v : Variable}
    (h : settings.tracks v = true) :
    v.isLocal = false := by
  rw [Bool.eq_false_iff]
  intro hlocal
  have hkind : v.kind = .localVar := of_decide_eq_true hlocal
  rw [Settings.tracks, hkind] at h
  exact absurd h (by simp [VarKind.localVar, VarKind.field, VarKind.element, VarKind.object])

/-- Both ends of an association on the heap are tracked. -/
theorem tracks_of_mem_heapAssociations
    {a : Association}
    (ha : a ∈ prog.heapAssociations settings) :
    settings.tracks a.definition.var = true ∧ settings.tracks a.use.var = true := by
  simp only [Program.heapAssociations, Program.heapDefs, Program.heapUses, List.mem_flatMap,
    List.mem_map, mem_sortDistinct, List.mem_filter] at ha
  obtain ⟨d, ⟨-, hdef⟩, u, ⟨⟨-, huse⟩, -⟩, rfl⟩ := ha
  exact ⟨hdef, huse⟩

/-- No pair is associated both on the heap and off it. -/
theorem ends_disjoint
    {a b : Association}
    (ha : a ∈ (prog.analysis oracle settings).associations)
    (hb : b ∈ prog.heapAssociations settings) :
    a.ends ≠ b.ends := by
  obtain ⟨d, hd, u, -, rfl⟩ := Analysis.mem_associations_iff.mp ha
  have htracks := (tracks_of_mem_heapAssociations hb).1
  intro h
  have hdef : d = b.definition := (Prod.mk.inj h).1
  rw [← hdef] at htracks
  exact absurd hd.1 (by rw [isLocal_of_tracks htracks]; decide)

end Ends

namespace AssociationSet

/-- Associations with new ends are all added. -/
theorem addAll_eq_ok
    {s : AssociationSet} {items : List Association}
    (h : ((s.items ++ items).map Association.ends).Nodup) :
    s.addAll items = .ok { s with items := s.items ++ items } := by
  induction items generalizing s with
  | nil => simp [addAll, pure, Except.pure]
  | cons a rest ih =>
      have hnew : s.add a = .ok { s with items := s.items ++ [a] } := by
        have hnone : s.lookup? a.definition a.use = none := by
          unfold lookup?
          rw [List.find?_eq_none]
          intro b hb hsame
          rw [List.map_append, List.map_cons, List.nodup_append] at h
          obtain ⟨-, -, hdisjoint⟩ := h
          refine hdisjoint b.ends (List.mem_map_of_mem hb) a.ends List.mem_cons_self ?_
          simpa [Association.ends] using hsame
        rw [add, hnone]
      rw [addAll, List.foldlM_cons, hnew]
      have hrest := @ih { s with items := s.items ++ [a] } (by simpa using h)
      refine Eq.trans hrest ?_
      simp

end AssociationSet

/-- The associations of a program before predicates are cleared. -/
def Program.listed (prog : Program) (oracle : Oracle) (settings : Settings) : List Association :=
  sortBy Association.less ((prog.analysis oracle settings).associations ++
    if settings.localOnly then [] else prog.heapAssociations settings)

section Run

variable {prog : Program} {oracle : Oracle} {settings : Settings}

/-- No pair is listed twice. -/
theorem nodup_ends_listed :
    ((prog.listed oracle settings).map Association.ends).Nodup := by
  unfold Program.listed
  refine ((sortBy_perm _).map Association.ends).nodup_iff.mpr ?_
  rw [List.map_append, List.nodup_append]
  refine ⟨nodup_ends_associations, ?_, ?_⟩
  · split
    · exact List.nodup_nil
    · exact nodup_ends_heapAssociations
  · intro e he e' he'
    obtain ⟨a, ha, rfl⟩ := List.mem_map.mp he
    obtain ⟨b, hb, rfl⟩ := List.mem_map.mp he'
    split at hb
    · exact absurd hb List.not_mem_nil
    · exact ends_disjoint ha hb

/-- The analysis of a checked program gives a set of associations. -/
theorem analyzeProgram_eq
    (hprog : prog.Finalized) :
    ∃ events, analyzeProgram prog oracle settings =
      .ok (⟨clearPredicates (prog.listed oracle settings),
        prog.sameBlockPairs settings.formalsAsDefs⟩, events) := by
  have hlocal := @Analysis.localAssociations_eq_ok prog oracle settings hprog
  have hadd := @AssociationSet.addAll_eq_ok
    { sameBlock := prog.sameBlockPairs settings.formalsAsDefs } (prog.listed oracle settings)
    nodup_ends_listed
  unfold Program.analysis at hlocal
  unfold Program.listed Program.analysis at hadd ⊢
  unfold analyzeProgram
  simp only [hlocal, bind, Except.bind, hadd, pure, Except.pure]
  exact ⟨_, rfl⟩

end Run

/-- The association after the clearing of predicates. -/
def cleared (items : List Association) (a : Association) : Association :=
  let rivals := (items.filter fun b =>
    !b.heap && b.use.isPredicate && b.use = a.use).map Association.definition
  if !a.heap && a.use.isPredicate && (distinct rivals).length > 1 then
    { a with inferrable := false }
  else a

/-- What is known of an association of local variables in the result of an analysis. -/
structure Association.LocalFacts (prog : Program) (oracle : Oracle) (settings : Settings)
    (a : Association) : Prop where
  isLocalDef : prog.IsLocalDef settings.formalsAsDefs a.definition
  chain : prog.Chain settings.formalsAsDefs a.definition.site a.definition.var a.use
  localUses : a.localUses =
    (prog.reachedFrom settings.formalsAsDefs a.definition).witnesses a.use
  hardKills : a.hardKills =
    ((prog.analysis oracle settings).association
      (prog.reachedFrom settings.formalsAsDefs a.definition) a.use).hardKills
  possibleKills : a.possibleKills =
    ((prog.analysis oracle settings).association
      (prog.reachedFrom settings.formalsAsDefs a.definition) a.use).possibleKills
  inferrable : a.inferrable = true →
    ((prog.analysis oracle settings).association
      (prog.reachedFrom settings.formalsAsDefs a.definition) a.use).inferrable = true
  single : a.inferrable = true → a.use.isPredicate = true →
    ∀ k, prog.IsLocalDef settings.formalsAsDefs k →
      prog.Chain settings.formalsAsDefs k.site k.var a.use → k = a.definition

section Cleared

variable {prog : Program} {oracle : Oracle} {settings : Settings} {items : List Association}
  {a b : Association}

/-- Marks are cleared one association at a time. -/
theorem clearPredicates_eq :
    clearPredicates items = items.map (cleared items) :=
  rfl

theorem cleared_eq :
    cleared items a = { a with inferrable := (cleared items a).inferrable } := by
  unfold cleared
  simp only
  split <;> rfl

theorem eq_of_mem_of_length_le_one
    {α : Type} {xs : List α} {x y : α}
    (hlen : xs.length ≤ 1)
    (hx : x ∈ xs)
    (hy : y ∈ xs) :
    x = y := by
  match xs, hlen with
  | [z], _ => rw [List.mem_singleton.mp hx, List.mem_singleton.mp hy]

/-- A branch of an association that is still inferrable has no other definition. -/
theorem cleared_inferrable
    (ha : a ∈ items)
    (h : (cleared items a).inferrable = true) :
    a.inferrable = true ∧
      (a.heap = false → a.use.isPredicate = true →
        ∀ b ∈ items, b.heap = false → b.use = a.use → b.definition = a.definition) := by
  unfold cleared at h
  simp only at h
  split at h
  · exact absurd h (by simp)
  · rename_i hfew
    refine ⟨h, ?_⟩
    intro hheap hpred b hb hheap' huse
    simp only [hheap, hpred, Bool.not_false, Bool.and_true, Bool.true_and, decide_eq_true_eq,
      not_lt] at hfew
    apply eq_of_mem_of_length_le_one hfew
    · rw [mem_distinct]
      exact List.mem_map_of_mem (List.mem_filter.mpr ⟨hb, by simp [hheap', huse, hpred]⟩)
    · rw [mem_distinct]
      exact List.mem_map_of_mem (List.mem_filter.mpr ⟨ha, by simp [hheap, hpred]⟩)

/-- Off the heap the listed associations are those of the flow. -/
theorem mem_listed_iff
    (hheap : a.heap = false) :
    a ∈ prog.listed oracle settings ↔ a ∈ (prog.analysis oracle settings).associations := by
  rw [Program.listed, mem_sortBy, List.mem_append]
  constructor
  · rintro (ha | ha)
    · exact ha
    · split at ha
      · exact absurd ha List.not_mem_nil
      · simp only [Program.heapAssociations, List.mem_flatMap, List.mem_map] at ha
        obtain ⟨d, -, u, -, rfl⟩ := ha
        exact absurd hheap (by simp)
  · exact Or.inl

/-- The ends of a chain that starts at a definition are associated. -/
theorem exists_listed_of_chain
    (hprog : prog.Finalized)
    {d : Def} {u : Use}
    (hd : prog.IsLocalDef settings.formalsAsDefs d)
    (hchain : prog.Chain settings.formalsAsDefs d.site d.var u) :
    ∃ a ∈ prog.listed oracle settings, a.heap = false ∧ a.definition = d ∧ a.use = u := by
  have hu := (Program.mem_uses_iff_chain hprog hd).mpr hchain
  refine ⟨(prog.analysis oracle settings).association
    (prog.reachedFrom settings.formalsAsDefs d) u, ?_, rfl, rfl, rfl⟩
  rw [mem_listed_iff rfl]
  exact Analysis.mem_associations_iff.mpr ⟨d, hd, u, hu, rfl⟩

/-- Every association of local variables in the result is what the construction makes of its
ends. -/
theorem localFacts_of_mem
    (hprog : prog.Finalized)
    (ha : a ∈ clearPredicates (prog.listed oracle settings))
    (hheap : a.heap = false) :
    a.LocalFacts prog oracle settings := by
  rw [clearPredicates_eq] at ha
  obtain ⟨b, hb, rfl⟩ := List.mem_map.mp ha
  have hheap' : b.heap = false := by
    rw [cleared_eq] at hheap
    exact hheap
  obtain ⟨d, hd, u, hu, hbuilt⟩ := Analysis.mem_associations_iff.mp
    ((mem_listed_iff hheap').mp hb)
  have hdef : (cleared (prog.listed oracle settings) b).definition = d := by
    rw [cleared_eq, ← hbuilt]
    rfl
  have huse : (cleared (prog.listed oracle settings) b).use = u := by
    rw [cleared_eq, ← hbuilt]
    rfl
  have hinferrable := cleared_inferrable hb
  refine ⟨?_, ?_, ?_, ?_, ?_, ?_, ?_⟩
  · rw [hdef]
    exact hd
  · rw [hdef, huse]
    exact (Program.mem_uses_iff_chain hprog hd).mp hu
  · rw [hdef, huse, cleared_eq, ← hbuilt]
    rfl
  · rw [hdef, huse, cleared_eq, ← hbuilt]
  · rw [hdef, huse, cleared_eq, ← hbuilt]
  · intro h
    rw [hdef, huse, hbuilt]
    exact (hinferrable h).1
  · intro h hpred k hk hchain
    obtain ⟨c, hc, hcheap, rfl, hcuse⟩ := 
      @exists_listed_of_chain prog oracle settings hprog k _ hk hchain
    rw [cleared_eq] at hpred hcuse ⊢
    exact (hinferrable h).2 hheap' hpred c hc hcheap hcuse

/-- The ends of a chain that starts at a definition are associated in the result. -/
theorem exists_mem_of_chain
    (hprog : prog.Finalized)
    {d : Def} {u : Use}
    (hd : prog.IsLocalDef settings.formalsAsDefs d)
    (hchain : prog.Chain settings.formalsAsDefs d.site d.var u) :
    ∃ a ∈ clearPredicates (prog.listed oracle settings),
      a.heap = false ∧ a.definition = d ∧ a.use = u := by
  obtain ⟨a, ha, hheap, rfl, rfl⟩ :=
    @exists_listed_of_chain prog oracle settings hprog d u hd hchain
  refine ⟨cleared (prog.listed oracle settings) a, List.mem_map_of_mem ha, ?_⟩
  rw [cleared_eq]
  exact ⟨hheap, rfl, rfl⟩

/-- Only associations of local variables have a local variable at one of their ends. -/
theorem heap_eq_false_of_isLocal
    (ha : a ∈ clearPredicates (prog.listed oracle settings))
    (hlocal : a.definition.var.isLocal = true ∨ a.use.var.isLocal = true) :
    a.heap = false := by
  rw [clearPredicates_eq] at ha
  obtain ⟨b, hb, rfl⟩ := List.mem_map.mp ha
  rw [cleared_eq] at hlocal ⊢
  rw [Program.listed, mem_sortBy, List.mem_append] at hb
  rcases hb with hb | hb
  · obtain ⟨d, -, u, -, rfl⟩ := Analysis.mem_associations_iff.mp hb
    rfl
  · split at hb
    · exact absurd hb List.not_mem_nil
    · obtain ⟨hdef, huse⟩ := tracks_of_mem_heapAssociations hb
      simp [isLocal_of_tracks hdef, isLocal_of_tracks huse] at hlocal

namespace Association.LocalFacts

variable {k : Def}

/-- Hard and possible kills together are the killers that reach the use. -/
theorem kills_perm
    (h : a.LocalFacts prog oracle settings) :
    List.Perm (a.hardKills ++ a.possibleKills)
      ((prog.reachedFrom settings.formalsAsDefs a.definition).killers.filter
        ((prog.analysis oracle settings).reachesUse · a.use)) := by
  rw [h.hardKills, h.possibleKills]
  exact List.filter_append_perm _ _

/-- A killer counts if a chain leads from it to the use. -/
theorem killer_reaches_iff
    (h : a.LocalFacts prog oracle settings)
    (hprog : prog.Finalized)
    (hk : k ∈ (prog.reachedFrom settings.formalsAsDefs a.definition).killers) :
    (prog.analysis oracle settings).reachesUse k a.use = true ↔
      prog.Chain settings.formalsAsDefs k.site k.var a.use :=
  Analysis.reachesUse_iff hprog (Program.isLocalDef_of_mem_killers hprog h.isLocalDef hk)

/-- The kills of an association are the killers of its definition from which chains lead to its
use. -/
theorem mem_kills_iff
    (h : a.LocalFacts prog oracle settings)
    (hprog : prog.Finalized) :
    k ∈ a.hardKills ++ a.possibleKills ↔
      k ∈ (prog.reachedFrom settings.formalsAsDefs a.definition).killers ∧
        prog.Chain settings.formalsAsDefs k.site k.var a.use := by
  rw [h.kills_perm.mem_iff, List.mem_filter]
  exact and_congr_right (h.killer_reaches_iff hprog)

/-- The hard kills of an association are those of its kills that execute between its definition
and all of its local uses, none of which leads back to the definition. -/
theorem mem_hardKills_iff
    (h : a.LocalFacts prog oracle settings)
    (hprog : prog.Finalized) :
    k ∈ a.hardKills ↔
      (k ∈ (prog.reachedFrom settings.formalsAsDefs a.definition).killers ∧
        prog.Chain settings.formalsAsDefs k.site k.var a.use) ∧
      (prog.node k.site).handler = false ∧
      (prog.analysis oracle settings).executesBefore a.definition.site k.site = true ∧
      ∀ w ∈ a.localUses,
        (prog.analysis oracle settings).executesBefore k.site w.site = true ∧
        (prog.analysis oracle settings).mayReach w.site a.definition.site = false := by
  rw [h.hardKills, h.localUses]
  simp only [Analysis.association, List.mem_filter, Analysis.killInOrder_iff, mem_distinct,
    List.forall_mem_map, Program.reachedFrom_definition]
  exact and_congr_left fun _ => and_congr_right (h.killer_reaches_iff hprog)

end Association.LocalFacts

/-- What is found in a run that was evaluated is found in the run. -/
theorem mem_items_of_listed
    {set : AssociationSet} {events : List Log.Event}
    (hrun : analyzeProgram prog oracle settings = .ok (set, events))
    (hlisted : ((analyzeProgram prog oracle settings).map fun r => decide (a ∈ r.1.items)) =
      .ok true) :
    a ∈ set.items := by
  rw [hrun] at hlisted
  exact of_decide_eq_true (Except.ok.inj hlisted)

end Cleared

end DefUse
