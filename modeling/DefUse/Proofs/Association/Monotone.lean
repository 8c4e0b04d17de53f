import DefUse.Proofs.Association.Inferred
import Mathlib.Data.List.Forall2

/-!
# More order facts, better grades

Two runs on one program may differ in what they know about the order of execution: in the oracle,
and in the settings that say which questions it is asked.

**Method.** What definitions reach does not depend on the order, so both runs make associations of
the same ends in the same order, and clear the same branches.  Knowing less order can only move a
kill from the hard ones to the possible ones, and take inferrability away.

**Results.** `analyzeProgram_monotone`: the run that knows less lists the same associations, with
hard kills that are a sublist, the same kills in all, and grades that are at most as high.
-/

namespace DefUse

namespace Classification

/-- The grades in increasing order. -/
def rank : Classification → Nat
  | nonInferrable => 0
  | conditional => 1
  | definite => 2

instance : LE Classification where
  le a b := a.rank ≤ b.rank

theorem nonInferrable_le
    (c : Classification) :
    nonInferrable ≤ c :=
  Nat.zero_le c.rank

theorem le_definite
    (c : Classification) :
    c ≤ definite := by
  cases c with
  | nonInferrable => exact Nat.zero_le 2
  | conditional => exact Nat.le_succ 1
  | definite => exact Nat.le_refl 2

end Classification

namespace Analysis

/-- The first analysis knows less about the order of execution than the second one. -/
structure KnowsLess (s t : Analysis) : Prop where
  mayReach : ∀ a b, t.mayReach a b = true → s.mayReach a b = true
  executesBefore : ∀ a b, s.executesBefore a b = true → t.executesBefore a b = true

end Analysis

/-- The first association says less about the order of execution than the second one, and the same
about everything else. -/
structure Association.SaysLess (a b : Association) : Prop where
  definition : a.definition = b.definition
  use : a.use = b.use
  localUses : a.localUses = b.localUses
  heap : a.heap = b.heap
  inferrable : a.inferrable = true → b.inferrable = true
  hardKills : a.hardKills.Sublist b.hardKills
  possibleKills : b.possibleKills.Sublist a.possibleKills
  kills : ∀ k, k ∈ a.hardKills ++ a.possibleKills ↔ k ∈ b.hardKills ++ b.possibleKills

namespace Association.SaysLess

variable {a b c d : Association}

theorem refl
    (a : Association) :
    a.SaysLess a :=
  ⟨rfl, rfl, rfl, rfl, id, .refl _, .refl _, fun _ => Iff.rfl⟩

theorem classification_le
    (h : a.SaysLess b) :
    a.classification ≤ b.classification := by
  unfold classification
  by_cases ha : a.inferrable = true
  · have hb := h.inferrable ha
    by_cases hkills : a.possibleKills = []
    · have hnone : b.possibleKills = [] := List.sublist_nil.mp (hkills ▸ h.possibleKills)
      rw [hb, hnone]
      exact Classification.le_definite _
    · rw [ha, hb, Bool.not_true, if_neg Bool.false_ne_true, if_neg Bool.false_ne_true,
        if_neg (by simpa using hkills)]
      split
      · exact Classification.le_definite _
      · exact Nat.le_refl 1
  · rw [Bool.not_eq_true] at ha
    rw [ha]
    exact Classification.nonInferrable_le _

theorem less_eq
    (hab : a.SaysLess b)
    (hcd : c.SaysLess d) :
    a.less c = b.less d := by
  unfold Association.less
  rw [hab.definition, hab.use, hcd.definition, hcd.use]

end Association.SaysLess

section Related

variable {α β : Type} {R : α → β → Prop}

theorem insertBy_forall₂
    {less : α → α → Bool} {less' : β → β → Bool}
    (hless : ∀ a b c d, R a b → R c d → less a c = less' b d)
    {a : α} {b : β} {xs : List α} {ys : List β}
    (hab : R a b)
    (h : List.Forall₂ R xs ys) :
    List.Forall₂ R (insertBy less a xs) (insertBy less' b ys) := by
  induction h with
  | nil => exact .cons hab .nil
  | @cons c d xs ys hcd hrest ih =>
      unfold insertBy
      rw [hless _ _ _ _ hcd hab]
      split
      · exact .cons hcd ih
      · exact .cons hab (.cons hcd hrest)

/-- Lists whose members are related one by one stay so when both are sorted. -/
theorem sortBy_forall₂
    {less : α → α → Bool} {less' : β → β → Bool}
    (hless : ∀ a b c d, R a b → R c d → less a c = less' b d)
    {xs : List α} {ys : List β}
    (h : List.Forall₂ R xs ys) :
    List.Forall₂ R (sortBy less xs) (sortBy less' ys) := by
  induction h with
  | nil => exact .nil
  | cons hab _ ih => exact insertBy_forall₂ hless hab ih

end Related

namespace Analysis

variable {s t : Analysis} {d k : Def} {a b : Point}

theorem KnowsLess.ordered
    (h : s.KnowsLess t)
    (hprog : s.prog = t.prog)
    (hordered : s.ordered a b = true) :
    t.ordered a b = true := by
  unfold Analysis.ordered inHandler at hordered ⊢
  rw [hprog] at hordered
  split at hordered
  · exact absurd hordered Bool.false_ne_true
  · rename_i hhandler
    rw [if_neg hhandler]
    rw [Bool.and_eq_true, Bool.not_eq_true'] at hordered ⊢
    refine ⟨h.executesBefore a b hordered.1, ?_⟩
    rw [Bool.eq_false_iff]
    intro hback
    exact absurd (h.mayReach b a hback) (by rw [hordered.2]; decide)

theorem KnowsLess.killInOrder
    {targets : List Point}
    (h : s.KnowsLess t)
    (hprog : s.prog = t.prog)
    (hkill : s.killInOrder d k targets = true) :
    t.killInOrder d k targets = true := by
  rw [killInOrder_iff] at hkill ⊢
  obtain ⟨hhandler, hbefore, htargets⟩ := hkill
  refine ⟨hprog ▸ hhandler, h.executesBefore _ _ hbefore, ?_⟩
  intro x hx
  obtain ⟨hx₁, hx₂⟩ := htargets x hx
  refine ⟨h.executesBefore _ _ hx₁, ?_⟩
  rw [Bool.eq_false_iff]
  intro hback
  exact absurd (h.mayReach x d.site hback) (by rw [hx₂]; decide)

/-- Analyses of one program that noted the same about its definitions differ in the order only. -/
theorem KnowsLess.saysLess
    (h : s.KnowsLess t)
    (hprog : s.prog = t.prog)
    (hreached : s.reached = t.reached)
    (r : Reached) (u : Use) :
    (s.association r u).SaysLess (t.association r u) := by
  have huses : s.reachesUse = t.reachesUse := by
    funext k u
    simp only [reachesUse, reachedBy?, hreached]
  have hremote : s.remoteDefs u = t.remoteDefs u := by
    simp only [remoteDefs, hreached]
  refine ⟨rfl, rfl, rfl, rfl, ?_, ?_, ?_, ?_⟩
  · intro hinferrable
    simp only [association, Bool.and_eq_true, List.any_eq_true, hremote] at hinferrable ⊢
    obtain ⟨⟨x, hx, hordered⟩, hfew⟩ := hinferrable
    exact ⟨⟨x, hx, h.ordered hprog hordered⟩, hfew⟩
  · simp only [association, huses]
    exact List.monotone_filter_right _ fun k hk => h.killInOrder hprog hk
  · simp only [association, huses]
    refine List.monotone_filter_right _ ?_
    intro k hk
    rw [Bool.not_eq_true', Bool.eq_false_iff] at hk ⊢
    exact fun hkill => hk (h.killInOrder hprog hkill)
  · -- a kill moves from one list to the other
    intro k
    simp only [association, huses]
    rw [(List.filter_append_perm _ _).mem_iff, (List.filter_append_perm _ _).mem_iff]

end Analysis

section Cleared

variable {items items' : List Association} {a b : Association}

/-- The definitions that reach a branch. -/
theorem rivals_eq
    (h : List.Forall₂ Association.SaysLess items items')
    (u : Use) :
    (items.filter fun b => !b.heap && b.use.isPredicate && b.use = u).map
        Association.definition =
      (items'.filter fun b => !b.heap && b.use.isPredicate && b.use = u).map
        Association.definition := by
  induction h with
  | nil => rfl
  | cons hab _ ih =>
      rw [List.filter_cons, List.filter_cons, hab.heap, hab.use]
      split
      · rw [List.map_cons, List.map_cons, ih, hab.definition]
      · exact ih

theorem cleared_saysLess
    (h : List.Forall₂ Association.SaysLess items items')
    (hab : a.SaysLess b) :
    (cleared items a).SaysLess (cleared items' b) := by
  unfold cleared
  rw [hab.use, hab.heap, rivals_eq h]
  simp only
  split
  · exact ⟨hab.definition, rfl, hab.localUses, rfl, id, hab.hardKills, hab.possibleKills, hab.kills⟩
  · exact hab

theorem clearPredicates_saysLess
    (h : List.Forall₂ Association.SaysLess items items') :
    List.Forall₂ Association.SaysLess (clearPredicates items) (clearPredicates items') := by
  rw [clearPredicates_eq, clearPredicates_eq, List.forall₂_map_left_iff,
    List.forall₂_map_right_iff]
  exact h.imp fun _ _ hab => cleared_saysLess h hab

end Cleared

section Runs

variable {prog : Program} {oracle oracle' : Oracle} {settings settings' : Settings}

theorem associations_saysLess
    (hflag : settings.formalsAsDefs = settings'.formalsAsDefs)
    (h : (prog.analysis oracle settings).KnowsLess (prog.analysis oracle' settings')) :
    List.Forall₂ Association.SaysLess (prog.analysis oracle settings).associations
      (prog.analysis oracle' settings').associations := by
  have hreached : (prog.analysis oracle settings).reached =
      (prog.analysis oracle' settings').reached := by
    rw [Program.reached_eq, Program.reached_eq, hflag]
  unfold Analysis.associations
  rw [hreached]
  refine List.rel_flatten ?_
  rw [List.forall₂_map_left_iff, List.forall₂_map_right_iff, List.forall₂_same]
  intro r _
  rw [List.forall₂_map_left_iff, List.forall₂_map_right_iff, List.forall₂_same]
  intro u _
  exact h.saysLess rfl hreached r u

theorem listed_saysLess
    (hflag : settings.formalsAsDefs = settings'.formalsAsDefs)
    (hlocal : settings.localOnly = settings'.localOnly)
    (hheap : prog.heapAssociations settings = prog.heapAssociations settings')
    (h : (prog.analysis oracle settings).KnowsLess (prog.analysis oracle' settings')) :
    List.Forall₂ Association.SaysLess (prog.listed oracle settings)
      (prog.listed oracle' settings') := by
  unfold Program.listed
  rw [hlocal, hheap]
  refine sortBy_forall₂ (fun _ _ _ _ hab hcd => hab.less_eq hcd) ?_
  exact List.rel_append (associations_saysLess hflag h)
    (List.forall₂_same.mpr fun a _ => .refl a)

/-- A run that knows less about the order of execution lists the same associations in the same
order; its hard kills are some of those of the other run, its kills are the same in all, and its
grades are at most as high. -/
theorem analyzeProgram_monotone
    (prog : Program) (oracle oracle' : Oracle) (settings : Settings)
    (useReachability useDominance useReachability' useDominance' : Bool)
    (hprog : prog.Finalized)
    (hless : (prepare prog oracle { settings with useReachability, useDominance }).1.KnowsLess
      (prepare prog oracle' { settings with
        useReachability := useReachability', useDominance := useDominance' }).1) :
    ∃ set events set' events',
      analyzeProgram prog oracle { settings with useReachability, useDominance } =
        .ok (set, events) ∧
      analyzeProgram prog oracle' { settings with
        useReachability := useReachability', useDominance := useDominance' } =
        .ok (set', events') ∧
      List.Forall₂
        (fun a b =>
          a.definition = b.definition ∧ a.use = b.use ∧ a.localUses = b.localUses ∧
          a.heap = b.heap ∧ a.hardKills.Sublist b.hardKills ∧
          (∀ k, k ∈ a.hardKills ++ a.possibleKills ↔ k ∈ b.hardKills ++ b.possibleKills) ∧
          a.classification ≤ b.classification)
        set.items set'.items := by
  obtain ⟨events, hrun⟩ :=
    @analyzeProgram_eq prog oracle { settings with useReachability, useDominance } hprog
  obtain ⟨events', hrun'⟩ := @analyzeProgram_eq prog oracle' { settings with
    useReachability := useReachability', useDominance := useDominance' } hprog
  refine ⟨_, events, _, events', hrun, hrun', ?_⟩
  have hlisted : List.Forall₂ Association.SaysLess
      (prog.listed oracle { settings with useReachability, useDominance })
      (prog.listed oracle' { settings with
        useReachability := useReachability', useDominance := useDominance' }) :=
    listed_saysLess rfl rfl rfl hless
  refine (clearPredicates_saysLess hlisted).imp ?_
  intro a b hab
  exact ⟨hab.definition, hab.use, hab.localUses, hab.heap, hab.hardKills, hab.kills,
    hab.classification_le⟩

/-- Without any order the association with a kill is not inferrable; with the order of the graphs
it is, and the kill is hard. -/
theorem analyzeProgram_monotone_redefinition :
    redefinition.Finalized ∧
      ∃ set events set' events',
        analyzeProgram redefinition .null { useReachability := false } = .ok (set, events) ∧
        analyzeProgram redefinition (GraphOrder.ofProgram redefinition).oracle {} =
          .ok (set', events') ∧
        redefinitionPair ∉ set.items ∧ redefinitionPair ∈ set'.items ∧
        ∃ a ∈ set.items, a.ends = redefinitionPair.ends ∧
          a.classification ≤ redefinitionPair.classification := by
  have hprog : redefinition.Finalized := by decide +kernel
  refine ⟨hprog, ?_⟩
  obtain ⟨set, events, set', events', hrun, hrun', hall⟩ :=
    analyzeProgram_monotone redefinition .null (GraphOrder.ofProgram redefinition).oracle {}
      false true true true hprog ⟨fun _ _ _ => rfl, fun _ _ h => absurd h Bool.false_ne_true⟩
  have hmem' : redefinitionPair ∈ set'.items := mem_items_of_listed hrun' redefinitionPair_listed
  have hnone : ((analyzeProgram redefinition .null { useReachability := false }).map
      fun r => decide (redefinitionPair ∉ r.1.items)) = .ok true := by
    decide +kernel
  rw [hrun] at hnone
  refine ⟨set, events, set', events', hrun, hrun', by simpa [Except.map] using hnone, hmem', ?_⟩
  obtain ⟨i, hi, hget⟩ := List.getElem_of_mem hmem'
  have hlt : i < set.items.length := by
    rw [hall.length_eq]
    exact hi
  obtain ⟨hdef, huse, -, -, -, -, hgrade⟩ := hall.get hlt hi
  rw [List.get_eq_getElem, List.get_eq_getElem, hget] at hdef huse hgrade
  exact ⟨set.items[i], List.getElem_mem hlt, by rw [Association.ends, hdef, huse]; rfl, hgrade⟩

end Runs

end DefUse
