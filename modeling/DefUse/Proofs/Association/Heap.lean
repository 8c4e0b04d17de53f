import DefUse.Proofs.Association.Run

/-!
# Associations on the heap

Associations on the heap are a product of definitions and uses, those of local variables come out
of the flow.  Both kinds are listed together in one order, and branches are cleared in the list of
both.

**Method.** The heap is read off the construction: its definitions and uses are those of all points
whose variables are tracked.  That the kinds leave each other alone is an equation between lists.
A strictly sorted list is determined by its members, so the associations of local variables stand
in the list as if they had been sorted alone, and only they decide which branches are cleared.

**Results.**
* `mem_heapAssociations_iff`: which associations on the heap there are.
* `filter_listed` and `filter_clearPredicates`: what remains of the list without the heap.
* `heapAssociations_exact`: both for the result of the analysis; no setting that concerns the heap
  only changes an association of local variables.
-/

namespace DefUse

/-- A field that neither the compiler made nor the settings exclude, the elements of an array, or
an object if the settings include objects. -/
def Settings.Tracked (s : Settings) (v : Variable) : Prop :=
  (v.kind = .field ∧ v.name ∉ compilerFields ∧ v.name ∉ s.excludedFields) ∨
    v.kind = .element ∨
    (v.kind = .object ∧ s.includeObjects = true)

theorem Settings.tracks_iff
    {s : Settings} {v : Variable} :
    s.tracks v = true ↔ s.Tracked v := by
  unfold tracks Tracked
  by_cases hfield : v.kind = .field
  · simp [hfield, VarKind.field, VarKind.element, VarKind.object]
  · by_cases helement : v.kind = .element
    · simp [helement, VarKind.field, VarKind.element]
    · simp [hfield, helement]

namespace Variable

variable {v w : Variable}

theorem mayEqual_field
    (hv : v.kind = .field)
    (hw : w.kind = .field) :
    v.mayEqual w = true ↔ v.scope = w.scope ∧ v.name = w.name := by
  simp [mayEqual, hv, hw, VarKind.field, VarKind.element, VarKind.object, and_comm]

theorem mayEqual_element
    (hv : v.kind = .element)
    (hw : w.kind = .element) :
    v.mayEqual w = true ↔ v.name = w.name ∨ v.name ∈ anyElement ∨ w.name ∈ anyElement := by
  simp [mayEqual, hv, hw, or_assoc]

end Variable

namespace Program

/-- Two variables on the heap may be the same location. -/
inductive SharesHeap (prog : Program) (v w : Variable) : Prop
  /-- They are the same field of the same owner. -/
  | field
      (hv : v.kind = .field)
      (hw : w.kind = .field)
      (scope : v.scope = w.scope)
      (name : v.name = w.name)
  /-- They are elements of arrays of the same type, or the arrays of one of them hold anything. -/
  | element
      (hv : v.kind = .element)
      (hw : w.kind = .element)
      (name : v.name = w.name ∨ v.name ∈ Variable.anyElement ∨ w.name ∈ Variable.anyElement)
  /-- They are objects that may have the same type. -/
  | object
      (hv : v.kind = .object)
      (hw : w.kind = .object)
      (type : String)
      (typeOf_v : type ∈ prog.possibleTypes v)
      (typeOf_w : type ∈ prog.possibleTypes w)

variable {prog : Program} {settings : Settings} {formalsAsDefs : Bool} {d : Def} {u : Use}
  {site : Point} {v w : Variable}

theorem heapMayAlias_iff
    (hv : settings.Tracked v) :
    prog.heapMayAlias v w = true ↔ prog.SharesHeap v w := by
  unfold heapMayAlias
  constructor
  · intro h
    split at h
    · exact absurd h Bool.false_ne_true
    rename_i hkind
    rw [ne_eq, not_not] at hkind
    rcases hv with ⟨hfield, -, -⟩ | helement | ⟨hobject, -⟩
    · have hw := hkind.symm.trans hfield
      rw [if_pos (by rw [hfield]; decide), Variable.mayEqual_field hfield hw] at h
      exact .field hfield hw h.1 h.2
    · have hw := hkind.symm.trans helement
      rw [if_pos (by rw [helement]; decide), Variable.mayEqual_element helement hw] at h
      exact .element helement hw h
    · rw [if_neg (not_not.mpr hobject), List.any_eq_true] at h
      obtain ⟨type, htype, hmem⟩ := h
      exact .object hobject (hkind.symm.trans hobject) type htype (List.contains_iff_mem.mp hmem)
  · rintro (⟨hv, hw, hscope, hname⟩ | ⟨hv, hw, hname⟩ | ⟨hv, hw, type, htype, hmem⟩)
    · rw [if_neg (not_not.mpr (hv.trans hw.symm)), if_pos (by rw [hv]; decide),
        Variable.mayEqual_field hv hw]
      exact ⟨hscope, hname⟩
    · rwa [if_neg (not_not.mpr (hv.trans hw.symm)), if_pos (by rw [hv]; decide),
        Variable.mayEqual_element hv hw]
    · rw [if_neg (not_not.mpr (hv.trans hw.symm)), if_neg (not_not.mpr hv), List.any_eq_true]
      exact ⟨type, htype, List.contains_iff_mem.mpr hmem⟩

theorem mem_points_iff :
    site ∈ prog.points ↔ site.proc ∈ prog.procIds ∧ site.node ∈ (prog.proc site.proc).ids := by
  simp only [points, List.mem_flatMap, List.mem_map]
  constructor
  · rintro ⟨p, hp, i, hi, rfl⟩
    exact ⟨hp, hi⟩
  · rintro ⟨hp, hi⟩
    exact ⟨site.proc, hp, site.node, hi, rfl⟩

/-- A point with an empty node is all that there is outside of a program. -/
theorem mem_points_of_node_ne
    (h : prog.node site ≠ {}) :
    site ∈ prog.points := by
  rw [mem_points_iff]
  have hnode : site.node ∈ (prog.proc site.proc).ids := by
    by_contra hout
    exact h (node_eq_empty hout)
  refine ⟨?_, hnode⟩
  by_contra hout
  rw [proc_eq_empty hout] at hnode
  exact absurd hnode (by simp [Procedure.ids, positions])

theorem IsDef.site_mem
    (hprog : prog.Finalized)
    (hd : prog.IsDef formalsAsDefs d) :
    d.site ∈ prog.points := by
  rcases hd with hd | ⟨-, hd⟩
  · refine mem_points_of_node_ne ?_
    intro hempty
    have hvar := (mem_defsOf_iff.mp hd).2.1
    rw [← node, hempty] at hvar
    exact absurd hvar List.not_mem_nil
  · obtain ⟨hsite, hvar, -, -⟩ := mem_formalDefs_iff.mp hd
    have hproc : d.site.proc ∈ prog.procIds := by
      by_contra hout
      rw [proc_eq_empty hout] at hvar
      exact absurd hvar List.not_mem_nil
    rw [hsite, mem_points_iff]
    exact ⟨hproc, hprog.entry_mem hproc⟩

theorem site_mem_of_mem_usesOf
    (hu : u ∈ (prog.proc u.site.proc).usesOf u.site) :
    u.site ∈ prog.points := by
  refine mem_points_of_node_ne ?_
  intro hempty
  rw [Procedure.usesOf, ← node, hempty] at hu
  exact absurd hu List.not_mem_nil

theorem mem_heapDefs_iff
    (hprog : prog.Finalized) :
    d ∈ prog.heapDefs settings ↔
      prog.IsDef settings.formalsAsDefs d ∧ settings.Tracked d.var := by
  simp only [heapDefs, mem_sortDistinct, List.mem_filter, List.mem_flatMap, mem_defsAt_iff,
    Settings.tracks_iff]
  constructor
  · rintro ⟨⟨_, -, -, hd⟩, htracked⟩
    exact ⟨hd, htracked⟩
  · rintro ⟨hd, htracked⟩
    exact ⟨⟨d.site, hd.site_mem hprog, rfl, hd⟩, htracked⟩

theorem mem_heapUses_iff :
    u ∈ prog.heapUses settings ↔
      u ∈ (prog.proc u.site.proc).usesOf u.site ∧ settings.Tracked u.var := by
  simp only [heapUses, mem_sortDistinct, List.mem_filter, List.mem_flatMap, Settings.tracks_iff]
  constructor
  · rintro ⟨⟨site, -, hu⟩, htracked⟩
    rw [usesOf_site hu]
    exact ⟨hu, htracked⟩
  · rintro ⟨hu, htracked⟩
    exact ⟨⟨u.site, site_mem_of_mem_usesOf hu, hu⟩, htracked⟩

/-- The associations on the heap join the definitions and the uses of all locations that may be
the same. -/
theorem mem_heapAssociations_iff
    (hprog : prog.Finalized)
    {a : Association} :
    a ∈ prog.heapAssociations settings ↔
      a = { definition := a.definition, use := a.use, heap := true } ∧
      (prog.IsDef settings.formalsAsDefs a.definition ∧ settings.Tracked a.definition.var) ∧
      (a.use ∈ (prog.proc a.use.site.proc).usesOf a.use.site ∧ settings.Tracked a.use.var) ∧
      prog.SharesHeap a.definition.var a.use.var := by
  simp only [heapAssociations, List.mem_flatMap, List.mem_map, List.mem_filter,
    mem_heapDefs_iff hprog, mem_heapUses_iff]
  constructor
  · rintro ⟨d, hd, u, ⟨hu, halias⟩, rfl⟩
    exact ⟨rfl, hd, hu, (heapMayAlias_iff hd.2).mp halias⟩
  · rintro ⟨ha, hd, hu, hshares⟩
    exact ⟨a.definition, hd, a.use, ⟨hu, (heapMayAlias_iff hd.2).mpr hshares⟩, ha.symm⟩

end Program

section Kinds

variable {prog : Program} {oracle : Oracle} {settings : Settings} {items : List Association}
  {a : Association}

/-- The association is of local variables. -/
def Association.isOfLocals (a : Association) : Bool := !a.heap

/-- Only associations of local variables decide whether a branch is cleared. -/
theorem cleared_filter :
    cleared (items.filter Association.isOfLocals) = cleared items := by
  funext a
  have hrivals : (items.filter Association.isOfLocals).filter
        (fun b => !b.heap && b.use.isPredicate && b.use = a.use) =
      items.filter fun b => !b.heap && b.use.isPredicate && b.use = a.use := by
    rw [List.filter_filter]
    refine List.filter_congr ?_
    intro b _
    cases hb : b.heap <;> simp [Association.isOfLocals, hb]
  rw [cleared, hrivals, cleared]

theorem cleared_heap :
    (cleared items a).heap = a.heap := by
  rw [cleared_eq]

theorem filter_clearPredicates :
    (clearPredicates items).filter Association.isOfLocals =
      clearPredicates (items.filter Association.isOfLocals) := by
  rw [clearPredicates_eq, clearPredicates_eq, cleared_filter, List.filter_map]
  refine congrArg _ (List.filter_congr ?_)
  intro a _
  rw [Function.comp_apply, Association.isOfLocals, cleared_heap, Association.isOfLocals]

theorem mem_clearPredicates_iff_of_heap
    (h : a.heap = true) :
    a ∈ clearPredicates items ↔ a ∈ items := by
  have hkept : ∀ {b : Association}, b.heap = true → cleared items b = b := by
    intro b hb
    simp [cleared, hb]
  rw [clearPredicates_eq, List.mem_map]
  constructor
  · rintro ⟨b, hb, rfl⟩
    rw [cleared_heap] at h
    rwa [hkept h]
  · intro ha
    exact ⟨a, ha, hkept h⟩

theorem heap_eq_false_of_mem_associations
    (ha : a ∈ (prog.analysis oracle settings).associations) :
    a.heap = false := by
  obtain ⟨d, -, u, -, rfl⟩ := Analysis.mem_associations_iff.mp ha
  rfl

theorem heap_eq_true_of_mem_heapAssociations
    (ha : a ∈ prog.heapAssociations settings) :
    a.heap = true := by
  simp only [Program.heapAssociations, List.mem_flatMap, List.mem_map] at ha
  obtain ⟨d, -, u, -, rfl⟩ := ha
  rfl

theorem mem_listed_iff_of_heap
    (h : a.heap = true) :
    a ∈ prog.listed oracle settings ↔
      settings.localOnly = false ∧ a ∈ prog.heapAssociations settings := by
  rw [Program.listed, mem_sortBy, List.mem_append, List.mem_ite_nil_left, Bool.not_eq_true]
  constructor
  · rintro (ha | ha)
    · rw [heap_eq_false_of_mem_associations ha] at h
      exact absurd h Bool.false_ne_true
    · exact ha
  · exact Or.inr

/-- Without the heap the list is that of the associations of local variables, sorted alone. -/
theorem filter_listed :
    (prog.listed oracle settings).filter Association.isOfLocals =
      sortBy Association.less (prog.analysis oracle settings).associations := by
  have hends := @nodup_ends_listed prog oracle settings
  unfold Program.listed at hends ⊢
  rw [filter_sortBy Association.less_iff
    (Association.nodup_keys (((sortBy_perm _).map Association.ends).nodup_iff.mp hends)),
    List.filter_append, List.filter_eq_self.mpr, List.filter_eq_nil_iff.mpr, List.append_nil]
  · intro a ha
    have hheap : a.heap = true := by
      split at ha
      · exact absurd ha List.not_mem_nil
      · exact heap_eq_true_of_mem_heapAssociations ha
    simp [Association.isOfLocals, hheap]
  · intro a ha
    rw [Association.isOfLocals, heap_eq_false_of_mem_associations ha, Bool.not_false]

theorem associations_eq
    (localOnly includeObjects : Bool) (excludedFields : List String) :
    (prog.analysis oracle
        { settings with localOnly, includeObjects, excludedFields }).associations =
      (prog.analysis oracle settings).associations :=
  rfl

end Kinds

/-- The associations on the heap are, if they are asked for, those of the definitions and uses of
tracked variables that may share a location; nothing is known about them.  Whether they are asked
for, and which variables are tracked, changes no association of local variables. -/
theorem heapAssociations_exact
    (prog : Program) (oracle : Oracle) (settings : Settings)
    (localOnly includeObjects : Bool) (excludedFields : List String)
    (hprog : prog.Finalized) :
    ∃ set events set' events',
      analyzeProgram prog oracle settings = .ok (set, events) ∧
      analyzeProgram prog oracle { settings with localOnly, includeObjects, excludedFields } =
        .ok (set', events') ∧
      (∀ d u, (∃ a ∈ set.items, a.heap = true ∧ a.definition = d ∧ a.use = u) ↔
        settings.localOnly = false ∧
        (prog.IsDef settings.formalsAsDefs d ∧ settings.Tracked d.var) ∧
        (u ∈ (prog.proc u.site.proc).usesOf u.site ∧ settings.Tracked u.var) ∧
        prog.SharesHeap d.var u.var) ∧
      (∀ a ∈ set.items, a.heap = true →
        a.classification = .nonInferrable ∧ a.localUses = [] ∧ a.hardKills = [] ∧
          a.possibleKills = []) ∧
      set.items.filter (fun a => !a.heap) = set'.items.filter (fun a => !a.heap) := by
  obtain ⟨events, hrun⟩ := @analyzeProgram_eq prog oracle settings hprog
  obtain ⟨events', hrun'⟩ := @analyzeProgram_eq prog oracle
    { settings with localOnly, includeObjects, excludedFields } hprog
  refine ⟨_, events, _, events', hrun, hrun', ?_, ?_, ?_⟩
  · intro d u
    constructor
    · rintro ⟨a, ha, hheap, rfl, rfl⟩
      rw [mem_clearPredicates_iff_of_heap hheap, mem_listed_iff_of_heap hheap,
        Program.mem_heapAssociations_iff hprog] at ha
      exact ⟨ha.1, ha.2.2⟩
    · rintro ⟨hasked, hends⟩
      refine ⟨{ definition := d, use := u, heap := true }, ?_, rfl, rfl, rfl⟩
      rw [mem_clearPredicates_iff_of_heap rfl, mem_listed_iff_of_heap rfl,
        Program.mem_heapAssociations_iff hprog]
      exact ⟨hasked, rfl, hends⟩
  · intro a ha hheap
    rw [mem_clearPredicates_iff_of_heap hheap, mem_listed_iff_of_heap hheap,
      Program.mem_heapAssociations_iff hprog] at ha
    rw [ha.2.1]
    exact ⟨rfl, rfl, rfl, rfl⟩
  · exact calc
      (clearPredicates (prog.listed oracle settings)).filter Association.isOfLocals
        = clearPredicates
            (sortBy Association.less (prog.analysis oracle settings).associations) := by
          rw [filter_clearPredicates, filter_listed]
      _ = clearPredicates (sortBy Association.less (prog.analysis oracle
            { settings with localOnly, includeObjects, excludedFields }).associations) := by
          rw [associations_eq localOnly includeObjects excludedFields]
      _ = (clearPredicates (prog.listed oracle
            { settings with localOnly, includeObjects, excludedFields })).filter
              Association.isOfLocals := by
          rw [filter_clearPredicates, filter_listed]

/-- The tangled program has an association of each kind; without the heap only the local one is
left, as it was. -/
theorem heapAssociations_exact_tangled :
    tangled.Finalized ∧
      ∃ set events set' events',
        analyzeProgram tangled .null {} = .ok (set, events) ∧
        analyzeProgram tangled .null { localOnly := true } = .ok (set', events') ∧
        (∃ a ∈ set.items, a.heap = true ∧ a.definition = ⟨⟨0, 3⟩, .ofField "T" "a", false⟩ ∧
          a.use = .computation ⟨0, 3⟩ (.ofField "T" "a")) ∧
        (set.items.filter fun a => !a.heap) = set'.items.filter (fun a => !a.heap) ∧
        (set'.items.filter fun a => !a.heap).length = 1 := by
  have hprog : tangled.Finalized := by decide +kernel
  refine ⟨hprog, ?_⟩
  obtain ⟨set, events, set', events', hrun, hrun', hheap, -, hlocal⟩ :=
    heapAssociations_exact tangled .null {} true false [] hprog
  have hone : ((analyzeProgram tangled .null { localOnly := true }).map fun r =>
      decide ((r.1.items.filter fun a => !a.heap).length = 1)) = .ok true := by
    decide +kernel
  rw [hrun'] at hone
  refine ⟨set, events, set', events', hrun, hrun', ?_, hlocal,
    of_decide_eq_true (Except.ok.inj hone)⟩
  rw [hheap]
  refine ⟨rfl, ⟨Or.inl ?_, Or.inl ?_⟩, ⟨?_, Or.inl ?_⟩, .field rfl rfl rfl rfl⟩
  · decide
  · decide
  · decide
  · decide

end DefUse
