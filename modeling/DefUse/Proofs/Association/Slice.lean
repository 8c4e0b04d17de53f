import DefUse.Association.Set
import DefUse.Proofs.Association.SliceSearch
import DefUse.Proofs.Graph.Reach
import DefUse.Proofs.Program.Less
import DefUse.Proofs.Sorted

/-!
# Slices follow the dependence of uses on definitions

A set of associations joins definitions and uses: by an association, or by a pair inside a basic
block.  The value of a use depends on a definition if a sequence of joined pairs leads from the
definition to the use, in which the next definition lies at the point of the use before it.

**Method.** The backward slice searches the graph of uses, the forward slice that of definitions.
A step of the first search extends a sequence at its front and a step of the second one at its
end, so that both searches are compared with one relation.  The loops that take the latest item of a
list and mark what they meet search the same graphs in another order.

**Results.**
* `mem_backwardSlice_iff` and `mem_forwardSlice_iff`: the slices hold exactly what depends, and
  what is depended on.
* `haltsAt_backwardSlice` and `haltsAt_forwardSlice`: the loops end with the slices.
* `slices_exact`: the two slices of every set are dual and strictly sorted, and all searches end.
-/

namespace DefUse
namespace AssociationSet

/-- A definition and a use are associated, or are a pair inside a basic block. -/
def Joins (s : AssociationSet) (d : Def) (u : Use) : Prop :=
  (∃ a ∈ s.items, a.definition = d ∧ a.use = u) ∨ (d, u) ∈ s.sameBlock

/-- The value of a use depends on a definition: a sequence of joined pairs leads from the one to the
other, and each use of the sequence lies at the point of the next definition. -/
inductive Depends (s : AssociationSet) : Def → Use → Prop
  | joined {d : Def} {u : Use} (h : s.Joins d u) : Depends s d u
  | through {d d' : Def} {w u : Use}
      (h : s.Joins d w)
      (hsite : w.site = d'.site)
      (rest : Depends s d' u) :
      Depends s d u

variable {s : AssociationSet} {d d' : Def} {u w : Use}

/-- A sequence of joined pairs is extended at its end. -/
theorem Depends.concat
    (h : s.Depends d w)
    (hsite : w.site = d'.site)
    (hlast : s.Joins d' u) :
    s.Depends d u := by
  induction h with
  | joined h => exact .through h hsite (.joined hlast)
  | through h hnext _ ih => exact .through h hnext (ih hsite)

theorem mem_pairs_iff :
    (d, u) ∈ s.pairs ↔ s.Joins d u := by
  simp [pairs, Joins]

@[simp] theorem mem_defsInto_iff :
    d ∈ s.defsInto u ↔ s.Joins d u := by
  simp [defsInto, mem_pairs_iff]

@[simp] theorem mem_usesOutOf_iff :
    u ∈ s.usesOutOf d ↔ s.Joins d u := by
  simp [usesOutOf, mem_pairs_iff]

theorem Joins.use_mem
    (h : s.Joins d u) :
    u ∈ s.pairs.map Prod.snd :=
  List.mem_map_of_mem (mem_pairs_iff.mpr h)

theorem Joins.def_mem
    (h : s.Joins d u) :
    d ∈ s.pairs.map Prod.fst :=
  List.mem_map_of_mem (mem_pairs_iff.mpr h)

theorem Depends.use_mem
    (h : s.Depends d u) :
    u ∈ s.pairs.map Prod.snd := by
  induction h with
  | joined h => exact h.use_mem
  | through _ _ _ ih => exact ih

theorem Depends.def_mem
    (h : s.Depends d u) :
    d ∈ s.pairs.map Prod.fst := by
  cases h with
  | joined h => exact h.def_mem
  | through h _ _ => exact h.def_mem

section Backward

variable {r : Use}

theorem mem_useGraph_succs_iff :
    w ∈ (s.useGraph r).succs u ↔
      w ∈ s.pairs.map Prod.snd ∧ ∃ d, s.Joins d u ∧ w.site = d.site := by
  simp only [useGraph, mem_distinct, List.mem_flatMap, mem_defsInto_iff, usesAt, List.mem_filter,
    decide_eq_true_eq]
  constructor
  · rintro ⟨d, hd, hw, hsite⟩
    exact ⟨hw, d, hd, hsite⟩
  · rintro ⟨hw, d, hd, hsite⟩
    exact ⟨d, hd, hw, hsite⟩

theorem useGraph_closed
    (s : AssociationSet) (r : Use) :
    (s.useGraph r).Closed := by
  intro u _ w hw
  have hknown := (mem_useGraph_succs_iff.mp hw).1
  exact (mem_distinct _).mpr (List.mem_cons_of_mem r hknown)

theorem mem_useGraph_nodes
    (s : AssociationSet) (r : Use) :
    ∀ w ∈ [r], w ∈ (s.useGraph r).nodes := by
  intro w hw
  rw [List.mem_singleton] at hw
  exact (mem_distinct _).mpr (by simp [hw])

/-- The search for uses goes backward along the sequences. -/
theorem exists_useGraph_reaches_iff :
    (∃ w, (s.useGraph r).Reaches u w ∧ s.Joins d w) ↔ s.Depends d u := by
  constructor
  · rintro ⟨w, hreach, hjoins⟩
    induction hreach with
    | refl u => exact .joined hjoins
    | step hstep _ ih =>
        obtain ⟨-, d', hd', hsite⟩ := mem_useGraph_succs_iff.mp hstep
        exact (ih hjoins).concat hsite hd'
  · intro h
    induction h with
    | joined h => exact ⟨_, .refl _, h⟩
    | through h hsite _ ih =>
        obtain ⟨v, hreach, hv⟩ := ih
        refine ⟨_, hreach.trans (.single ?_), h⟩
        exact mem_useGraph_succs_iff.mpr ⟨h.use_mem, _, hv, hsite⟩

theorem mem_backwardSlice_iff :
    d ∈ s.backwardSlice u ↔ s.Depends d u := by
  simp only [backwardSlice, mem_sortDistinct, List.mem_flatMap, mem_defsInto_iff,
    Digraph.mem_reach_iff (s.useGraph_closed u) (s.mem_useGraph_nodes u), List.mem_singleton,
    exists_eq_left]
  exact exists_useGraph_reaches_iff

def indexedUses (s : AssociationSet) (site : Point) : List Use :=
  (sortDistinct Use.less (s.pairs.map Prod.snd)).filter (·.site = site)

/-- In whatever order the definitions that reach a use are listed, the loop over uses ends with the
backward slice. -/
theorem haltsAt_backwardSlice
    {into : Use → List Def}
    (hinto : ∀ w e, e ∈ into w ↔ s.Joins e w) (u : Use) :
    ∃ t, HaltsAt (SliceSearch.step into fun e => s.indexedUses e.site) (.start u) t ∧
      sortDistinct Def.less t.visited = s.backwardSlice u := by
  have hedge : ∀ {w w'}, w' ∈ (s.useGraph u).succs w ↔
      ∃ e ∈ into w, w' ∈ s.indexedUses e.site := by
    intro w w'
    simp only [mem_useGraph_succs_iff, hinto, indexedUses, List.mem_filter, mem_sortDistinct,
      decide_eq_true_eq]
    constructor
    · rintro ⟨hknown, e, he, hsite⟩
      exact ⟨e, he, hknown, hsite⟩
    · rintro ⟨e, he, hknown, hsite⟩
      exact ⟨hknown, e, he, hsite⟩
  obtain ⟨t, hhalts, hvisited⟩ := SliceSearch.exists_haltsAt hedge (s.useGraph_closed u)
    (s.mem_useGraph_nodes u u List.mem_cons_self)
  refine ⟨t, hhalts, sortDistinct_eq Def.less_iff Def.key_injective
    (sortDistinct_pairwise Def.less_iff Def.key_injective _) fun e => ?_⟩
  simp only [hvisited, hinto]
  exact exists_useGraph_reaches_iff.trans mem_backwardSlice_iff.symm

end Backward

section Forward

variable {r : Def}

theorem mem_defGraph_succs_iff :
    d' ∈ (s.defGraph r).succs d ↔
      d' ∈ s.pairs.map Prod.fst ∧ ∃ u, s.Joins d u ∧ d'.site = u.site := by
  simp only [defGraph, mem_distinct, List.mem_flatMap, mem_usesOutOf_iff, defsAt, List.mem_filter,
    decide_eq_true_eq]
  constructor
  · rintro ⟨u, hu, hd, hsite⟩
    exact ⟨hd, u, hu, hsite⟩
  · rintro ⟨hd, u, hu, hsite⟩
    exact ⟨u, hu, hd, hsite⟩

theorem defGraph_closed
    (s : AssociationSet) (r : Def) :
    (s.defGraph r).Closed := by
  intro d _ d' hd'
  have hknown := (mem_defGraph_succs_iff.mp hd').1
  exact (mem_distinct _).mpr (List.mem_cons_of_mem r hknown)

theorem mem_defGraph_nodes
    (s : AssociationSet) (r : Def) :
    ∀ d ∈ [r], d ∈ (s.defGraph r).nodes := by
  intro d hd
  rw [List.mem_singleton] at hd
  exact (mem_distinct _).mpr (by simp [hd])

/-- The search for definitions goes forward along the sequences. -/
theorem exists_defGraph_reaches_iff :
    (∃ d', (s.defGraph r).Reaches d d' ∧ s.Joins d' u) ↔ s.Depends d u := by
  constructor
  · rintro ⟨d', hreach, hjoins⟩
    induction hreach with
    | refl d => exact .joined hjoins
    | step hstep _ ih =>
        obtain ⟨-, w, hw, hsite⟩ := mem_defGraph_succs_iff.mp hstep
        exact .through hw hsite.symm (ih hjoins)
  · intro h
    induction h with
    | joined h => exact ⟨_, .refl _, h⟩
    | through h hsite hrest ih =>
        obtain ⟨e, hreach, he⟩ := ih
        refine ⟨e, .step ?_ hreach, he⟩
        exact mem_defGraph_succs_iff.mpr ⟨hrest.def_mem, _, h, hsite.symm⟩

theorem mem_forwardSlice_iff :
    u ∈ s.forwardSlice d ↔ s.Depends d u := by
  simp only [forwardSlice, mem_sortDistinct, List.mem_flatMap, mem_usesOutOf_iff,
    Digraph.mem_reach_iff (s.defGraph_closed d) (s.mem_defGraph_nodes d), List.mem_singleton,
    exists_eq_left]
  exact exists_defGraph_reaches_iff

/-- The known definitions at a point, in order. -/
def indexedDefs (s : AssociationSet) (site : Point) : List Def :=
  (sortDistinct Def.less (s.pairs.map Prod.fst)).filter (·.site = site)

/-- In whatever order the uses that a definition reaches are listed, the loop over definitions ends
with the forward slice. -/
theorem haltsAt_forwardSlice
    {outOf : Def → List Use}
    (houtOf : ∀ e w, w ∈ outOf e ↔ s.Joins e w) (d : Def) :
    ∃ t, HaltsAt (SliceSearch.step outOf fun w => s.indexedDefs w.site) (.start d) t ∧
      sortDistinct Use.less t.visited = s.forwardSlice d := by
  have hedge : ∀ {e e'}, e' ∈ (s.defGraph d).succs e ↔
      ∃ w ∈ outOf e, e' ∈ s.indexedDefs w.site := by
    intro e e'
    simp only [mem_defGraph_succs_iff, houtOf, indexedDefs, List.mem_filter, mem_sortDistinct,
      decide_eq_true_eq]
    constructor
    · rintro ⟨hknown, w, hw, hsite⟩
      exact ⟨w, hw, hknown, hsite⟩
    · rintro ⟨w, hw, hknown, hsite⟩
      exact ⟨hknown, w, hw, hsite⟩
  obtain ⟨t, hhalts, hvisited⟩ := SliceSearch.exists_haltsAt hedge (s.defGraph_closed d)
    (s.mem_defGraph_nodes d d List.mem_cons_self)
  refine ⟨t, hhalts, sortDistinct_eq Use.less_iff Use.key_injective
    (sortDistinct_pairwise Use.less_iff Use.key_injective _) fun w => ?_⟩
  simp only [hvisited, houtOf]
  exact exists_defGraph_reaches_iff.trans mem_forwardSlice_iff.symm

end Forward

/-- The slices of every set hold exactly what depends and what is depended on, and are therefore
dual; they are sorted strictly, and both searches are over within their steps.  The two loops over a
list of waiting items end with them, in whatever order definitions and uses are listed. -/
theorem slices_exact
    (s : AssociationSet) (d : Def) (u : Use) :
    (s.useGraph u).Rests [u] ∧ (s.defGraph d).Rests [d] ∧
      (d ∈ s.backwardSlice u ↔ s.Depends d u) ∧
      (u ∈ s.forwardSlice d ↔ s.Depends d u) ∧
      (d ∈ s.backwardSlice u ↔ u ∈ s.forwardSlice d) ∧
      (s.backwardSlice u).Pairwise (fun a b => a.less b = true) ∧
      (s.forwardSlice d).Pairwise (fun a b => a.less b = true) ∧
      (∀ into : Use → List Def, (∀ w e, e ∈ into w ↔ s.Joins e w) →
        ∃ t, HaltsAt (SliceSearch.step into fun e => s.indexedUses e.site) (.start u) t ∧
          sortDistinct Def.less t.visited = s.backwardSlice u) ∧
      ∀ outOf : Def → List Use, (∀ e w, w ∈ outOf e ↔ s.Joins e w) →
        ∃ t, HaltsAt (SliceSearch.step outOf fun w => s.indexedDefs w.site) (.start d) t ∧
          sortDistinct Use.less t.visited = s.forwardSlice d := by
  refine ⟨Digraph.rests_of_closed (s.useGraph_closed u) (s.mem_useGraph_nodes u),
    Digraph.rests_of_closed (s.defGraph_closed d) (s.mem_defGraph_nodes d),
    mem_backwardSlice_iff, mem_forwardSlice_iff, ?_, ?_, ?_, ?_, ?_⟩
  · rw [mem_backwardSlice_iff, mem_forwardSlice_iff]
  · exact sortDistinct_pairwise Def.less_iff Def.key_injective _
  · exact sortDistinct_pairwise Use.less_iff Use.key_injective _
  · exact fun into hinto => haltsAt_backwardSlice hinto u
  · exact fun outOf houtOf => haltsAt_forwardSlice houtOf d

/-- A value that is read where another one is written, which is read in the same block. -/
def relay : AssociationSet where
  items := [
    { definition := ⟨⟨0, 2⟩, .ofLocal "f" "x", false⟩
      use := .computation ⟨0, 3⟩ (.ofLocal "f" "x")
      localUses := [] }]
  sameBlock := [(⟨⟨0, 3⟩, .ofLocal "f" "y", false⟩, .computation ⟨0, 4⟩ (.ofLocal "f" "y"))]

/-- The value read last depends on both definitions, and the loop finds them. -/
theorem slices_exact_relay :
    let last : Use := .computation ⟨0, 4⟩ (.ofLocal "f" "y")
    ∃ t, HaltsAt (SliceSearch.step relay.defsInto fun e => relay.indexedUses e.site)
        (.start last) t ∧
      sortDistinct Def.less t.visited =
        [⟨⟨0, 2⟩, .ofLocal "f" "x", false⟩, ⟨⟨0, 3⟩, .ofLocal "f" "y", false⟩] := by
  intro last
  obtain ⟨-, -, -, -, -, -, -, hloop, -⟩ := slices_exact relay
    ⟨⟨0, 2⟩, .ofLocal "f" "x", false⟩ last
  obtain ⟨t, hhalts, hslice⟩ := hloop relay.defsInto fun w e => mem_defsInto_iff
  refine ⟨t, hhalts, hslice.trans ?_⟩
  decide

end AssociationSet
end DefUse
