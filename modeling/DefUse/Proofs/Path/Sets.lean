import DefUse.Proofs.Path.Numbering

/-!
# The sets of paths of a numbering

**Method.** Every set of a numbering holds the numbers of the paths that have an edge with some
property.  The paths are paths of the acyclic graph, so the kind of an edge tells what it stands
for, and the position of a back edge is unique.

**Results.** `Numbers.test_nodePaths_iff`, `Numbers.test_pathsOf_iff` and
`Numbers.connection?_eq_some_iff`: which paths go through a node, take an edge, or end and start at
a back edge.
-/

namespace DefUse

/-- In a list without repetitions a member has one position. -/
theorem getElem?_eq_some_iff_idxOf
    {α : Type} [DecidableEq α] {xs : List α} {x : α} {i : Nat}
    (hxs : xs.Nodup) :
    xs[i]? = some x ↔ x ∈ xs ∧ xs.idxOf x = i := by
  constructor
  · intro h
    obtain ⟨hi, rfl⟩ := List.getElem?_eq_some_iff.mp h
    exact ⟨List.getElem_mem hi, hxs.idxOf_getElem i hi⟩
  · rintro ⟨hx, rfl⟩
    exact List.getElem?_idxOf hx

namespace Numbering

variable {f : Procedure} {nb : Numbering} {bound : Int64} {order : List Int} {id : Nat}
  {p : PathEdge → Bool}

/-- The path has the number. -/
def HasPath (nb : Numbering) (id : Nat) (path : List PathEdge) : Prop :=
  id < nb.size ∧ nb.edges? (Int64.ofNat id) = .ok path

theorem HasPath.unique
    {path path' : List PathEdge}
    (h : nb.HasPath id path)
    (h' : nb.HasPath id path') :
    path = path' :=
  Except.ok.inj (h.2.symm.trans h'.2)

/-- The numbers of the paths that have an edge with a property. -/
def numbersWith (nb : Numbering) (p : PathEdge → Bool) : Bits :=
  pathsWith (allPaths nb.out nb.counts nb.size) p

@[simp] theorem length_numbersWith
    (nb : Numbering) (p : PathEdge → Bool) :
    (nb.numbersWith p).length = nb.size := by
  simp [numbersWith, pathsWith, allPaths]

theorem test_numbersWith_iff :
    (nb.numbersWith p).test id = true ↔ ∃ path, nb.HasPath id path ∧ ∃ x ∈ path, p x = true := by
  simp only [numbersWith, pathsWith, Bits.test_ofPred, Bool.and_eq_true, decide_eq_true_eq]
  constructor
  · rintro ⟨hid, hany⟩
    have hlt : id < nb.size := by simpa [allPaths] using hid
    cases hpath : nb.edges? (Int64.ofNat id) with
    | ok path =>
        refine ⟨path, ⟨hlt, hpath⟩, ?_⟩
        rw [edges?] at hpath
        simpa [allPaths, hlt, hpath] using hany
    | error fault =>
        rw [edges?] at hpath
        simp [allPaths, hlt, hpath] at hany
  · rintro ⟨path, ⟨hlt, hpath⟩, x, hx, hp⟩
    rw [edges?] at hpath
    refine ⟨by simpa [allPaths] using hlt, ?_⟩
    have : path.any p = true := List.any_eq_true.mpr ⟨x, hx, hp⟩
    simpa [allPaths, hlt, hpath] using this

theorem isReal_iff
    {e : Edge} {x : PathEdge} :
    isReal e x = true ↔ x.kind = .real ∧ x.source = e.source ∧ x.target = e.target := by
  simp [isReal, and_assoc]

theorem isLoopExit_iff
    {i : Nat} {x : PathEdge} :
    isLoopExit i x = true ↔ x.kind = .loopExit ∧ x.index = i := by
  simp [isLoopExit]

theorem isLoopEntry_iff
    {i : Nat} {x : PathEdge} :
    isLoopEntry i x = true ↔ x.kind = .loopEntry ∧ x.index = i := by
  simp [isLoopEntry]

theorem isCallExit_iff
    {v : Int} {x : PathEdge} :
    isCallExit v x = true ↔ x.kind = .callExit ∧ x.source = v := by
  simp [isCallExit]

theorem mem_flowEdges_iff
    {e : Edge} :
    e ∈ flowEdges f ↔ e.source ∈ f.ids ∧ e.target ∈ (f.node e.source).succs := by
  simp only [flowEdges, List.mem_flatMap, List.mem_map]
  constructor
  · rintro ⟨v, hv, s, hs, rfl⟩
    exact ⟨hv, hs⟩
  · rintro ⟨hv, hs⟩
    exact ⟨e.source, hv, e.target, hs, rfl⟩

namespace Numbers

open Procedure

variable {e : Edge} {v : Int}

theorem isPath
    (h : Numbers f bound order nb)
    (hf : f.Simple)
    {path : List PathEdge}
    (hpath : nb.HasPath id path) :
    f.IsPath path :=
  h.isPath_of_edges? hf hpath.2

section Nodes

theorem item?_nodePaths
    (h : Numbers f bound order nb) :
    (item? nb.nodePaths v).getD (.empty nb.size) =
      if v ∈ f.ids then nb.numbersWith fun x => v = entryId || x.target = v
      else .empty nb.size := by
  rw [h.nodePaths]
  exact getD_item?_map_positions _ _ v _

theorem item?_callPaths
    (h : Numbers f bound order nb) :
    (item? nb.callPaths v).getD (.empty nb.size) =
      if v ∈ f.ids then nb.numbersWith (isCallExit v) else .empty nb.size := by
  rw [h.callPaths]
  exact getD_item?_map_positions _ _ v _

/-- The paths through a node are those that go on from it. -/
theorem test_nodePaths_iff
    (h : Numbers f bound order nb)
    (hf : f.Simple) :
    ((item? nb.nodePaths v).getD (.empty nb.size)).test id = true ↔
      ∃ path, nb.HasPath id path ∧ ∃ rest, rest <:+ path ∧ startOf rest = v := by
  rw [h.item?_nodePaths]
  constructor
  · split
    · intro hid
      obtain ⟨path, hpath, x, hx, hv⟩ := test_numbersWith_iff.mp hid
      have hispath := h.isPath hf hpath
      refine ⟨path, hpath, ?_⟩
      rcases Bool.or_eq_true_iff.mp hv with hentry | htarget
      · refine ⟨path, List.suffix_rfl, ?_⟩
        rw [hispath.startOf_eq]
        exact (of_decide_eq_true hentry).symm
      · obtain ⟨front, back, rfl⟩ := List.append_of_mem hx
        obtain ⟨hsuffix, hstart⟩ := hispath.startOf_tail ⟨front, rfl⟩
        exact ⟨back, hsuffix, hstart.trans (of_decide_eq_true htarget)⟩
    · intro hid
      rw [Bits.test_empty] at hid
      exact absurd hid Bool.false_ne_true
  · rintro ⟨path, hpath, rest, ⟨front, rfl⟩, rfl⟩
    have hispath := h.isPath hf hpath
    have hmem : ∃ x ∈ front ++ rest, (decide (startOf rest = entryId) ||
        decide (x.target = startOf rest)) = true := by
      rcases List.eq_nil_or_concat front with rfl | ⟨front, x, rfl⟩
      · have hstart : startOf rest = entryId := hispath.startOf_eq
        cases rest with
        | nil => exact absurd hstart (show exitId ≠ entryId by decide)
        | cons x rest => exact ⟨x, List.mem_cons_self, by simp [hstart]⟩
      · rw [List.concat_eq_append, List.append_assoc] at hispath
        have hstart : startOf rest = x.target := (hispath.startOf_tail ⟨front, rfl⟩).2
        exact ⟨x, by simp, by simp [hstart]⟩
    have hids : startOf rest ∈ f.ids := by
      obtain ⟨x, hx, hor⟩ := hmem
      rcases Bool.or_eq_true_iff.mp hor with hentry | htarget
      · rw [of_decide_eq_true hentry]
        exact hf.entry_mem
      · rw [← of_decide_eq_true htarget]
        exact hf.target_mem (hispath.isPathEdge hx)
    rw [if_pos hids]
    exact test_numbersWith_iff.mpr ⟨_, hpath, hmem⟩

end Nodes

section Edges

theorem pathsOf_eq
    (h : Numbers f bound order nb) :
    nb.pathsOf e =
      if e ∈ flowEdges f then
        nb.numbersWith fun x => isReal e x ||
          (decide (e ∈ f.backEdges) && isLoopExit (f.backEdges.idxOf e) x)
      else .empty nb.size := by
  unfold pathsOf
  rw [h.edgePaths, lookup_map_self]
  split <;> rfl

@[simp] theorem length_pathsOf
    (h : Numbers f bound order nb)
    (e : Edge) :
    (nb.pathsOf e).length = nb.size := by
  rw [h.pathsOf_eq]
  split
  · exact length_numbersWith _ _
  · rfl

/-- The edge of the acyclic graph stands for an edge of the procedure, which it takes or, if that is
a back edge, leaves through. -/
def Takes (f : Procedure) (e : Edge) (x : PathEdge) : Prop :=
  isReal e x = true ∨ ∃ i : Nat, f.backEdges[i]? = some e ∧ isLoopExit i x = true

theorem Takes.source_eq
    {x : PathEdge}
    (hx : f.IsPathEdge x)
    (h : Takes f e x) :
    x.source = e.source ∧ e.target ∈ (f.node e.source).succs := by
  rcases h with h | ⟨i, hi, h⟩
  · obtain ⟨hkind, hsource, htarget⟩ := isReal_iff.mp h
    have hsucc := (hx.of_real hkind).1
    rw [hsource, htarget] at hsucc
    exact ⟨hsource, hsucc⟩
  · obtain ⟨hkind, hindex⟩ := isLoopExit_iff.mp h
    obtain ⟨j, b, hb, hj, hsource⟩ := hx.of_loopExit hkind
    obtain rfl : i = j := by omega
    obtain rfl : e = b := Option.some.inj (hi.symm.trans hb)
    exact ⟨hsource, (mem_backEdges (List.mem_of_getElem? hi)).2⟩

theorem Takes.unique
    {e' : Edge} {x : PathEdge}
    (h : Takes f e x)
    (h' : Takes f e' x) :
    e = e' := by
  rcases h with h | ⟨i, hi, h⟩ <;> rcases h' with h' | ⟨j, hj, h'⟩
  · obtain ⟨-, hsource, htarget⟩ := isReal_iff.mp h
    obtain ⟨-, hsource', htarget'⟩ := isReal_iff.mp h'
    cases e
    cases e'
    rw [Edge.mk.injEq]
    exact ⟨hsource.symm.trans hsource', htarget.symm.trans htarget'⟩
  · have hkind := (isReal_iff.mp h).1.symm.trans (isLoopExit_iff.mp h').1
    exact absurd hkind (by decide)
  · have hkind := (isReal_iff.mp h').1.symm.trans (isLoopExit_iff.mp h).1
    exact absurd hkind (by decide)
  · have hindex := (isLoopExit_iff.mp h).2.symm.trans (isLoopExit_iff.mp h').2
    obtain rfl : i = j := Int.ofNat.inj hindex
    exact Option.some.inj (hi.symm.trans hj)

/-- A path takes one edge out of a node. -/
theorem takes_unique
    (h : Numbers f bound order nb)
    (hf : f.Simple)
    {path : List PathEdge} {x x' : PathEdge} {s s' : Int}
    (hpath : nb.HasPath id path)
    (hx : x ∈ path)
    (hx' : x' ∈ path)
    (htakes : Takes f ⟨v, s⟩ x)
    (htakes' : Takes f ⟨v, s'⟩ x') :
    s = s' := by
  have hispath := h.isPath hf hpath
  have hsource := (htakes.source_eq (hispath.isPathEdge hx)).1
  have hsource' := (htakes'.source_eq (hispath.isPathEdge hx')).1
  obtain rfl := (hf.ranks h.sorted).eq_of_source_eq hispath hx hx' (hsource.trans hsource'.symm)
  exact (Edge.mk.inj (htakes.unique htakes')).2

/-- The paths of an edge are those that take it. -/
theorem test_pathsOf_iff
    (h : Numbers f bound order nb)
    (hf : f.Simple) :
    (nb.pathsOf e).test id = true ↔
      ∃ path, nb.HasPath id path ∧ ∃ x ∈ path, Takes f e x := by
  have htakes : ∀ x, (isReal e x ||
      (decide (e ∈ f.backEdges) && isLoopExit (f.backEdges.idxOf e) x)) = true ↔
      Takes f e x := by
    intro x
    simp only [Takes, Bool.or_eq_true, Bool.and_eq_true, decide_eq_true_eq,
      getElem?_eq_some_iff_idxOf hf.backEdges_nodup]
    refine or_congr_right ⟨?_, ?_⟩
    · rintro ⟨he, hx⟩
      exact ⟨_, ⟨he, rfl⟩, hx⟩
    · rintro ⟨i, ⟨he, rfl⟩, hx⟩
      exact ⟨he, hx⟩
  rw [h.pathsOf_eq]
  constructor
  · split
    · intro hid
      obtain ⟨path, hpath, x, hx, hp⟩ := test_numbersWith_iff.mp hid
      exact ⟨path, hpath, x, hx, (htakes x).mp hp⟩
    · intro hid
      rw [Bits.test_empty] at hid
      exact absurd hid Bool.false_ne_true
  · rintro ⟨path, hpath, x, hx, htake⟩
    have hedge := (h.isPath hf hpath).isPathEdge hx
    obtain ⟨hsource, hsucc⟩ := htake.source_eq hedge
    have hflow : e ∈ flowEdges f := by
      refine mem_flowEdges_iff.mpr ⟨?_, hsucc⟩
      rw [← hsource]
      exact hf.source_mem hedge
    rw [if_pos hflow]
    exact test_numbersWith_iff.mpr ⟨path, hpath, x, hx, (htakes x).mpr htake⟩

end Edges

section Connections

/-- The connection point of a back edge by its position. -/
def connectionAt (nb : Numbering) (e : Edge) (i : Nat) : Connection :=
  ⟨e, nb.numbersWith (isLoopExit i), nb.numbersWith (isLoopEntry i)⟩

theorem connections_eq
    (h : Numbers f bound order nb) :
    nb.connections = f.backEdges.zipIdx.map fun (e, i) => connectionAt nb e i :=
  h.connections

theorem connection?_eq_some_iff
    (h : Numbers f bound order nb)
    (hf : f.Simple)
    {c : Connection} :
    nb.connection? e = some c ↔
      ∃ i : Nat, f.backEdges[i]? = some e ∧ c = connectionAt nb e i := by
  unfold connection?
  rw [h.connections_eq, List.find?_map]
  constructor
  · intro hc
    obtain ⟨⟨b, i⟩, hfind, rfl⟩ := Option.map_eq_some_iff.mp hc
    obtain rfl : b = e := by simpa [connectionAt] using List.find?_some hfind
    exact ⟨i, List.mem_zipIdx_iff_getElem?.mp (List.mem_of_find?_eq_some hfind), rfl⟩
  · rintro ⟨i, hi, rfl⟩
    have hmem : (e, i) ∈ f.backEdges.zipIdx := List.mem_zipIdx_iff_getElem?.mpr hi
    cases hfind : f.backEdges.zipIdx.find?
        ((fun c : Connection => decide (c.edge = e)) ∘ fun (e, i) => connectionAt nb e i) with
    | none =>
        have hnone := List.find?_eq_none.mp hfind (e, i) hmem
        simp [connectionAt] at hnone
    | some x =>
        obtain ⟨b, j⟩ := x
        obtain rfl : b = e := by simpa [connectionAt] using List.find?_some hfind
        have hj : f.backEdges[j]? = some b :=
          List.mem_zipIdx_iff_getElem?.mp (List.mem_of_find?_eq_some hfind)
        rw [hf.backEdge_index_unique hi hj]
        rfl

theorem connection?_eq_none_iff
    (h : Numbers f bound order nb)
    (hf : f.Simple) :
    nb.connection? e = none ↔ e ∉ f.backEdges := by
  constructor
  · intro hnone he
    obtain ⟨i, hi⟩ := List.mem_iff_getElem?.mp he
    rw [(h.connection?_eq_some_iff hf).mpr ⟨i, hi, rfl⟩] at hnone
    exact Option.some_ne_none _ hnone
  · intro he
    cases hc : nb.connection? e with
    | none => rfl
    | some c =>
        obtain ⟨i, hi, -⟩ := (h.connection?_eq_some_iff hf).mp hc
        exact absurd (List.mem_of_getElem? hi) he

end Connections

end Numbers
end Numbering
end DefUse
