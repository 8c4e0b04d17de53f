import DefUse.Proofs.Path.Equations
import DefUse.Proofs.Path.Sets

/-!
# Segments of paths

A path brings a value from a node to a use if it goes on from the node by edges of the procedure,
past nodes that do not define the variable, and then gets to the use.

**Method.** A path comes to a node once.  So the edges that the equations follow one by one, each
of them taken by the path, lie behind each other on it.

**Results.** `Numbers.sized`: the equations of an association are those of a procedure;
`Carried.finish_iff` and `Carried.start_iff`: the paths that get to a place are those that bring
the value there.
-/

namespace DefUse
namespace Numbering

variable {f : Procedure} {nb : Numbering} {bound : Int64} {order : List Int} {a : Association}
  {v : Int} {id : Nat} {place : Expr.Place}

/-- The path comes to a node and goes on as described. -/
def Onward (v : Int) (P : List PathEdge → Prop) (path : List PathEdge) : Prop :=
  ∃ rest, rest <:+ path ∧ Procedure.startOf rest = v ∧ P rest

/-- Edges of the procedure lead to an edge that arrives, past nodes that do not define the
variable. -/
def Brings (nb : Numbering) (x : Variable) (arrives : PathEdge → Prop)
    (edges : List PathEdge) : Prop :=
  ∃ segment e rest, edges = segment ++ e :: rest ∧
    (∀ y ∈ segment, y.kind = .real ∧ nb.defines x y.target = false) ∧ arrives e

/-- The edge gets to a use: to its node or, for a use on a branch, through the branch, which may be
a back edge. -/
def Arrives (nb : Numbering) (u : Use) (e : PathEdge) : Prop :=
  if u.isPredicate then
    (e.kind = .real ∧ e.source = u.site.node ∧ e.target = u.succ) ∨
      ∃ i : Nat, nb.backEdges[i]? = some ⟨u.site.node, u.succ⟩ ∧ e.kind = .loopExit ∧ e.index = i
  else e.kind = .real ∧ e.target = u.site.node

/-- The edge ends the path by taking a back edge. -/
def LeavesBy (i : Nat) (e : PathEdge) : Prop := e.kind = .loopExit ∧ e.index = i

section Brings

variable {x : Variable} {arrives : PathEdge → Prop}

theorem not_brings_nil : ¬ nb.Brings x arrives [] := by
  rintro ⟨segment, e, rest, h, -⟩
  simp at h

theorem brings_cons_iff
    {e : PathEdge} {rest : List PathEdge} :
    nb.Brings x arrives (e :: rest) ↔
      arrives e ∨ e.kind = .real ∧ nb.defines x e.target = false ∧ nb.Brings x arrives rest := by
  constructor
  · rintro ⟨segment, e', rest', h, hsegment, harrives⟩
    cases segment with
    | nil =>
        obtain ⟨rfl, -⟩ := List.cons.inj h
        exact Or.inl harrives
    | cons y segment =>
        obtain ⟨rfl, rfl⟩ := List.cons.inj h
        obtain ⟨hkind, hclear⟩ := hsegment e List.mem_cons_self
        refine Or.inr ⟨hkind, hclear, segment, e', rest', rfl, ?_, harrives⟩
        exact fun z hz => hsegment z (List.mem_cons_of_mem e hz)
  · rintro (harrives | ⟨hkind, hclear, segment, e', rest', rfl, hsegment, harrives⟩)
    · exact ⟨[], e, rest, rfl, fun y hy => absurd hy List.not_mem_nil, harrives⟩
    · refine ⟨e :: segment, e', rest', rfl, ?_, harrives⟩
      intro y hy
      rcases List.mem_cons.mp hy with rfl | hy
      · exact ⟨hkind, hclear⟩
      · exact hsegment y hy

end Brings

section Problem

theorem test_endingsOf_iff
    {q : Use → Bool} :
    (nb.endingsOf a q).test place id = true ↔
      ∃ w ∈ a.localUses, q w = true ∧ place = .node w.site.node ∧
        (nb.usePaths a w).test id = true := by
  have hfold : ∀ (uses : List Use) (acc : Expr Unit),
      (uses.foldl (fun acc w => acc.merge (.ending w.site.node (nb.usePaths a w)))
          acc).test place id = true ↔
        acc.test place id = true ∨ ∃ w ∈ uses, place = .node w.site.node ∧
          (nb.usePaths a w).test id = true := by
    intro uses
    induction uses with
    | nil => simp
    | cons w rest ih =>
        intro acc
        rw [List.foldl_cons, ih]
        simp only [Expr.test_merge, Bool.or_eq_true, Expr.test_ending_iff, List.mem_cons,
          exists_eq_or_imp, or_assoc]
  unfold endingsOf
  rw [hfold]
  simp only [Expr.test_empty, Bool.false_eq_true, false_or, List.mem_filter, and_assoc]

namespace Numbers

open Procedure

theorem length_usePaths
    (h : Numbers f bound order nb)
    (a : Association) (w : Use) :
    (nb.usePaths a w).length = nb.size := by
  unfold usePaths
  split
  · rw [h.item?_callPaths]
    split
    · exact length_numbersWith _ _
    · rfl
  · split
    · exact h.length_pathsOf _
    · rw [h.item?_nodePaths]
      split
      · exact length_numbersWith _ _
      · rfl

theorem mem_ids_of_test_usePaths
    (h : Numbers f bound order nb)
    {w : Use}
    (hid : (nb.usePaths a w).test id = true) :
    w.site.node ∈ f.ids := by
  have hempty : (Bits.empty nb.size).test id ≠ true := by
    rw [Bits.test_empty]
    exact Bool.false_ne_true
  by_contra hnode
  unfold usePaths at hid
  split at hid
  · rw [h.item?_callPaths, if_neg hnode] at hid
    exact hempty hid
  · split at hid
    · rw [h.pathsOf_eq, if_neg fun hflow => hnode (mem_flowEdges_iff.mp hflow).1] at hid
      exact hempty hid
    · rw [h.item?_nodePaths, if_neg hnode] at hid
      exact hempty hid

theorem fits_endingsOf
    (h : Numbers f bound order nb)
    (a : Association) (q : Use → Bool) :
    (nb.problem a).Fits (nb.endingsOf a q) := by
  refine ⟨?_, ?_⟩
  · unfold endingsOf
    refine List.foldlRecOn (motive := Expr.Canonical nb.size) _ _ .empty ?_
    intro acc hacc w _
    exact hacc.merge (.ending (h.length_usePaths a w) _)
  · intro place id htest
    obtain ⟨w, -, -, rfl, hid⟩ := test_endingsOf_iff.mp htest
    refine List.mem_append_left _ (List.mem_map_of_mem ?_)
    change w.site.node ∈ nb.proc.ids
    rw [h.proc]
    exact h.mem_ids_of_test_usePaths hid

/-- The equations of an association fit the procedure. -/
theorem sized
    (h : Numbers f bound order nb)
    (hf : f.Simple)
    (a : Association) :
    (nb.problem a).Sized where
  closed := by
    change ∀ v ∈ nb.proc.ids, ∀ s ∈ (nb.proc.node v).succs, s ∈ nb.proc.ids
    rw [h.proc]
    intro v hv s hs
    have hclosed := hf.closed v (by rw [graph_nodes]; exact hv) s (by rw [graph_succs]; exact hs)
    rwa [graph_nodes] at hclosed
  gen := fun _ => h.fits_endingsOf a _
  edgeGen := fun _ => h.fits_endingsOf a _
  pathsOf := h.length_pathsOf
  connection := by
    intro e c hc
    obtain ⟨i, hi, rfl⟩ := (h.connection?_eq_some_iff hf).mp hc
    refine ⟨?_, length_numbersWith _ _⟩
    change e ∈ nb.backEdges
    rw [h.backEdges]
    exact List.mem_of_getElem? hi

end Numbers

end Problem

/-- The equations of an association with one local use, whose definition blocks no node that does
not define the variable. -/
structure Carried (f : Procedure) (bound : Int64) (order : List Int) (nb : Numbering)
    (a : Association) : Prop where
  numbers : Numbers f bound order nb
  simple : f.Simple
  localUses : a.localUses = [a.use]
  blocked : ∀ e, f.IsPathEdge e →
    (nb.problem a).blocked e.target = nb.defines a.definition.var e.target

namespace Carried

open Procedure Numbers

/-- The path with the number comes to a node and goes on as described. -/
def GoesOn (nb : Numbering) (id : Nat) (v : Int) (P : List PathEdge → Prop) : Prop :=
  ∃ path, nb.HasPath id path ∧ Onward v P path

/-- The place is the node of the use, or a back edge after which some path gets on. -/
def Possible (nb : Numbering) (a : Association) : Expr.Place → Prop
  | .node w => w = a.use.site.node
  | .edge b => ∃ (i : Nat) (place : Expr.Place) (next : Nat), nb.backEdges[i]? = some b ∧
      (nb.problem a).Covers (.start b.target) place next ∧
      (nb.numbersWith (isLoopEntry i)).test next = true

/-- The edge by which a path gets to a place. -/
def Gets (nb : Numbering) (a : Association) : Expr.Place → PathEdge → Prop
  | .node _, e => nb.Arrives a.use e
  | .edge b, e => ∃ i : Nat, nb.backEdges[i]? = some b ∧ LeavesBy i e

/-- The path brings the value from the end of a node to a place. -/
def Carries (nb : Numbering) (a : Association) (v : Int) (place : Expr.Place) (id : Nat) : Prop :=
  Possible nb a place ∧ GoesOn nb id v (nb.Brings a.definition.var (Gets nb a place))

/-- What the equations say at a spot, in terms of paths. -/
def At (nb : Numbering) (a : Association) (place : Expr.Place) (id : Nat) : Spot → Prop
  | .start v =>
    (a.use.isPredicate = false ∧ place = .node v ∧ v = a.use.site.node ∧
        GoesOn nb id v fun _ => True) ∨
      (nb.problem a).blocked v = false ∧ Carries nb a v place id
  | .finish v => Carries nb a v place id

section Generated

theorem test_gen_iff
    (h : Carried f bound order nb a) :
    ((nb.problem a).gen v).test place id = true ↔
      a.use.isPredicate = false ∧ place = .node v ∧ v = a.use.site.node ∧
        GoesOn nb id v fun _ => True := by
  have hgen : ((nb.problem a).gen v).test place id = true ↔ _ := test_endingsOf_iff
  rw [hgen, h.localUses]
  simp only [List.mem_singleton, exists_eq_left, onBranch, decide_true, Bool.true_and,
    Bool.and_eq_true, Bool.not_eq_true', decide_eq_true_eq, and_assoc]
  refine and_congr_right fun hpred => ?_
  have hpaths : nb.usePaths a a.use =
      (item? nb.nodePaths a.use.site.node).getD (.empty nb.size) := by
    unfold usePaths
    rw [if_neg (fun hne => hne rfl), if_neg (by rw [hpred]; exact Bool.false_ne_true)]
  rw [hpaths, h.numbers.test_nodePaths_iff h.simple]
  constructor
  · rintro ⟨rfl, rfl, path, hpath, rest, hrest, hstart⟩
    exact ⟨rfl, rfl, path, hpath, rest, hrest, hstart, trivial⟩
  · rintro ⟨rfl, rfl, path, hpath, rest, hrest, hstart, -⟩
    exact ⟨rfl, rfl, path, hpath, rest, hrest, hstart⟩

theorem test_edgeGen_iff
    (h : Carried f bound order nb a)
    {e : Edge} :
    ((nb.problem a).edgeGen e).test place id = true ↔
      a.use.isPredicate = true ∧ e = ⟨a.use.site.node, a.use.succ⟩ ∧
        place = .node a.use.site.node ∧
        ∃ path, nb.HasPath id path ∧ ∃ x ∈ path, Takes f e x := by
  have hgen : ((nb.problem a).edgeGen e).test place id = true ↔ _ := test_endingsOf_iff
  rw [hgen, h.localUses]
  simp only [List.mem_singleton, exists_eq_left, onBranch, Bool.and_eq_true, decide_eq_true_eq,
    and_assoc, true_and]
  refine and_congr_right fun hpred => ?_
  have hpaths : nb.usePaths a a.use = nb.pathsOf ⟨a.use.site.node, a.use.succ⟩ := by
    unfold usePaths
    rw [if_neg (fun hne => hne rfl), if_pos hpred]
  rw [hpaths, h.numbers.test_pathsOf_iff h.simple]
  constructor
  · rintro ⟨hsource, htarget, hplace, hpath⟩
    obtain rfl : e = ⟨a.use.site.node, a.use.succ⟩ := by
      cases e
      simp_all
    exact ⟨rfl, hplace, hpath⟩
  · rintro ⟨rfl, hplace, hpath⟩
    exact ⟨rfl, rfl, hplace, hpath⟩

end Generated

section Arrivals

variable {e : PathEdge} {b : Edge} {i : Nat}

/-- The edge gets to a use on a branch exactly if it takes the branch. -/
theorem arrives_iff_takes
    (h : Carried f bound order nb a)
    (hpred : a.use.isPredicate = true) :
    nb.Arrives a.use e ↔ Takes f ⟨a.use.site.node, a.use.succ⟩ e := by
  simp only [Arrives, if_pos hpred, h.numbers.backEdges, Takes, isReal_iff, isLoopExit_iff]

theorem gets_edge_eq
    (h : Carried f bound order nb a)
    (hi : nb.backEdges[i]? = some b) :
    Gets nb a (.edge b) = LeavesBy i := by
  funext e
  refine propext ⟨?_, fun hleaves => ⟨i, hi, hleaves⟩⟩
  rintro ⟨j, hj, hleaves⟩
  rw [h.numbers.backEdges] at hi hj
  rwa [h.simple.backEdge_index_unique hi hj]

theorem mem_succs
    (h : Carried f bound order nb a)
    {s : Int}
    (hs : s ∈ (f.node v).succs) :
    s ∈ ((nb.problem a).numbering.proc.node v).succs := by
  change s ∈ (nb.proc.node v).succs
  rw [h.numbers.proc]
  exact hs

end Arrivals

section Steps

variable {e : PathEdge}

/-- A path that takes an edge of the procedure that is no back edge goes on from its target. -/
theorem goesOn_of_pass
    (h : Carried f bound order nb a)
    {s : Int}
    (hreal : nb.connection? ⟨v, s⟩ = none)
    (hid : (nb.pathsOf ⟨v, s⟩).test id = true)
    {P : List PathEdge → Prop}
    (hP : ∀ e rest, f.IsPathEdge e → e.kind = .real → e.target = s →
      (∀ path, nb.HasPath id path → ∀ rest', rest' <:+ path → startOf rest' = s → rest' = rest) →
      P (e :: rest)) :
    GoesOn nb id v P := by
  obtain ⟨path, hpath, e, he, htakes⟩ := (h.numbers.test_pathsOf_iff h.simple).mp hid
  have hispath := h.numbers.isPath h.simple hpath
  have hedge := hispath.isPathEdge he
  rw [h.numbers.connection?_eq_none_iff h.simple] at hreal
  rcases htakes with hreal' | ⟨i, hi, -⟩
  · obtain ⟨hkind, hsource, htarget⟩ := isReal_iff.mp hreal'
    obtain ⟨front, rest, rfl⟩ := List.append_of_mem he
    obtain ⟨hsuffix, hstart⟩ := hispath.startOf_tail ⟨front, rfl⟩
    refine ⟨_, hpath, e :: rest, ⟨front, rfl⟩, hsource, hP e rest hedge hkind htarget ?_⟩
    intro path' hpath' rest' hrest' hstart'
    obtain rfl := hpath.unique hpath'
    refine (h.simple.ranks h.numbers.sorted).suffix_unique hispath hrest' hsuffix ?_
    rw [hstart', hstart, htarget]
  · exact absurd (List.mem_of_getElem? hi) hreal

/-- What the equations say of a path at a spot is so. -/
theorem at_of_covers
    (h : Carried f bound order nb a)
    {spot : Spot}
    (hcovers : (nb.problem a).Covers spot place id) :
    At nb a place id spot := by
  -- one clause of the equations after the other; an edge that the path takes lies right before
  -- the rest of it, since the path comes to its target once
  induction hcovers with
  | gen hgen => exact Or.inl (h.test_gen_iff.mp hgen)
  | through hopen _ ih => exact Or.inr ⟨hopen, ih⟩
  | edge hs hgen =>
      obtain ⟨hpred, heq, rfl, path, hpath, e, he, htakes⟩ := h.test_edgeGen_iff.mp hgen
      have hispath := h.numbers.isPath h.simple hpath
      obtain ⟨hsource, -⟩ := htakes.source_eq (hispath.isPathEdge he)
      obtain ⟨front, rest, rfl⟩ := List.append_of_mem he
      refine ⟨rfl, _, hpath, e :: rest, ⟨front, rfl⟩, hsource, brings_cons_iff.mpr (Or.inl ?_)⟩
      rw [heq] at htakes
      exact (h.arrives_iff_takes hpred).mpr htakes
  | @pass v s place id hs hreal hid _ ih =>
      rcases ih with ⟨hpred, rfl, rfl, -⟩ |
        ⟨hopen, hpossible, path, hpath, rest, hrest, hstart, hbrings⟩
      · refine ⟨rfl, h.goesOn_of_pass hreal hid ?_⟩
        intro e rest _ hkind htarget _
        refine brings_cons_iff.mpr (Or.inl ?_)
        change nb.Arrives a.use e
        rw [Arrives, if_neg (by rw [hpred]; exact Bool.false_ne_true)]
        exact ⟨hkind, htarget⟩
      · refine ⟨hpossible, h.goesOn_of_pass hreal hid ?_⟩
        intro e rest' hedge hkind htarget hunique
        rw [hunique path hpath rest hrest hstart] at hbrings
        refine brings_cons_iff.mpr (Or.inr ⟨hkind, ?_, hbrings⟩)
        rw [← h.blocked e hedge, htarget]
        exact hopen
  | @turn v s c place id next hs hback hid hnext hcovers _ =>
      obtain ⟨i, hi, rfl⟩ := (h.numbers.connection?_eq_some_iff h.simple).mp hback
      obtain ⟨path, hpath, e, he, hexit⟩ := test_numbersWith_iff.mp hid
      have hispath := h.numbers.isPath h.simple hpath
      have hi' : nb.backEdges[i]? = some ⟨v, s⟩ := by
        rw [h.numbers.backEdges]
        exact hi
      obtain ⟨hkind, hindex⟩ := isLoopExit_iff.mp hexit
      have hsource : e.source = v :=
        (Takes.source_eq (hispath.isPathEdge he) (Or.inr ⟨i, hi, hexit⟩)).1
      obtain ⟨front, rest, rfl⟩ := List.append_of_mem he
      refine ⟨⟨i, place, next, hi', hcovers, hnext⟩, _, hpath, e :: rest, ⟨front, rfl⟩, hsource, ?_⟩
      exact brings_cons_iff.mpr (Or.inl ⟨i, hi', hkind, hindex⟩)

/-- A path takes its edges of the procedure. -/
theorem covers_of_real
    (h : Carried f bound order nb a)
    {path rest : List PathEdge}
    (hpath : nb.HasPath id path)
    (hrest : e :: rest <:+ path)
    (hkind : e.kind = .real)
    (hcovers : (nb.problem a).Covers (.start e.target) place id) :
    (nb.problem a).Covers (.finish e.source) place id := by
  have hispath := h.numbers.isPath h.simple hpath
  have he : e ∈ path := hrest.subset List.mem_cons_self
  obtain ⟨hs, hback⟩ := (hispath.isPathEdge he).of_real hkind
  refine .pass (h.mem_succs hs) ((h.numbers.connection?_eq_none_iff h.simple).mpr hback) ?_ hcovers
  refine (h.numbers.test_pathsOf_iff h.simple).mpr ⟨path, hpath, e, he, Or.inl ?_⟩
  exact isReal_iff.mpr ⟨hkind, rfl, rfl⟩

/-- A path gets to a place by the edge that arrives there. -/
theorem covers_of_gets
    (h : Carried f bound order nb a)
    {path rest : List PathEdge}
    (hpath : nb.HasPath id path)
    (hrest : e :: rest <:+ path)
    (hpossible : Possible nb a place)
    (hgets : Gets nb a place e) :
    (nb.problem a).Covers (.finish e.source) place id := by
  have hispath := h.numbers.isPath h.simple hpath
  have he : e ∈ path := hrest.subset List.mem_cons_self
  have hedge := hispath.isPathEdge he
  cases place with
  | node w =>
      obtain rfl : w = a.use.site.node := hpossible
      change nb.Arrives a.use e at hgets
      by_cases hpred : a.use.isPredicate = true
      · have htakes := (h.arrives_iff_takes hpred).mp hgets
        obtain ⟨hsource, hs⟩ := htakes.source_eq hedge
        rw [hsource]
        refine .edge (h.mem_succs hs) ?_
        exact h.test_edgeGen_iff.mpr ⟨hpred, rfl, rfl, path, hpath, e, he, htakes⟩
      · rw [Arrives, if_neg hpred] at hgets
        obtain ⟨hkind, htarget⟩ := hgets
        obtain ⟨hsuffix, hstart⟩ := hispath.startOf_tail hrest
        refine h.covers_of_real hpath hrest hkind (.gen (h.test_gen_iff.mpr ?_))
        refine ⟨Bool.eq_false_iff.mpr hpred, by rw [htarget], htarget, ?_⟩
        exact ⟨path, hpath, rest, hsuffix, hstart, trivial⟩
  | edge b =>
      obtain ⟨i, place, next, hi, hcovers, hnext⟩ := hpossible
      rw [h.gets_edge_eq hi] at hgets
      rw [h.numbers.backEdges] at hi
      have hexit : isLoopExit i e = true := isLoopExit_iff.mpr hgets
      obtain ⟨hsource, hs⟩ := Takes.source_eq hedge (Or.inr ⟨i, hi, hexit⟩)
      rw [hsource]
      refine .turn (c := connectionAt nb b i) (h.mem_succs hs) ?_ ?_ hnext hcovers
      · exact (h.numbers.connection?_eq_some_iff h.simple).mpr ⟨i, hi, rfl⟩
      · exact test_numbersWith_iff.mpr ⟨path, hpath, e, he, hexit⟩

/-- A path that brings the value to a place gets there. -/
theorem covers_of_brings
    (h : Carried f bound order nb a)
    {path : List PathEdge}
    (hpath : nb.HasPath id path)
    (hpossible : Possible nb a place) :
    ∀ {rest : List PathEdge}, rest <:+ path →
      nb.Brings a.definition.var (Gets nb a place) rest →
      (nb.problem a).Covers (.finish (startOf rest)) place id
  | [], _, hbrings => absurd hbrings not_brings_nil
  | e :: rest, hrest, hbrings => by
      rcases brings_cons_iff.mp hbrings with hgets | ⟨hkind, hclear, hbrings⟩
      · exact h.covers_of_gets hpath hrest hpossible hgets
      · have hispath := h.numbers.isPath h.simple hpath
        have hedge := hispath.isPathEdge (hrest.subset List.mem_cons_self)
        obtain ⟨hsuffix, hstart⟩ := hispath.startOf_tail hrest
        refine h.covers_of_real hpath hrest hkind (.through ?_ ?_)
        · rw [h.blocked e hedge]
          exact hclear
        · rw [← hstart]
          exact covers_of_brings h hpath hpossible hsuffix hbrings

end Steps

section Exact

/-- At the end of a node, the paths that get to a place are those that bring the value there. -/
theorem finish_iff
    (h : Carried f bound order nb a) :
    (nb.problem a).Covers (.finish v) place id ↔ Carries nb a v place id := by
  constructor
  · exact h.at_of_covers
  · rintro ⟨hpossible, path, hpath, rest, hrest, rfl, hbrings⟩
    exact h.covers_of_brings hpath hpossible hrest hbrings

/-- At the start of a node, a use at the node itself is reached too. -/
theorem start_iff
    (h : Carried f bound order nb a) :
    (nb.problem a).Covers (.start v) place id ↔
      (a.use.isPredicate = false ∧ place = .node v ∧ v = a.use.site.node ∧
        GoesOn nb id v fun _ => True) ∨
      (nb.problem a).blocked v = false ∧ Carries nb a v place id := by
  constructor
  · exact h.at_of_covers
  · rintro (hgen | ⟨hopen, hcarries⟩)
    · exact .gen (h.test_gen_iff.mpr hgen)
    · exact .through hopen (h.finish_iff.mpr hcarries)

end Exact

end Carried
end Numbering
end DefUse
