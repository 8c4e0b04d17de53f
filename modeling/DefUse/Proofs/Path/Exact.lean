import DefUse.Association.Block
import DefUse.Proofs.Flow.Reading
import DefUse.Proofs.Path.Segments

/-!
# Exactness of path expressions

The expression at the end of a definition is covered at the node of the use, by the paths that
bring the value there, and continues through the back edges that a path with the value takes, if
the use is covered after them.  What follows a back edge is told of the paths that start at its
target.

**Method.** The table found has exactly the paths that get to a place, and these are the paths that
bring the value there.  A path that starts at a back edge does so with its first edge, since
nothing leads to the entry.

**Results.** `pathsInOrder_exact`: for every order of visits the rounds come to rest, and the
expression and everything nested in it are exact.
-/

namespace DefUse
namespace Numbering

open Procedure

variable {f : Procedure} {nb : Numbering} {bound : Int64} {order : List Int} {a : Association}
  {v : Int} {id : Nat} {place : Expr.Place}

/-- The path starts at the target of a back edge and goes on as described. -/
def FromLoop (i : Nat) (P : List PathEdge → Prop) (path : List PathEdge) : Prop :=
  ∃ e rest, path = e :: rest ∧ e.kind = .loopEntry ∧ e.index = i ∧ P rest

/-- The set holds the numbers of the paths with a property, and there is one. -/
def Collects (nb : Numbering) (P : List PathEdge → Prop) (b : Bits) : Prop :=
  b.length = nb.size ∧ (∃ id path, nb.HasPath id path ∧ P path) ∧
    ∀ id, b.test id = true ↔ ∃ path, nb.HasPath id path ∧ P path

/-- The expression has one ending, at the node, with the paths that cover the use; it continues
through the back edges that paths take and after which it is covered. -/
structure IsExact (nb : Numbering) (nested : Array (Expr Nat)) (node : Int)
    (covered : List PathEdge → Prop) (taken : Nat → List PathEdge → Prop) (e : Expr Nat) :
    Prop where
  endings : ∀ y, y ∈ e.endings ↔ y.node = node ∧ nb.Collects covered y.paths
  single : e.endings.length ≤ 1
  conns : ∀ c, c ∈ e.conns ↔ nb.backEdges[c.nested]? = some c.edge ∧
    (nested[c.nested]?.getD .empty).isEmpty = false ∧ nb.Collects (taken c.nested) c.paths
  once : (e.conns.map Conn.edge).Nodup

section Labels

/-- The expression with the numbers of its back edges as labels. -/
def labelled (nb : Numbering) (e : Expr Unit) : Expr Nat where
  endings := e.endings
  conns := e.conns.map fun c => ⟨c.edge, c.paths, nb.backEdges.idxOf c.edge⟩

@[simp] theorem test_labelled
    (e : Expr Unit) :
    (nb.labelled e).test place id = e.test place id := by
  cases place with
  | node w => rfl
  | edge b =>
      simp only [labelled, Expr.test, EntryFields.test, List.any_map]
      rfl

theorem isEmpty_labelled
    (e : Expr Unit) :
    (nb.labelled e).isEmpty = e.isEmpty := by
  simp [labelled, Expr.isEmpty]

theorem collects_iff
    {t : Nat → Bool} {Q : Prop} {P : List PathEdge → Prop} {b : Bits}
    (ht : ∀ id, t id = true ↔ Q ∧ ∃ path, nb.HasPath id path ∧ P path) :
    (b.length = nb.size ∧ (∃ id, t id = true) ∧ ∀ id, b.test id = t id) ↔
      Q ∧ nb.Collects P b := by
  constructor
  · rintro ⟨hlength, ⟨id, hid⟩, htest⟩
    obtain ⟨hQ, path, hpath⟩ := (ht id).mp hid
    refine ⟨hQ, hlength, ⟨id, path, hpath⟩, fun id => ?_⟩
    rw [htest, ht, and_iff_right hQ]
  · rintro ⟨hQ, hlength, ⟨id, path, hpath⟩, htest⟩
    refine ⟨hlength, ⟨id, (ht id).mpr ⟨hQ, path, hpath⟩⟩, fun id => ?_⟩
    rw [Bool.eq_iff_iff, htest, ht, and_iff_right hQ]

theorem mem_conns_labelled
    {e : Expr Unit} {c : Conn Nat} :
    c ∈ (nb.labelled e).conns ↔
      nb.backEdges.idxOf c.edge = c.nested ∧ ⟨c.edge, c.paths, ()⟩ ∈ e.conns := by
  simp only [labelled, List.mem_map]
  constructor
  · rintro ⟨d, hd, rfl⟩
    exact ⟨rfl, hd⟩
  · rintro ⟨hlabel, hc⟩
    exact ⟨_, hc, by rw [hlabel]⟩

/-- An expression is exact if its paths at the places are as they should be. -/
theorem isExact_labelled
    {e : Expr Unit} {nested : Array (Expr Nat)} {node : Int}
    {covered : List PathEdge → Prop} {taken : Nat → List PathEdge → Prop}
    (he : e.Canonical nb.size)
    (hback : nb.backEdges.Nodup)
    (hnode : ∀ w id, e.test (.node w) id = true ↔
      w = node ∧ ∃ path, nb.HasPath id path ∧ covered path)
    (hedge : ∀ b id, e.test (.edge b) id = true ↔
      ∃ i, (nb.backEdges[i]? = some b ∧ (nested[i]?.getD .empty).isEmpty = false) ∧
        ∃ path, nb.HasPath id path ∧ taken i path) :
    nb.IsExact nested node covered taken (nb.labelled e) := by
  have hendings : ∀ y, y ∈ e.endings ↔ y.node = node ∧ nb.Collects covered y.paths := by
    intro y
    rw [he.endings.mem_iff Ending.eq_of_fields]
    exact collects_iff (hnode y.node)
  refine ⟨hendings, ?_, ?_, ?_⟩
  · have hsorted := he.endings.sorted
    cases hlist : e.endings with
    | nil => simp [labelled, hlist]
    | cons y rest =>
        cases rest with
        | nil => simp [labelled, hlist]
        | cons z rest =>
            rw [hlist] at hsorted hendings
            have hlt := (List.pairwise_cons.mp hsorted).1 z List.mem_cons_self
            have hy := ((hendings y).mp List.mem_cons_self).1
            have hz := ((hendings z).mp (List.mem_cons_of_mem y List.mem_cons_self)).1
            change y.node < z.node at hlt
            omega
  · intro c
    rw [mem_conns_labelled, he.conns.mem_iff Conn.eq_of_fields]
    have hlabel : nb.backEdges.idxOf c.edge = c.nested →
        ∀ id, e.test (.edge c.edge) id = true ↔
          (nb.backEdges[c.nested]? = some c.edge ∧
            (nested[c.nested]?.getD .empty).isEmpty = false) ∧
          ∃ path, nb.HasPath id path ∧ taken c.nested path := by
      intro hidx id
      rw [hedge]
      constructor
      · rintro ⟨i, ⟨hi, hnested⟩, hpath⟩
        obtain rfl : c.nested = i := by
          rw [← hidx]
          exact ((getElem?_eq_some_iff_idxOf hback).mp hi).2
        exact ⟨⟨hi, hnested⟩, hpath⟩
      · intro h
        exact ⟨c.nested, h⟩
    constructor
    · rintro ⟨hidx, hc⟩
      obtain ⟨⟨hi, hnested⟩, hcollects⟩ := (collects_iff (hlabel hidx)).mp hc
      exact ⟨hi, hnested, hcollects⟩
    · rintro ⟨hi, hnested, hcollects⟩
      have hidx := ((getElem?_eq_some_iff_idxOf hback).mp hi).2
      exact ⟨hidx, (collects_iff (hlabel hidx)).mpr ⟨⟨hi, hnested⟩, hcollects⟩⟩
  · have hedges : (nb.labelled e).conns.map Conn.edge = e.conns.map Conn.edge := by
      rw [labelled, List.map_map]
      rfl
    rw [hedges]
    refine List.pairwise_map.mpr (he.conns.sorted.imp ?_)
    intro c d hlt hsame
    change c.edge.key < d.edge.key at hlt
    rw [hsame] at hlt
    exact lt_irrefl _ hlt

end Labels

namespace Carried

open Numbers

/-- A path that goes through the entry of a loop starts with it. -/
theorem fromLoop_iff
    (h : Carried f bound order nb a)
    {i : Nat} {b : Edge}
    (hi : nb.backEdges[i]? = some b)
    (P : List PathEdge → Prop) :
    (GoesOn nb id b.target P ∧ (nb.numbersWith (isLoopEntry i)).test id = true) ↔
      ∃ path, nb.HasPath id path ∧ FromLoop i P path := by
  rw [h.numbers.backEdges] at hi
  have htarget : ∀ {e : PathEdge}, f.IsPathEdge e → e.kind = .loopEntry → e.index = i →
      e.source = entryId ∧ e.target = b.target := by
    intro e he hkind hindex
    obtain ⟨j, b', hj, hindex', hsource, htarget⟩ := he.of_loopEntry hkind
    obtain rfl : i = j := by omega
    obtain rfl : b = b' := Option.some.inj (hi.symm.trans hj)
    exact ⟨hsource, htarget⟩
  constructor
  · rintro ⟨⟨path, hpath, rest', hrest', hstart', hP⟩, hid⟩
    obtain ⟨path', hpath', e, he, hentry⟩ := test_numbersWith_iff.mp hid
    obtain rfl := hpath.unique hpath'
    have hispath := h.numbers.isPath h.simple hpath
    have hr := h.simple.ranks h.numbers.sorted
    obtain ⟨hkind, hindex⟩ := isLoopEntry_iff.mp hentry
    obtain ⟨hsource, hends⟩ := htarget (hispath.isPathEdge he) hkind hindex
    -- the edge leaves the entry, to which no path returns
    obtain ⟨front, rest, hsplit⟩ := List.append_of_mem he
    have hsuffix : e :: rest <:+ path := ⟨front, hsplit.symm⟩
    obtain ⟨htail, hstart⟩ := hispath.startOf_tail hsuffix
    obtain rfl : rest' = rest := by
      refine hr.suffix_unique hispath hrest' htail ?_
      rw [hstart', hstart, hends]
    refine ⟨path, hpath, e, rest', ?_, hkind, hindex, hP⟩
    refine hr.suffix_unique hispath List.suffix_rfl hsuffix ?_
    rw [hispath.startOf_eq]
    exact hsource.symm
  · rintro ⟨path, hpath, e, rest, rfl, hkind, hindex, hP⟩
    have hispath := h.numbers.isPath h.simple hpath
    obtain ⟨-, hends⟩ := htarget hispath.1 hkind hindex
    obtain ⟨htail, hstart⟩ := hispath.startOf_tail List.suffix_rfl
    refine ⟨⟨_, hpath, rest, htail, hstart.trans hends, hP⟩, ?_⟩
    exact test_numbersWith_iff.mpr
      ⟨_, hpath, e, List.mem_cons_self, isLoopEntry_iff.mpr ⟨hkind, hindex⟩⟩

section Expressions

variable {visits : List Int}

/-- The expressions nested in the expression of an association. -/
def nestedOf (nb : Numbering) (a : Association) (visits : List Int) : Array (Expr Nat) :=
  (nb.pathsInOrder a visits).expr.nested

/-- How the use is covered after a back edge, before the numbers of the back edges are put in. -/
def afterLoop (nb : Numbering) (a : Association) (visits : List Int) (i : Nat) (b : Edge) :
    Expr Unit :=
  (PathProblem.exprAt ((nb.problem a).solve visits) b.target).restrict
    (nb.numbersWith (isLoopEntry i))

theorem getElem?_nestedOf
    (h : Carried f bound order nb a)
    (visits : List Int) (i : Nat) :
    (nestedOf nb a visits)[i]? =
      nb.backEdges[i]?.map fun b => nb.labelled (afterLoop nb a visits i b) := by
  have hnested : nestedOf nb a visits = (nb.connections.map fun c =>
      nb.labelled ((PathProblem.exprAt ((nb.problem a).solve visits) c.edge.target).restrict
        c.outgoing)).toArray := rfl
  rw [hnested, h.numbers.connections_eq, h.numbers.backEdges]
  simp only [List.getElem?_toArray, List.getElem?_map, List.getElem?_zipIdx, Option.map_map,
    Nat.zero_add]
  rfl

theorem mem_ids_of_target
    (h : Carried f bound order nb a)
    {i : Nat} {b : Edge}
    (hi : nb.backEdges[i]? = some b) :
    b.target ∈ nb.proc.ids := by
  rw [h.numbers.backEdges] at hi
  rw [h.numbers.proc]
  exact h.simple.target_mem (.loopEntry hi)

/-- A back edge can be continued exactly if the expression nested behind it is not empty. -/
theorem isEmpty_nestedOf_iff
    (h : Carried f bound order nb a)
    (hvisits : ∀ v ∈ nb.proc.ids, v ∈ visits)
    {i : Nat} {b : Edge}
    (hi : nb.backEdges[i]? = some b) :
    ((nestedOf nb a visits)[i]?.getD .empty).isEmpty = false ↔
      ∃ place next, (nb.problem a).Covers (.start b.target) place next ∧
        (nb.numbersWith (isLoopEntry i)).test next = true := by
  rw [h.getElem?_nestedOf, hi, Option.map_some, Option.getD_some, isEmpty_labelled, afterLoop,
    Expr.isEmpty_restrict_eq_false_iff]
  simp only [(h.numbers.sized h.simple a).test_exprAt_solve_iff hvisits (h.mem_ids_of_target hi)]

theorem carries_edge_iff
    (h : Carried f bound order nb a)
    (hvisits : ∀ v ∈ nb.proc.ids, v ∈ visits)
    {b : Edge} :
    Carries nb a v (.edge b) id ↔
      ∃ i, (nb.backEdges[i]? = some b ∧
          ((nestedOf nb a visits)[i]?.getD .empty).isEmpty = false) ∧
        GoesOn nb id v (nb.Brings a.definition.var (LeavesBy i)) := by
  constructor
  · rintro ⟨⟨i, place, next, hi, hcovers⟩, hgoes⟩
    rw [h.gets_edge_eq hi] at hgoes
    exact ⟨i, ⟨hi, (h.isEmpty_nestedOf_iff hvisits hi).mpr ⟨place, next, hcovers⟩⟩, hgoes⟩
  · rintro ⟨i, ⟨hi, hnested⟩, hgoes⟩
    obtain ⟨place, next, hcovers⟩ := (h.isEmpty_nestedOf_iff hvisits hi).mp hnested
    rw [← h.gets_edge_eq hi] at hgoes
    exact ⟨⟨i, place, next, hi, hcovers⟩, hgoes⟩

theorem fits_solve
    (h : Carried f bound order nb a)
    (visits : List Int) :
    ∀ e ∈ (nb.problem a).solve visits, (nb.problem a).Fits e :=
  ((h.numbers.sized h.simple a).lawful.rising_solve _ _ visits).values

/-- The expression at the end of a node is exact. -/
theorem isExact_top
    (h : Carried f bound order nb a)
    (hvisits : ∀ v ∈ nb.proc.ids, v ∈ visits)
    (hv : v ∈ nb.proc.ids) :
    nb.IsExact (nestedOf nb a visits) a.use.site.node
      (Onward v (nb.Brings a.definition.var (nb.Arrives a.use)))
      (fun i => Onward v (nb.Brings a.definition.var (LeavesBy i)))
      (nb.labelled ((nb.problem a).out ((nb.problem a).solve visits) v)) := by
  have hsized := h.numbers.sized h.simple a
  refine isExact_labelled (hsized.fits_out (h.fits_solve visits) v).canonical
    (h.numbers.backEdges ▸ h.simple.backEdges_nodup) ?_ ?_
  · intro w id
    rw [hsized.test_out_solve_iff hvisits hv, h.finish_iff]
    rfl
  · intro b id
    rw [hsized.test_out_solve_iff hvisits hv, h.finish_iff, h.carries_edge_iff hvisits]
    rfl

/-- The expression behind a back edge is exact. -/
theorem isExact_afterLoop
    (h : Carried f bound order nb a)
    (hvisits : ∀ v ∈ nb.proc.ids, v ∈ visits)
    {i : Nat} {b : Edge}
    (hi : nb.backEdges[i]? = some b) :
    nb.IsExact (nestedOf nb a visits) a.use.site.node
      (FromLoop i fun rest => (a.use.isPredicate = false ∧ b.target = a.use.site.node) ∨
        nb.defines a.definition.var b.target = false ∧
          nb.Brings a.definition.var (nb.Arrives a.use) rest)
      (fun j => FromLoop i fun rest => nb.defines a.definition.var b.target = false ∧
        nb.Brings a.definition.var (LeavesBy j) rest)
      (nb.labelled (afterLoop nb a visits i b)) := by
  have hsized := h.numbers.sized h.simple a
  have htarget := h.mem_ids_of_target hi
  have hblocked : (nb.problem a).blocked b.target = nb.defines a.definition.var b.target :=
    h.blocked _ (.loopEntry (by rw [← h.numbers.backEdges]; exact hi))
  have htest : ∀ place id, (afterLoop nb a visits i b).test place id = true ↔
      (nb.problem a).Covers (.start b.target) place id ∧
        (nb.numbersWith (isLoopEntry i)).test id = true := by
    intro place id
    rw [afterLoop, Expr.test_restrict, Bool.and_eq_true,
      hsized.test_exprAt_solve_iff hvisits htarget]
  refine isExact_labelled ?_ (h.numbers.backEdges ▸ h.simple.backEdges_nodup) ?_ ?_
  · exact (PathProblem.fits_exprAt (h.fits_solve visits) b.target).canonical.restrict
      (length_numbersWith _ _)
  · intro w id
    rw [htest, h.start_iff, hblocked, ← h.fromLoop_iff hi]
    constructor
    · rintro ⟨⟨hpred, hplace, hnode, path, hpath, rest, hrest, hstart, -⟩ |
        ⟨hclear, hnode, path, hpath, rest, hrest, hstart, hbrings⟩, hentry⟩
      · refine ⟨(Expr.Place.node.inj hplace).trans hnode, ?_, hentry⟩
        exact ⟨path, hpath, rest, hrest, hstart, Or.inl ⟨hpred, hnode⟩⟩
      · exact ⟨hnode, ⟨path, hpath, rest, hrest, hstart, Or.inr ⟨hclear, hbrings⟩⟩, hentry⟩
    · rintro ⟨rfl, ⟨path, hpath, rest, hrest, hstart, ⟨hpred, hnode⟩ | ⟨hclear, hbrings⟩⟩, hentry⟩
      · refine ⟨Or.inl ⟨hpred, by rw [hnode], hnode, ?_⟩, hentry⟩
        exact ⟨path, hpath, rest, hrest, hstart, trivial⟩
      · exact ⟨Or.inr ⟨hclear, rfl, path, hpath, rest, hrest, hstart, hbrings⟩, hentry⟩
  · intro c id
    rw [htest, h.start_iff, hblocked, h.carries_edge_iff hvisits]
    constructor
    · rintro ⟨⟨-, hplace, -⟩ | ⟨hclear, j, hj, path, hpath, rest, hrest, hstart, hbrings⟩, hentry⟩
      · exact absurd hplace (by simp)
      · refine ⟨j, hj, (h.fromLoop_iff hi _).mp ⟨?_, hentry⟩⟩
        exact ⟨path, hpath, rest, hrest, hstart, hclear, hbrings⟩
    · rintro ⟨j, hj, hfrom⟩
      obtain ⟨⟨path, hpath, rest, hrest, hstart, hclear, hbrings⟩, hentry⟩ :=
        (h.fromLoop_iff hi _).mpr hfrom
      exact ⟨Or.inr ⟨hclear, j, hj, path, hpath, rest, hrest, hstart, hbrings⟩, hentry⟩

end Expressions

end Carried

section Definitions

variable {prog : Program} {p : Int} {d : Def}

/-- A definition stands at the entry or at a node that defines its variable. -/
theorem node_of_mem_defsAt
    (hd : d ∈ prog.defsAt true d.site) :
    d.site.node = entryId ∨ d.var ∈ ((prog.proc d.site.proc).node d.site.node).defs := by
  obtain ⟨-, hdef | ⟨-, hformal⟩⟩ := Program.mem_defsAt_iff.mp hd
  · exact Or.inr (Program.mem_defsOf_iff.mp hdef).2.1
  · exact Or.inl (congrArg Point.node (Program.mem_formalDefs_iff.mp hformal).1)

/-- No edge of the acyclic graph leads to the entry. -/
theorem target_ne_entry
    (hbuilt : prog.Built)
    (hprog : prog.Finalized)
    (hp : p ∈ prog.procIds)
    {e : PathEdge}
    (he : (prog.proc p).IsPathEdge e) :
    e.target ≠ entryId := by
  have hsuccs := hbuilt.entry_not_mem_succs hprog hp
  cases he with
  | real _ hs _ =>
      rintro rfl
      exact hsuccs _ hs
  | loopEntry hb =>
      intro htarget
      have hsucc := (mem_backEdges (List.mem_of_getElem? hb)).2
      change Edge.target _ = entryId at htarget
      rw [htarget] at hsucc
      exact hsuccs _ hsucc
  | loopExit _ => exact show exitId ≠ entryId by decide
  | callExit _ _ => exact show exitId ≠ entryId by decide

/-- In a program that was built and checked, the definition of an association blocks no node that
does not define the variable. -/
theorem Carried.of_built
    (hbuilt : prog.Built)
    (hprog : prog.Finalized)
    (hp : p ∈ prog.procIds)
    (h : Numbers (prog.proc p) bound order nb)
    (hdef : a.definition ∈ prog.defsAt true a.definition.site)
    (hproc : a.definition.site.proc = p)
    (hlocal : a.localUses = [a.use]) :
    Carried (prog.proc p) bound order nb a := by
  refine ⟨h, Simple.of_built hbuilt hprog hp, hlocal, ?_⟩
  intro e he
  have hentry := target_ne_entry hbuilt hprog hp he
  have hnode := node_of_mem_defsAt hdef
  rw [hproc] at hnode
  change (decide (e.target = a.definition.site.node) || _) = _
  by_cases htarget : e.target = a.definition.site.node
  · rw [← htarget] at hnode
    have hdefines : nb.defines a.definition.var e.target = true := by
      rw [defines, h.proc]
      exact List.contains_iff_mem.mpr (hnode.resolve_left hentry)
    rw [hdefines, Bool.or_true]
  · rw [decide_eq_false htarget, Bool.false_or]

end Definitions

end Numbering

open DefUse.Numbering DefUse.Numbering.Carried in
/-- For every exact sort and every order that visits all nodes the rounds come to rest; the
expression of a definition and a use, and every expression nested in it, are exact. -/
theorem pathsInOrder_exact
    (sort : TopologicalSort) (prog : Program) (p : Int) (bound : Int64) (nb : Numbering)
    (a : Association) (order : List Int)
    (hsort : sort.IsExact)
    (hbuilt : prog.Built)
    (hprog : prog.Finalized)
    (hp : p ∈ prog.procIds)
    (h : ofProcedure sort (prog.proc p) bound = .ok nb)
    (hdef : a.definition ∈ prog.defsAt true a.definition.site)
    (hproc : a.definition.site.proc = p)
    (hlocal : a.localUses = [a.use])
    (horder : ∀ v ∈ (prog.proc p).ids, v ∈ order) :
    (nb.problem a).round order ((nb.problem a).solve order) = (nb.problem a).solve order ∧
    nb.IsExact (nb.pathsInOrder a order).expr.nested a.use.site.node
      (Onward a.definition.site.node (nb.Brings a.definition.var (nb.Arrives a.use)))
      (fun i => Onward a.definition.site.node (nb.Brings a.definition.var (LeavesBy i)))
      (nb.pathsInOrder a order).expr.top ∧
    (nb.pathsInOrder a order).expr.nested.size = nb.backEdges.length ∧
    ∀ i b e, nb.backEdges[i]? = some b → (nb.pathsInOrder a order).expr.nested[i]? = some e →
      nb.IsExact (nb.pathsInOrder a order).expr.nested a.use.site.node
        (FromLoop i fun rest => (a.use.isPredicate = false ∧ b.target = a.use.site.node) ∨
          nb.defines a.definition.var b.target = false ∧
            nb.Brings a.definition.var (nb.Arrives a.use) rest)
        (fun j => FromLoop i fun rest => nb.defines a.definition.var b.target = false ∧
          nb.Brings a.definition.var (LeavesBy j) rest)
        e := by
  have hf := Procedure.Simple.of_built hbuilt hprog hp
  obtain ⟨sorted, hnumbers⟩ := numbers_of_eq_ok hsort hf h
  have hcarried := Carried.of_built hbuilt hprog hp hnumbers hdef hproc hlocal
  have hvisits : ∀ v ∈ nb.proc.ids, v ∈ order := by
    rw [hnumbers.proc]
    exact horder
  have hv : a.definition.site.node ∈ nb.proc.ids := by
    have hnode := node_of_mem_defsAt hdef
    rw [hproc] at hnode
    rw [hnumbers.proc]
    rcases hnode with hentry | hdefs
    · rw [hentry]
      exact hcarried.simple.entry_mem
    · exact Program.mem_ids_of_mem_defs hdefs
  refine ⟨(hnumbers.sized hcarried.simple a).round_solve order,
    hcarried.isExact_top hvisits hv, ?_, ?_⟩
  · have hsize : (nb.pathsInOrder a order).expr.nested.size = nb.connections.length := by
      simp [pathsInOrder, PathProblem.assemble, problem]
    rw [hsize, hnumbers.connections_eq, hnumbers.backEdges]
    simp
  · intro i b e hi he
    have hnested := hcarried.getElem?_nestedOf order i
    rw [hi, Option.map_some, show (nestedOf nb a order)[i]? = some e from he] at hnested
    rw [Option.some.inj hnested]
    exact hcarried.isExact_afterLoop hvisits hi

/-- The steps that build a loop that reads a value from before it. -/
def pollSteps : List BuildStep :=
  [.procedure "f" [],
    .node 0 "x = g()", .define ⟨0, 2⟩ [.ofLocal "f" "x"],
    .node 0 "if c",
    .node 0 "h(x)", .use ⟨0, 4⟩ [.ofLocal "f" "x"],
    .edge 0 0 2, .edge 0 2 3, .edge 0 3 4, .edge 0 3 1, .edge 0 4 3, .finalize]

/-- A loop that reads a value from before it. -/
def poll : Program := (pollSteps.foldlM Program.build {}).getD {}

/-- The value from before the loop with its use in the loop. -/
def pollAssociation : Association where
  definition := ⟨⟨0, 2⟩, .ofLocal "f" "x", false⟩
  use := .computation ⟨0, 4⟩ (.ofLocal "f" "x")
  localUses := [.computation ⟨0, 4⟩ (.ofLocal "f" "x")]

/-- The first path covers the use and takes the back edge; after it the third path does so. -/
def pollExpr : PathExpr where
  top := ⟨[⟨4, .ofList 4 [0]⟩], [⟨⟨4, 3⟩, .ofList 4 [0], 0⟩]⟩
  nested := #[⟨[⟨4, .ofList 4 [2]⟩], [⟨⟨4, 3⟩, .ofList 4 [2], 0⟩]⟩]

open DefUse.Numbering in
/-- In the loop the expression continues through the back edge into itself. -/
theorem pathsInOrder_exact_poll :
    TopologicalSort.IsExact Digraph.topologicalOrder? ∧ poll.Built ∧ poll.Finalized ∧
      pollAssociation.definition ∈ poll.defsAt true pollAssociation.definition.site ∧
      ∃ nb, ofProcedure Digraph.topologicalOrder? (poll.proc 0) 100 = .ok nb ∧
        (nb.pathsInOrder pollAssociation [3, 1, 4, 0, 2]).expr = pollExpr ∧
        nb.IsExact pollExpr.nested 4
          (Onward 2 (nb.Brings (.ofLocal "f" "x") (nb.Arrives pollAssociation.use)))
          (fun i => Onward 2 (nb.Brings (.ofLocal "f" "x") (LeavesBy i))) pollExpr.top := by
  have hbuilt : poll.Built := ⟨pollSteps, by decide +kernel⟩
  have hprog : poll.Finalized := by decide +kernel
  have hdef : pollAssociation.definition ∈
      poll.defsAt true pollAssociation.definition.site := by decide +kernel
  have hexpr : (ofProcedure Digraph.topologicalOrder? (poll.proc 0) 100).map
      (fun nb => (nb.pathsInOrder pollAssociation [3, 1, 4, 0, 2]).expr) = .ok pollExpr := by
    decide +kernel
  refine ⟨isExact_topologicalOrder?, hbuilt, hprog, hdef, ?_⟩
  obtain ⟨nb, hrun, hvalue⟩ := eq_ok_of_map_eq_ok hexpr
  have hexact := (pathsInOrder_exact Digraph.topologicalOrder? poll 0 100 nb pollAssociation
    [3, 1, 4, 0, 2] isExact_topologicalOrder? hbuilt hprog (by decide +kernel) hrun hdef rfl rfl
    (by decide +kernel)).2.1
  rw [hvalue] at hexact
  exact ⟨nb, hrun, hvalue, hexact⟩

end DefUse
