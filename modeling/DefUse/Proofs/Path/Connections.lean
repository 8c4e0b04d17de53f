import DefUse.Proofs.Graph.Reach
import DefUse.Proofs.Path.Exact
import DefUse.Proofs.Path.Walks

/-!
# Connections and the back edges of walks

A path expression refers to itself: a connection has the label of the expression behind its back
edge, and what is nested in an expression is what the labels lead to.

**Method.** The expression with a label tells what the paths get to from a spot: the end of the
definition, or the target of a back edge for the paths that start there.  Following the labels is
following a walk from one back edge to the next one.

**Results.** `PathExpr.mem_connections_iff`: the connections are those of the expressions that the
labels lead to.  `Carried.leadsTo_of_connected` and `Follows.connected`: there is one
through a back edge exactly if a walk that brings the value to the use takes the back edge and does
not end there.
-/

namespace DefUse
namespace PathExpr

variable {x : PathExpr} {k : Option Nat}

/-- The expression with a label; without a label it is the one at the end of the definition. -/
def exprOf (x : PathExpr) : Option Nat → Expr Nat
  | none => x.top
  | some i => x.nested[i]?.getD .empty

/-- The labels, each followed by those of the connections of its expression. -/
def labelGraph (x : PathExpr) : Digraph (Option Nat) where
  nodes := x.labels
  succs k := (x.part k).conns.map Conn.nested

theorem mem_labelGraph_succs
    {l : Option Nat} :
    l ∈ x.labelGraph.succs k ↔ ∃ c ∈ (x.exprOf k).conns, some c.nested = l := by
  have hpart : (x.part k).conns =
      (x.exprOf k).conns.map fun c => ⟨c.edge, c.paths, some c.nested⟩ := by
    cases k <;> rfl
  simp only [labelGraph, hpart, List.map_map, List.mem_map, Function.comp_apply]

theorem mem_connections_iff
    (hx : ∀ k, ∀ c ∈ (x.exprOf k).conns, c.nested < x.nested.size)
    {c : Conn Nat} {after : Expr Nat} :
    (c, after) ∈ x.connections ↔
      (∃ k, x.labelGraph.Reaches none k ∧ c ∈ (x.exprOf k).conns) ∧
        after = x.exprOf (some c.nested) := by
  have hclosed : x.labelGraph.Closed := by
    intro k _ l hl
    obtain ⟨d, hd, rfl⟩ := mem_labelGraph_succs.mp hl
    exact List.mem_cons_of_mem _ (List.mem_map_of_mem (List.mem_range.mpr (hx k d hd)))
  have hstart : ∀ k ∈ [none], k ∈ x.labelGraph.nodes := by
    intro k hk
    rw [List.mem_singleton.mp hk]
    exact List.mem_cons_self
  have hconnections : x.connections = (x.labelGraph.reach [none]).flatMap fun k =>
      (x.exprOf k).conns.map fun d => (d, x.exprOf (some d.nested)) := by
    unfold connections
    refine congrArg (List.flatMap · _) (funext fun k => ?_)
    cases k <;> rfl
  simp only [hconnections, List.mem_flatMap, List.mem_map, Prod.mk.injEq,
    Digraph.mem_reach_iff hclosed hstart, List.mem_singleton, exists_eq_left]
  constructor
  · rintro ⟨k, hk, d, hd, rfl, rfl⟩
    exact ⟨⟨k, hk, hd⟩, rfl⟩
  · rintro ⟨⟨k, hk, hc⟩, rfl⟩
    exact ⟨k, hk, c, hc, rfl, rfl⟩

end PathExpr

namespace Numbering

open Procedure Numbers

variable {f : Procedure} {nb : Numbering} {bound : Int64} {order : List Int} {a : Association}
  {v s : Int} {id : Nat} {place : Expr.Place} {b : Edge} {i : Nat} {visits : List Int}

namespace Carried

section Labels

/-- The path with the number gets to a place from the spot of a label. -/
def Gives (nb : Numbering) (a : Association) : Option Nat → Expr.Place → Nat → Prop
  | none, place, id => (nb.problem a).Covers (.finish a.definition.site.node) place id
  | some i, place, id => ∃ b, nb.backEdges[i]? = some b ∧
      (nb.problem a).Covers (.start b.target) place id ∧
      (nb.numbersWith (isLoopEntry i)).test id = true

/-- The labels lead to an expression with a connection through the back edge. -/
def Connected (nb : Numbering) (a : Association) (visits : List Int) (b : Edge) : Prop :=
  ∃ k, (nb.pathsInOrder a visits).expr.labelGraph.Reaches none k ∧
    ∃ c ∈ ((nb.pathsInOrder a visits).expr.exprOf k).conns, c.edge = b

theorem covers_start_edge_iff
    (h : Carried f bound order nb a) :
    (nb.problem a).Covers (.start v) (.edge b) id ↔
      (nb.problem a).blocked v = false ∧ (nb.problem a).Covers (.finish v) (.edge b) id := by
  rw [h.start_iff, h.finish_iff]
  constructor
  · rintro (⟨-, hplace, -⟩ | hpasses)
    · exact absurd hplace (by simp)
    · exact hpasses
  · exact Or.inr

/-- Behind a back edge that a path gets to, some path gets on. -/
theorem possible_of_gives
    (h : Carried f bound order nb a)
    {k : Option Nat}
    (hgives : Gives nb a k (.edge b) id) :
    Possible nb a (.edge b) := by
  cases k with
  | none => exact (h.finish_iff.mp hgives).1
  | some i =>
      obtain ⟨_, -, hcovers, -⟩ := hgives
      exact (h.finish_iff.mp (h.covers_start_edge_iff.mp hcovers).2).1

/-- The expression with a label is a canonical one with the numbers of its back edges. -/
theorem exists_eq_labelled
    (h : Carried f bound order nb a)
    (visits : List Int) (k : Option Nat) :
    ∃ e : Expr Unit, e.Canonical nb.size ∧
      (nb.pathsInOrder a visits).expr.exprOf k = nb.labelled e := by
  have hfits := h.fits_solve visits
  cases k with
  | none =>
      exact ⟨_, ((h.numbers.sized h.simple a).fits_out hfits a.definition.site.node).canonical, rfl⟩
  | some i =>
      change ∃ e : Expr Unit, e.Canonical nb.size ∧
        (nestedOf nb a visits)[i]?.getD .empty = nb.labelled e
      rw [h.getElem?_nestedOf]
      cases nb.backEdges[i]? with
      | none => exact ⟨.empty, .empty, rfl⟩
      | some b =>
          refine ⟨afterLoop nb a visits i b, ?_, rfl⟩
          exact (PathProblem.fits_exprAt hfits b.target).canonical.restrict
            (length_numbersWith _ _)

theorem test_exprOf_iff
    (h : Carried f bound order nb a)
    (hvisits : ∀ v ∈ nb.proc.ids, v ∈ visits)
    (hv : a.definition.site.node ∈ nb.proc.ids)
    {k : Option Nat} :
    ((nb.pathsInOrder a visits).expr.exprOf k).test place id = true ↔ Gives nb a k place id := by
  have hsized := h.numbers.sized h.simple a
  cases k with
  | none =>
      have htop : (nb.pathsInOrder a visits).expr.exprOf none =
          nb.labelled ((nb.problem a).out ((nb.problem a).solve visits)
            a.definition.site.node) := rfl
      rw [htop, test_labelled, hsized.test_out_solve_iff hvisits hv]
      rfl
  | some i =>
      change ((nestedOf nb a visits)[i]?.getD .empty).test place id = true ↔ _
      rw [h.getElem?_nestedOf, Gives]
      cases hi : nb.backEdges[i]? with
      | none => simp
      | some b =>
          simp only [Option.map_some, Option.getD_some, test_labelled, afterLoop,
            Expr.test_restrict, Bool.and_eq_true, Option.some.injEq, exists_eq_left',
            hsized.test_exprAt_solve_iff hvisits (h.mem_ids_of_target hi)]

/-- A connection has the position of its back edge as label. -/
theorem getElem?_backEdges_of_mem_conns
    (h : Carried f bound order nb a)
    (hvisits : ∀ v ∈ nb.proc.ids, v ∈ visits)
    (hv : a.definition.site.node ∈ nb.proc.ids)
    {k : Option Nat} {c : Conn Nat}
    (hc : c ∈ ((nb.pathsInOrder a visits).expr.exprOf k).conns) :
    nb.backEdges[c.nested]? = some c.edge := by
  obtain ⟨e, he, hlabelled⟩ := h.exists_eq_labelled visits k
  rw [hlabelled] at hc
  obtain ⟨hlabel, hmem⟩ := mem_conns_labelled.mp hc
  obtain ⟨id, hid⟩ := he.exists_conn_iff.mp ⟨_, hmem, rfl⟩
  rw [← test_labelled, ← hlabelled, h.test_exprOf_iff hvisits hv] at hid
  obtain ⟨i, -, -, hi, -⟩ := h.possible_of_gives hid
  rw [← hlabel]
  exact List.getElem?_idxOf (List.mem_of_getElem? hi)

theorem exists_conn_iff
    (h : Carried f bound order nb a)
    (hvisits : ∀ v ∈ nb.proc.ids, v ∈ visits)
    (hv : a.definition.site.node ∈ nb.proc.ids)
    {k : Option Nat} :
    (∃ c ∈ ((nb.pathsInOrder a visits).expr.exprOf k).conns, c.edge = b) ↔
      ∃ id, Gives nb a k (.edge b) id := by
  obtain ⟨e, he, hlabelled⟩ := h.exists_eq_labelled visits k
  simp only [← h.test_exprOf_iff hvisits hv, hlabelled, test_labelled, ← he.exists_conn_iff]
  constructor
  · rintro ⟨c, hc, rfl⟩
    exact ⟨_, (mem_conns_labelled.mp hc).2, rfl⟩
  · rintro ⟨c, hc, rfl⟩
    exact ⟨⟨c.edge, c.paths, nb.backEdges.idxOf c.edge⟩, mem_conns_labelled.mpr ⟨rfl, hc⟩, rfl⟩

theorem mem_connections_iff
    (h : Carried f bound order nb a)
    (hvisits : ∀ v ∈ nb.proc.ids, v ∈ visits)
    (hv : a.definition.site.node ∈ nb.proc.ids)
    {c : Conn Nat} {after : Expr Nat} :
    (c, after) ∈ (nb.pathsInOrder a visits).expr.connections ↔
      (∃ k, (nb.pathsInOrder a visits).expr.labelGraph.Reaches none k ∧
        c ∈ ((nb.pathsInOrder a visits).expr.exprOf k).conns) ∧
      after = (nb.pathsInOrder a visits).expr.exprOf (some c.nested) := by
  refine PathExpr.mem_connections_iff ?_
  intro k c hc
  have hlabel := h.getElem?_backEdges_of_mem_conns hvisits hv hc
  have hnested := h.getElem?_nestedOf visits c.nested
  rw [hlabel, Option.map_some] at hnested
  exact (Array.getElem?_eq_some_iff.mp hnested).1

end Labels

section Walks

variable {prog : Program} {p : Int} {formalsAsDefs : Bool}

/-- Some nodes lead from a node to a back edge: put in front of a walk that starts with the back
edge and brings the value on to the use, they make a walk from the node. -/
def LeadsTo (prog : Program) (formalsAsDefs : Bool) (p : Int) (a : Association) (v : Int)
    (b : Edge) : Prop :=
  ∃ front, ∀ s back,
    prog.Delivers formalsAsDefs ⟨p, b.source⟩ a.definition.var a.use
      (b.source :: b.target :: s :: back) →
    prog.Delivers formalsAsDefs ⟨p, v⟩ a.definition.var a.use
      (front ++ b.source :: b.target :: s :: back)

theorem delivers_cons
    (h : Carried (prog.proc p) bound order nb a)
    (hentry : ∀ v, entryId ∉ ((prog.proc p).node v).succs)
    (hs : s ∈ ((prog.proc p).node v).succs)
    (hclear : nb.defines a.definition.var s = false)
    {walk : List Int}
    (hwalk : prog.Delivers formalsAsDefs ⟨p, s⟩ a.definition.var a.use walk) :
    prog.Delivers formalsAsDefs ⟨p, v⟩ a.definition.var a.use (v :: walk) := by
  obtain ⟨c, rest, rfl⟩ := hwalk.exists_cons
  refine Program.delivers_cons_iff.mpr ⟨by rwa [graph_succs], Or.inr ⟨?_, hwalk⟩⟩
  exact (not_writes_iff h.numbers hentry hs).mpr hclear

/-- A path that brings the value to a back edge follows a walk to it. -/
theorem leadsTo_of_brings
    (h : Carried (prog.proc p) bound order nb a)
    (hentry : ∀ v, entryId ∉ ((prog.proc p).node v).succs)
    (hi : nb.backEdges[i]? = some b)
    {rest : List PathEdge} :
    ∀ {v : Int}, (prog.proc p).IsPathFrom v rest →
      nb.Brings a.definition.var (LeavesBy i) rest →
      LeadsTo prog formalsAsDefs p a v b := by
  induction rest with
  | nil => exact fun _ hbrings => absurd hbrings not_brings_nil
  | cons e rest ih =>
      rintro v ⟨hedge, rfl, hpath⟩ hbrings
      rcases brings_cons_iff.mp hbrings with ⟨hkind, hindex⟩ | ⟨hkind, hclear, hbrings⟩
      · have htakes : Takes (prog.proc p) b e := by
          rw [h.numbers.backEdges] at hi
          exact Or.inr ⟨i, hi, isLoopExit_iff.mpr ⟨hkind, hindex⟩⟩
        refine ⟨[], fun s back hwalk => ?_⟩
        rw [(htakes.source_eq hedge).1]
        exact hwalk
      · obtain ⟨front, hfront⟩ := ih hpath hbrings
        exact ⟨e.source :: front, fun s back hwalk =>
          h.delivers_cons hentry (hedge.of_real hkind).1 hclear (hfront s back hwalk)⟩

theorem leadsTo_of_covers
    (h : Carried (prog.proc p) bound order nb a)
    (hentry : ∀ v, entryId ∉ ((prog.proc p).node v).succs)
    (hcovers : (nb.problem a).Covers (.finish v) (.edge b) id) :
    LeadsTo prog formalsAsDefs p a v b := by
  obtain ⟨⟨i, place, next, hi, -⟩, path, hpath, rest, hrest, rfl, hbrings⟩ :=
    h.finish_iff.mp hcovers
  rw [h.gets_edge_eq hi] at hbrings
  exact h.leadsTo_of_brings hentry hi ((h.numbers.isPath h.simple hpath).suffix hrest) hbrings

/-- A walk to a back edge goes on behind it to another one. -/
theorem LeadsTo.trans
    (h : Carried (prog.proc p) bound order nb a)
    (hentry : ∀ v, entryId ∉ ((prog.proc p).node v).succs)
    {b' : Edge}
    (hb : b.target ∈ ((prog.proc p).node b.source).succs)
    (hclear : nb.defines a.definition.var b.target = false)
    (hleads : LeadsTo prog formalsAsDefs p a v b)
    (hleads' : LeadsTo prog formalsAsDefs p a b.target b') :
    LeadsTo prog formalsAsDefs p a v b' := by
  obtain ⟨front, hfront⟩ := hleads
  obtain ⟨front', hfront'⟩ := hleads'
  refine ⟨front ++ b.source :: front', fun s back hwalk => ?_⟩
  have htail := hfront' s back hwalk
  obtain ⟨c, rest, heq⟩ := htail.exists_cons
  rw [heq] at htail
  have hall := hfront c rest (h.delivers_cons hentry hb hclear htail)
  rw [← heq] at hall
  rwa [List.append_assoc]

/-- The labels lead along walks: behind every connection that can be taken, its back edge is on
a walk. -/
theorem leadsTo_of_connected
    (formalsAsDefs : Bool)
    (h : Carried (prog.proc p) bound order nb a)
    (hentry : ∀ v, entryId ∉ ((prog.proc p).node v).succs)
    (hvisits : ∀ v ∈ nb.proc.ids, v ∈ visits)
    (hv : a.definition.site.node ∈ nb.proc.ids)
    (hconnected : Connected nb a visits b) :
    LeadsTo prog formalsAsDefs p a a.definition.site.node b := by
  obtain ⟨k, hreach, hconn⟩ := hconnected
  -- along the labels, a walk leads to every back edge that a path gets to from the label's spot
  have hgives := hreach.invariant
    (P := fun k => ∀ b id, Gives nb a k (.edge b) id →
      LeadsTo prog formalsAsDefs p a a.definition.site.node b)
    ?_ fun b id hgives => h.leadsTo_of_covers hentry hgives
  · obtain ⟨id, hid⟩ := (h.exists_conn_iff hvisits hv).mp hconn
    exact hgives b id hid
  · intro k l hl hk b' id hgives
    obtain ⟨c, hc, rfl⟩ := PathExpr.mem_labelGraph_succs.mp hl
    obtain ⟨t, ht, hcovers, -⟩ := hgives
    have hc' := h.getElem?_backEdges_of_mem_conns hvisits hv hc
    obtain rfl : c.edge = t := Option.some.inj (hc'.symm.trans ht)
    obtain ⟨hopen, hcovers⟩ := h.covers_start_edge_iff.mp hcovers
    obtain ⟨id', hid'⟩ := (h.exists_conn_iff hvisits hv).mp ⟨c, hc, rfl⟩
    rw [h.numbers.backEdges] at hc'
    exact .trans h hentry (mem_backEdges (List.mem_of_getElem? hc')).2
      (Bool.or_eq_false_iff.mp hopen).2 (hk _ id' hid') (h.leadsTo_of_covers hentry hcovers)

/-- Behind a connection a walk brings the value to the use, unless the use reads it right there. -/
theorem exists_delivers_of_connected
    (formalsAsDefs : Bool)
    (h : Carried (prog.proc p) bound order nb a)
    (hentry : ∀ v, entryId ∉ ((prog.proc p).node v).succs)
    (hvisits : ∀ v ∈ nb.proc.ids, v ∈ visits)
    (hv : a.definition.site.node ∈ nb.proc.ids)
    (hconnected : Connected nb a visits b)
    (hnotRead : ¬ (a.use.isPredicate = false ∧ a.use.site.node = b.target)) :
    nb.defines a.definition.var b.target = false ∧
      ∃ s back, prog.Delivers formalsAsDefs ⟨p, b.target⟩ a.definition.var a.use
        (b.target :: s :: back) := by
  obtain ⟨k, -, hconn⟩ := hconnected
  obtain ⟨id, hgives⟩ := (h.exists_conn_iff hvisits hv).mp hconn
  obtain ⟨_, place, next, -, hcovers, -⟩ := h.possible_of_gives hgives
  rcases h.walked_of_covers formalsAsDefs hentry hcovers with hread | ⟨hclear, s, back, hwalk, -⟩
  · exact absurd hread hnotRead
  · exact ⟨hclear, s, back, hwalk⟩

end Walks

end Carried

section Fronts

open Carried

variable {prog : Program} {p : Int} {formalsAsDefs : Bool} {front : List PathEdge} {k : Option Nat}

/-- A front of paths to a node since the back edge of a label that can be reached: where a path
with the front gets to from the node, it gets to from the spot of the label. -/
structure Follows (f : Procedure) (nb : Numbering) (a : Association) (visits : List Int)
    (k : Option Nat) (front : List PathEdge) (v : Int) : Prop where
  isFront : f.IsFront front v
  reaches : f.graph.Reaches entryId v
  label : (nb.pathsInOrder a visits).expr.labelGraph.Reaches none k
  gives : ∀ {tail id place}, nb.HasPath id (front ++ tail) →
    (nb.problem a).Covers (.finish v) place id → Gives nb a k place id

theorem exists_follows
    (nb : Numbering) (a : Association) (visits : List Int)
    (hreach : f.graph.Reaches entryId a.definition.site.node) :
    ∃ front, Follows f nb a visits none front a.definition.site.node := by
  obtain ⟨front, hfront⟩ := exists_isFront hreach
  exact ⟨front, hfront, hreach, .refl _, fun _ hcovers => hcovers⟩

/-- A walk that goes on with a back edge does so through a connection. -/
theorem Follows.exists_gives
    (h : Traced prog p bound order nb a)
    (hfollows : Follows (prog.proc p) nb a visits k front v)
    (hback : ⟨v, s⟩ ∈ (prog.proc p).backEdges)
    {c : Int} {rest : List Int}
    (hwalk : prog.Delivers formalsAsDefs ⟨p, v⟩ a.definition.var a.use (v :: s :: c :: rest)) :
    ∃ id, Gives nb a k (.edge ⟨v, s⟩) id := by
  obtain ⟨e, tail, id, place, hid, -, hcovers, hplace⟩ :=
    h.exists_covers_of_delivers hfollows.isFront hfollows.reaches hwalk
  obtain rfl := hplace (List.cons_ne_nil c rest) hback
  exact ⟨id, hfollows.gives hid hcovers⟩

/-- One edge of a walk makes the front longer or, if it is a back edge, leads to its label and
starts another front. -/
theorem Follows.step
    (h : Traced prog p bound order nb a)
    (hvisits : ∀ v ∈ nb.proc.ids, v ∈ visits)
    (hv : a.definition.site.node ∈ nb.proc.ids)
    (hfollows : Follows (prog.proc p) nb a visits k front v)
    {c : Int} {rest : List Int}
    (hwalk : prog.Delivers formalsAsDefs ⟨p, v⟩ a.definition.var a.use (v :: s :: c :: rest)) :
    ∃ k' front', Follows (prog.proc p) nb a visits k' front' s := by
  obtain ⟨hs, ⟨hnil, -⟩ | ⟨hclear, -⟩⟩ := Program.delivers_cons_iff.mp hwalk
  · exact absurd hnil (List.cons_ne_nil c rest)
  rw [graph_succs] at hs
  have hopen : (nb.problem a).blocked s = false := by
    rw [h.carried.blocked_succ hfollows.reaches hs]
    exact (not_writes_iff h.carried.numbers h.entry hs).mp hclear
  have hreach := reaches_succ hfollows.reaches hs
  by_cases hback : ⟨v, s⟩ ∈ (prog.proc p).backEdges
  · -- the front ends here; the next one starts at the back edge, under the label of its connection
    obtain ⟨conn, hconn, hedge⟩ := (h.carried.exists_conn_iff hvisits hv).mpr
      (hfollows.exists_gives h hback hwalk)
    have hi := h.carried.getElem?_backEdges_of_mem_conns hvisits hv hconn
    rw [hedge] at hi
    refine ⟨some conn.nested, _, .loopEntry (by rwa [← h.carried.numbers.backEdges]), hreach,
      ?_, ?_⟩
    · exact hfollows.label.trans (.single (PathExpr.mem_labelGraph_succs.mpr ⟨conn, hconn, rfl⟩))
    · intro tail id place hid hcovers
      exact ⟨_, hi, .through hopen hcovers, test_loopEntry hid⟩
  · have hedge : (prog.proc p).IsPathEdge ⟨v, s, .real, -1⟩ := .real hfollows.reaches hs hback
    refine ⟨k, _, hfollows.isFront.concat hedge rfl, hreach, hfollows.label, ?_⟩
    intro tail id place hid hcovers
    rw [List.append_assoc] at hid
    exact hfollows.gives hid
      (h.carried.covers_of_real (e := ⟨v, s, .real, -1⟩) hid ⟨front, rfl⟩ rfl
        (.through hopen hcovers))

/-- Along a walk that brings the value to the use, the labels lead to every back edge that the walk
takes and does not end with. -/
theorem Follows.connected
    (h : Traced prog p bound order nb a)
    (hvisits : ∀ v ∈ nb.proc.ids, v ∈ visits)
    (hv : a.definition.site.node ∈ nb.proc.ids)
    (hb : b ∈ (prog.proc p).backEdges)
    {before back : List Int}
    (hfollows : Follows (prog.proc p) nb a visits k front v)
    (hwalk : prog.Delivers formalsAsDefs ⟨p, v⟩ a.definition.var a.use
      (before ++ b.source :: b.target :: s :: back)) :
    Connected nb a visits b := by
  -- on the part of the walk before the back edge
  induction before generalizing v k front with
  | nil =>
      obtain rfl : b.source = v := Option.some.inj hwalk.starts
      exact ⟨k, hfollows.label, (h.carried.exists_conn_iff hvisits hv).mpr
        (hfollows.exists_gives h hb hwalk)⟩
  | cons u before ih =>
      obtain rfl : u = v := Option.some.inj hwalk.starts
      obtain ⟨w, rest, heq⟩ := hwalk.exists_cons
      obtain ⟨-, htail⟩ := List.cons.inj heq
      obtain ⟨c, rest, rfl⟩ : ∃ c rest', rest = c :: rest' :=
        List.exists_cons_of_length_pos (by have := congrArg List.length htail; simp at this; omega)
      rw [heq] at hwalk
      obtain ⟨k', front', hfollows'⟩ := hfollows.step h hvisits hv hwalk
      obtain ⟨-, ⟨hnil, -⟩ | ⟨-, hrest⟩⟩ := Program.delivers_cons_iff.mp hwalk
      · exact absurd hnil (List.cons_ne_nil c rest)
      · refine ih hfollows' ?_
        rw [← htail] at hrest
        exact hrest

end Fronts

end Numbering
end DefUse
