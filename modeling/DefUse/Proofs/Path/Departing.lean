import DefUse.Proofs.Path.Agreement
import DefUse.Proofs.Path.Connections

/-!
# The edges out of loops that a path warning names

A warning of an association names edges out of the target of a back edge: the value gets there
through the back edge, but the edge does not lead to the use.

**Method.** The paths that start at the back edge and take the edge are held against those that get
to the use.  A path takes one edge out of a node, so one that gets to the use follows a walk that
sets out by the same edge.

**Results.** `departing_exact`: the edges are sorted, each leaves the target of a back edge that a
walk takes, and in a procedure that can always end, with no more paths than the bound, they are
exactly those by which no walk sets out to the use; `departing_inexact`: at the largest bound below
`2 ^ 62` an edge is missed.
-/

namespace DefUse

/-- An edge out of a node that is the target of a back edge: some walk brings the value from the
definition through the back edge to the use, and the use does not read it at the node. -/
structure Association.LeavesLoop (prog : Program) (formalsAsDefs : Bool) (p : Int)
    (a : Association) (e : Edge) : Prop where
  isEdge : e.target ∈ ((prog.proc p).node e.source).succs
  loop : ∃ v front s back, ⟨v, e.source⟩ ∈ (prog.proc p).backEdges ∧
    prog.Delivers formalsAsDefs ⟨p, a.definition.site.node⟩ a.definition.var a.use
      (front ++ v :: e.source :: s :: back)
  notRead : ¬ (a.use.isPredicate = false ∧ a.use.site.node = e.source)

namespace Numbering
namespace Carried

open Procedure Numbers

variable {prog : Program} {p : Int} {formalsAsDefs : Bool} {nb : Numbering} {bound : Int64}
  {order : List Int} {a : Association} {visits : List Int} {e : Edge} {f : Procedure}

/-- The edges that a connection misses: some paths that start at the back edge take them, and none
of these gets to the use. -/
theorem mem_missedDeparting_iff
    (h : Numbers f bound order nb)
    (hf : f.Simple)
    {c : Conn Nat} {after : Expr Nat} {i : Nat}
    (hi : nb.backEdges[i]? = some c.edge) :
    e ∈ nb.missedDeparting c after ↔
      e.source = c.edge.target ∧ e.target ∈ (f.node e.source).succs ∧
      (∃ id, (nb.pathsOf e).test id = true ∧ (nb.numbersWith (isLoopEntry i)).test id = true) ∧
      ∀ id, (nb.pathsOf e).test id = true → (nb.numbersWith (isLoopEntry i)).test id = true →
        ∀ place, after.test place id ≠ true := by
  have hconn : nb.connection? c.edge = some (connectionAt nb c.edge i) :=
    (h.connection?_eq_some_iff hf).mpr ⟨i, by rwa [← h.backEdges], rfl⟩
  unfold missedDeparting
  simp only [hconn, Option.map_some, Option.getD_some, connectionAt, List.mem_filter, List.mem_map,
    Bool.and_eq_true, Bool.not_eq_true', ← Bool.not_eq_true (Bits.any _), Bits.any_iff,
    Bits.test_inter, Expr.test_allPaths_iff, h.proc]
  constructor
  · rintro ⟨⟨s, hs, rfl⟩, hsome, hnone⟩
    exact ⟨rfl, hs, hsome, fun id hid hentry place hplace =>
      hnone ⟨id, ⟨hid, hentry⟩, place, hplace⟩⟩
  · rintro ⟨hsource, hs, hsome, hnone⟩
    refine ⟨⟨e.target, hsource ▸ hs, by rw [← hsource]⟩, hsome, ?_⟩
    rintro ⟨id, ⟨hid, hentry⟩, place, hplace⟩
    exact hnone id hid hentry place hplace

theorem mem_departing_iff
    (h : Carried f bound order nb a)
    (hvisits : ∀ v ∈ nb.proc.ids, v ∈ visits)
    (hv : a.definition.site.node ∈ nb.proc.ids) :
    e ∈ (nb.pathsInOrder a visits).departing ↔
      ∃ (i : Nat) (v : Int), nb.backEdges[i]? = some ⟨v, e.source⟩ ∧
        Connected nb a visits ⟨v, e.source⟩ ∧ e.target ∈ (f.node e.source).succs ∧
        (∃ id, (nb.pathsOf e).test id = true ∧ (nb.numbersWith (isLoopEntry i)).test id = true) ∧
        ∀ id, (nb.pathsOf e).test id = true → (nb.numbersWith (isLoopEntry i)).test id = true →
          ∀ place, ¬ (nb.problem a).Covers (.start e.source) place id := by
  have hdeparting : e ∈ (nb.pathsInOrder a visits).departing ↔
      ∃ c after, (c, after) ∈ (nb.pathsInOrder a visits).expr.connections ∧
        e ∈ nb.missedDeparting c after := by
    simp only [pathsInOrder, mem_sortDistinct, List.mem_flatMap, Prod.exists]
  rw [hdeparting]
  constructor
  · rintro ⟨c, after, hc, he⟩
    obtain ⟨⟨k, hk, hmem⟩, rfl⟩ := (h.mem_connections_iff hvisits hv).mp hc
    have hi := h.getElem?_backEdges_of_mem_conns hvisits hv hmem
    obtain ⟨hsource, hs, hsome, hnone⟩ := (mem_missedDeparting_iff h.numbers h.simple hi).mp he
    have hedge : c.edge = ⟨c.edge.source, e.source⟩ := by rw [hsource]
    rw [hedge] at hi
    refine ⟨c.nested, c.edge.source, hi, ⟨k, hk, c, hmem, hedge⟩, hs, hsome, ?_⟩
    intro id hid hentry place hcovers
    refine hnone id hid hentry place ((h.test_exprOf_iff hvisits hv).mpr ?_)
    exact ⟨_, hi, hcovers, hentry⟩
  · -- the label of the connection is the position of the back edge, since no edge is listed twice
    rintro ⟨i, v, hi, ⟨k, hk, c, hmem, hedge⟩, hs, hsome, hnone⟩
    have hi' := h.getElem?_backEdges_of_mem_conns hvisits hv hmem
    obtain rfl : c.nested = i := by
      rw [hedge, h.numbers.backEdges] at hi'
      rw [h.numbers.backEdges] at hi
      exact h.simple.backEdge_index_unique hi' hi
    refine ⟨c, _, (h.mem_connections_iff hvisits hv).mpr ⟨⟨k, hk, hmem⟩, rfl⟩, ?_⟩
    refine (mem_missedDeparting_iff h.numbers h.simple hi').mpr
      ⟨by rw [hedge], hs, hsome, fun id hid hentry place hplace => ?_⟩
    obtain ⟨b, hb, hcovers, -⟩ := (h.test_exprOf_iff hvisits hv).mp hplace
    obtain rfl := Option.some.inj (hi.symm.trans hb)
    exact hnone id hid hentry place hcovers

theorem goesOn_of_test_pathsOf
    (h : Numbers f bound order nb)
    (hf : f.Simple)
    {id : Nat}
    (hid : (nb.pathsOf e).test id = true) :
    GoesOn nb id e.source fun _ => True := by
  obtain ⟨path, hpath, x, hx, htakes⟩ := (h.test_pathsOf_iff hf).mp hid
  obtain ⟨front, rest, rfl⟩ := List.append_of_mem hx
  have hsource := (htakes.source_eq ((h.isPath hf hpath).isPathEdge hx)).1
  exact ⟨_, hpath, x :: rest, ⟨front, rfl⟩, hsource, trivial⟩

/-- Every edge of a warning leaves a loop that a walk takes. -/
theorem leavesLoop_of_mem_departing
    (formalsAsDefs : Bool)
    (h : Carried (prog.proc p) bound order nb a)
    (hentry : ∀ v, entryId ∉ ((prog.proc p).node v).succs)
    (hvisits : ∀ v ∈ nb.proc.ids, v ∈ visits)
    (hv : a.definition.site.node ∈ nb.proc.ids)
    (he : e ∈ (nb.pathsInOrder a visits).departing) :
    a.LeavesLoop prog formalsAsDefs p e := by
  obtain ⟨i, v, hi, hconnected, hs, ⟨id, hid, hloop⟩, hnone⟩ :=
    (h.mem_departing_iff hvisits hv).mp he
  have hnotRead : ¬ (a.use.isPredicate = false ∧ a.use.site.node = e.source) := by
    rintro ⟨hpred, hnode⟩
    refine hnone id hid hloop (.node e.source) (.gen (h.test_gen_iff.mpr ?_))
    exact ⟨hpred, rfl, hnode.symm, goesOn_of_test_pathsOf h.numbers h.simple hid⟩
  refine ⟨hs, ?_, hnotRead⟩
  obtain ⟨front, hfront⟩ := h.leadsTo_of_connected formalsAsDefs hentry hvisits hv hconnected
  obtain ⟨hclear, s, back, hwalk⟩ :=
    h.exists_delivers_of_connected formalsAsDefs hentry hvisits hv hconnected hnotRead
  have hback : ⟨v, e.source⟩ ∈ (prog.proc p).backEdges := by
    rw [← h.numbers.backEdges]
    exact List.mem_of_getElem? hi
  exact ⟨v, front, s, back, hback,
    hfront s back (h.delivers_cons hentry (mem_backEdges hback).2 hclear hwalk)⟩

end Carried

namespace Traced

open Procedure Numbers Carried

variable {prog : Program} {p : Int} {formalsAsDefs : Bool} {nb : Numbering} {bound : Int64}
  {order : List Int} {a : Association} {visits : List Int} {e : Edge}

/-- No walk to the use sets out by an edge of a warning. -/
theorem not_delivers_of_mem_departing
    (h : Traced prog p bound order nb a)
    (hvisits : ∀ v ∈ nb.proc.ids, v ∈ visits)
    (hv : a.definition.site.node ∈ nb.proc.ids)
    (he : e ∈ (nb.pathsInOrder a visits).departing)
    (rest : List Int) :
    ¬ prog.Delivers formalsAsDefs ⟨p, e.source⟩ a.definition.var a.use
      (e.source :: e.target :: rest) := by
  intro hwalk
  have hc := h.carried
  have hnotRead := (hc.leavesLoop_of_mem_departing formalsAsDefs h.entry hvisits hv he).notRead
  obtain ⟨i, v, hi, hconnected, -, -, hnone⟩ := (hc.mem_departing_iff hvisits hv).mp he
  have hclear :=
    (hc.exists_delivers_of_connected formalsAsDefs h.entry hvisits hv hconnected hnotRead).1
  rw [hc.numbers.backEdges] at hi
  obtain ⟨hreach, hs⟩ := mem_backEdges (List.mem_of_getElem? hi)
  -- the walk is followed by a path that starts at the back edge and takes the edge
  obtain ⟨x, tail, id, place, hid, htakes, hcovers, -⟩ :=
    h.exists_covers_of_delivers (.loopEntry hi) (reaches_succ hreach hs) hwalk
  refine hnone id ?_ (test_loopEntry hid) place (.through ?_ hcovers)
  · exact (hc.numbers.test_pathsOf_iff hc.simple).mpr ⟨_, hid, x, by simp, htakes⟩
  · rw [hc.blocked_succ hreach hs]
    exact hclear

/-- An edge out of a loop is in the warning unless some walk to the use sets out by it. -/
theorem mem_departing_of_leavesLoop
    (h : Traced prog p bound order nb a)
    (hvisits : ∀ v ∈ nb.proc.ids, v ∈ visits)
    (hv : a.definition.site.node ∈ nb.proc.ids)
    (hreach : (prog.proc p).graph.Reaches entryId a.definition.site.node)
    (hleaves : a.LeavesLoop prog formalsAsDefs p e)
    (hunused : ∀ rest, ¬ prog.Delivers formalsAsDefs ⟨p, e.source⟩ a.definition.var a.use
      (e.source :: e.target :: rest)) :
    e ∈ (nb.pathsInOrder a visits).departing := by
  have hc := h.carried
  obtain ⟨hs, ⟨v, before, s, back, hback, hwalk⟩, hnotRead⟩ := hleaves
  obtain ⟨front, hfollows⟩ := exists_follows nb a visits hreach
  obtain ⟨i, hi⟩ := List.mem_iff_getElem?.mp hback
  refine (hc.mem_departing_iff hvisits hv).mpr ⟨i, v, by rwa [hc.numbers.backEdges],
    hfollows.connected h hvisits hv hback hwalk, hs, ?_, ?_⟩
  · obtain ⟨hsource, htarget⟩ := mem_backEdges hback
    obtain ⟨x, tail, id, hid, htakes⟩ :=
      h.bijection.exists_takes h.ends (.loopEntry hi) (reaches_succ hsource htarget) hs
    refine ⟨id, ?_, test_loopEntry hid⟩
    exact (hc.numbers.test_pathsOf_iff hc.simple).mpr ⟨_, hid, x, by simp, htakes⟩
  · -- a path takes one edge out of the node, so the walk that it follows sets out by that edge
    intro id hid _ place hcovers
    rcases hc.walked_of_covers formalsAsDefs h.entry hcovers with
      hread | ⟨-, s', rest, hwalk', path, x, hpath, hx, htakes⟩
    · exact hnotRead hread
    · obtain ⟨path', hpath', x', hx', htakes'⟩ := (hc.numbers.test_pathsOf_iff hc.simple).mp hid
      obtain rfl := hpath.unique hpath'
      rw [hc.numbers.takes_unique hc.simple hpath hx hx' htakes htakes'] at hwalk'
      exact hunused rest hwalk'

end Traced
end Numbering

open DefUse.Numbering DefUse.Numbering.Carried in
/-- Whatever exact sort is used, the edges of a warning are sorted, and each leaves a loop that a
walk takes.  If there are no more paths than the bound, which holds for every bound but the last
one, they are exactly the edges out of such loops by which no walk sets out to the use. -/
theorem departing_exact
    (sort : TopologicalSort) (prog : Program) (formalsAsDefs : Bool) (p : Int) (bound : Int64)
    (nb : Numbering) (a : Association) (order : List Int)
    (hsort : sort.IsExact)
    (hbuilt : prog.Built)
    (hprog : prog.Finalized)
    (hp : p ∈ prog.procIds)
    (hends : (prog.proc p).CanEnd)
    (hhigh : bound.toInt < 2 ^ 62)
    (h : ofProcedure sort (prog.proc p) bound = .ok nb)
    (hdef : a.definition ∈ prog.defsAt true a.definition.site)
    (hproc : a.definition.site.proc = p)
    (hreach : (prog.proc p).graph.Reaches entryId a.definition.site.node)
    (hlocal : a.localUses = [a.use])
    (horder : ∀ v ∈ (prog.proc p).ids, v ∈ order) :
    (nb.pathsInOrder a order).departing.Pairwise (fun e e' => e.less e' = true) ∧
    (∀ e ∈ (nb.pathsInOrder a order).departing, a.LeavesLoop prog formalsAsDefs p e) ∧
    ((prog.proc p).HasAtMost bound.toInt →
      ∀ e, e ∈ (nb.pathsInOrder a order).departing ↔
        a.LeavesLoop prog formalsAsDefs p e ∧
          ∀ rest, ¬ prog.Delivers formalsAsDefs ⟨p, e.source⟩ a.definition.var a.use
            (e.source :: e.target :: rest)) ∧
    (0 ≤ bound.toInt → bound.toInt < 2 ^ 62 - 1 → (prog.proc p).HasAtMost bound.toInt) := by
  have hf := Procedure.Simple.of_built hbuilt hprog hp
  have hentry := hbuilt.entry_not_mem_succs hprog hp
  obtain ⟨sorted, hnumbers⟩ := numbers_of_eq_ok hsort hf h
  have hcarried := Carried.of_built hbuilt hprog hp hnumbers hdef hproc hlocal
  have hvisits : ∀ v ∈ nb.proc.ids, v ∈ order := by
    rw [hnumbers.proc]
    exact horder
  have hv : a.definition.site.node ∈ nb.proc.ids := by
    rw [hnumbers.proc]
    exact hf.reaches_mem hreach
  refine ⟨sortDistinct_pairwise Edge.less_iff Edge.key_injective _, ?_, ?_,
    hasAtMost_of_eq_ok hsort hf h⟩
  · exact fun e he => hcarried.leavesLoop_of_mem_departing formalsAsDefs hentry hvisits hv he
  · intro hfew e
    have htraced : Traced prog p bound sorted nb a :=
      ⟨hcarried, hentry, hnumbers.isBijection_of_hasAtMost hf hhigh hfew, hends⟩
    constructor
    · intro he
      exact ⟨hcarried.leavesLoop_of_mem_departing formalsAsDefs hentry hvisits hv he,
        htraced.not_delivers_of_mem_departing hvisits hv he⟩
    · rintro ⟨hleaves, hunused⟩
      exact htraced.mem_departing_of_leavesLoop hvisits hv hreach hleaves hunused

open DefUse.Numbering in
/-- The edge from the loop to the exit is in the warning of the use in the loop. -/
theorem departing_exact_poll :
    TopologicalSort.IsExact Digraph.topologicalOrder? ∧
      poll.Built ∧ poll.Finalized ∧ (poll.proc 0).CanEnd ∧
      pollAssociation.definition ∈ poll.defsAt true pollAssociation.definition.site ∧
      (poll.proc 0).graph.Reaches entryId 2 ∧
      ∃ nb, ofProcedure Digraph.topologicalOrder? (poll.proc 0) 100 = .ok nb ∧
        (nb.associationPaths pollAssociation).departing = [⟨3, 1⟩] ∧
        (poll.proc 0).HasAtMost 100 ∧
        pollAssociation.LeavesLoop poll false 0 ⟨3, 1⟩ ∧
        ∀ rest, ¬ poll.Delivers false ⟨0, 3⟩ (.ofLocal "f" "x") pollAssociation.use
          (3 :: 1 :: rest) := by
  have hdef : pollAssociation.definition ∈
      poll.defsAt true pollAssociation.definition.site := by decide +kernel
  have hreach : (poll.proc 0).graph.Reaches entryId 2 := .single (by decide +kernel)
  have hedges : (ofProcedure Digraph.topologicalOrder? (poll.proc 0) 100).map
      (fun nb => (nb.associationPaths pollAssociation).departing) = .ok [⟨3, 1⟩] := by
    decide +kernel
  refine ⟨isExact_topologicalOrder?, poll_built, poll_finalized, poll_canEnd, hdef, hreach, ?_⟩
  obtain ⟨nb, hrun, hvalue⟩ := eq_ok_of_map_eq_ok hedges
  obtain ⟨-, -, hexact, hfew⟩ := departing_exact Digraph.topologicalOrder? poll false 0 100 nb
    pollAssociation nb.proc.ids.reverse isExact_topologicalOrder? poll_built poll_finalized
    (by decide +kernel) poll_canEnd (by decide) hrun hdef rfl hreach rfl
    (mem_ids_reverse hrun)
  have hmost := hfew (by decide) (by decide)
  have hmem : ⟨3, 1⟩ ∈ (nb.associationPaths pollAssociation).departing := by
    rw [hvalue]
    exact List.mem_singleton_self _
  obtain ⟨hleaves, hunused⟩ := (hexact hmost ⟨3, 1⟩).mp hmem
  exact ⟨nb, hrun, hvalue, hmost, hleaves, hunused⟩

/-- A walk that goes through the loop of the spiral twice. -/
theorem spiral_delivers_twice :
    spiral.Delivers false ⟨0, 4⟩ (.ofLocal "f" "x") spiralAssociation.use [4, 2, 3, 2, 3] := by
  have hread : spiral.Delivers false ⟨0, 3⟩ (.ofLocal "f" "x") spiralAssociation.use [3, 2, 3] :=
    Program.delivers_cons_iff.mpr
      ⟨by decide +kernel, Or.inr ⟨spiral_clear (by decide +kernel), spiral_delivers⟩⟩
  have hloop : spiral.Delivers false ⟨0, 2⟩ (.ofLocal "f" "x") spiralAssociation.use
      [2, 3, 2, 3] :=
    Program.delivers_cons_iff.mpr
      ⟨by decide +kernel, Or.inr ⟨spiral_clear (by decide +kernel), hread⟩⟩
  exact Program.delivers_cons_iff.mpr
    ⟨by decide +kernel, Or.inr ⟨spiral_clear (by decide +kernel), hloop⟩⟩

/-- From the loop no walk to the use sets out to the exit. -/
theorem spiral_not_delivers
    (rest : List Int) :
    ¬ spiral.Delivers false ⟨0, 2⟩ (.ofLocal "f" "x") spiralAssociation.use (2 :: 1 :: rest) := by
  intro hwalk
  obtain ⟨-, ⟨-, harrives⟩ | ⟨-, hrest⟩⟩ := Program.delivers_cons_iff.mp hwalk
  · exact absurd (show (3 : Int) = 1 from harrives) (by decide)
  · obtain ⟨s, tail, heq⟩ := hrest.exists_cons
    rw [heq] at hrest
    have hs := (Program.delivers_cons_iff.mp hrest).1
    have hnone : (spiral.proc 0).graph.succs 1 = [] := by decide +kernel
    rw [hnone] at hs
    exact absurd hs List.not_mem_nil

open DefUse.Numbering in
/-- At the largest bound the edge from a loop to the exit is missed. -/
theorem departing_inexact :
    TopologicalSort.IsExact Digraph.topologicalOrder? ∧
      spiral.Built ∧ spiral.Finalized ∧ (spiral.proc 0).CanEnd ∧
      spiralAssociation.definition ∈ spiral.defsAt true spiralAssociation.definition.site ∧
      (spiral.proc 0).graph.Reaches entryId 4 ∧ spiral.IsUse spiralAssociation.use ∧
      ∃ nb,
        ofProcedure Digraph.topologicalOrder? (spiral.proc 0) 4611686018427387903 = .ok nb ∧
        spiralAssociation.LeavesLoop spiral false 0 ⟨2, 1⟩ ∧
        (∀ rest, ¬ spiral.Delivers false ⟨0, 2⟩ (.ofLocal "f" "x") spiralAssociation.use
          (2 :: 1 :: rest)) ∧
        (nb.associationPaths spiralAssociation).departing = [] := by
  have huse : spiral.IsUse spiralAssociation.use := Or.inl ⟨rfl, by decide +kernel⟩
  have hleaves : spiralAssociation.LeavesLoop spiral false 0 ⟨2, 1⟩ :=
    ⟨by decide +kernel, ⟨3, [4, 2], 3, [], by decide +kernel, spiral_delivers_twice⟩, by decide⟩
  refine ⟨isExact_topologicalOrder?, spiral_built, spiral_finalized, spiral_canEnd,
    by decide +kernel, spiral_reaches, huse, ?_⟩
  obtain ⟨nb, hrun, hvalue⟩ := spiral_numbered
  refine ⟨nb, hrun, hleaves, spiral_not_delivers, ?_⟩
  rw [hvalue]

end DefUse
