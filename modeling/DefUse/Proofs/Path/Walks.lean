import DefUse.Proofs.Flow.Reading
import DefUse.Proofs.Path.Segments

/-!
# Walks and numbered paths

A walk that brings a value to a use may run through any number of loops.  It is cut at the back
edges into pieces; each piece is part of a numbered path, and the pieces are joined by connections.

**Method.** One direction follows the clauses of the equations, each of which is an edge of the
walk.  The other one follows the walk.  Its piece since the last back edge is the front of a path:
an edge of the procedure makes the front longer, and at a back edge the front is closed and another
one starts.  As long as the exit can be reached, a front is completed to a path, which has a number
if the numbers are a bijection.

**Results.** `Carried.walked_of_covers` and `Traced.exists_covers_of_delivers`: some path gets
from the end of a node to a place exactly if some walk brings the value from the node to the use,
and both leave the node by the same edge.
-/

namespace DefUse
namespace Procedure

variable {f : Procedure} {v s : Int} {e : PathEdge} {front : List PathEdge} {b : Edge} {i : Nat}

/-- From every node that can be reached, the exit can be reached. -/
def CanEnd (f : Procedure) : Prop :=
  ∀ v, f.graph.Reaches entryId v → f.graph.Reaches v exitId

/-- The edges lead from the entry to a node: with a way on to the exit they are a path. -/
def IsFront (f : Procedure) (front : List PathEdge) (v : Int) : Prop :=
  ∀ rest, f.IsPathFrom v rest → f.IsPath (front ++ rest)

theorem reaches_succ
    (hreach : f.graph.Reaches entryId v)
    (hs : s ∈ (f.node v).succs) :
    f.graph.Reaches entryId s := by
  refine hreach.trans (.single ?_)
  rwa [graph_succs]

theorem IsFront.concat
    (h : f.IsFront front v)
    (he : f.IsPathEdge e)
    (hsource : e.source = v) :
    f.IsFront (front ++ [e]) e.target := by
  intro rest hrest
  rw [List.append_assoc]
  exact h _ ⟨he, hsource, hrest⟩

theorem IsFront.loopEntry
    (hi : f.backEdges[i]? = some b) :
    f.IsFront [⟨entryId, b.target, .loopEntry, i⟩] b.target :=
  fun _ hrest => ⟨.loopEntry hi, rfl, hrest⟩

/-- Some front leads to every node that can be reached. -/
theorem exists_isFront
    (hreach : f.graph.Reaches entryId v) :
    ∃ front, f.IsFront front v := by
  refine (hreach.invariant (P := fun v => f.graph.Reaches entryId v ∧ ∃ front, f.IsFront front v)
    ?_ ⟨.refl _, [], fun _ hrest => hrest⟩).2
  rintro v s hs ⟨hv, front, hfront⟩
  rw [graph_succs] at hs
  refine ⟨reaches_succ hv hs, ?_⟩
  by_cases hback : ⟨v, s⟩ ∈ f.backEdges
  · obtain ⟨i, hi⟩ := List.mem_iff_getElem?.mp hback
    exact ⟨_, .loopEntry hi⟩
  · exact ⟨_, hfront.concat (.real hv hs hback) rfl⟩

/-- Some edges lead from every node to the exit. -/
theorem CanEnd.exists_isPathFrom
    (hends : f.CanEnd)
    (hreach : f.graph.Reaches entryId v) :
    ∃ rest, f.IsPathFrom v rest := by
  have hexit := hends v hreach
  generalize htarget : exitId = target at hexit
  induction hexit with
  | refl _ => exact ⟨[], htarget.symm⟩
  | @step u s _ hs _ ih =>
      rw [graph_succs] at hs
      by_cases hback : ⟨u, s⟩ ∈ f.backEdges
      · obtain ⟨i, hi⟩ := List.mem_iff_getElem?.mp hback
        exact ⟨[⟨u, exitId, .loopExit, i⟩], .loopExit hi, rfl, rfl⟩
      · obtain ⟨rest, hrest⟩ := ih (reaches_succ hreach hs) htarget
        exact ⟨_ :: rest, .real hreach hs hback, rfl, hrest⟩

end Procedure

namespace Numbering

open Procedure Numbers

variable {f : Procedure} {nb : Numbering} {bound : Int64} {order : List Int} {a : Association}
  {v s : Int} {id : Nat} {place : Expr.Place} {front : List PathEdge}

/-- If the numbers are a bijection, every path has one. -/
theorem IsBijection.exists_hasPath
    (hbij : nb.IsBijection f)
    {path : List PathEdge}
    (hpath : f.IsPath path) :
    ∃ id, nb.HasPath id path := by
  obtain ⟨id, hnonneg, hlt, -, hedges⟩ := hbij.encode path hpath
  rw [Int64.le_iff_toInt_le, show (0 : Int64).toInt = 0 from rfl] at hnonneg
  rw [Int64.lt_iff_toInt_lt] at hlt
  have hid : Int64.ofNat id.toInt.toNat = id := by
    have hcast := Int64.ofInt_toInt id
    rwa [← Int.toNat_of_nonneg hnonneg] at hcast
  refine ⟨id.toInt.toNat, ?_, by rwa [hid]⟩
  rw [size]
  omega

/-- A front that leads to the source of an edge goes on by the edge to a numbered path. -/
theorem IsBijection.exists_takes
    (hbij : nb.IsBijection f)
    (hends : f.CanEnd)
    (hfront : f.IsFront front v)
    (hreach : f.graph.Reaches entryId v)
    (hs : s ∈ (f.node v).succs) :
    ∃ e tail id, nb.HasPath id (front ++ e :: tail) ∧ Takes f ⟨v, s⟩ e := by
  by_cases hback : ⟨v, s⟩ ∈ f.backEdges
  · obtain ⟨i, hi⟩ := List.mem_iff_getElem?.mp hback
    obtain ⟨id, hid⟩ := hbij.exists_hasPath
      (hfront [⟨v, exitId, .loopExit, i⟩] ⟨.loopExit hi, rfl, rfl⟩)
    exact ⟨_, _, id, hid, Or.inr ⟨i, hi, isLoopExit_iff.mpr ⟨rfl, rfl⟩⟩⟩
  · obtain ⟨tail, htail⟩ := hends.exists_isPathFrom (reaches_succ hreach hs)
    obtain ⟨id, hid⟩ := hbij.exists_hasPath
      (hfront (⟨v, s, .real, -1⟩ :: tail) ⟨.real hreach hs hback, rfl, htail⟩)
    exact ⟨_, _, id, hid, Or.inl (isReal_iff.mpr ⟨rfl, rfl, rfl⟩)⟩

namespace Carried

variable {prog : Program} {p : Int} {formalsAsDefs : Bool}

/-- A walk brings the value from the node to the use, and the path leaves the node by the first
edge of the walk. -/
def SetsOut (prog : Program) (formalsAsDefs : Bool) (p : Int) (nb : Numbering) (a : Association)
    (v : Int) (id : Nat) : Prop :=
  ∃ s rest, prog.Delivers formalsAsDefs ⟨p, v⟩ a.definition.var a.use (v :: s :: rest) ∧
    ∃ path e, nb.HasPath id path ∧ e ∈ path ∧ Takes (prog.proc p) ⟨v, s⟩ e

/-- What the equations say of a path at a spot, in terms of walks. -/
def Walked (prog : Program) (formalsAsDefs : Bool) (p : Int) (nb : Numbering) (a : Association)
    (id : Nat) : Spot → Prop
  | .start v =>
    (a.use.isPredicate = false ∧ a.use.site.node = v) ∨
      nb.defines a.definition.var v = false ∧ SetsOut prog formalsAsDefs p nb a v id
  | .finish v => SetsOut prog formalsAsDefs p nb a v id

section Sound

/-- Only at an entry a node writes what it does not define, and nothing leads there. -/
theorem writes_iff
    (h : Numbers (prog.proc p) bound order nb)
    (hentry : ∀ v, entryId ∉ ((prog.proc p).node v).succs)
    (hs : s ∈ ((prog.proc p).node v).succs)
    {x : Variable} :
    prog.Writes formalsAsDefs ⟨p, s⟩ x ↔ nb.defines x s = true := by
  rw [defines, h.proc, List.contains_iff_mem]
  constructor
  · rintro (hdef | ⟨-, hnode, -⟩)
    · exact hdef
    · obtain rfl : s = entryId := hnode
      exact absurd hs (hentry v)
  · exact Or.inl

theorem not_writes_iff
    (h : Numbers (prog.proc p) bound order nb)
    (hentry : ∀ v, entryId ∉ ((prog.proc p).node v).succs)
    (hs : s ∈ ((prog.proc p).node v).succs)
    {x : Variable} :
    ¬ prog.Writes formalsAsDefs ⟨p, s⟩ x ↔ nb.defines x s = false := by
  rw [writes_iff h hentry hs, Bool.not_eq_true]

/-- A value that is needed at the start of a successor is brought along the edge. -/
theorem Walked.exists_delivers
    (h : Numbers (prog.proc p) bound order nb)
    (hentry : ∀ v, entryId ∉ ((prog.proc p).node v).succs)
    (hs : s ∈ ((prog.proc p).node v).succs)
    (hwalked : Walked prog formalsAsDefs p nb a id (.start s)) :
    ∃ rest, prog.Delivers formalsAsDefs ⟨p, v⟩ a.definition.var a.use (v :: s :: rest) := by
  have hs' : s ∈ (prog.proc p).graph.succs v := by rwa [graph_succs]
  rcases hwalked with ⟨hpred, hnode⟩ | ⟨hclear, c, rest, hrest, -⟩
  · refine ⟨[], Program.delivers_cons_iff.mpr ⟨hs', Or.inl ⟨rfl, ?_⟩⟩⟩
    rw [Use.ArrivesBy, if_neg (by rw [hpred]; exact Bool.false_ne_true)]
    exact hnode
  · refine ⟨c :: rest, Program.delivers_cons_iff.mpr ⟨hs', Or.inr ⟨?_, hrest⟩⟩⟩
    exact (not_writes_iff h hentry hs).mpr hclear

/-- What the equations say of a path at a spot is so in terms of walks. -/
theorem walked_of_covers
    (formalsAsDefs : Bool)
    (h : Carried (prog.proc p) bound order nb a)
    (hentry : ∀ v, entryId ∉ ((prog.proc p).node v).succs)
    {spot : Spot}
    (hcovers : (nb.problem a).Covers spot place id) :
    Walked prog formalsAsDefs p nb a id spot := by
  have hproc : ∀ {v s}, s ∈ ((nb.problem a).numbering.proc.node v).succs →
      s ∈ ((prog.proc p).node v).succs := by
    intro v s hs
    rwa [← h.numbers.proc]
  induction hcovers with
  | gen hgen =>
      obtain ⟨hpred, -, hnode, -⟩ := h.test_gen_iff.mp hgen
      exact Or.inl ⟨hpred, hnode.symm⟩
  | through hopen _ ih =>
      refine Or.inr ⟨?_, ih⟩
      exact (Bool.or_eq_false_iff.mp hopen).2
  | @edge v s place id hs hgen =>
      obtain ⟨hpred, heq, -, path, hpath, e, he, htakes⟩ := h.test_edgeGen_iff.mp hgen
      obtain ⟨rfl, rfl⟩ := Edge.mk.inj heq
      refine ⟨_, [], Program.delivers_cons_iff.mpr ⟨?_, Or.inl ⟨rfl, ?_⟩⟩, path, e, hpath, he,
        htakes⟩
      · rw [graph_succs]
        exact hproc hs
      · rw [Use.ArrivesBy, if_pos hpred]
        exact ⟨rfl, rfl⟩
  | @pass v s place id hs _ hid _ ih =>
      obtain ⟨rest, hrest⟩ := ih.exists_delivers h.numbers hentry (hproc hs)
      obtain ⟨path, hpath, e, he, htakes⟩ := (h.numbers.test_pathsOf_iff h.simple).mp hid
      exact ⟨s, rest, hrest, path, e, hpath, he, htakes⟩
  | @turn v s c place id next hs hback hid _ _ ih =>
      obtain ⟨rest, hrest⟩ := ih.exists_delivers h.numbers hentry (hproc hs)
      obtain ⟨i, hi, rfl⟩ := (h.numbers.connection?_eq_some_iff h.simple).mp hback
      obtain ⟨path, hpath, e, he, hexit⟩ := test_numbersWith_iff.mp hid
      exact ⟨s, rest, hrest, path, e, hpath, he, Or.inr ⟨i, hi, hexit⟩⟩

end Sound

/-- A path with a front behind a back edge starts at the back edge. -/
theorem test_loopEntry
    {i : Nat} {target : Int} {tail : List PathEdge}
    (hpath : nb.HasPath id ([⟨entryId, target, .loopEntry, i⟩] ++ tail)) :
    (nb.numbersWith (isLoopEntry i)).test id = true :=
  test_numbersWith_iff.mpr
    ⟨_, hpath, _, List.mem_cons_self, isLoopEntry_iff.mpr ⟨rfl, rfl⟩⟩

/-- A successor is blocked exactly if it defines the variable. -/
theorem blocked_succ
    (h : Carried (prog.proc p) bound order nb a)
    (hreach : (prog.proc p).graph.Reaches entryId v)
    (hs : s ∈ ((prog.proc p).node v).succs) :
    (nb.problem a).blocked s = nb.defines a.definition.var s := by
  by_cases hback : ⟨v, s⟩ ∈ (prog.proc p).backEdges
  · obtain ⟨i, hi⟩ := List.mem_iff_getElem?.mp hback
    exact h.blocked _ (.loopEntry hi)
  · exact h.blocked _ (.real hreach hs hback)

/-- Every front to the node goes on to a place. -/
def FrontsCover (f : Procedure) (nb : Numbering) (a : Association) (v : Int) : Prop :=
  ∀ front, f.IsFront front v → ∃ tail id place, nb.HasPath id (front ++ tail) ∧
    (nb.problem a).Covers (.start v) place id

/-- If every front to a successor goes on to a place, every front to the node does; through a back
edge the place is the back edge. -/
theorem exists_covers_of_start
    (h : Carried (prog.proc p) bound order nb a)
    (hbij : nb.IsBijection (prog.proc p))
    (hfront : (prog.proc p).IsFront front v)
    (hreach : (prog.proc p).graph.Reaches entryId v)
    (hs : s ∈ ((prog.proc p).node v).succs)
    (hstart : FrontsCover (prog.proc p) nb a s) :
    ∃ e tail id place, nb.HasPath id (front ++ e :: tail) ∧ Takes (prog.proc p) ⟨v, s⟩ e ∧
      (nb.problem a).Covers (.finish v) place id ∧
      (⟨v, s⟩ ∈ (prog.proc p).backEdges → place = .edge ⟨v, s⟩) := by
  by_cases hback : ⟨v, s⟩ ∈ (prog.proc p).backEdges
  · obtain ⟨i, hi⟩ := List.mem_iff_getElem?.mp hback
    obtain ⟨tail, next, place, hnext, hcovers⟩ := hstart _ (.loopEntry hi)
    obtain ⟨id, hid⟩ := hbij.exists_hasPath
      (hfront [⟨v, exitId, .loopExit, i⟩] ⟨.loopExit hi, rfl, rfl⟩)
    have hexit : isLoopExit i ⟨v, exitId, .loopExit, i⟩ = true := isLoopExit_iff.mpr ⟨rfl, rfl⟩
    refine ⟨_, _, id, .edge ⟨v, s⟩, hid, Or.inr ⟨i, hi, hexit⟩, ?_, fun _ => rfl⟩
    refine .turn (c := connectionAt nb ⟨v, s⟩ i) (h.mem_succs hs) ?_ ?_ (test_loopEntry hnext)
      hcovers
    · exact (h.numbers.connection?_eq_some_iff h.simple).mpr ⟨i, hi, rfl⟩
    · exact test_numbersWith_iff.mpr ⟨_, hid, _, by simp, hexit⟩
  · have hedge : (prog.proc p).IsPathEdge ⟨v, s, .real, -1⟩ := .real hreach hs hback
    obtain ⟨tail, id, place, hid, hcovers⟩ := hstart _ (hfront.concat hedge rfl)
    rw [List.append_assoc] at hid
    refine ⟨_, tail, id, place, hid, Or.inl (isReal_iff.mpr ⟨rfl, rfl, rfl⟩), ?_,
      fun hmem => absurd hmem hback⟩
    exact h.covers_of_real (e := ⟨v, s, .real, -1⟩) hid ⟨front, rfl⟩ rfl hcovers

end Carried

/-- The equations of an association in a procedure that can always end and all of whose paths have
numbers. -/
structure Traced (prog : Program) (p : Int) (bound : Int64) (order : List Int) (nb : Numbering)
    (a : Association) : Prop where
  carried : Carried (prog.proc p) bound order nb a
  entry : ∀ v, entryId ∉ ((prog.proc p).node v).succs
  bijection : nb.IsBijection (prog.proc p)
  ends : (prog.proc p).CanEnd

namespace Traced

open Carried

variable {prog : Program} {p : Int} {formalsAsDefs : Bool}

theorem frontsCover_of_use
    (h : Traced prog p bound order nb a)
    (hreach : (prog.proc p).graph.Reaches entryId v)
    (hpred : a.use.isPredicate = false)
    (hnode : a.use.site.node = v) :
    FrontsCover (prog.proc p) nb a v := by
  intro front hfront
  obtain ⟨tail, htail⟩ := h.ends.exists_isPathFrom hreach
  obtain ⟨id, hid⟩ := h.bijection.exists_hasPath (hfront tail htail)
  refine ⟨tail, id, .node v, hid, .gen (h.carried.test_gen_iff.mpr ?_)⟩
  exact ⟨hpred, rfl, hnode.symm, _, hid, tail, List.suffix_append _ _, htail.startOf_eq, trivial⟩

/-- The last edge of a walk is followed by a path with any front. -/
theorem exists_covers_of_arrivesBy
    (h : Traced prog p bound order nb a)
    (hfront : (prog.proc p).IsFront front v)
    (hreach : (prog.proc p).graph.Reaches entryId v)
    (hs : s ∈ ((prog.proc p).node v).succs)
    (harrives : a.use.ArrivesBy v s) :
    ∃ e tail id place, nb.HasPath id (front ++ e :: tail) ∧ Takes (prog.proc p) ⟨v, s⟩ e ∧
      (nb.problem a).Covers (.finish v) place id := by
  unfold Use.ArrivesBy at harrives
  split at harrives
  · rename_i hpred
    obtain ⟨e, tail, id, hid, htakes⟩ := h.bijection.exists_takes h.ends hfront hreach hs
    refine ⟨e, tail, id, .node v, hid, htakes, .edge (h.carried.mem_succs hs) ?_⟩
    rw [h.carried.test_edgeGen_iff, harrives.1, harrives.2]
    exact ⟨hpred, rfl, rfl, _, hid, e, by simp, htakes⟩
  · rename_i hpred
    obtain ⟨e, tail, id, place, hid, htakes, hcovers, -⟩ :=
      h.carried.exists_covers_of_start h.bijection hfront hreach hs
        (h.frontsCover_of_use (reaches_succ hreach hs) (Bool.eq_false_iff.mpr hpred) harrives)
    exact ⟨e, tail, id, place, hid, htakes, hcovers⟩

/-- A walk that brings the value to the use is followed by a path with any front, up to the first
back edge of the walk, and goes on behind it.  If the walk starts with a back edge and does not end
there, the path gets to the back edge. -/
theorem exists_covers_of_delivers
    (h : Traced prog p bound order nb a)
    {rest : List Int} :
    ∀ {v s : Int} {front : List PathEdge}, (prog.proc p).IsFront front v →
      (prog.proc p).graph.Reaches entryId v →
      prog.Delivers formalsAsDefs ⟨p, v⟩ a.definition.var a.use (v :: s :: rest) →
      ∃ e tail id place, nb.HasPath id (front ++ e :: tail) ∧ Takes (prog.proc p) ⟨v, s⟩ e ∧
        (nb.problem a).Covers (.finish v) place id ∧
        (rest ≠ [] → ⟨v, s⟩ ∈ (prog.proc p).backEdges → place = .edge ⟨v, s⟩) := by
  induction rest with
  | nil =>
      intro v s front hfront hreach hwalk
      obtain ⟨hs, ⟨-, harrives⟩ | ⟨-, hrest⟩⟩ := Program.delivers_cons_iff.mp hwalk
      · rw [graph_succs] at hs
        obtain ⟨e, tail, id, place, hid, htakes, hcovers⟩ :=
          h.exists_covers_of_arrivesBy hfront hreach hs harrives
        exact ⟨e, tail, id, place, hid, htakes, hcovers, fun hne => absurd rfl hne⟩
      · exact absurd hrest.long (by simp)
  | cons c rest ih =>
      intro v s front hfront hreach hwalk
      obtain ⟨hs, ⟨hnil, -⟩ | ⟨hclear, hrest⟩⟩ := Program.delivers_cons_iff.mp hwalk
      · exact absurd hnil (List.cons_ne_nil c rest)
      · rw [graph_succs] at hs
        have hstart : FrontsCover (prog.proc p) nb a s := by
          intro front' hfront'
          obtain ⟨e, tail, id, place, hid, -, hcovers, -⟩ :=
            ih hfront' (reaches_succ hreach hs) hrest
          refine ⟨e :: tail, id, place, hid, .through ?_ hcovers⟩
          rw [h.carried.blocked_succ hreach hs]
          exact (not_writes_iff h.carried.numbers h.entry hs).mp hclear
        obtain ⟨e, tail, id, place, hid, htakes, hcovers, hplace⟩ :=
          h.carried.exists_covers_of_start h.bijection hfront hreach hs hstart
        exact ⟨e, tail, id, place, hid, htakes, hcovers, fun _ => hplace⟩

end Traced

end Numbering
end DefUse
