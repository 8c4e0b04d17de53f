import DefUse.Proofs.Association.Reached
import DefUse.Proofs.Path.Cap
import DefUse.Proofs.Path.Exact
import DefUse.Proofs.Path.Walks

/-!
# Path expressions and the local flow

The local flow and the path expressions find the uses of a definition in different ways.  In a
procedure that can always end they find the same ones, as long as the paths have numbers.

**Method.** Both are exact for walks that bring the value to the use.  At its largest bound a
numbering may lack paths, and the expression then lacks what only they bring.

**Results.** `pathsInOrder_agrees`: the expression of a definition and a use is not empty exactly if
the local flow finds the use; `pathsInOrder_disagrees`: at the largest bound below `2 ^ 62` a use is
found that has an empty expression.
-/

namespace DefUse

/-- If every node but the exit leads to one of a smaller rank, the procedure can always end. -/
theorem Procedure.canEnd_of_rank
    {f : Procedure} (rank : Int → Nat)
    (hf : f.Simple)
    (h : ∀ v ∈ f.ids, v ≠ exitId → ∃ s ∈ (f.node v).succs, rank s < rank v) :
    f.CanEnd := by
  intro v hreach
  induction hrank : rank v using Nat.strong_induction_on generalizing v with
  | _ r ih =>
      subst hrank
      by_cases hexit : v = exitId
      · rw [hexit]
        exact .refl _
      · obtain ⟨s, hs, hlt⟩ := h v (hf.reaches_mem hreach) hexit
        have hedge : s ∈ f.graph.succs v := by rwa [graph_succs]
        exact .step hedge (ih _ hlt s (reaches_succ hreach hs) rfl)

theorem Program.IsLocalDef.mem_defsAt
    {prog : Program} {formalsAsDefs : Bool} {d : Def}
    (hd : prog.IsLocalDef formalsAsDefs d) :
    d ∈ prog.defsAt true d.site :=
  mem_defsAt_iff.mpr ⟨rfl, hd.2.imp_right fun hformal => ⟨rfl, hformal.2⟩⟩

namespace Numbering

/-- The paths of an association are found by visits to all nodes. -/
theorem mem_ids_reverse
    {sort : TopologicalSort} {f : Procedure} {bound : Int64} {nb : Numbering}
    (h : ofProcedure sort f bound = .ok nb) :
    ∀ v ∈ f.ids, v ∈ nb.proc.ids.reverse := by
  rw [proc_of_eq_ok h]
  exact fun v hv => List.mem_reverse.mpr hv

namespace Carried

open Procedure Numbers

variable {prog : Program} {p : Int} {formalsAsDefs : Bool} {nb : Numbering} {bound : Int64}
  {order : List Int} {a : Association} {visits : List Int}

theorem top_isEmpty_eq_false_iff
    {f : Procedure}
    (h : Carried f bound order nb a)
    (hvisits : ∀ v ∈ nb.proc.ids, v ∈ visits)
    (hv : a.definition.site.node ∈ nb.proc.ids) :
    (nb.pathsInOrder a visits).expr.top.isEmpty = false ↔
      ∃ place id, (nb.problem a).Covers (.finish a.definition.site.node) place id := by
  have hsized := h.numbers.sized h.simple a
  have hcanonical := (hsized.fits_out (h.fits_solve visits) a.definition.site.node).canonical
  have htop : (nb.pathsInOrder a visits).expr.top =
      nb.labelled ((nb.problem a).out ((nb.problem a).solve visits) a.definition.site.node) := rfl
  rw [htop, isEmpty_labelled, hcanonical.isEmpty_eq_false_iff]
  simp only [hsized.test_out_solve_iff hvisits hv]

end Carried

/-- Some path gets from the end of a node to a place exactly if some walk brings the value from the
node to the use. -/
theorem Traced.exists_covers_iff
    (h : Traced prog p bound order nb a)
    {v : Int}
    (hreach : (prog.proc p).graph.Reaches entryId v) :
    (∃ place id, (nb.problem a).Covers (.finish v) place id) ↔
      ∃ walk, prog.Delivers formalsAsDefs ⟨p, v⟩ a.definition.var a.use walk := by
  constructor
  · rintro ⟨place, id, hcovers⟩
    obtain ⟨s, rest, hrest, -⟩ := h.carried.walked_of_covers formalsAsDefs h.entry hcovers
    exact ⟨_, hrest⟩
  · rintro ⟨walk, hwalk⟩
    obtain ⟨s, rest, rfl⟩ := hwalk.exists_cons
    obtain ⟨front, hfront⟩ := Procedure.exists_isFront hreach
    obtain ⟨-, -, id, place, -, -, hcovers, -⟩ :=
      h.exists_covers_of_delivers hfront hreach hwalk
    exact ⟨place, id, hcovers⟩

end Numbering

open DefUse.Numbering DefUse.Numbering.Carried in
/-- Whatever exact sort is used, if the expression of a definition and a use is not empty, the local
flow finds the use; the converse holds if there are no more paths than the bound, which holds for
every bound but the last one. -/
theorem pathsInOrder_agrees
    (sort : TopologicalSort) (prog : Program) (formalsAsDefs : Bool) (p : Int) (bound : Int64)
    (nb : Numbering) (a : Association) (order : List Int)
    (hsort : sort.IsExact)
    (hbuilt : prog.Built)
    (hprog : prog.Finalized)
    (hp : p ∈ prog.procIds)
    (hends : (prog.proc p).CanEnd)
    (hhigh : bound.toInt < 2 ^ 62)
    (h : ofProcedure sort (prog.proc p) bound = .ok nb)
    (hdef : a.definition ∈ prog.localDefs formalsAsDefs p)
    (hreach : (prog.proc p).graph.Reaches entryId a.definition.site.node)
    (huse : prog.IsUse a.use)
    (hproc : a.use.site.proc = p)
    (hvar : a.use.var = a.definition.var)
    (hlocal : a.localUses = [a.use])
    (horder : ∀ v ∈ (prog.proc p).ids, v ∈ order) :
    ((nb.pathsInOrder a order).expr.top.isEmpty = false →
      a.use ∈ (LocalFlow.ofProcedure prog formalsAsDefs p).usesFrom
        a.definition.site.node a.definition.var) ∧
    ((prog.proc p).HasAtMost bound.toInt →
      ((nb.pathsInOrder a order).expr.top.isEmpty = false ↔
        a.use ∈ (LocalFlow.ofProcedure prog formalsAsDefs p).usesFrom
          a.definition.site.node a.definition.var)) ∧
    (0 ≤ bound.toInt → bound.toInt < 2 ^ 62 - 1 → (prog.proc p).HasAtMost bound.toInt) := by
  have hf := Procedure.Simple.of_built hbuilt hprog hp
  have hentry := hbuilt.entry_not_mem_succs hprog hp
  obtain ⟨hlocalDef, hsite⟩ := Program.mem_localDefs_iff.mp hdef
  obtain ⟨sorted, hnumbers⟩ := numbers_of_eq_ok hsort hf h
  have hcarried := Carried.of_built hbuilt hprog hp hnumbers hlocalDef.mem_defsAt hsite hlocal
  have hnode := hf.reaches_mem hreach
  have hvisits : ∀ v ∈ nb.proc.ids, v ∈ order := by
    rw [hnumbers.proc]
    exact horder
  have htop := hcarried.top_isEmpty_eq_false_iff hvisits (by rw [hnumbers.proc]; exact hnode)
  have hflow : a.use ∈ (LocalFlow.ofProcedure prog formalsAsDefs p).usesFrom
      a.definition.site.node a.definition.var ↔
      ∃ walk, prog.Delivers formalsAsDefs ⟨p, a.definition.site.node⟩ a.definition.var a.use
        walk := by
    rw [Program.mem_usesFrom_ofProcedure_iff hprog hp hnode]
    exact ⟨fun hreached => hreached.walk, fun hwalk => ⟨hproc, hvar, huse, hwalk⟩⟩
  rw [htop, hflow]
  refine ⟨?_, ?_, hasAtMost_of_eq_ok hsort hf h⟩
  · rintro ⟨place, id, hcovers⟩
    obtain ⟨s, rest, hrest, -⟩ := hcarried.walked_of_covers formalsAsDefs hentry hcovers
    exact ⟨_, hrest⟩
  · intro hfew
    have htraced : Traced prog p bound sorted nb a :=
      ⟨hcarried, hentry, hnumbers.isBijection_of_hasAtMost hf hhigh hfew, hends⟩
    exact htraced.exists_covers_iff hreach

theorem poll_built : poll.Built := ⟨pollSteps, by decide +kernel⟩

theorem poll_finalized : poll.Finalized := by
  decide +kernel

/-- From the loop that reads a value, the branch leads to the exit. -/
theorem poll_canEnd : (poll.proc 0).CanEnd :=
  Procedure.canEnd_of_rank
    (fun v => if v = exitId then 0 else if v = 3 then 1 else if v = entryId then 3 else 2)
    (.of_built poll_built poll_finalized (by decide +kernel)) (by decide +kernel)

open DefUse.Numbering in
/-- The use in the loop has an expression that is not empty, so the local flow finds it. -/
theorem pathsInOrder_agrees_poll :
    TopologicalSort.IsExact Digraph.topologicalOrder? ∧
      poll.Built ∧ poll.Finalized ∧ (poll.proc 0).CanEnd ∧
      pollAssociation.definition ∈ poll.localDefs false 0 ∧
      (poll.proc 0).graph.Reaches entryId 2 ∧ poll.IsUse pollAssociation.use ∧
      ∃ nb, ofProcedure Digraph.topologicalOrder? (poll.proc 0) 100 = .ok nb ∧
        (poll.proc 0).HasAtMost 100 ∧
        pollAssociation.use ∈
          (LocalFlow.ofProcedure poll false 0).usesFrom 2 (.ofLocal "f" "x") := by
  have hdef : pollAssociation.definition ∈ poll.localDefs false 0 := by decide +kernel
  have hreach : (poll.proc 0).graph.Reaches entryId 2 := .single (by decide +kernel)
  have huse : poll.IsUse pollAssociation.use := Or.inl ⟨rfl, by decide +kernel⟩
  have htop : (ofProcedure Digraph.topologicalOrder? (poll.proc 0) 100).map
      (fun nb => (nb.associationPaths pollAssociation).expr.top.isEmpty) = .ok false := by
    decide +kernel
  refine ⟨isExact_topologicalOrder?, poll_built, poll_finalized, poll_canEnd, hdef, hreach, huse,
    ?_⟩
  obtain ⟨nb, hrun, hvalue⟩ := eq_ok_of_map_eq_ok htop
  obtain ⟨-, hagrees, hfew⟩ := pathsInOrder_agrees Digraph.topologicalOrder? poll false 0 100 nb
    pollAssociation nb.proc.ids.reverse isExact_topologicalOrder? poll_built poll_finalized
    (by decide +kernel) poll_canEnd (by decide) hrun hdef hreach huse rfl rfl rfl
    (mem_ids_reverse hrun)
  have hmost := hfew (by decide) (by decide)
  exact ⟨nb, hrun, hmost, (hagrees hmost).mp hvalue⟩

/-- The successors of a node of the spiral.  The nodes 2 and 3 are a loop, the node 4 leads into it,
and each of the others leads to earlier ones. -/
def spiralSuccs (i : Nat) : List Int :=
  if i = 2 then [1, 3]
  else if i < 5 then [2]
  else if i = 5 then [1, 4]
  else if i = 6 then [1, 5]
  else if i = 7 then [1, 6, 5]
  else if i < 75 then [Int.ofNat (i - 1), Int.ofNat (i - 2), Int.ofNat (i - 3)]
  else [74, 73, 72]

/-- The nodes of the spiral that lead to a node. -/
def spiralPreds (i : Nat) : List Int :=
  ((List.range' 2 77).filter fun j => Int.ofNat i ∈ spiralSuccs j).map Int.ofNat ++
    if 75 ≤ i then [0] else []

/-- The steps that build the spiral. -/
def spiralSteps : List BuildStep :=
  .procedure "f" [] :: List.replicate 77 (.node 0 "if c") ++
    [.define ⟨0, 4⟩ [.ofLocal "f" "x"], .use ⟨0, 3⟩ [.ofLocal "f" "x"]] ++
    (List.range' 2 77).flatMap (fun i => (spiralSuccs i).map fun s => .edge 0 i s) ++
    [.edge 0 0 75, .edge 0 0 76, .edge 0 0 77, .edge 0 0 78, .finalize]

/-- A chain of branches before a value is written and read in a loop, and four more branches that
the entry leads to. -/
def spiral : Program where
  procs := #[
    { name := "f"
      nodes :=
        ({ label := "entry", succs := [75, 76, 77, 78] } ::
          { label := "exit", preds := spiralPreds 1 } ::
          (List.range' 2 77).map fun i =>
            { label := "if c"
              defs := if i = 4 then [.ofLocal "f" "x"] else []
              uses := if i = 3 then [.ofLocal "f" "x"] else []
              succs := spiralSuccs i
              preds := spiralPreds i
            }).toArray }]
  callGraph := ⟨#[[]], #[[]]⟩

/-- The value from before the loop with its use in the loop. -/
def spiralAssociation : Association where
  definition := ⟨⟨0, 4⟩, .ofLocal "f" "x", false⟩
  use := .computation ⟨0, 3⟩ (.ofLocal "f" "x")
  localUses := [.computation ⟨0, 3⟩ (.ofLocal "f" "x")]

theorem spiral_built : spiral.Built := ⟨spiralSteps, by decide +kernel⟩

theorem spiral_finalized : spiral.Finalized :=
  Program.finalized_of_sound (by decide +kernel) (by decide +kernel)

theorem spiral_simple : (spiral.proc 0).Simple :=
  .of_built spiral_built spiral_finalized (by decide +kernel)

theorem spiral_canEnd : (spiral.proc 0).CanEnd :=
  Procedure.canEnd_of_rank (fun v => if v = entryId then 100 else v.toNat) spiral_simple
    (by decide +kernel)

/-- Only two paths have a number, and neither goes through the loop: nothing is found. -/
theorem spiral_numbered :
    ∃ nb,
      Numbering.ofProcedure Digraph.topologicalOrder? (spiral.proc 0) 4611686018427387903 =
        .ok nb ∧
      nb.associationPaths spiralAssociation = ⟨⟨{}, #[{}]⟩, [], []⟩ :=
  Numbering.eq_ok_of_map_eq_ok (by decide +kernel)

theorem spiral_reaches : (spiral.proc 0).graph.Reaches entryId 4 :=
  spiral_simple.mem_reach_iff.mp (by decide +kernel)

/-- A walk that starts in the loop. -/
theorem spiral_delivers :
    spiral.Delivers false ⟨0, 2⟩ (.ofLocal "f" "x") spiralAssociation.use [2, 3] :=
  Program.delivers_cons_iff.mpr ⟨by decide +kernel, Or.inl ⟨rfl, rfl⟩⟩

/-- A node of the loop does not write the variable. -/
theorem spiral_clear
    {v : Int}
    (hv : ((spiral.proc 0).node v).defs = []) :
    ¬ spiral.Writes false ⟨0, v⟩ (.ofLocal "f" "x") := by
  rintro (hdef | ⟨hflag, -⟩)
  · change _ ∈ ((spiral.proc 0).node v).defs at hdef
    rw [hv] at hdef
    exact absurd hdef List.not_mem_nil
  · exact Bool.false_ne_true hflag

open DefUse.Numbering in
/-- At the largest bound the local flow finds a use that has an empty expression. -/
theorem pathsInOrder_disagrees :
    TopologicalSort.IsExact Digraph.topologicalOrder? ∧
      spiral.Built ∧ spiral.Finalized ∧ (spiral.proc 0).CanEnd ∧
      spiralAssociation.definition ∈ spiral.localDefs false 0 ∧
      (spiral.proc 0).graph.Reaches entryId 4 ∧ spiral.IsUse spiralAssociation.use ∧
      ∃ nb,
        ofProcedure Digraph.topologicalOrder? (spiral.proc 0) 4611686018427387903 = .ok nb ∧
        (nb.associationPaths spiralAssociation).expr.top.isEmpty = true ∧
        spiralAssociation.use ∈
          (LocalFlow.ofProcedure spiral false 0).usesFrom 4 (.ofLocal "f" "x") := by
  have huse : spiral.IsUse spiralAssociation.use := Or.inl ⟨rfl, by decide +kernel⟩
  have hwalk : spiral.Delivers false ⟨0, 4⟩ (.ofLocal "f" "x") spiralAssociation.use [4, 2, 3] :=
    Program.delivers_cons_iff.mpr
      ⟨by decide +kernel, Or.inr ⟨spiral_clear (by decide +kernel), spiral_delivers⟩⟩
  have hfound : spiralAssociation.use ∈
      (LocalFlow.ofProcedure spiral false 0).usesFrom 4 (.ofLocal "f" "x") :=
    (Program.mem_usesFrom_ofProcedure_iff spiral_finalized (by decide +kernel)
      (by decide +kernel)).mpr ⟨rfl, rfl, huse, _, hwalk⟩
  refine ⟨isExact_topologicalOrder?, spiral_built, spiral_finalized, spiral_canEnd,
    by decide +kernel, spiral_reaches, huse, ?_⟩
  obtain ⟨nb, hrun, hvalue⟩ := spiral_numbered
  refine ⟨nb, hrun, ?_, hfound⟩
  rw [hvalue]
  rfl

end DefUse
