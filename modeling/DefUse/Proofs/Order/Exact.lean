import DefUse.Program.Blueprint
import DefUse.Proofs.Order.GraphOrder
import Mathlib.Logic.Relation

/-!
# Exact answers on reachability

A procedure calls another one if one of its nodes has a call site with the name of that procedure.
The recorded call graph has the same edges, so the procedures on its cycles are those that can call
themselves.

**Results.**
* `mem_selfCalling_iff_transGen`: a procedure is listed as calling itself exactly if one or more
  calls lead from it to itself.
* `reaches_exact`: between points of one procedure the oracle answers by walks, and between
  procedures it also says yes for different procedures and for those that can call themselves.
-/

namespace DefUse

namespace Program

/-- A node of the first procedure calls the second one. -/
def Calls (prog : Program) (p q : Int) : Prop :=
  ∃ i ∈ (prog.proc p).ids, ∃ c ∈ ((prog.proc p).node i).calls,
    ∃ g, prog.lookup? c.callee = some g ∧ q = g

variable {prog : Program} {p q : Int}

theorem calls_iff_mem_callees
    (hprog : prog.Finalized)
    (hp : p ∈ prog.procIds) :
    prog.Calls p q ↔ q ∈ prog.callees p := by
  constructor
  · rintro ⟨i, -, c, hc, g, hlook, rfl⟩
    exact hprog.mem_callees_of_call hp hc hlook
  · intro h
    obtain ⟨n, hn, c, hc, g, hlook, hq⟩ := (hprog.mem_callees_iff hp).mp h
    obtain ⟨k, hk, hget⟩ := Array.getElem_of_mem hn
    refine ⟨k, by rw [Procedure.ids, mem_positions]; omega, c, ?_, g, hlook, hq⟩
    simpa [Procedure.node, hk, hget] using hc

/-- A chain of calls is a way in the call graph. -/
theorem transGen_calls_iff
    (hprog : prog.Finalized)
    (hp : p ∈ prog.procIds) :
    Relation.TransGen prog.Calls p q ↔ prog.calls.Leads p q := by
  constructor
  · intro h
    induction h using Relation.TransGen.head_induction_on with
    | single h => exact ⟨q, (calls_iff_mem_callees hprog hp).mp h, .refl q⟩
    | head h _ ih =>
        have hs := (calls_iff_mem_callees hprog hp).mp h
        exact ⟨_, hs, (ih (hprog.calls_closed _ hp _ hs)).reaches⟩
  · rintro ⟨r, hr, hreach⟩
    have hmem := hprog.calls_closed p hp r hr
    have hcall := (calls_iff_mem_callees hprog hp).mpr hr
    clear hp hr
    induction hreach generalizing p with
    | refl _ => exact .single hcall
    | step hs _ ih =>
        exact .head hcall (ih (hprog.calls_closed _ hmem _ hs)
          ((calls_iff_mem_callees hprog hmem).mpr hs))

theorem mem_selfCalling_iff_transGen
    (hprog : prog.Finalized)
    (hp : p ∈ prog.procIds) :
    p ∈ prog.selfCalling ↔ Relation.TransGen prog.Calls p p := by
  rw [mem_selfCalling_iff hprog hp, transGen_calls_iff hprog hp]

end Program

namespace GraphOrder

variable {prog : Program} {a b : Point}

theorem reaches?_of_ne
    (hproc : a.proc ≠ b.proc)
    (across : Bool) :
    (ofProgram prog).reaches? a b across = .ok across := by
  unfold reaches?
  rw [if_pos hproc]
  rfl

/-- Inside a procedure the oracle knows the walks exactly; between procedures it also says yes for
points of different procedures and of procedures on a cycle of calls. -/
theorem reaches_exact
    (prog : Program) (a b : Point)
    (hprog : prog.Finalized)
    (ha : prog.HasPoint a) :
    ∃ inside across,
      (ofProgram prog).reaches? a b false = .ok inside ∧
      (ofProgram prog).reaches? a b true = .ok across ∧
      (inside = true ↔
        a.proc = b.proc ∧ (prog.proc a.proc).graph.Leads a.node b.node) ∧
      (across = true ↔
        a.proc ≠ b.proc ∨ Relation.TransGen prog.Calls a.proc a.proc ∨
          a.proc = b.proc ∧ (prog.proc a.proc).graph.Leads a.node b.node) := by
  by_cases hproc : a.proc = b.proc
  · have hleads : ((prog.proc a.proc).graph.reachFrom a.node).contains b.node = true ↔
        (prog.proc a.proc).graph.Leads a.node b.node := by
      rw [List.contains_iff_mem]
      exact Digraph.mem_reachFrom_iff (hprog.graph_closed ha.1) (by simpa using ha.2)
    refine ⟨_, _, reaches?_eq ha hproc false, reaches?_eq ha hproc true, ?_, ?_⟩
    · rw [← hleads, Bool.false_and, Bool.false_or]
      exact (and_iff_right hproc).symm
    · rw [← Program.mem_selfCalling_iff_transGen hprog ha.1, ← hleads, Bool.true_and,
        Bool.or_eq_true, decide_eq_true_eq, and_iff_right hproc]
      exact (or_iff_right (not_not.mpr hproc)).symm
  · refine ⟨false, true, reaches?_of_ne hproc false, reaches?_of_ne hproc true, ?_, ?_⟩
    · simp [hproc]
    · simp [hproc]

/-- A procedure that calls itself between its two nodes. -/
def countdown : Program :=
  (Program.ofBlueprints
    [{ name := "f"
       nodes := [{ label := "f()", calls := [⟨"f", []⟩] }, { label := "x = 1" }]
       edges := [(0, 2), (2, 3), (3, 1)] }] []).toOption.getD {}

/-- No edge leads back to the first node, but the procedure may call itself. -/
theorem reaches_exact_countdown :
    countdown.Finalized ∧ countdown.HasPoint ⟨0, 3⟩ ∧
      ¬ (countdown.proc 0).graph.Leads 3 2 ∧ Relation.TransGen countdown.Calls 0 0 := by
  have hprog : countdown.Finalized := by decide +kernel
  have ha : countdown.HasPoint ⟨0, 3⟩ := by decide +kernel
  obtain ⟨inside, across, hinside, hacross, hwalk, hcall⟩ :=
    reaches_exact countdown ⟨0, 3⟩ ⟨0, 2⟩ hprog ha
  have hno : (ofProgram countdown).reaches? ⟨0, 3⟩ ⟨0, 2⟩ false = .ok false := by decide +kernel
  have hyes : (ofProgram countdown).reaches? ⟨0, 3⟩ ⟨0, 2⟩ true = .ok true := by decide +kernel
  obtain rfl : false = inside := Except.ok.inj (hno.symm.trans hinside)
  obtain rfl : true = across := Except.ok.inj (hyes.symm.trans hacross)
  have hnone : ¬ (countdown.proc 0).graph.Leads 3 2 := fun h => by
    simpa using hwalk.mpr ⟨rfl, h⟩
  refine ⟨hprog, ha, hnone, ?_⟩
  rcases hcall.mp rfl with h | h | h
  · exact absurd rfl h
  · exact h
  · exact absurd h.2 hnone

end GraphOrder

end DefUse
