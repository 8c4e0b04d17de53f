import DefUse.Program.Blueprint
import DefUse.Proofs.Flow.Local

/-!
# Passes over the flow equations

The sets at the starts and at the ends of the nodes are kept in two tables that are filled in place.
A pass visits the nodes in the given order, and passes are made for as long as the last one changed
the start of a node.

**Method.** The starts go through the rounds of `FlowProblem.solve`.  A pass that changes no start
visits every node with the same starts, so it leaves behind all the ends that belong to them.

**Results.** `Sized.haltsAt_solve`: the passes come to an end, with the tables that `solve` and
`solveOut` give; `Sized.solve_eq`: these do not depend on the order;
`LocalFlow.usesOut_exact`: for a procedure, the uses at the end of a node are those that a walk
brings the value of their variable to.
-/

namespace DefUse
namespace FlowProblem

/-- The tables of the passes. -/
structure Pass where
  /-- The items at the start of every node. -/
  starts : Array Bits
  /-- The items at the end of every node. -/
  ends : Array Bits
  /-- The pass changed the start of a node. -/
  changed : Bool

/-- Recomputes the end and the start of a node. -/
def visit (p : FlowProblem) (s : Pass) (v : Int) : Pass :=
  let items := p.transfer s.starts v
  let ends := store s.ends v (p.out s.starts v)
  if items = p.setAt s.starts v then { s with ends }
  else ⟨store s.starts v items, ends, true⟩

def pass (p : FlowProblem) (order : List Int) (s : Pass) : Pass :=
  order.foldl p.visit { s with changed := false }

/-- Another pass if the last one changed something. -/
def repass (p : FlowProblem) (order : List Int) (s : Pass) : Option Pass :=
  if s.changed then some (p.pass order s) else none

/-- The tables before the first pass. -/
def unvisited (p : FlowProblem) : Pass := ⟨p.start, p.start, true⟩

/-- The equations hold at the listed nodes. -/
def Steady (p : FlowProblem) (order : List Int) (t : Array Bits) : Prop :=
  ∀ v ∈ order, p.transfer t v = p.setAt t v

variable {p : FlowProblem} {n : Nat} {order order' : List Int} {s : Pass} {t : Array Bits}

section Visits

/-- The starts of a pass are those of a round. -/
theorem starts_foldl_visit
    (order : List Int) (s : Pass) :
    (order.foldl p.visit s).starts = p.round order s.starts := by
  induction order generalizing s with
  | nil => rfl
  | cons v rest ih =>
      have hvisit : (p.visit s v).starts = store s.starts v (p.transfer s.starts v) := by
        simp only [visit]
        split
        · rename_i heq
          rw [heq]
          exact (store_getD_item? _ _ _).symm
        · rfl
      rw [List.foldl_cons, ih, hvisit]
      rfl

/-- A pass that changed nothing met the equations at every node. -/
theorem steady_of_changed_eq_false
    (h : (order.foldl p.visit s).changed = false) :
    s.changed = false ∧ p.Steady order s.starts := by
  induction order generalizing s with
  | nil => exact ⟨h, fun v hv => absurd hv List.not_mem_nil⟩
  | cons v rest ih =>
      obtain ⟨hchanged, hsteady⟩ := ih h
      unfold visit at hchanged hsteady
      simp only at hchanged hsteady
      split at hchanged
      · rename_i heq
        rw [if_pos heq] at hsteady
        exact ⟨hchanged, List.forall_mem_cons.mpr ⟨heq, hsteady⟩⟩
      · exact absurd hchanged.symm Bool.false_ne_true

/-- Where the equations hold, a pass only recomputes the ends. -/
theorem foldl_visit_of_steady
    (h : p.Steady order s.starts) :
    order.foldl p.visit s =
      { s with ends := order.foldl (fun t v => store t v (p.out s.starts v)) s.ends } := by
  induction order generalizing s with
  | nil => rfl
  | cons v rest ih =>
      obtain ⟨hv, hrest⟩ := List.forall_mem_cons.mp h
      have hvisit : p.visit s v = { s with ends := store s.ends v (p.out s.starts v) } := if_pos hv
      rw [List.foldl_cons, hvisit]
      exact ih hrest

theorem size_ends_foldl_visit
    (order : List Int) (s : Pass) :
    (order.foldl p.visit s).ends.size = s.ends.size := by
  induction order generalizing s with
  | nil => rfl
  | cons v rest ih =>
      have hvisit : (p.visit s v).ends.size = s.ends.size := by
        simp only [visit]
        split <;> exact size_store ..
      rw [List.foldl_cons, ih, hvisit]

/-- Where the equations hold, a pass tabulates the ends. -/
theorem pass_of_steady
    (h : p.Steady order s.starts)
    (hsize : s.ends.size = n)
    (horder : ∀ v ∈ positions n, v ∈ order) :
    p.pass order s = ⟨s.starts, ((positions n).map (p.out s.starts)).toArray, false⟩ := by
  have hsteady : p.Steady order ({ s with changed := false } : Pass).starts := h
  rw [pass, foldl_visit_of_steady hsteady, foldl_store_eq _ hsize horder]

/-- A pass whose round changes the starts takes note of it. -/
theorem pass_of_round_ne
    (h : p.round order s.starts ≠ s.starts) :
    p.pass order s = ⟨p.round order s.starts, (p.pass order s).ends, true⟩ := by
  have hstarts : (p.pass order s).starts = p.round order s.starts := starts_foldl_visit order _
  have hchanged : (p.pass order s).changed = true := by
    by_contra hnot
    obtain ⟨-, hsteady⟩ := steady_of_changed_eq_false (Bool.eq_false_iff.mpr hnot)
    apply h
    rw [← hstarts, pass, foldl_visit_of_steady hsteady]
  rw [← hstarts, ← hchanged]

end Visits

section Ending

/-- A table that a round leaves as it is satisfies the equations. -/
theorem Sized.steady_of_round_eq
    (hp : p.Sized n)
    (honly : ∀ v ∈ order, v ∈ positions n)
    (ht : p.equations.Rising (fun b => b.length = p.width) n t)
    (hfixed : p.round order t = t) :
    p.Steady order t := by
  intro v hv
  refine Bits.ext_test ?_ fun i => Bool.eq_iff_iff.mpr ⟨?_, ht.rises v i⟩
  · rw [length_transfer hp ht.values, length_setAt ht.values]
  · exact hp.lawful.test_of_round_eq ht hfixed (honly v hv) hv

/-- The passes from a table end where its rounds come to rest. -/
theorem Sized.haltsAt_stabilize
    (hp : p.Sized n)
    (horder : ∀ v, v ∈ order ↔ v ∈ positions n) :
    ∀ (bound : Nat) (t e : Array Bits),
      p.equations.Rising (fun b => b.length = p.width) n t → e.size = n →
      (TableEquations.Lawful.free p.equations (Finset.range p.width) n t).card < bound →
      HaltsAt (p.repass order) ⟨t, e, true⟩
        ⟨stabilize (p.round order) bound t,
          ((positions n).map (p.out (stabilize (p.round order) bound t))).toArray, false⟩
  | 0, _, _, _, _, hbound => absurd hbound (Nat.not_lt_zero _)
  | bound + 1, t, e, ht, he, hbound => by
      refine .of_step (if_pos rfl) ?_
      by_cases hfixed : p.round order t = t
      · -- the pass starts from a table that satisfies the equations, and is the last one
        have hresult : stabilize (p.round order) (bound + 1) t = t := if_pos hfixed
        have hsteady := hp.steady_of_round_eq (fun v => (horder v).mp) ht hfixed
        rw [hresult, pass_of_steady (s := ⟨t, e, true⟩) hsteady he fun v => (horder v).mpr]
        exact .of_none rfl
      · have hresult : stabilize (p.round order) (bound + 1) t =
            stabilize (p.round order) bound (p.round order t) := if_neg hfixed
        have hlt := hp.lawful.free_round_lt ht hfixed
        have hends : (p.pass order ⟨t, e, true⟩).ends.size = n :=
          (size_ends_foldl_visit order _).trans he
        rw [hresult, pass_of_round_ne (s := ⟨t, e, true⟩) hfixed]
        exact hp.haltsAt_stabilize horder bound _ _ (hp.lawful.round_grows order ht).1 hends
          (Nat.lt_of_lt_of_le hlt (Nat.le_of_lt_succ hbound))

/-- The passes end with the tables that the rounds find. -/
theorem Sized.haltsAt_solve
    (hp : p.Sized n)
    (horder : ∀ v, v ∈ order ↔ v ∈ positions n) :
    HaltsAt (p.repass order) p.unvisited ⟨p.solve order, p.solveOut order, false⟩ := by
  have hlength : p.graph.nodes.length = n := by simp [hp.nodes, positions]
  have hstart := hp.lawful.rising_start n
  have hbound := TableEquations.Lawful.card_free_le p.equations (Finset.range p.width) n p.start
  rw [Finset.card_range] at hbound
  have hends : p.solveOut order =
      ((positions n).map (p.out (p.solve order))).toArray := by
    rw [solveOut, hp.nodes]
  rw [hends]
  unfold solve unvisited
  rw [hlength]
  refine hp.haltsAt_stabilize horder _ _ _ ?_ ?_ (Nat.lt_succ_of_le hbound)
  · rw [start, hlength]
    exact hstart
  · rw [start, hlength]
    exact Array.size_replicate

end Ending

section Orders

/-- The items found at the start of a node are those that are there. -/
theorem test_solve_iff
    {v : Int} {i : Nat}
    (hp : p.Sized n)
    (horder : ∀ v ∈ positions n, v ∈ order)
    (hv : v ∈ positions n) :
    (p.setAt (p.solve order) v).test i = true ↔ p.Starts i v := by
  constructor
  · exact starts_of_test_solve
  · rintro (hgen | ⟨hkill, hflow⟩)
    · exact test_solve_of_transfer hp horder hv (test_transfer_iff.mpr (Or.inl hgen))
    · exact test_solve_of_transfer hp horder hv
        (test_transfer_iff.mpr (Or.inr ⟨test_out_of_flows hp horder hv hflow, hkill⟩))

/-- All orders that visit every node find the same sets. -/
theorem Sized.solve_eq
    (hp : p.Sized n)
    (horder : ∀ v ∈ positions n, v ∈ order)
    (horder' : ∀ v ∈ positions n, v ∈ order') :
    p.solve order' = p.solve order := by
  have hlength : p.graph.nodes.length = n := by simp [hp.nodes, positions]
  have hrising : ∀ order,
      p.equations.Rising (fun b => b.length = p.width) n (p.solve order) := by
    intro order
    rw [← hlength]
    exact hp.lawful.rising_solve _ _ order
  have hbelow : ∀ {order order'}, (∀ v ∈ positions n, v ∈ order') →
      p.equations.Below (p.solve order) (p.solve order') := by
    intro order order' hcover v i hi
    have hv : v ∈ positions n := by
      by_contra hout
      rw [mem_positions, ← (hrising order).size] at hout
      rw [TableEquations.valueAt, item?_eq_none hout] at hi
      exact Bool.false_ne_true ((Bits.test_empty _ _).symm.trans hi)
    exact (test_solve_iff hp hcover hv).mpr (starts_of_test_solve hi)
  exact hp.lawful.eq_of_below (hrising order) (hrising order') (hbelow horder') (hbelow horder)

theorem Sized.solveOut_eq
    (hp : p.Sized n)
    (horder : ∀ v ∈ positions n, v ∈ order)
    (horder' : ∀ v ∈ positions n, v ∈ order') :
    p.solveOut order' = p.solveOut order := by
  unfold solveOut
  rw [hp.solve_eq horder horder']

end Orders

end FlowProblem

namespace LocalFlow

/-- The passes over the uses of a procedure come to an end, whatever the order in which they visit
the nodes.  They leave at the end of a node the uses that a walk brings the value of their variable
to, so all orders leave the same sets. -/
theorem usesOut_exact
    (prog : Program) (formalsAsDefs : Bool) (p : Int) (order : List Int)
    (hprog : prog.Finalized)
    (hp : p ∈ prog.procIds)
    (horder : ∀ i, i ∈ order ↔ i ∈ (prog.proc p).ids) :
    let problem := problemOf prog formalsAsDefs p
    let flow := inOrder prog formalsAsDefs p order
    HaltsAt (problem.repass order) problem.unvisited
        ⟨problem.solve order, flow.usesOut, false⟩ ∧
      (∀ n ∈ (prog.proc p).ids, ∀ u,
        u ∈ select flow.uses ((item? flow.usesOut n).getD (.empty 0)) ↔
          prog.LocallyReached formalsAsDefs ⟨p, n⟩ u.var u) ∧
      ∀ order', (∀ i, i ∈ order' ↔ i ∈ (prog.proc p).ids) →
        problem.solve order' = problem.solve order ∧
          (inOrder prog formalsAsDefs p order').usesOut = flow.usesOut := by
  intro problem flow
  have hclosed := hprog.graph_closed hp
  have hsized : problem.Sized (prog.proc p).nodes.size := useProblem_sized hclosed
  have hcover : ∀ i ∈ (prog.proc p).ids, i ∈ order := fun i => (horder i).mpr
  refine ⟨hsized.haltsAt_solve horder, ?_, ?_⟩
  · intro n hn u
    rw [← mem_usesFrom_iff (v := u.var) hclosed hcover hn, usesFrom, List.mem_filter]
    simp [flow]
  · intro order' horder'
    have hcover' : ∀ i ∈ (prog.proc p).ids, i ∈ order' := fun i => (horder' i).mpr
    exact ⟨hsized.solve_eq hcover hcover', hsized.solveOut_eq hcover hcover'⟩

/-- A variable is set before a loop and in it, and read by the branch of the loop and in its
body. -/
def counting : Program :=
  (Program.ofBlueprints
    [{ name := "f"
       nodes := [
         { label := "x = 0", defs := [.ofLocal "f" "x"] },
         { label := "if x", uses := [.ofLocal "f" "x"], predicate := true },
         { label := "x = x + 1", defs := [.ofLocal "f" "x"], uses := [.ofLocal "f" "x"] }]
       edges := [(0, 2), (2, 3), (3, 4), (3, 1), (4, 3)] }] []).toOption.getD {}

/-- The nodes of the loop in no particular order, one of them twice. -/
def countingOrder : List Int := [4, 0, 3, 1, 3, 2]

theorem mem_countingOrder_iff
    (i : Int) :
    i ∈ countingOrder ↔ i ∈ (counting.proc 0).ids := by
  have hids : (counting.proc 0).ids = [0, 1, 2, 3, 4] := by decide +kernel
  rw [hids]
  simp only [countingOrder, List.mem_cons, List.not_mem_nil, or_false]
  omega

/-- From the end of the body the value goes around the loop to the body; the value that the variable
has at the entry does not get there. -/
theorem usesOut_exact_counting :
    counting.Finalized ∧ 0 ∈ counting.procIds ∧
      (∀ i, i ∈ countingOrder ↔ i ∈ (counting.proc 0).ids) ∧
      counting.LocallyReached false ⟨0, 4⟩ (.ofLocal "f" "x")
        (.computation ⟨0, 4⟩ (.ofLocal "f" "x")) ∧
      ¬ counting.LocallyReached false ⟨0, 0⟩ (.ofLocal "f" "x")
        (.computation ⟨0, 4⟩ (.ofLocal "f" "x")) := by
  have hprog : counting.Finalized := by decide +kernel
  have hp : 0 ∈ counting.procIds := by decide +kernel
  obtain ⟨-, hexact, -⟩ := usesOut_exact counting false 0 countingOrder hprog hp
    mem_countingOrder_iff
  refine ⟨hprog, hp, mem_countingOrder_iff, ?_, ?_⟩
  · apply (hexact 4 (by decide +kernel) (.computation ⟨0, 4⟩ (.ofLocal "f" "x"))).mp
    decide +kernel
  · apply (not_congr (hexact 0 (by decide +kernel) (.computation ⟨0, 4⟩ (.ofLocal "f" "x")))).mp
    decide +kernel

end LocalFlow
end DefUse
