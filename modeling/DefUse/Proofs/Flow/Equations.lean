import DefUse.Flow.Equations
import DefUse.Proofs.Graph.Walk
import DefUse.Proofs.Rounds

/-!
# The solution of the flow equations

An item flows into the end of a node if an edge that leaves the node generates it, if a successor
generates it, or if it flows into the end of a successor that does not block it.  The equations are
an instance of tables that are filled by rounds: a set is determined by its items, of which there
are as many as the sets are wide.

**Results.** `test_solveOut_iff`: the items that `solveOut` finds at the end of a node are exactly
those that flow there, whatever the order of the visits, as long as every node is visited.
-/

namespace DefUse
namespace FlowProblem

/-- The item flows into the end of a node. -/
inductive Flows (p : FlowProblem) (i : Nat) : Int → Prop
  | edge {v s : Int}
      (hs : s ∈ p.graph.succs v)
      (hi : (p.edgeItems v s).test i = true) :
      Flows p i v
  | gen {v s : Int}
      (hs : s ∈ p.graph.succs v)
      (hi : (p.setAt p.gen s).test i = true) :
      Flows p i v
  | pass {v s : Int}
      (hs : s ∈ p.graph.succs v)
      (hk : (p.setAt p.kill s).test i = false)
      (hi : Flows p i s) :
      Flows p i v

/-- The item is at the start of a node. -/
def Starts (p : FlowProblem) (i : Nat) (v : Int) : Prop :=
  (p.setAt p.gen v).test i = true ∨ (p.setAt p.kill v).test i = false ∧ p.Flows i v

/-- All sets of a problem have its width, and its graph is one of positions. -/
structure Sized (p : FlowProblem) (n : Nat) : Prop where
  nodes : p.graph.nodes = positions n
  closed : p.graph.Closed
  gen : ∀ b ∈ p.gen, b.length = p.width
  edgeGen : ∀ e ∈ p.edgeGen, e.2.length = p.width

def equations (p : FlowProblem) : TableEquations Bits Nat where
  zero := .empty p.width
  test := Bits.test
  transfer := p.transfer

section Sets

variable {p : FlowProblem} {n : Nat} {t t' : Array Bits} {v s : Int} {i : Nat}

theorem length_setAt
    (ht : ∀ b ∈ t, b.length = p.width) :
    (p.setAt t v).length = p.width := by
  unfold setAt
  by_cases hv : v ∈ positions t.size
  · obtain ⟨b, hb, hmem⟩ := item?_eq_some_of_mem_positions hv
    rw [hb, Option.getD_some]
    exact ht b hmem
  · rw [mem_positions] at hv
    rw [item?_eq_none hv]
    rfl

theorem length_edgeItems
    (hp : p.Sized n) :
    (p.edgeItems v s).length = p.width := by
  unfold edgeItems
  cases hlook : p.edgeGen.lookup ⟨v, s⟩ with
  | none => rfl
  | some b =>
      obtain ⟨front, back, hsplit, _⟩ := List.lookup_eq_some_iff.mp hlook
      exact hp.edgeGen (⟨v, s⟩, b) (by rw [hsplit]; simp)

theorem test_out_iff :
    (p.out t v).test i = true ↔
      ∃ s ∈ p.graph.succs v,
        (p.setAt t s).test i = true ∨ (p.edgeItems v s).test i = true := by
  have hfold : ∀ (succs : List Int) (acc : Bits),
      (succs.foldl (fun items s => (items.union (p.setAt t s)).union (p.edgeItems v s)) acc).test i
        = true ↔
      acc.test i = true ∨ ∃ s ∈ succs,
        (p.setAt t s).test i = true ∨ (p.edgeItems v s).test i = true := by
    intro succs
    induction succs with
    | nil => simp
    | cons s rest ih =>
        intro acc
        rw [List.foldl_cons, ih]
        simp only [Bits.test_union, Bool.or_eq_true, List.mem_cons, exists_eq_or_imp, or_assoc]
  unfold out
  rw [hfold]
  simp

theorem length_out
    (hp : p.Sized n)
    (ht : ∀ b ∈ t, b.length = p.width) :
    (p.out t v).length = p.width := by
  have hfold : ∀ (succs : List Int) (acc : Bits), acc.length = p.width →
      (succs.foldl (fun items s =>
        (items.union (p.setAt t s)).union (p.edgeItems v s)) acc).length = p.width := by
    intro succs
    induction succs with
    | nil =>
        intro acc hacc
        exact hacc
    | cons s rest ih =>
        intro acc hacc
        apply ih
        simp [hacc, length_setAt ht, length_edgeItems hp]
  exact hfold _ _ rfl

theorem test_transfer_iff :
    (p.transfer t v).test i = true ↔
      (p.setAt p.gen v).test i = true ∨
      (p.out t v).test i = true ∧ (p.setAt p.kill v).test i = false := by
  simp [transfer]

theorem length_transfer
    (hp : p.Sized n)
    (ht : ∀ b ∈ t, b.length = p.width) :
    (p.transfer t v).length = p.width := by
  simp [transfer, length_setAt hp.gen, length_out hp ht]

theorem out_mono
    (h : p.equations.Below t t')
    (hi : (p.out t v).test i = true) :
    (p.out t' v).test i = true := by
  rw [test_out_iff] at hi ⊢
  obtain ⟨s, hs, hi⟩ := hi
  refine ⟨s, hs, ?_⟩
  rcases hi with hi | hi
  · exact Or.inl (h s i hi)
  · exact Or.inr hi

theorem transfer_mono
    (h : p.equations.Below t t')
    (hi : (p.transfer t v).test i = true) :
    (p.transfer t' v).test i = true := by
  rw [test_transfer_iff] at hi ⊢
  rcases hi with hi | ⟨hi, hk⟩
  · exact Or.inl hi
  · exact Or.inr ⟨out_mono h hi, hk⟩

end Sets

section Rounds

variable {p : FlowProblem} {n : Nat} {t : Array Bits} {order : List Int}

/-- The flow equations have a least solution that rounds find. -/
theorem Sized.lawful
    (hp : p.Sized n) :
    p.equations.Lawful (fun b => b.length = p.width) (Finset.range p.width) where
  zero := rfl
  test_zero := fun _ => Bits.test_empty _ _
  mem_items := by
    intro b i hb hi
    rw [Finset.mem_range]
    by_contra hle
    change b.test i = true at hi
    rw [Bits.test_eq_false_of_length_le (by omega)] at hi
    exact Bool.false_ne_true hi
  ext := fun _ _ ha hb h => Bits.ext_test (ha.trans hb.symm) h
  transfer := fun _ _ ht => length_transfer hp ht
  mono := fun _ _ _ _ hbelow hi => transfer_mono hbelow hi

theorem flows_of_test_out
    {v : Int} {i : Nat}
    (ht : ∀ v i, (p.setAt t v).test i = true → p.Starts i v)
    (hi : (p.out t v).test i = true) :
    p.Flows i v := by
  obtain ⟨s, hs, hi⟩ := test_out_iff.mp hi
  rcases hi with hi | hi
  · rcases ht s i hi with hgen | ⟨hkill, hflow⟩
    · exact .gen hs hgen
    · exact .pass hs hkill hflow
  · exact .edge hs hi

/-- What is found flows. -/
theorem starts_of_test_solve
    {v : Int} {i : Nat}
    (hi : (p.setAt (p.solve order) v).test i = true) :
    p.Starts i v := by
  have hwithin : p.equations.Within (fun v i => p.Starts i v) (p.solve order) := by
    refine TableEquations.test_sound (E := p.equations) (fun _ => Bits.test_empty _ _) ?_ _ _ order
    intro t v i ht hi
    rcases test_transfer_iff.mp hi with hgen | ⟨hout, hkill⟩
    · exact Or.inl hgen
    · exact Or.inr ⟨hkill, flows_of_test_out ht hout⟩
  exact hwithin v i hi

/-- The equations hold in the table found. -/
theorem test_solve_of_transfer
    {v : Int} {i : Nat}
    (hp : p.Sized n)
    (horder : ∀ v ∈ positions n, v ∈ order)
    (hv : v ∈ positions n)
    (hi : (p.transfer (p.solve order) v).test i = true) :
    (p.setAt (p.solve order) v).test i = true := by
  have hn : p.graph.nodes.length = n := by simp [hp.nodes, positions]
  rw [← hn] at hv
  refine hp.lawful.test_of_transfer ?_ hv (horder v (hn ▸ hv)) hi
  rw [Finset.card_range]
  exact Nat.lt_succ_self _

theorem test_out_of_flows
    {v : Int} {i : Nat}
    (hp : p.Sized n)
    (horder : ∀ v ∈ positions n, v ∈ order)
    (hv : v ∈ positions n)
    (h : p.Flows i v) :
    (p.out (p.solve order) v).test i = true := by
  have hnode : ∀ {v s}, v ∈ positions n → s ∈ p.graph.succs v → s ∈ positions n := by
    intro v s hv hs
    rw [← hp.nodes] at hv ⊢
    exact hp.closed v hv s hs
  induction h with
  | edge hs hi => exact test_out_iff.mpr ⟨_, hs, Or.inr hi⟩
  | gen hs hi =>
      refine test_out_iff.mpr ⟨_, hs, Or.inl ?_⟩
      exact test_solve_of_transfer hp horder (hnode hv hs) (test_transfer_iff.mpr (Or.inl hi))
  | pass hs hk _ ih =>
      refine test_out_iff.mpr ⟨_, hs, Or.inl ?_⟩
      have hout := ih (hnode hv hs)
      exact test_solve_of_transfer hp horder (hnode hv hs)
        (test_transfer_iff.mpr (Or.inr ⟨hout, hk⟩))

/-- The items found at the end of a node are those that flow there. -/
theorem test_solveOut_iff
    {v : Int} {i : Nat}
    (hp : p.Sized n)
    (horder : ∀ v ∈ positions n, v ∈ order)
    (hv : v ∈ positions n) :
    ((item? (p.solveOut order) v).getD (.empty 0)).test i = true ↔ p.Flows i v := by
  unfold solveOut
  rw [hp.nodes, item?_map_positions _ hv, Option.getD_some]
  constructor
  · exact flows_of_test_out fun _ _ => starts_of_test_solve
  · exact test_out_of_flows hp horder hv

end Rounds

end FlowProblem
end DefUse
