import DefUse.Proofs.Flow.Reading
import DefUse.Proofs.Graph.ImmediateDominator
import DefUse.Proofs.Order.Exact

/-!
# Executions of programs

An execution is a run of a stack of activations.  It starts with one activation at the entry of a
procedure.  In each step the top activation follows an edge, or its node calls a procedure of the
program, which pushes an activation at the entry of that procedure, or it is at the exit and
returns to the node of its caller.

**Results.**
* `Sound.step` and `Reachable.sound`: on every stack, the activations are on walks from their
  entries, and each one was called by the node of the one below it.
* `Sound.transGen_calls`: the procedure of an activation calls, through others, that of the top
  one.
* `IsExecution.visits`: what an activation has passed was executed.
-/

namespace DefUse

/-- A procedure that is being executed. -/
structure Activation where
  /-- The position of the procedure. -/
  proc : Int
  /-- The call that it was entered by; none for the activation that the execution started with. -/
  call : Option CallSite := none
  /-- The nodes passed since it was entered. -/
  past : List Int := []
  /-- The node at which it is. -/
  node : Int := entryId
  deriving DecidableEq, Repr

namespace Activation

/-- The point at which the activation is. -/
def point (t : Activation) : Point := ⟨t.proc, t.node⟩

/-- The nodes visited since the activation was entered. -/
def walk (t : Activation) : List Int := t.past ++ [t.node]

/-- The activation goes on to a node. -/
def moveTo (t : Activation) (n : Int) : Activation :=
  { t with past := t.walk, node := n }

/-- The activation of a procedure entered by a call. -/
def enter (p : Int) (c : CallSite) : Activation :=
  { proc := p, call := some c }

end Activation

namespace Program

/-- One step of an execution. -/
inductive Step (prog : Program) : List Activation → List Activation → Prop where
  | follow {t : Activation} {rest : List Activation} {n : Int}
      (hn : n ∈ (prog.proc t.proc).graph.succs t.node) :
      Step prog (t :: rest) (t.moveTo n :: rest)
  | call {t : Activation} {rest : List Activation} {c : CallSite} {p : Nat}
      (hc : c ∈ (prog.node t.point).calls)
      (hp : prog.lookup? c.callee = some p) :
      Step prog (t :: rest) (.enter p c :: t :: rest)
  | leave {t caller : Activation} {rest : List Activation}
      (hexit : t.node = exitId) :
      Step prog (t :: caller :: rest) (caller :: rest)

/-- The stack occurs in an execution. -/
def Reachable (prog : Program) (stack : List Activation) : Prop :=
  ∃ p ∈ prog.procIds, Relation.ReflTransGen prog.Step [{ proc := p }] stack

/-- Some execution is at the first point and, one or more steps later, at the second. -/
def Follows (prog : Program) (a b : Point) : Prop :=
  ∃ s t stack stack', prog.Reachable (s :: stack) ∧
    Relation.TransGen prog.Step (s :: stack) (t :: stack') ∧ s.point = a ∧ t.point = b

/-- The stacks of an execution, from its start on. -/
structure IsExecution (prog : Program) (run : List (List Activation)) : Prop where
  starts : ∃ p ∈ prog.procIds, run.head? = some [{ proc := p }]
  steps : run.IsChain prog.Step

/-- Some activation of the run was at the point. -/
def Visits (run : List (List Activation)) (site : Point) : Prop :=
  ∃ t rest, t :: rest ∈ run ∧ t.point = site

/-- The activation is on a walk from the entry of a procedure of the program. -/
structure Placed (prog : Program) (t : Activation) : Prop where
  proc : t.proc ∈ prog.procIds
  connects : (prog.proc t.proc).graph.Connects entryId t.node t.walk

/-- The first activation was entered by a call at the node of the second one. -/
def EnteredFrom (prog : Program) (t caller : Activation) : Prop :=
  ∃ c, t.call = some c ∧ c ∈ (prog.node caller.point).calls ∧
    ∃ p, prog.lookup? c.callee = some p ∧ t.proc = p

/-- What holds of all stacks of an execution. -/
structure Sound (prog : Program) (stack : List Activation) : Prop where
  placed : ∀ t ∈ stack, prog.Placed t
  entered : stack.IsChain prog.EnteredFrom

variable {prog : Program} {t caller y : Activation} {rest stack stack' : List Activation}

theorem EnteredFrom.calls
    (h : prog.EnteredFrom t caller) :
    prog.Calls caller.proc t.proc := by
  obtain ⟨c, -, hc, p, hp, hproc⟩ := h
  refine ⟨caller.node, ?_, c, hc, p, hp, hproc⟩
  by_contra hout
  rw [node, Activation.point, node_eq_empty hout] at hc
  exact absurd hc List.not_mem_nil

theorem EnteredFrom.moveTo
    {n : Int}
    (h : prog.EnteredFrom t caller) :
    prog.EnteredFrom (t.moveTo n) caller :=
  h

theorem placed_start
    {p : Int}
    (call : Option CallSite)
    (hp : p ∈ prog.procIds) :
    prog.Placed { proc := p, call } :=
  ⟨hp, List.isChain_singleton _, rfl, rfl⟩

theorem Placed.moveTo
    {n : Int}
    (h : prog.Placed t)
    (hn : n ∈ (prog.proc t.proc).graph.succs t.node) :
    prog.Placed (t.moveTo n) := by
  have hstep : (prog.proc t.proc).graph.Connects t.node n [t.node, n] :=
    ⟨Digraph.isWalk_cons_cons.mpr ⟨hn, List.isChain_singleton n⟩, rfl, rfl⟩
  exact ⟨h.proc, h.connects.append hstep⟩

/-- In a step no activation comes to a node other than the top one to its own. -/
theorem Step.walk_cases
    {n : Int}
    (h : prog.Step stack stack')
    (ht : t ∈ stack')
    (hn : n ∈ t.walk) :
    (∃ x ∈ stack, x.proc = t.proc ∧ n ∈ x.walk) ∨ ∃ rest, stack' = t :: rest ∧ n = t.node := by
  cases h with
  | @follow x rest m _ =>
      rcases List.mem_cons.mp ht with rfl | ht
      · rcases List.mem_append.mp hn with hn | hn
        · exact Or.inl ⟨x, List.mem_cons_self, rfl, hn⟩
        · exact Or.inr ⟨rest, rfl, List.mem_singleton.mp hn⟩
      · exact Or.inl ⟨t, List.mem_cons_of_mem x ht, rfl, hn⟩
  | call _ _ =>
      rcases List.mem_cons.mp ht with rfl | ht
      · exact Or.inr ⟨_, rfl, List.mem_singleton.mp hn⟩
      · exact Or.inl ⟨t, ht, rfl, hn⟩
  | leave _ => exact Or.inl ⟨t, List.mem_cons_of_mem _ ht, rfl, hn⟩

namespace Sound

theorem tail
    (h : prog.Sound (t :: rest)) :
    prog.Sound rest :=
  ⟨fun x hx => h.placed x (List.mem_cons_of_mem t hx), h.entered.tail⟩

theorem step
    (h : prog.Sound stack)
    (hstep : prog.Step stack stack') :
    prog.Sound stack' := by
  cases hstep with
  | @follow t rest n hn =>
      refine ⟨?_, ?_⟩
      · intro x hx
        rcases List.mem_cons.mp hx with rfl | hx
        · exact (h.placed t List.mem_cons_self).moveTo hn
        · exact h.placed x (List.mem_cons_of_mem t hx)
      · rw [List.isChain_cons]
        refine ⟨?_, h.entered.tail⟩
        intro caller hcaller
        exact EnteredFrom.moveTo ((List.isChain_cons.mp h.entered).1 caller hcaller)
  | @call t rest c p hc hp =>
      refine ⟨?_, ?_⟩
      · intro x hx
        rcases List.mem_cons.mp hx with rfl | hx
        · exact placed_start (some c) (lookup?_lt hp)
        · exact h.placed x hx
      · exact List.isChain_cons_cons.mpr ⟨⟨c, rfl, hc, p, hp, rfl⟩, h.entered⟩
  | leave _ => exact h.tail

theorem enteredFrom
    (h : prog.Sound (t :: caller :: rest)) :
    prog.EnteredFrom t caller :=
  (List.isChain_cons_cons.mp h.entered).1

/-- The procedure of an activation calls, through others, that of the top one. -/
theorem transGen_calls
    (h : prog.Sound (t :: rest))
    (hy : y ∈ rest) :
    Relation.TransGen prog.Calls y.proc t.proc := by
  induction rest generalizing t with
  | nil => exact absurd hy List.not_mem_nil
  | cons caller rest ih =>
      have hcall : prog.Calls caller.proc t.proc := h.enteredFrom.calls
      rcases List.mem_cons.mp hy with rfl | hy
      · exact .single hcall
      · exact .tail (ih h.tail hy) hcall

end Sound

/-- A stack that occurs in an execution is sound. -/
theorem Reachable.sound
    (h : prog.Reachable stack) :
    prog.Sound stack := by
  obtain ⟨p, hp, hsteps⟩ := h
  induction hsteps with
  | refl =>
      refine ⟨?_, List.isChain_singleton _⟩
      intro x hx
      rw [List.mem_singleton.mp hx]
      exact placed_start none hp
  | tail _ hstep ih => exact ih.step hstep

/-- The top activation can go wherever edges lead. -/
theorem exists_steps_of_reaches
    (t : Activation) (rest : List Activation)
    {p m n : Int}
    (h : (prog.proc p).graph.Reaches m n)
    (hproc : t.proc = p)
    (hnode : t.node = m) :
    ∃ t', t'.point = ⟨p, n⟩ ∧ Relation.ReflTransGen prog.Step (t :: rest) (t' :: rest) := by
  induction h generalizing t with
  | refl _ => exact ⟨t, by rw [Activation.point, hproc, hnode], .refl⟩
  | @step m k n hk _ ih =>
      subst hproc hnode
      obtain ⟨t', hpoint, hsteps⟩ := ih (t.moveTo k) rfl rfl
      exact ⟨t', hpoint, .head (.follow hk) hsteps⟩

/-- An execution can start at the entry of a procedure and go wherever edges lead. -/
theorem exists_reachable_of_reaches
    {a : Point}
    (ha : a.proc ∈ prog.procIds)
    (h : (prog.proc a.proc).graph.Reaches entryId a.node) :
    ∃ t, t.point = a ∧ prog.Reachable [t] := by
  obtain ⟨t, hpoint, hsteps⟩ :=
    exists_steps_of_reaches { proc := a.proc } [] h rfl rfl
  exact ⟨t, hpoint, a.proc, ha, hsteps⟩

theorem Reachable.steps
    (h : prog.Reachable stack)
    (hsteps : Relation.ReflTransGen prog.Step stack stack') :
    prog.Reachable stack' := by
  obtain ⟨p, hp, hstart⟩ := h
  exact ⟨p, hp, hstart.trans hsteps⟩

namespace IsExecution

variable {run : List (List Activation)}

/-- Every stack of an execution is the first one or comes from an earlier one by a step. -/
theorem induction
    {P : List Activation → Prop}
    (hrun : prog.IsExecution run)
    (hstart : ∀ p ∈ prog.procIds, [{ proc := p }] ∈ run → P [{ proc := p }])
    (hstep : ∀ stack stack', stack' ∈ run → prog.Step stack stack' → P stack → P stack')
    (hmem : stack ∈ run) :
    P stack := by
  have hlinked : run.IsChain fun s s' => prog.Step s s' ∧ s' ∈ run :=
    List.IsChain.imp_of_mem_imp (fun _ _ _ hs' h => ⟨h, hs'⟩) hrun.steps
  refine hlinked.induction P run (fun s s' h => hstep s s' h.2 h.1) ?_ stack hmem
  intro hne
  obtain ⟨p, hp, hhead⟩ := hrun.starts
  rw [List.head?_eq_some_head hne, Option.some.injEq] at hhead
  have hin := List.head_mem hne
  rw [hhead] at hin ⊢
  exact hstart p hp hin

theorem reachable_of_mem
    (hrun : prog.IsExecution run)
    (hmem : stack ∈ run) :
    prog.Reachable stack := by
  refine hrun.induction ?_ ?_ hmem
  · intro p hp _
    exact ⟨p, hp, .refl⟩
  · intro s s' _ hstep hs
    exact hs.steps (.single hstep)

theorem sound_of_mem
    (hrun : prog.IsExecution run)
    (hmem : stack ∈ run) :
    prog.Sound stack :=
  (hrun.reachable_of_mem hmem).sound

/-- What the activations of an execution have passed was executed. -/
theorem visits
    (hrun : prog.IsExecution run)
    (hmem : stack ∈ run) :
    ∀ t ∈ stack, ∀ n ∈ t.walk, Visits run ⟨t.proc, n⟩ := by
  refine hrun.induction (P := fun stack => ∀ t ∈ stack, ∀ n ∈ t.walk, Visits run ⟨t.proc, n⟩)
    ?_ ?_ hmem
  · intro p _ hstart t ht n hn
    obtain rfl := List.mem_singleton.mp ht
    rw [List.mem_singleton.mp hn]
    exact ⟨_, _, hstart, rfl⟩
  · intro s s' hs' hstep hvisited t ht n hn
    rcases hstep.walk_cases ht hn with ⟨x, hx, hproc, hn⟩ | ⟨rest, rfl, rfl⟩
    · exact hproc ▸ hvisited x hx n hn
    · exact ⟨t, rest, hs', rfl⟩

end IsExecution

end Program

end DefUse
