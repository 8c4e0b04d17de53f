import DefUse.Program.Blueprint
import DefUse.Proofs.Execution.Basic

/-!
# What the oracle misses of executions

Between points of different procedures, and inside procedures that can call themselves, the oracle
always says that the one may follow the other.  Inside any other procedure it knows the walks only.
An execution that goes on from a point of such a procedure either stays in the same activation, or
leaves it and enters the procedure again.

**Method.** An invariant of all stacks after the first point: its activation is still there, further
on or with activations above it, or it has been left.

**Results.**
* `Follows.cases`: how an execution goes from one point of a procedure to another.
* `reaches_misses_iff`: which points follow each other although the oracle says that they do not.
-/

namespace DefUse
namespace Program

/-- A call at the point can return: it leads to a procedure whose entry leads to its exit. -/
def Returns (prog : Program) (a : Point) : Prop :=
  ∃ c ∈ (prog.node a).calls, ∃ p, prog.lookup? c.callee = some p ∧
    (prog.proc p).graph.Reaches entryId exitId

/-- Some point that its entry leads to calls the procedure. -/
def IsCalled (prog : Program) (p : Int) : Prop :=
  ∃ m : Point, m.proc ∈ prog.procIds ∧ (prog.proc m.proc).graph.Reaches entryId m.node ∧
    ∃ c ∈ (prog.node m).calls, ∃ q, prog.lookup? c.callee = some q ∧ p = q

/-- What holds of the stacks after an activation was at a point on top of some others: it is still
there and, if it is on top, has gone on or come back from a call, or it was left. -/
inductive Since (prog : Program) (a : Point) (rest : List Activation) : List Activation → Prop where
  | within (above : List Activation) {x : Activation}
      (hproc : x.proc = a.proc)
      (hnode : (prog.proc a.proc).graph.Reaches a.node x.node)
      (htop : above = [] →
        (prog.proc a.proc).graph.Leads a.node x.node ∨ a.node = x.node ∧ prog.Returns a) :
      Since prog a rest (above ++ x :: rest)
  | left {stack : List Activation}
      (hexit : (prog.proc a.proc).graph.Reaches a.node exitId)
      (hcalled : prog.IsCalled a.proc) :
      Since prog a rest stack

variable {prog : Program} {a b : Point} {t x y caller : Activation}
  {rest above stack stack' : List Activation}

/-- A step with an activation somewhere on the stack: it goes on, it is left, what is above it
changes, or the last one above it returns. -/
theorem Step.cases_of_append
    (h : prog.Step (above ++ x :: rest) stack') :
    (above = [] ∧ ∃ n ∈ (prog.proc x.proc).graph.succs x.node, stack' = x.moveTo n :: rest) ∨
    (above = [] ∧ x.node = exitId ∧ stack' = rest ∧ rest ≠ []) ∨
    (∃ above', above' ≠ [] ∧ stack' = above' ++ x :: rest) ∨
    (∃ y, above = [y] ∧ y.node = exitId ∧ stack' = x :: rest) := by
  cases above with
  | nil =>
      cases h with
      | follow hn => exact Or.inl ⟨rfl, _, hn, rfl⟩
      | call hc hp => exact Or.inr (Or.inr (Or.inl ⟨[_], by simp, rfl⟩))
      | leave hexit => exact Or.inr (Or.inl ⟨rfl, hexit, rfl, by simp⟩)
  | cons y above =>
      right
      right
      generalize hall : (y :: above) ++ x :: rest = all at h
      cases h with
      | @follow t below n hn =>
          obtain ⟨rfl, rfl⟩ := List.cons.inj hall
          exact Or.inl ⟨y.moveTo n :: above, by simp, rfl⟩
      | @call t below c p hc hp =>
          obtain ⟨rfl, rfl⟩ := List.cons.inj hall
          exact Or.inl ⟨.enter p c :: y :: above, by simp, rfl⟩
      | @leave t caller below hexit =>
          obtain ⟨rfl, hbelow⟩ := List.cons.inj hall
          cases above with
          | nil => exact Or.inr ⟨y, rfl, hexit, hbelow.symm⟩
          | cons z above => exact Or.inl ⟨z :: above, by simp, hbelow.symm⟩

theorem EnteredFrom.isCalled
    (h : prog.EnteredFrom t caller)
    (hcaller : prog.Placed caller) :
    prog.IsCalled t.proc := by
  obtain ⟨c, -, hc, hp⟩ := h
  exact ⟨caller.point, hcaller.proc, hcaller.connects.reaches, c, hc, hp⟩

theorem EnteredFrom.returns
    (h : prog.EnteredFrom t caller)
    (ht : prog.Placed t)
    (hexit : t.node = exitId) :
    prog.Returns caller.point := by
  obtain ⟨c, -, hc, p, hp, hproc⟩ := h
  have hreach := ht.connects.reaches
  rw [hproc, hexit] at hreach
  exact ⟨c, hc, p, hp, hreach⟩

/-- An activation that is not the last one was called. -/
theorem Sound.isCalled
    (h : prog.Sound (t :: rest))
    (hrest : rest ≠ []) :
    prog.IsCalled t.proc := by
  obtain ⟨caller, rest, rfl⟩ := List.exists_cons_of_ne_nil hrest
  exact h.enteredFrom.isCalled (h.placed caller (by simp))

/-- The first step after the point. -/
theorem Sound.since
    (hsound : prog.Sound (x :: rest))
    (hpoint : x.point = a)
    (h : prog.Step (x :: rest) stack) :
    prog.Since a rest stack := by
  subst hpoint
  obtain ⟨-, n, hn, rfl⟩ | ⟨-, hexit, rfl, hrest⟩ | ⟨above, habove, rfl⟩ | ⟨y, hy, -⟩ :=
    Step.cases_of_append (show prog.Step ([] ++ x :: rest) stack from h)
  · exact .within [] rfl (.single hn) fun _ => Or.inl ⟨n, hn, .refl n⟩
  · refine .left ?_ (hsound.isCalled hrest)
    rw [Activation.point, hexit]
    exact .refl exitId
  · exact .within above rfl (.refl _) fun hnil => absurd hnil habove
  · exact absurd hy (by simp)

theorem Since.step
    (h : prog.Since a rest stack)
    (hsound : prog.Sound stack)
    (hstep : prog.Step stack stack') :
    prog.Since a rest stack' := by
  cases h with
  | left hexit hcalled => exact .left hexit hcalled
  | @within above x hproc hnode htop =>
      obtain ⟨rfl, n, hn, rfl⟩ | ⟨rfl, hexit, rfl, hrest⟩ | ⟨above', habove, rfl⟩ |
        ⟨y, rfl, hexit, rfl⟩ := hstep.cases_of_append
      · rw [hproc] at hn
        have hleads : (prog.proc a.proc).graph.Leads a.node n := hnode.leads hn
        exact .within [] hproc hleads.reaches fun _ => Or.inl hleads
      · exact .left (hexit ▸ hnode) (hproc ▸ hsound.isCalled hrest)
      · exact .within above' hproc hnode fun hnil => absurd hnil habove
      · -- The call above has returned; it was made at the point or after moving on.
        refine .within [] hproc hnode fun _ => ?_
        rcases Digraph.reaches_iff_eq_or.mp hnode with heq | hleads
        · right
          have hpoint : x.point = a := by rw [Activation.point, hproc, ← heq]
          exact ⟨heq, hpoint ▸ hsound.enteredFrom.returns (hsound.placed y (by simp)) hexit⟩
        · exact Or.inl hleads

/-- In a procedure that cannot call itself, an execution that comes from one point to another has
followed edges, has come back from a call, or has left the procedure and entered it again. -/
theorem Follows.cases
    (h : prog.Follows a b)
    (hproc : a.proc = b.proc)
    (hself : ¬ Relation.TransGen prog.Calls a.proc a.proc) :
    (prog.proc a.proc).graph.Reaches entryId a.node ∧
      ((prog.proc a.proc).graph.Leads a.node b.node ∨ a.node = b.node ∧ prog.Returns a ∨
        prog.IsCalled a.proc ∧ (prog.proc a.proc).graph.Reaches a.node exitId ∧
          (prog.proc a.proc).graph.Reaches entryId b.node) := by
  obtain ⟨x, t, rest, stack, hreachable, hsteps, rfl, rfl⟩ := h
  have hsound := hreachable.sound
  have hlater : prog.Sound (t :: stack) ∧ prog.Since x.point rest (t :: stack) := by
    generalize t :: stack = last at hsteps
    induction hsteps with
    | single hstep => exact ⟨hsound.step hstep, hsound.since rfl hstep⟩
    | tail _ hstep ih => exact ⟨ih.1.step hstep, ih.2.step ih.1 hstep⟩
  obtain ⟨hsound', hsince⟩ := hlater
  -- Where the invariant leaves it open what is on top, the procedure would call itself.
  refine ⟨(hsound.placed x List.mem_cons_self).connects.reaches, ?_⟩
  have hentry := (hsound'.placed t List.mem_cons_self).connects.reaches
  rw [show t.proc = x.point.proc from hproc.symm] at hentry
  generalize hlast : t :: stack = last at hsince
  cases hsince with
  | left hexit hcalled => exact Or.inr (Or.inr ⟨hcalled, hexit, hentry⟩)
  | @within above y hprocy hnode htop =>
      cases above with
      | nil =>
          obtain ⟨rfl, rfl⟩ := List.cons.inj hlast
          rcases htop rfl with hleads | hreturns
          · exact Or.inl hleads
          · exact Or.inr (Or.inl hreturns)
      | cons z above =>
          obtain ⟨rfl, rfl⟩ := List.cons.inj hlast
          have hbelow : y ∈ above ++ y :: rest := by simp
          have hcalls := hsound'.transGen_calls hbelow
          rw [hprocy, show t.proc = x.point.proc from hproc.symm] at hcalls
          exact absurd hcalls hself

/-- An execution that calls something at a point can come back to the point. -/
theorem follows_of_returns
    (ha : a.proc ∈ prog.procIds)
    (hentry : (prog.proc a.proc).graph.Reaches entryId a.node)
    (hreturns : prog.Returns a) :
    prog.Follows a a := by
  obtain ⟨c, hc, p, hp, hexit⟩ := hreturns
  obtain ⟨x, rfl, hx⟩ := exists_reachable_of_reaches ha hentry
  obtain ⟨y, hy, hsteps⟩ :=
    exists_steps_of_reaches (.enter p c) [x] hexit rfl rfl
  refine ⟨x, x, [], [], hx, ?_, rfl, rfl⟩
  have hcall : Relation.TransGen prog.Step [x] (y :: [x]) :=
    Relation.TransGen.head' (.call hc hp) hsteps
  exact hcall.tail (.leave (congrArg Point.node hy))

/-- An execution can leave a procedure that is called and enter it again. -/
theorem follows_of_isCalled
    (hproc : a.proc = b.proc)
    (hcalled : prog.IsCalled a.proc)
    (hentry : (prog.proc a.proc).graph.Reaches entryId a.node)
    (hexit : (prog.proc a.proc).graph.Reaches a.node exitId)
    (hentry' : (prog.proc a.proc).graph.Reaches entryId b.node) :
    prog.Follows a b := by
  obtain ⟨m, hm, hreach, c, hc, p, hp, hap⟩ := hcalled
  obtain ⟨x, rfl, hx⟩ := exists_reachable_of_reaches hm hreach
  rw [hap] at hentry hexit hentry'
  obtain ⟨s, hs, hin⟩ := exists_steps_of_reaches (.enter p c) [x] hentry rfl rfl
  obtain ⟨y, hy, hout⟩ := exists_steps_of_reaches s [x] hexit
    (congrArg Point.proc hs) (congrArg Point.node hs)
  obtain ⟨t, ht, hagain⟩ := exists_steps_of_reaches (.enter p c) [x] hentry' rfl rfl
  refine ⟨s, t, [x], [x], hx.steps (.head (.call hc hp) hin), ?_, ?_, ?_⟩
  · have hleft : Relation.TransGen prog.Step (s :: [x]) [x] :=
      Relation.TransGen.tail' hout (.leave (congrArg Point.node hy))
    exact (hleft.tail (.call hc hp)).trans_left hagain
  · rw [hs, ← hap]
  · rw [ht, ← hap, hproc]

end Program

theorem reaches?_eq_false_iff
    {prog : Program} {a b : Point}
    (hprog : prog.Finalized)
    (ha : prog.HasPoint a)
    (hproc : a.proc = b.proc) :
    (GraphOrder.ofProgram prog).reaches? a b true = .ok false ↔
      ¬ Relation.TransGen prog.Calls a.proc a.proc ∧
        ¬ (prog.proc a.proc).graph.Leads a.node b.node := by
  rw [GraphOrder.reaches?_eq ha hproc, Except.ok.injEq, Bool.true_and, Bool.or_eq_false_iff,
    decide_eq_false_iff_not, Program.mem_selfCalling_iff_transGen hprog ha.1,
    ← Digraph.mem_reachFrom_iff (hprog.graph_closed ha.1) (by simpa using ha.2),
    ← Bool.not_eq_true, List.contains_iff_mem]

/-- The points that follow each other in some execution although the oracle says that they do
not. -/
theorem reaches_misses_iff
    (prog : Program) (a b : Point)
    (hprog : prog.Finalized)
    (ha : prog.HasPoint a) :
    prog.Follows a b ∧ (GraphOrder.ofProgram prog).reaches? a b true = .ok false ↔
      a.proc = b.proc ∧ ¬ Relation.TransGen prog.Calls a.proc a.proc ∧
        ¬ (prog.proc a.proc).graph.Leads a.node b.node ∧
        (prog.proc a.proc).graph.Reaches entryId a.node ∧
        (a.node = b.node ∧ prog.Returns a ∨
          prog.IsCalled a.proc ∧ (prog.proc a.proc).graph.Reaches a.node exitId ∧
            (prog.proc a.proc).graph.Reaches entryId b.node) := by
  by_cases hproc : a.proc = b.proc
  · rw [reaches?_eq_false_iff hprog ha hproc]
    constructor
    · rintro ⟨hfollows, hself, hleads⟩
      obtain ⟨hentry, hway⟩ := hfollows.cases hproc hself
      exact ⟨hproc, hself, hleads, hentry, hway.resolve_left hleads⟩
    · rintro ⟨-, hself, hleads, hentry, ⟨hnode, hreturns⟩ | ⟨hcalled, hexit, hentry'⟩⟩
      · obtain rfl : a = b := by
          cases a
          cases b
          exact congrArg₂ Point.mk hproc hnode
        exact ⟨Program.follows_of_returns ha.1 hentry hreturns, hself, hleads⟩
      · exact ⟨Program.follows_of_isCalled hproc hcalled hentry hexit hentry', hself, hleads⟩
  · constructor
    · rintro ⟨-, hno⟩
      rw [GraphOrder.reaches?_of_ne hproc] at hno
      exact absurd (Except.ok.inj hno) (by decide)
    · rintro ⟨hproc', -⟩
      exact absurd hproc' hproc

/-- A procedure that calls another one in a loop. -/
def callLoop : Program :=
  (Program.ofBlueprints
    [{ name := "main"
       nodes := [{ label := "f()", calls := [⟨"f", []⟩] }]
       edges := [(0, 2), (2, 2), (2, 1)] },
     { name := "f"
       nodes := [{ label := "x = 1" }, { label := "y = 2" }]
       edges := [(0, 2), (2, 3), (3, 1)] }] []).toOption.getD {}

/-- The next call comes back to what the last one has executed. -/
theorem follows_callLoop :
    callLoop.Follows ⟨1, 3⟩ ⟨1, 2⟩ := by
  have edge : ∀ {p u v : Int}, v ∈ (callLoop.proc p).graph.succs u →
      (callLoop.proc p).graph.Reaches u v := fun h => .single h
  have hfirst : (callLoop.proc 1).graph.Reaches entryId 2 := edge (by decide +kernel)
  have hlast : (callLoop.proc 1).graph.Reaches 3 exitId := edge (by decide +kernel)
  have hsecond : (callLoop.proc 1).graph.Reaches entryId 3 :=
    hfirst.trans (edge (by decide +kernel))
  have hcalled : callLoop.IsCalled 1 :=
    ⟨⟨0, 2⟩, by decide +kernel, edge (by decide +kernel), ⟨"f", []⟩, by decide +kernel, 1,
      by decide +kernel, rfl⟩
  exact Program.follows_of_isCalled rfl hcalled hsecond hlast hfirst

theorem reaches_misses_iff_callLoop :
    callLoop.Finalized ∧ callLoop.HasPoint ⟨1, 3⟩ ∧ callLoop.Follows ⟨1, 3⟩ ⟨1, 2⟩ ∧
      ¬ Relation.TransGen callLoop.Calls 1 1 ∧ ¬ (callLoop.proc 1).graph.Leads 3 2 := by
  have hprog : callLoop.Finalized := by decide +kernel
  have ha : callLoop.HasPoint ⟨1, 3⟩ := by decide +kernel
  have hno : (GraphOrder.ofProgram callLoop).reaches? ⟨1, 3⟩ ⟨1, 2⟩ true = .ok false := by
    decide +kernel
  obtain ⟨-, hself, hleads, -, -⟩ :=
    (reaches_misses_iff callLoop ⟨1, 3⟩ ⟨1, 2⟩ hprog ha).mp ⟨follows_callLoop, hno⟩
  exact ⟨hprog, ha, follows_callLoop, hself, hleads⟩

/-- The oracle does not know everything that executions do: a procedure that is called twice
executes its first node again after its last one. -/
theorem not_reaches_of_follows :
    ¬ ∀ (prog : Program) (a b : Point), prog.Finalized → prog.HasPoint a → prog.HasPoint b →
      prog.Follows a b → (GraphOrder.ofProgram prog).reaches? a b true = .ok true := by
  intro hall
  have hyes := hall callLoop ⟨1, 3⟩ ⟨1, 2⟩ (by decide +kernel) (by decide +kernel)
    (by decide +kernel) follows_callLoop
  have hno : (GraphOrder.ofProgram callLoop).reaches? ⟨1, 3⟩ ⟨1, 2⟩ true = .ok false := by
    decide +kernel
  exact absurd (Except.ok.inj (hno.symm.trans hyes)) (by decide)

end DefUse
