import DefUse.Proofs.Association.Reached
import DefUse.Proofs.Execution.Basic

/-!
# Where an execution takes its values from

The variable of an activation has its value from a definition of the activation's own procedure, if
one was passed and no node since then writes the variable.  It has it from an argument, if it is the
formal that the argument was bound to and no node of the activation so far writes it; then the
argument had its value from somewhere when the caller made the call.

**Method.** By induction on the way of the value, the definition reaches in the program every use
that it reaches in the execution, through the same local use.

**Results.**
* `Traced.mem_witnesses`: an execution of a use takes its value through a local use that is noted
  for the definition.
* `Traced.proc_eq_or`: the definition was executed by an activation that is still on the stack.
-/

namespace DefUse

/-- The activation is at the use: at its node, or at the end of its branch. -/
def Activation.ArrivesAt (t : Activation) (u : Use) : Prop :=
  t.proc = u.site.proc ∧ u.arrival <:+ t.walk

instance (t : Activation) (u : Use) : Decidable (t.ArrivesAt u) :=
  inferInstanceAs (Decidable (_ ∧ _))

namespace Program

/-- The top activation has the value of a variable from a definition; if the definition was executed
by an activation further down, the value has left that one through the use. -/
inductive Traced (prog : Program) : List Activation → Variable → Def → Option Use → Prop where
  | written {t : Activation} {rest : List Activation} {d : Def} {front back : List Int}
      (hd : prog.IsLocalDef false d)
      (hproc : d.site.proc = t.proc)
      (hpast : t.past = front ++ d.site.node :: back)
      (hclear : ∀ n ∈ back, ¬ prog.Writes false ⟨t.proc, n⟩ d.var) :
      Traced prog (t :: rest) d.var d none
  | bound {t caller : Activation} {rest : List Activation} {c : CallSite} {i : Nat} {x : Formal}
      {param arg : Variable} {d : Def} {through : Option Use}
      (hclear : ∀ n ∈ t.past, ¬ prog.Writes false ⟨t.proc, n⟩ param)
      (hcall : t.call = some c)
      (harg : prog.IsArgument (.computation caller.point arg) c i)
      (hpass : prog.PassesThrough false c i x)
      (hparam : (prog.proc x.proc).params[x.index]? = some param)
      (hrest : Traced prog (caller :: rest) arg d through) :
      Traced prog (t :: caller :: rest) param d
        (some (through.getD (.computation caller.point arg)))

/-- The entries of the procedures do nothing but lead on. -/
def BareEntries (prog : Program) : Prop :=
  ∀ p ∈ prog.procIds, (prog.node ⟨p, entryId⟩).defs = [] ∧ (prog.node ⟨p, entryId⟩).uses = [] ∧
    (prog.node ⟨p, entryId⟩).calls = []

instance (prog : Program) : Decidable prog.BareEntries :=
  inferInstanceAs (Decidable (∀ p ∈ prog.procIds, _))

variable {prog : Program} {t caller : Activation} {rest : List Activation} {v : Variable} {d : Def}
  {u w : Use} {through : Option Use}

theorem arrivesAt_computation
    (caller : Activation) (v : Variable) :
    caller.ArrivesAt (.computation caller.point v) :=
  ⟨rfl, List.suffix_append _ _⟩

theorem arrival_length_le
    (u : Use) :
    u.arrival.length ≤ 2 := by
  unfold Use.arrival
  split <;> simp

/-- A bare entry has no uses. -/
theorem BareEntries.node_ne_entry
    (hbare : prog.BareEntries)
    (hp : u.site.proc ∈ prog.procIds)
    (hu : prog.IsUse u) :
    u.site.node ≠ entryId := by
  intro hentry
  obtain ⟨-, huses, hcalls⟩ := hbare _ hp
  rw [← hentry] at huses hcalls
  rcases hu with hplain | ⟨c, i, harg⟩
  · have hmem := hplain.2
    rw [Procedure.usesOf, show ((prog.proc u.site.proc).node u.site.node).uses = [] from huses]
      at hmem
    exact absurd hmem List.not_mem_nil
  · have hmem := harg.call
    rw [hcalls] at hmem
    exact absurd hmem List.not_mem_nil

/-- An activation that is at a use has passed its entry. -/
theorem past_ne_nil_of_arrivesAt
    (hbare : prog.BareEntries)
    (ht : prog.Placed t)
    (harrives : t.ArrivesAt u)
    (hu : prog.IsUse u) :
    t.past ≠ [] := by
  intro hnil
  have hwalk : t.walk = [entryId] := by
    have hstarts := ht.connects.starts
    rw [Activation.walk, hnil] at hstarts ⊢
    simpa using hstarts
  have hsuffix := harrives.2
  rw [hwalk] at hsuffix
  have hne := hbare.node_ne_entry (harrives.1 ▸ ht.proc) hu
  unfold Use.arrival at hsuffix
  split at hsuffix
  · exact absurd hsuffix.length_le (by simp)
  · exact hne (by simpa using hsuffix.eq_of_length rfl)

/-- What an activation has passed since a definition brings the value to where it is. -/
theorem locallyReached_of_written
    {front back : List Int}
    (ht : prog.Placed t)
    (hproc : d.site.proc = t.proc)
    (hpast : t.past = front ++ d.site.node :: back)
    (hclear : ∀ n ∈ back, ¬ prog.Writes false ⟨t.proc, n⟩ d.var)
    (hu : prog.IsUse u)
    (hvar : u.var = d.var)
    (harrives : t.ArrivesAt u) :
    prog.LocallyReached false d.site d.var u := by
  have hwalk : t.walk = front ++ (d.site.node :: (back ++ [t.node])) := by
    rw [Activation.walk, hpast, List.append_assoc, List.cons_append]
  have hsuffix : d.site.node :: (back ++ [t.node]) <:+ t.walk := by
    rw [hwalk]
    exact List.suffix_append _ _
  refine ⟨by rw [hproc, harrives.1], hvar, hu, d.site.node :: (back ++ [t.node]), ?_⟩
  rw [← hproc] at hclear
  refine ⟨?_, rfl, by simp, ?_, ?_⟩
  · rw [hproc]
    exact ht.connects.isWalk.infix hsuffix.isInfix
  · refine List.suffix_of_suffix_length_le harrives.2 hsuffix ?_
    have := arrival_length_le u
    simp only [List.length_cons, List.length_append, List.length_nil]
    omega
  · simpa using hclear

/-- What an activation has passed since its entry brings the value of a formal to where it is. -/
theorem locallyReached_of_bound
    (hbare : prog.BareEntries)
    (ht : prog.Placed t)
    (hclear : ∀ n ∈ t.past, ¬ prog.Writes false ⟨t.proc, n⟩ v)
    (hu : prog.IsUse u)
    (hvar : u.var = v)
    (harrives : t.ArrivesAt u) :
    prog.LocallyReached false ⟨t.proc, entryId⟩ v u := by
  obtain ⟨n, past, hpast⟩ := List.exists_cons_of_ne_nil
    (past_ne_nil_of_arrivesAt hbare ht harrives hu)
  have hstarts := ht.connects.starts
  rw [Activation.walk, hpast] at hstarts
  obtain rfl : n = entryId := by simpa using hstarts
  refine ⟨harrives.1.symm, hvar, hu, t.walk, ht.connects.isWalk, ht.connects.starts, ?_,
    harrives.2, ?_⟩
  · simp [Activation.walk, hpast]
  · rw [Activation.walk, hpast, List.cons_append, Digraph.inside_cons_concat]
    exact fun n hn => hclear n (hpast ▸ List.mem_cons_of_mem _ hn)

/-- The use is the other one and ends associations, or it is passed to a formal that the other one
stands behind. -/
def LeadsOnTo (prog : Program) (w u : Use) : Prop :=
  u = w ∧ prog.IsEndpoint false w ∨
    ∃ x, prog.IsPassedTo false w x ∧
      FormalTable.Behind prog (localFlows prog false) x (.inl u)

/-- What a formal reaches in its procedure leads on to what stands behind the formal. -/
theorem behind_of_leadsOnTo
    {x : Formal} {param : Variable}
    (hprog : prog.Finalized)
    (hx : FormalTable.IsSummarised prog (localFlows prog false) x
      (LocalFlow.ofProcedure prog false x.proc) param)
    (hreached : prog.LocallyReached false ⟨x.proc, entryId⟩ param w)
    (h : prog.LeadsOnTo w u) :
    FormalTable.Behind prog (localFlows prog false) x (.inl u) := by
  obtain ⟨hp, -⟩ := getElem?_localFlows_iff.mp hx.flow
  rcases h with ⟨rfl, hend⟩ | ⟨y, hpassed, hbehind⟩
  · exact .added hx ((inl_mem_adds_iff hprog hp).mpr ⟨hreached, hend⟩)
  · exact .passed hx ((mem_passes_iff hprog hp).mpr ⟨w, hreached, hpassed⟩) hbehind

/-- The procedure of an activation that passed an argument on is that of the formal. -/
theorem EnteredFrom.proc_eq
    {c : CallSite} {i : Nat} {x : Formal}
    (h : prog.EnteredFrom t caller)
    (hcall : t.call = some c)
    (hpass : prog.PassesThrough false c i x) :
    t.proc = x.proc := by
  obtain ⟨c', hcall', -, p, hp, hproc⟩ := h
  obtain rfl : c = c' := Option.some.inj (hcall.symm.trans hcall')
  rw [hpass.callee] at hp
  rw [hproc, Option.some.inj hp]

/-- A use that an execution takes the value of a definition to is noted for the definition, with the
local use through which the value has left the activation of the definition. -/
theorem Traced.mem_witnesses
    {stack : List Activation}
    (hprog : prog.Finalized)
    (hbare : prog.BareEntries)
    (h : prog.Traced stack v d through)
    (hsound : prog.Sound stack)
    (htop : stack.head? = some t)
    (harrives : t.ArrivesAt w)
    (hw : prog.IsUse w)
    (hvar : w.var = v)
    (hleads : prog.LeadsOnTo w u) :
    through.getD w ∈ (prog.reachedFrom false d).witnesses u := by
  -- Going down the stack, the use becomes the argument, and what it leads on to becomes what stands
  -- behind the formal.
  induction h generalizing t w with
  | @written t' rest d front back hd hproc hpast hclear =>
      obtain rfl : t' = t := by simpa using htop
      have ht := hsound.placed t' List.mem_cons_self
      exact (mem_witnesses_iff hprog hd).mpr
        ⟨locallyReached_of_written ht hproc hpast hclear hw hvar harrives, hleads⟩
  | @bound t' caller rest c i x param arg d through hclear hcall harg hpass hparam _ ih =>
      obtain rfl : t' = t := by simpa using htop
      have ht := hsound.placed t' List.mem_cons_self
      have hpassed : prog.IsPassedTo false (.computation caller.point arg) x :=
        ⟨c, i, harg, hpass⟩
      have hreached := locallyReached_of_bound hbare ht hclear hw hvar harrives
      rw [hsound.enteredFrom.proc_eq hcall hpass] at hreached
      have hx := isSummarised_localFlows false hparam (hpassed.notZero hparam)
        (hvar ▸ hw.isLocal)
      exact ih hsound.tail rfl (arrivesAt_computation caller arg) (Or.inr ⟨c, i, harg⟩) rfl
        (Or.inr ⟨x, hpassed, behind_of_leadsOnTo hprog hx hreached hleads⟩)

theorem Traced.isLocalDef
    {stack : List Activation}
    (h : prog.Traced stack v d through) :
    prog.IsLocalDef false d := by
  induction h with
  | written hd _ _ _ => exact hd
  | bound _ _ _ _ _ _ ih => exact ih

/-- A value that has left no activation was written by the top one. -/
theorem Traced.exists_written
    {stack : List Activation}
    (h : prog.Traced stack v d none)
    (htop : stack.head? = some t) :
    v = d.var ∧ d.site.proc = t.proc ∧ ∃ front back, t.past = front ++ d.site.node :: back ∧
      ∀ n ∈ back, ¬ prog.Writes false ⟨t.proc, n⟩ d.var := by
  cases h with
  | written _ hproc hpast hclear =>
      obtain rfl : _ = t := by simpa using htop
      exact ⟨rfl, hproc, _, _, hpast, hclear⟩

/-- A value that has left an activation came with an argument of the call that the top activation
was entered by. -/
theorem Traced.exists_argument
    {stack : List Activation}
    (h : prog.Traced stack v d (some w))
    (htop : stack.head? = some t) :
    ∃ c, t.call = some c ∧ ∃ arg ∈ c.args, arg.isZero = false := by
  cases h with
  | bound _ hcall harg _ _ _ =>
      obtain rfl : _ = t := by simpa using htop
      exact ⟨_, hcall, _, List.mem_of_getElem? harg.argument, harg.notZero⟩

/-- The definition was executed by the top activation, or the value has left a deeper one. -/
theorem Traced.proc_eq_or
    {stack : List Activation}
    (h : prog.Traced stack v d through)
    (htop : stack.head? = some t) :
    through = none ∧ d.site.proc = t.proc ∨
      through ≠ none ∧ ∃ y ∈ stack.tail, d.site.proc = y.proc := by
  induction h generalizing t with
  | written _ hproc _ _ =>
      obtain rfl : _ = t := by simpa using htop
      exact Or.inl ⟨rfl, hproc⟩
  | @bound _ caller rest _ _ _ _ _ _ _ _ _ _ _ _ _ ih =>
      right
      refine ⟨by simp, ?_⟩
      rcases ih rfl with ⟨-, hproc⟩ | ⟨-, y, hy, hproc⟩
      · exact ⟨caller, List.mem_cons_self, hproc⟩
      · exact ⟨y, List.mem_cons_of_mem caller hy, hproc⟩

end Program
end DefUse
