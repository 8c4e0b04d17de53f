import DefUse.Flow.Formals
import DefUse.Proofs.Flow.Local
import DefUse.Proofs.Graph.Components
import DefUse.Proofs.Graph.Reach
import DefUse.Proofs.Sorted
import Mathlib.Algebra.Order.BigOperators.Group.List
import Mathlib.Data.List.Perm.Subperm

/-!
# The least summaries of formals

What stands behind a formal is given by two rules: a procedure puts the endpoints and definitions
that it reaches from its entry behind its formals, and a formal that is passed to another one has
behind it what the other one has.

**Method.** The waiting list is run with an invariant: no summary holds more than the rules give,
and the formals of every procedure that does not wait are closed under the rules.  A summary that
grows makes the callers wait, and those are all whose formals are passed to it.  Nothing is listed
twice, so the summaries can grow only so often.

**Results.** `mem_items_solveFrom_iff`: the summaries found hold exactly what the rules give,
whatever the order in which the procedures wait at first.
-/

namespace DefUse

/-- The uses and the definitions of a summary together. -/
def FormalSummary.items (s : FormalSummary) : List (Use ⊕ Def) :=
  s.uses.map .inl ++ s.kills.map .inr

namespace LocalFlow

/-- What a procedure by itself puts behind a formal: the endpoints and the definitions that it
reaches from its entry. -/
def adds (fl : LocalFlow) (param : Variable) : List (Use ⊕ Def) :=
  ((fl.usesFrom entryId param).filter fl.isEndpoint).map .inl ++
    (fl.defsFrom entryId param).map .inr

/-- The formals that a formal is passed to. -/
def passes (fl : LocalFlow) (param : Variable) : List Formal :=
  (fl.usesFrom entryId param).flatMap fl.links

/-- A summary has what the procedure adds itself, and what the formals have that it passes the value
to. -/
theorem mem_items_summarize
    {fl : LocalFlow} {t : FormalTable} {param : Variable} {item : Use ⊕ Def} :
    item ∈ (fl.summarize t param).items ↔
      item ∈ fl.adds param ∨ ∃ y ∈ fl.passes param, item ∈ (t.summary y).items := by
  cases item with
  | inl u =>
      simp only [FormalSummary.items, summarize, standsFor, adds, passes, List.mem_append,
        List.mem_map, List.mem_flatMap, List.mem_filter, Sum.inl.injEq, exists_eq_right,
        reduceCtorEq, and_false, exists_false, or_false]
      constructor
      · rintro ⟨w, hw, hu | ⟨y, hy, hu⟩⟩
        · split at hu
          · rename_i hend
            rw [List.mem_singleton] at hu
            subst hu
            exact Or.inl ⟨hw, hend⟩
          · exact absurd hu List.not_mem_nil
        · exact Or.inr ⟨y, ⟨w, hw, hy⟩, hu⟩
      · rintro (⟨hu, hend⟩ | ⟨y, ⟨w, hw, hy⟩, hu⟩)
        · exact ⟨u, hu, Or.inl (by simp [hend])⟩
        · exact ⟨w, hw, Or.inr ⟨y, hy, hu⟩⟩
  | inr d =>
      simp only [FormalSummary.items, summarize, overwrites, adds, passes, List.mem_append,
        List.mem_map, List.mem_flatMap, Sum.inr.injEq, exists_eq_right, reduceCtorEq, and_false,
        exists_false, false_or]
      constructor
      · rintro (hd | ⟨w, hw, y, hy, hd⟩)
        · exact Or.inl hd
        · exact Or.inr ⟨y, ⟨w, hw, hy⟩, hd⟩
      · rintro (hd | ⟨y, ⟨w, hw, hy⟩, hd⟩)
        · exact Or.inl hd
        · exact Or.inr ⟨w, hw, y, hy, hd⟩

end LocalFlow

namespace FormalTable

/-- The formal is a local variable of a procedure with a flow. -/
structure IsSummarised (prog : Program) (flows : Array LocalFlow) (x : Formal) (fl : LocalFlow)
    (param : Variable) : Prop where
  flow : flows[x.proc]? = some fl
  formal : (prog.proc x.proc).params[x.index]? = some param
  notZero : param.isZero = false
  isLocal : param.isLocal = true

/-- The least family of sets that is closed under passing. -/
inductive Behind (prog : Program) (flows : Array LocalFlow) : Formal → Use ⊕ Def → Prop
  | added {x : Formal} {fl : LocalFlow} {param : Variable} {item : Use ⊕ Def}
      (hx : IsSummarised prog flows x fl param)
      (hitem : item ∈ fl.adds param) :
      Behind prog flows x item
  | passed {x y : Formal} {fl : LocalFlow} {param : Variable} {item : Use ⊕ Def}
      (hx : IsSummarised prog flows x fl param)
      (hy : y ∈ fl.passes param)
      (hitem : Behind prog flows y item) :
      Behind prog flows x item

/-- The table has a summary for every formal, all of them sound and without repetition. -/
structure Valid (prog : Program) (flows : Array LocalFlow) (t : FormalTable) : Prop where
  size : t.size = prog.procs.size
  rows : ∀ p : Nat, (t[p]?.getD #[]).size = (prog.proc p).params.length
  sound : ∀ x, ∀ item ∈ (t.summary x).items, Behind prog flows x item
  uses : ∀ x, (t.summary x).uses.Nodup
  kills : ∀ x, (t.summary x).kills.Nodup

/-- One table extends another one at the formals of a procedure. -/
structure Extends (p : Nat) (t t' : FormalTable) : Prop where
  uses : ∀ x, (t.summary x).uses <+: (t'.summary x).uses
  kills : ∀ x, (t.summary x).kills <+: (t'.summary x).kills
  frame : ∀ x, x.proc ≠ p → t'.summary x = t.summary x

/-- The formals of a procedure have behind them what the rules say. -/
def ClosedAt (prog : Program) (flows : Array LocalFlow) (p : Nat) (t : FormalTable) : Prop :=
  ∀ x fl param, IsSummarised prog flows x fl param → x.proc = p →
    ∀ item ∈ (fl.summarize t param).items, item ∈ (t.summary x).items

section Unite

variable {α : Type} [DecidableEq α]

/-- A list united with another has the members of both. -/
theorem mem_unite
    {xs ys : List α} {a : α} :
    a ∈ unite xs ys ↔ a ∈ xs ∨ a ∈ ys := by
  unfold unite
  simp only [List.mem_append, List.mem_filter, mem_distinct, decide_not, Bool.not_eq_true',
    decide_eq_false_iff_not]
  tauto

/-- Members that are there already are not added again. -/
theorem nodup_unite
    {xs : List α} (ys : List α)
    (hxs : xs.Nodup) :
    (unite xs ys).Nodup := by
  refine hxs.append ((distinct_nodup ys).filter _) ?_
  intro a hx hy
  simp only [List.mem_filter, decide_not, Bool.not_eq_true', decide_eq_false_iff_not] at hy
  exact hy.2 hx

end Unite

section Update

variable {prog : Program} {flows : Array LocalFlow} {fl : LocalFlow} {t t' : FormalTable}
  {p : Nat} {x : Formal} {param : Variable}

theorem Extends.refl
    (p : Nat) (t : FormalTable) :
    Extends p t t :=
  ⟨fun _ => List.prefix_refl _, fun _ => List.prefix_refl _, fun _ _ => rfl⟩

/-- Tables that only grow have grown from the first to the last. -/
theorem Extends.trans
    {t₁ t₂ t₃ : FormalTable}
    (h : Extends p t₁ t₂)
    (h' : Extends p t₂ t₃) :
    Extends p t₁ t₃ := by
  refine ⟨?_, ?_, ?_⟩
  · intro x
    exact (h.uses x).trans (h'.uses x)
  · intro x
    exact (h.kills x).trans (h'.kills x)
  · intro x hx
    rw [h'.frame x hx, h.frame x hx]

/-- What a summary has it keeps. -/
theorem Extends.items
    (h : Extends p t t')
    {item : Use ⊕ Def}
    (hitem : item ∈ (t.summary x).items) :
    item ∈ (t'.summary x).items := by
  simp only [FormalSummary.items, List.mem_append, List.mem_map] at hitem ⊢
  rcases hitem with ⟨u, hu, rfl⟩ | ⟨d, hd, rfl⟩
  · exact Or.inl ⟨u, (h.uses x).subset hu, rfl⟩
  · exact Or.inr ⟨d, (h.kills x).subset hd, rfl⟩

/-- What is summarised from a table is summarised from a larger one. -/
theorem Extends.summarize
    (h : Extends p t t')
    {item : Use ⊕ Def}
    (hitem : item ∈ (fl.summarize t param).items) :
    item ∈ (fl.summarize t' param).items := by
  rw [LocalFlow.mem_items_summarize] at hitem ⊢
  rcases hitem with hadd | ⟨y, hy, hitem⟩
  · exact Or.inl hadd
  · exact Or.inr ⟨y, hy, h.items hitem⟩

/-- The table with the summary of one formal recomputed. -/
def recompute (fl : LocalFlow) (p : Nat) (t : FormalTable) (entry : Variable × Nat) :
    FormalTable :=
  t.modify p fun row => row.modify entry.2 (growSummary fl t entry.1)

/-- A visit recomputes the formals of a procedure one after the other. -/
theorem update_eq :
    update prog fl p t = (prog.proc p).params.zipIdx.foldl (recompute fl p) t :=
  rfl

/-- A formal that is recomputed changes no other summary. -/
theorem summary_recompute
    {i : Nat} :
    (recompute fl p t (param, i)).summary x =
      if x = ⟨p, i⟩ ∧ i < (t[p]?.getD #[]).size then growSummary fl t param (t.summary x)
      else t.summary x := by
  obtain ⟨q, j⟩ := x
  simp only [recompute, summary, Formal.mk.injEq, Array.getElem?_modify]
  by_cases hp : p = q
  · subst hp
    cases hrow : t[p]? with
    | none => simp
    | some row =>
        simp only [if_true, Option.map_some, Option.getD_some, Array.getElem?_modify]
        by_cases hi : i = j
        · subst hi
          by_cases hlt : i < row.size
          · simp [hlt]
          · simp [hlt]
        · simp [hi, Ne.symm hi]
  · simp [hp, Ne.symm hp]

/-- A visit adds no formals. -/
theorem size_recompute
    (entry : Variable × Nat) (q : Nat) :
    ((recompute fl p t entry)[q]?.getD #[]).size = (t[q]?.getD #[]).size := by
  simp only [recompute, Array.getElem?_modify]
  split
  · cases t[q]? <;> simp
  · rfl

/-- A summary grows at its end. -/
theorem extends_growSummary
    (s : FormalSummary) :
    s.uses <+: (growSummary fl t param s).uses ∧ s.kills <+: (growSummary fl t param s).kills := by
  unfold growSummary
  split
  · exact ⟨List.prefix_refl _, List.prefix_refl _⟩
  · exact ⟨List.prefix_append _ _, List.prefix_append _ _⟩

/-- A summary that grows has what it had, and what is summarised. -/
theorem mem_items_growSummary
    {s : FormalSummary} {item : Use ⊕ Def}
    (hzero : param.isZero = false)
    (hlocal : param.isLocal = true) :
    item ∈ (growSummary fl t param s).items ↔
      item ∈ s.items ∨ item ∈ (fl.summarize t param).items := by
  have hgrow : growSummary fl t param s =
      ⟨unite s.uses (fl.summarize t param).uses, unite s.kills (fl.summarize t param).kills⟩ := by
    simp [growSummary, hzero, hlocal]
  rw [hgrow]
  cases item with
  | inl u => simp [FormalSummary.items, mem_unite]
  | inr d => simp [FormalSummary.items, mem_unite]

theorem extends_recompute
    (entry : Variable × Nat) :
    Extends p t (recompute fl p t entry) := by
  obtain ⟨param, i⟩ := entry
  refine ⟨?_, ?_, ?_⟩
  · intro x
    rw [summary_recompute]
    split
    · exact (extends_growSummary _).1
    · exact List.prefix_refl _
  · intro x
    rw [summary_recompute]
    split
    · exact (extends_growSummary _).2
    · exact List.prefix_refl _
  · intro x hx
    rw [summary_recompute, if_neg]
    rintro ⟨rfl, -⟩
    exact hx rfl

/-- What a summary gains by a recomputation is given by the rules. -/
theorem Valid.recompute
    (ht : Valid prog flows t)
    (hfl : flows[p]? = some fl)
    {entry : Variable × Nat}
    (hentry : entry ∈ (prog.proc p).params.zipIdx) :
    Valid prog flows (recompute fl p t entry) := by
  obtain ⟨param, i⟩ := entry
  rw [List.mk_mem_zipIdx_iff_getElem?] at hentry
  refine ⟨?_, ?_, ?_, ?_, ?_⟩
  · rw [FormalTable.recompute, Array.size_modify]
    exact ht.size
  · intro q
    rw [size_recompute]
    exact ht.rows q
  · intro x item hitem
    rw [summary_recompute] at hitem
    split at hitem
    · rename_i hx
      obtain ⟨rfl, -⟩ := hx
      by_cases hskip : param.isZero = true ∨ param.isLocal = false
      · rw [growSummary, if_pos (by simpa using hskip)] at hitem
        exact ht.sound _ item hitem
      · rw [not_or, Bool.not_eq_true, Bool.not_eq_false] at hskip
        rw [mem_items_growSummary hskip.1 hskip.2, LocalFlow.mem_items_summarize] at hitem
        have hx : IsSummarised prog flows ⟨p, i⟩ fl param := ⟨hfl, hentry, hskip.1, hskip.2⟩
        rcases hitem with hold | hadd | ⟨y, hy, hitem⟩
        · exact ht.sound _ item hold
        · exact .added hx hadd
        · exact .passed hx hy (ht.sound y item hitem)
    · exact ht.sound x item hitem
  · intro x
    rw [summary_recompute, growSummary]
    split
    · split
      · exact ht.uses x
      · exact nodup_unite _ (ht.uses x)
    · exact ht.uses x
  · intro x
    rw [summary_recompute, growSummary]
    split
    · split
      · exact ht.kills x
      · exact nodup_unite _ (ht.kills x)
    · exact ht.kills x

/-- A recomputed procedure has behind its formals what the rules give for the table before. -/
theorem update_spec
    (ht : Valid prog flows t)
    (hfl : flows[p]? = some fl) :
    Valid prog flows (update prog fl p t) ∧ Extends p t (update prog fl p t) ∧
      ∀ i param, (prog.proc p).params[i]? = some param →
        param.isZero = false → param.isLocal = true →
        ∀ item ∈ (fl.summarize t param).items,
          item ∈ ((update prog fl p t).summary ⟨p, i⟩).items := by
  rw [update_eq]
  obtain ⟨hvalid, hextends, hsteps⟩ :=
    @foldl_grows _ _ (recompute fl p) (Valid prog flows)
      (fun entry => entry ∈ (prog.proc p).params.zipIdx) (Extends p)
      (Extends.refl p) Extends.trans
      (fun _ _ hentry hs => hs.recompute hfl hentry)
      (fun _ entry _ _ => extends_recompute entry)
      (prog.proc p).params.zipIdx t (fun _ h => h) ht
  refine ⟨hvalid, hextends, ?_⟩
  intro i param hparam hzero hlocal item hitem
  obtain ⟨m, hm, hbefore, hafter⟩ :=
    hsteps (param, i) (List.mk_mem_zipIdx_iff_getElem?.mpr hparam)
  apply hafter.items
  have hlt : i < (m[p]?.getD #[]).size := by
    rw [hm.rows]
    exact (List.getElem?_eq_some_iff.mp hparam).1
  rw [summary_recompute, if_pos ⟨rfl, hlt⟩, mem_items_growSummary hzero hlocal]
  exact Or.inr (hbefore.summarize hitem)

end Update

section Size

variable {prog : Program} {flows : Array LocalFlow} {t t' : FormalTable} {p : Nat} {x : Formal}

/-- All formals of a program. -/
def formalsOf (prog : Program) : List Formal :=
  (List.range prog.procs.size).flatMap fun (p : Nat) =>
    (List.range (prog.proc p).params.length).map fun i => ⟨p, i⟩

/-- All uses and definitions that the flows number. -/
def itemsOf (flows : Array LocalFlow) : List (Use ⊕ Def) :=
  flows.toList.flatMap fun fl => fl.uses.toList.map .inl ++ fl.defs.toList.map .inr

/-- How much the summaries of a table hold. -/
def weight (prog : Program) (t : FormalTable) : Nat :=
  ((formalsOf prog).map fun x => (t.summary x).items.length).sum

/-- The formals of the program are counted by procedures. -/
theorem length_formalsOf :
    (formalsOf prog).length = prog.procs.foldl (fun n f => n + f.params.length) 0 := by
  rw [← Array.foldl_toList, Digraph.foldl_add_eq_sum, Nat.zero_add, formalsOf, List.length_flatMap]
  congr 1
  apply List.ext_getElem
  · simp
  · intro k hk hk'
    have hlt : k < prog.procs.size := by simpa using hk
    simp [Program.proc, item?_natCast, hlt]

/-- The items that summaries may have are the uses and the definitions of all procedures. -/
theorem length_itemsOf :
    (itemsOf flows).length = flows.foldl (fun n fl => n + fl.uses.size + fl.defs.size) 0 := by
  have hfold : (fun (n : Nat) (fl : LocalFlow) => n + fl.uses.size + fl.defs.size) =
      fun n fl => n + (fl.uses.size + fl.defs.size) := by
    funext n fl
    omega
  rw [hfold, ← Array.foldl_toList, Digraph.foldl_add_eq_sum, Nat.zero_add, itemsOf,
    List.length_flatMap]
  simp

theorem mem_formalsOf_iff :
    x ∈ formalsOf prog ↔ x.proc < prog.procs.size ∧ x.index < (prog.proc x.proc).params.length := by
  obtain ⟨p, i⟩ := x
  simp [formalsOf]

/-- What is behind a formal is a use or a definition of the program. -/
theorem mem_itemsOf_of_behind
    {item : Use ⊕ Def}
    (h : Behind prog flows x item) :
    item ∈ itemsOf flows := by
  induction h with
  | passed _ _ _ ih => exact ih
  | @added x fl param item hx hitem =>
      have hfl : fl ∈ flows.toList := Array.mem_toList_iff.mpr (Array.mem_of_getElem? hx.flow)
      refine List.mem_flatMap.mpr ⟨fl, hfl, ?_⟩
      simp only [LocalFlow.adds, List.mem_append, List.mem_map, List.mem_filter,
        LocalFlow.usesFrom, LocalFlow.defsFrom, LocalFlow.mem_select_iff] at hitem ⊢
      rcases hitem with ⟨u, ⟨⟨⟨k, _, hu⟩, _⟩, _⟩, rfl⟩ | ⟨d, ⟨⟨k, _, hd⟩, _⟩, rfl⟩
      · exact Or.inl ⟨u, Array.mem_toList_iff.mpr (Array.mem_of_getElem? hu), rfl⟩
      · exact Or.inr ⟨d, Array.mem_toList_iff.mpr (Array.mem_of_getElem? hd), rfl⟩

/-- A summary lists nothing twice. -/
theorem Valid.nodup_items
    (ht : Valid prog flows t)
    (x : Formal) :
    (t.summary x).items.Nodup := by
  refine ((ht.uses x).map Sum.inl_injective).append ((ht.kills x).map Sum.inr_injective) ?_
  intro item hu hd
  obtain ⟨u, -, rfl⟩ := List.mem_map.mp hu
  obtain ⟨d, -, hd⟩ := List.mem_map.mp hd
  exact Sum.inr_ne_inl hd

/-- No table is larger than all formals with all items. -/
theorem Valid.weight_le
    (ht : Valid prog flows t) :
    weight prog t ≤ (formalsOf prog).length * (itemsOf flows).length := by
  have hsummary : ∀ x, (t.summary x).items.length ≤ (itemsOf flows).length := by
    intro x
    refine ((ht.nodup_items x).subperm ?_).length_le
    intro item hitem
    exact mem_itemsOf_of_behind (ht.sound x item hitem)
  unfold weight
  calc ((formalsOf prog).map fun x => (t.summary x).items.length).sum
      ≤ ((formalsOf prog).map fun _ => (itemsOf flows).length).sum :=
        List.sum_le_sum fun x _ => hsummary x
    _ = (formalsOf prog).length * (itemsOf flows).length := by simp

/-- A table is known by the summaries of the formals. -/
theorem Valid.ext
    (ht : Valid prog flows t)
    (ht' : Valid prog flows t')
    (h : ∀ x ∈ formalsOf prog, t.summary x = t'.summary x) :
    t = t' := by
  apply Array.ext (by rw [ht.size, ht'.size])
  intro p hp hp'
  have hrow : t[p].size = (prog.proc p).params.length := by
    rw [← ht.rows p, Array.getElem?_eq_getElem hp, Option.getD_some]
  have hrow' : t'[p].size = (prog.proc p).params.length := by
    rw [← ht'.rows p, Array.getElem?_eq_getElem hp', Option.getD_some]
  apply Array.ext (by rw [hrow, hrow'])
  intro i hi hi'
  have hx : (⟨p, i⟩ : Formal) ∈ formalsOf prog := by
    rw [mem_formalsOf_iff]
    exact ⟨by rw [← ht.size]; exact hp, by rw [← hrow]; exact hi⟩
  have hsummary := h ⟨p, i⟩ hx
  simpa [summary, hp, hp', hi, hi'] using hsummary

/-- A table that was extended and is not the same holds more. -/
theorem Extends.weight_lt
    (h : Extends p t t')
    (ht : Valid prog flows t)
    (ht' : Valid prog flows t')
    (hne : t' ≠ t) :
    weight prog t < weight prog t' := by
  have hle : ∀ x, (t.summary x).items.length ≤ (t'.summary x).items.length := by
    intro x
    have huses := (h.uses x).length_le
    have hkills := (h.kills x).length_le
    simp only [FormalSummary.items, List.length_append, List.length_map]
    omega
  have hlt : ∃ x ∈ formalsOf prog,
      (t.summary x).items.length < (t'.summary x).items.length := by
    by_contra hnone
    refine hne (ht.ext ht' ?_).symm
    intro x hx
    have hnot : ¬ (t.summary x).items.length < (t'.summary x).items.length :=
      fun hlt => hnone ⟨x, hx, hlt⟩
    have huses := (h.uses x).length_le
    have hkills := (h.kills x).length_le
    simp only [FormalSummary.items, List.length_append, List.length_map] at hnot
    have huses' := (h.uses x).eq_of_length (by omega)
    have hkills' := (h.kills x).eq_of_length (by omega)
    cases hs : t.summary x
    cases hs' : t'.summary x
    rw [hs, hs'] at huses' hkills'
    rw [FormalSummary.mk.injEq]
    exact ⟨huses', hkills'⟩
  exact List.sum_lt_sum _ _ (fun x _ => hle x) hlt

end Size

section Run

variable {prog : Program} {flows : Array LocalFlow} {s s' : Progress} {waiting : List Nat}
  {x : Formal} {item : Use ⊕ Def}

/-- A procedure that passes a variable to a formal is a caller of the formal's procedure. -/
def CallersKnown (prog : Program) (flows : Array LocalFlow) : Prop :=
  ∀ (q : Nat) fl u y, flows[q]? = some fl → y ∈ fl.links u → (q : Int) ∈ prog.callers y.proc

/-- The table is valid, and the procedures that do not wait are closed under the rules. -/
structure Settled (prog : Program) (flows : Array LocalFlow) (s : Progress) : Prop where
  valid : Valid prog flows s.table
  closed : ∀ q, q < prog.procs.size → q ∉ s.waiting → ClosedAt prog flows q s.table

/-- How many visits are left at most. -/
def room (prog : Program) (flows : Array LocalFlow) (s : Progress) : Nat :=
  s.waiting.length +
    ((formalsOf prog).length * (itemsOf flows).length - weight prog s.table) * prog.procs.size

/-- What a visit does: nothing is known of the procedure, or it is recomputed and its callers wait
if a summary grew. -/
theorem advance_cases
    (h : advance prog flows s = some s') :
    ∃ p rest, s.waiting = p :: rest ∧
      (flows[p]? = none ∧ s'.waiting = rest ∧ s'.table = s.table ∨
       ∃ fl, flows[p]? = some fl ∧ s'.table = update prog fl p s.table ∧
        (s'.table = s.table ∧ s'.waiting = rest ∨
         s'.table ≠ s.table ∧ s'.waiting = rest ++
          ((prog.callers p).map Int.toNat).filter (· ∉ rest))) := by
  unfold advance at h
  split at h
  · exact absurd h (by simp)
  · rename_i p rest hwaiting
    refine ⟨p, rest, hwaiting, ?_⟩
    split at h
    · rename_i hflow
      obtain rfl := Option.some.inj h
      exact Or.inl ⟨hflow, rfl, rfl⟩
    · rename_i fl hflow
      obtain rfl := Option.some.inj h
      refine Or.inr ⟨fl, hflow, rfl, ?_⟩
      by_cases hsame : update prog fl p s.table = s.table
      · exact Or.inl ⟨hsame, by simp [hsame]⟩
      · exact Or.inr ⟨hsame, by simp [hsame]⟩

/-- A procedure that does not call a recomputed one has lost nothing by the recomputation. -/
theorem ClosedAt.of_extends
    {p q : Nat} {t t' : FormalTable}
    (hknown : CallersKnown prog flows)
    (h : Extends p t t')
    (hcaller : (q : Int) ∉ prog.callers p)
    {fl : LocalFlow} {param : Variable}
    (hfl : flows[q]? = some fl)
    (hitem : item ∈ (fl.summarize t' param).items) :
    item ∈ (fl.summarize t param).items := by
  rw [LocalFlow.mem_items_summarize] at hitem ⊢
  rcases hitem with hadd | ⟨y, hy, hitem⟩
  · exact Or.inl hadd
  · obtain ⟨u, -, hlink⟩ := List.mem_flatMap.mp hy
    have hne : y.proc ≠ p := by
      rintro rfl
      exact hcaller (hknown q fl u y hfl hlink)
    rw [h.frame y hne] at hitem
    exact Or.inr ⟨y, hy, hitem⟩

/-- A visit keeps the procedures that are not waiting settled. -/
theorem Settled.advance
    (hknown : CallersKnown prog flows)
    (hs : Settled prog flows s)
    (h : FormalTable.advance prog flows s = some s') :
    Settled prog flows s' := by
  obtain ⟨p, rest, hwaiting, ⟨hnone, hrest, htable⟩ | ⟨fl, hfl, htable, hcase⟩⟩ :=
    advance_cases h
  · refine ⟨htable ▸ hs.valid, ?_⟩
    intro q hq hnot
    rw [htable]
    by_cases hqp : q = p
    · subst hqp
      intro x fl param hx hproc
      rw [← hproc] at hnone
      exact absurd (hnone.symm.trans hx.flow) (by simp)
    · exact hs.closed q hq (by rw [hwaiting, List.mem_cons, ← hrest]; simp [hqp, hnot])
  · obtain ⟨hvalid, hextends, hclosed⟩ := update_spec hs.valid hfl
    rw [← htable] at hvalid hextends hclosed
    refine ⟨hvalid, ?_⟩
    intro q hq hnot x fl' param hx hproc item hitem
    have hbefore : item ∈ (fl'.summarize s.table param).items := by
      rcases hcase with ⟨hsame, -⟩ | ⟨-, hgrown⟩
      · rw [← hsame]
        exact hitem
      · have hcaller : (q : Int) ∉ prog.callers p := by
          intro hmem
          rw [hgrown, List.mem_append, not_or, List.mem_filter] at hnot
          have hback : q ∈ (prog.callers p).map Int.toNat := List.mem_map.mpr ⟨q, hmem, rfl⟩
          exact hnot.2 ⟨hback, by simpa using hnot.1⟩
        rw [← hproc] at hcaller
        exact ClosedAt.of_extends hknown hextends hcaller hx.flow hitem
    by_cases hqp : q = p
    · subst hqp
      obtain ⟨_, i⟩ := x
      obtain rfl := hproc
      obtain rfl := Option.some.inj (hfl.symm.trans hx.flow)
      exact hclosed i param hx.formal hx.notZero hx.isLocal item hbefore
    · have hold : q ∉ s.waiting := by
        rw [hwaiting, List.mem_cons, not_or]
        refine ⟨hqp, ?_⟩
        rcases hcase with ⟨-, hrest⟩ | ⟨-, hgrown⟩
        · rwa [← hrest]
        · rw [hgrown, List.mem_append, not_or] at hnot
          exact hnot.1
      exact hextends.items (hs.closed q hq hold x fl' param hx hproc item hbefore)

/-- Every visit leaves less room: the table grows, or a procedure less is waiting. -/
theorem room_advance
    (hprog : prog.Finalized)
    (hs : Settled prog flows s)
    (h : advance prog flows s = some s') :
    room prog flows s' < room prog flows s := by
  unfold room
  obtain ⟨p, rest, hwaiting, ⟨-, hrest, htable⟩ | ⟨fl, hfl, htable, hcase⟩⟩ :=
    advance_cases h
  · rw [hwaiting, hrest, htable, List.length_cons]
    omega
  · obtain ⟨hvalid, hextends, -⟩ := update_spec hs.valid hfl
    rw [← htable] at hvalid hextends
    rcases hcase with ⟨hsame, hrest⟩ | ⟨hne, hgrown⟩
    · rw [hwaiting, hrest, hsame, List.length_cons]
      omega
    · have hlt := hextends.weight_lt hs.valid hvalid hne
      have hle := hvalid.weight_le
      have hlen : s'.waiting.length ≤ rest.length + prog.procs.size := by
        have hcallers := hprog.callers_length_le p
        have hfilter := List.length_filter_le (· ∉ rest) ((prog.callers p).map Int.toNat)
        rw [List.length_map] at hfilter
        rw [hgrown, List.length_append]
        omega
      have hgap : (formalsOf prog).length * (itemsOf flows).length - weight prog s.table =
          (formalsOf prog).length * (itemsOf flows).length - weight prog s.table - 1 + 1 := by
        omega
      have hmul := Nat.mul_le_mul_right prog.procs.size
        (show (formalsOf prog).length * (itemsOf flows).length - weight prog s'.table ≤
          (formalsOf prog).length * (itemsOf flows).length - weight prog s.table - 1 by omega)
      rw [hgap, Nat.add_mul, Nat.one_mul, hwaiting, List.length_cons]
      omega

theorem valid_start :
    Valid prog flows (start prog) := by
  have hsummary : ∀ x, (start prog).summary x = {} := by
    intro x
    unfold summary start
    rw [Array.getElem?_map]
    cases prog.procs[x.proc]? with
    | none => simp
    | some f =>
        simp only [Option.map_some, Option.getD_some, Array.getElem?_replicate]
        split <;> rfl
  refine ⟨by simp [start], ?_, ?_, ?_, ?_⟩
  · intro p
    unfold start Program.proc
    rw [Array.getElem?_map, item?_natCast]
    cases prog.procs[p]? <;> simp
  · intro x item hitem
    rw [hsummary] at hitem
    exact absurd hitem List.not_mem_nil
  · intro x
    rw [hsummary]
    exact List.nodup_nil
  · intro x
    rw [hsummary]
    exact List.nodup_nil

/-- If every procedure waits at the start, the search ends with a settled table. -/
theorem settled_solveFrom
    (hprog : prog.Finalized)
    (hknown : CallersKnown prog flows)
    (hall : ∀ p, p < prog.procs.size → p ∈ waiting) :
    Settled prog flows (solveFrom prog flows waiting) ∧
      (solveFrom prog flows waiting).waiting = [] := by
  have hstart : Settled prog flows { waiting, table := start prog } :=
    ⟨valid_start, fun q hq hnot => absurd (hall q hq) hnot⟩
  have hbound : room prog flows { waiting, table := start prog } <
      visitBound prog flows waiting := by
    unfold room visitBound
    rw [length_formalsOf, length_itemsOf]
    have hmul := Nat.mul_le_mul_right prog.procs.size
      (Nat.sub_le (prog.procs.foldl (fun n f => n + f.params.length) 0 *
        flows.foldl (fun n fl => n + fl.uses.size + fl.defs.size) 0)
        (weight prog (start prog)))
    simp only
    omega
  refine ⟨runSteps_invariant (fun _ _ hs h => hs.advance hknown h) _ _ hstart, ?_⟩
  have hdone := runSteps_done (fun _ _ hs h => Settled.advance hknown hs h)
    (fun _ _ hs h => room_advance hprog hs h) _ _ hstart hbound
  unfold advance at hdone
  split at hdone
  · assumption
  · split at hdone <;> exact absurd hdone (by simp)

/-- The summaries found hold exactly what the rules put behind the formals. -/
theorem mem_items_solveFrom_iff
    (hprog : prog.Finalized)
    (hknown : CallersKnown prog flows)
    (hall : ∀ p, p < prog.procs.size → p ∈ waiting) :
    item ∈ ((solveFrom prog flows waiting).table.summary x).items ↔
      Behind prog flows x item := by
  obtain ⟨hsettled, hempty⟩ := settled_solveFrom hprog hknown hall
  constructor
  · exact hsettled.valid.sound x item
  · have hclosed : ∀ {x fl param}, IsSummarised prog flows x fl param →
        ∀ item ∈ (fl.summarize (solveFrom prog flows waiting).table param).items,
          item ∈ ((solveFrom prog flows waiting).table.summary x).items := by
      intro x fl param hx
      have hlt : x.proc < prog.procs.size := by
        by_contra hge
        have hout : (x.proc : Int) ∉ prog.procIds := by
          rw [Program.procIds, mem_positions]
          omega
        have hformal := hx.formal
        rw [Program.proc_eq_empty hout] at hformal
        exact absurd hformal (by simp)
      exact hsettled.closed x.proc hlt (by rw [hempty]; exact List.not_mem_nil) x fl param hx rfl
    intro h
    induction h with
    | added hx hadd => exact hclosed hx _ (LocalFlow.mem_items_summarize.mpr (Or.inl hadd))
    | passed hx hy _ ih =>
        exact hclosed hx _ (LocalFlow.mem_items_summarize.mpr (Or.inr ⟨_, hy, ih⟩))

/-- Every procedure is visited. -/
theorem mem_calleesFirst
    (hprog : prog.Finalized)
    {p : Nat}
    (hp : p < prog.procs.size) :
    p ∈ calleesFirst prog := by
  have hmem : (p : Int) ∈ prog.procIds := by
    rw [Program.procIds, mem_positions]
    omega
  refine List.mem_map.mpr ⟨p, ?_, rfl⟩
  exact (Digraph.mem_flatten_components_iff (hprog.calls_closed.covers fun _ h => h)).mpr
    ⟨p, hmem, .refl _⟩

end Run

end FormalTable
end DefUse
