import DefUse.Proofs.Flow.Equations
import DefUse.Proofs.Flow.Reading
import DefUse.Proofs.Sorted

/-!
# Exactness of the local flow

**Results.**
* `mem_usesFrom_iff`: the uses found from the end of a node are those that some walk brings the
  value of the variable to.
* `mem_defsFrom_iff`: the definitions found from the end of a node are those that one or more edges
  lead to.
* `isEndpoint_iff` and `mem_links_iff`: endpoints and links are read off the program.
-/

namespace DefUse
namespace LocalFlow

section Numbers

variable {α : Type}

theorem test_numbersOf
    {items : Array α} {P : α → Bool} {k : Nat} :
    (numbersOf items P).test k = true ↔ ∃ a, items[k]? = some a ∧ P a = true := by
  unfold numbersOf
  rw [Bits.test_ofPred, Bool.and_eq_true, decide_eq_true_eq]
  constructor
  · rintro ⟨hk, hP⟩
    rw [Array.getElem?_eq_getElem hk] at hP ⊢
    exact ⟨items[k], rfl, hP⟩
  · rintro ⟨a, ha, hP⟩
    obtain ⟨hk, -⟩ := Array.getElem?_eq_some_iff.mp ha
    rw [ha]
    exact ⟨hk, hP⟩

theorem mem_select_iff
    {items : Array α} {numbers : Bits} {a : α} :
    a ∈ select items numbers ↔ ∃ k, numbers.test k = true ∧ items[k]? = some a := by
  simp only [select, List.mem_filterMap, Bits.mem_toList]

theorem select_nodup
    {items : Array α} {numbers : Bits}
    (h : items.toList.Nodup) :
    (select items numbers).Nodup := by
  refine List.Nodup.filterMap ?_ (List.nodup_range.filter _)
  intro i j a hi hj
  rw [Option.mem_def, ← Array.getElem?_toList] at hi hj
  obtain ⟨hi, rfl⟩ := List.getElem?_eq_some_iff.mp hi
  obtain ⟨hj, heq⟩ := List.getElem?_eq_some_iff.mp hj
  exact (h.getElem_inj_iff.mp heq).symm

end Numbers

section Uses

variable {prog : Program} {formalsAsDefs : Bool} {p v s : Int} {k : Nat} {u : Use}
  {f : Procedure} {uses : Array Use} {defs : Array Def}

theorem useProblem_sized
    (hclosed : f.graph.Closed) :
    (useProblem f uses defs).Sized f.nodes.size := by
  refine ⟨f.graph_nodes, hclosed, ?_, ?_⟩
  · intro b hb
    simp only [useProblem, List.mem_toArray, List.mem_map] at hb
    obtain ⟨i, -, rfl⟩ := hb
    rfl
  · intro e he
    simp only [useProblem, List.mem_map] at he
    obtain ⟨x, -, rfl⟩ := he
    rfl

theorem useProblem_gen
    (hv : v ∈ f.ids) :
    ((useProblem f uses defs).setAt (useProblem f uses defs).gen v).test k = true ↔
      ∃ u, uses[k]? = some u ∧ u.isPredicate = false ∧ u.site.node = v := by
  simp only [FlowProblem.setAt, useProblem, Procedure.ids]
  rw [item?_map_positions _ hv, Option.getD_some, test_numbersOf]
  simp

theorem useProblem_edge :
    ((useProblem f uses defs).edgeItems v s).test k = true ↔
      ∃ u, uses[k]? = some u ∧ u.isPredicate = true ∧ u.site.node = v ∧ u.succ = s := by
  simp only [FlowProblem.edgeItems, useProblem, lookup_map_self, mem_distinct, List.mem_map,
    List.mem_filter]
  split
  · rw [Option.getD_some, test_numbersOf]
    simp [and_assoc]
  · rename_i hnone
    simp only [Option.getD_none, Bits.test_empty, Bool.false_eq_true, false_iff]
    rintro ⟨u, hu, hpred, rfl, rfl⟩
    apply hnone
    have hmem : u ∈ uses.toList.filter Use.isPredicate :=
      List.mem_filter.mpr ⟨Array.mem_toList_iff.mpr (Array.mem_of_getElem? hu), hpred⟩
    exact (mem_distinct _).mpr (List.mem_map.mpr ⟨u, hmem, rfl⟩)

theorem useProblem_kill
    (hv : v ∈ f.ids)
    (hu : uses[k]? = some u) :
    ((useProblem f uses defs).setAt (useProblem f uses defs).kill v).test k = true ↔
      ∃ d ∈ defs, d.site.node = v ∧ d.var = u.var := by
  simp only [FlowProblem.setAt, useProblem, Procedure.ids]
  rw [item?_map_positions _ hv, Option.getD_some, test_numbersOf, hu]
  simp only [Option.some.injEq, exists_eq_left', List.contains_eq_mem, List.mem_map,
    List.mem_filter, Array.mem_toList_iff, decide_eq_true_eq, and_assoc]

end Uses

section Exact

variable {prog : Program} {formalsAsDefs : Bool} {p n : Int} {order : List Int} {v : Variable}
  {u : Use}

/-- The flow problem of the uses of a procedure. -/
def problemOf (prog : Program) (formalsAsDefs : Bool) (p : Int) : FlowProblem :=
  useProblem (prog.proc p) (distinct ((prog.reads formalsAsDefs p).map Read.use)).toArray
    (prog.localDefs formalsAsDefs p).toArray

theorem mem_uses_iff :
    u ∈ (inOrder prog formalsAsDefs p order).uses ↔ u.site.proc = p ∧ prog.IsUse u := by
  simp only [inOrder, List.mem_toArray, mem_distinct, List.mem_map, Program.mem_reads_iff,
    Program.IsUse]
  constructor
  · rintro ⟨r, ⟨hp, ⟨hplain, -⟩ | ⟨c, i, harg, -⟩⟩, rfl⟩
    · exact ⟨hp, Or.inl hplain⟩
    · exact ⟨hp, Or.inr ⟨c, i, harg⟩⟩
  · rintro ⟨hp, hplain | ⟨c, i, harg⟩⟩
    · exact ⟨⟨u, none⟩, ⟨hp, Or.inl ⟨hplain, rfl⟩⟩, rfl⟩
    · exact ⟨⟨u, _⟩, ⟨hp, Or.inr ⟨c, i, harg, rfl⟩⟩, rfl⟩

theorem isEndpoint_iff :
    (inOrder prog formalsAsDefs p order).isEndpoint u = true ↔
      u.site.proc = p ∧ prog.IsEndpoint formalsAsDefs u := by
  simp only [isEndpoint, List.contains_iff_mem, inOrder, Program.mem_reads_iff,
    Program.IsEndpoint, Program.passesThrough_iff, and_true, eq_comm (a := (none : Option Formal)),
    Option.eq_none_iff_forall_ne_some, ne_eq]

theorem mem_links_iff
    {x : Formal} :
    x ∈ (inOrder prog formalsAsDefs p order).links u ↔
      u.site.proc = p ∧ prog.IsPassedTo formalsAsDefs u x := by
  simp only [links, inOrder, List.mem_filterMap, Program.mem_reads_iff, Program.IsPassedTo,
    Program.passesThrough_iff]
  constructor
  · rintro ⟨r, ⟨hp, hr⟩, hx⟩
    split at hx
    · rename_i huse
      subst huse
      rcases hr with ⟨-, hlink⟩ | ⟨c, i, harg, hlink⟩
      · rw [hlink] at hx
        exact absurd hx (by simp)
      · exact ⟨hp, c, i, harg, by rw [← hlink]; exact hx⟩
    · exact absurd hx (by simp)
  · rintro ⟨hp, c, i, harg, hx⟩
    exact ⟨⟨u, some x⟩, ⟨hp, Or.inr ⟨c, i, harg, hx.symm⟩⟩, by simp⟩

/-- What flows into the end of a node are the uses that some walk arrives at. -/
theorem exists_walk_of_flows
    {k : Nat}
    (hclosed : (prog.proc p).graph.Closed)
    (hu : (inOrder prog formalsAsDefs p order).uses[k]? = some u)
    (hlocal : u.var.isLocal = true)
    (hn : n ∈ (prog.proc p).ids)
    (h : (problemOf prog formalsAsDefs p).Flows k n) :
    ∃ walk, prog.Delivers formalsAsDefs ⟨p, n⟩ u.var u walk := by
  have hnode : ∀ {a b}, a ∈ (prog.proc p).ids → b ∈ (prog.proc p).graph.succs a →
      b ∈ (prog.proc p).ids := by
    intro a b ha hb
    rw [← Procedure.graph_nodes] at ha ⊢
    exact hclosed a ha b hb
  induction h with
  | @edge a b hs hi =>
      obtain ⟨w, hw, hpred, hsite, hsucc⟩ := useProblem_edge.mp hi
      obtain rfl := Option.some.inj (hw.symm.trans hu)
      refine ⟨[a, b], Program.delivers_cons_iff.mpr ⟨hs, Or.inl ⟨rfl, ?_⟩⟩⟩
      rw [Use.ArrivesBy, if_pos hpred]
      exact ⟨hsite, hsucc⟩
  | @gen a b hs hi =>
      obtain ⟨w, hw, hpred, hsite⟩ := (useProblem_gen (hnode hn hs)).mp hi
      obtain rfl := Option.some.inj (hw.symm.trans hu)
      refine ⟨[a, b], Program.delivers_cons_iff.mpr ⟨hs, Or.inl ⟨rfl, ?_⟩⟩⟩
      rw [Use.ArrivesBy, if_neg (by simp [hpred])]
      exact hsite
  | @pass a b hs hk _ ih =>
      obtain ⟨walk, hwalk⟩ := ih (hnode hn hs)
      obtain ⟨c, rest, rfl⟩ := hwalk.exists_cons
      refine ⟨a :: b :: c :: rest, Program.delivers_cons_iff.mpr ⟨hs, Or.inr ⟨?_, hwalk⟩⟩⟩
      rw [Program.writes_iff hlocal]
      rintro ⟨d, hd, hsite, hvar⟩
      exact Bool.false_ne_true (hk.symm.trans
        ((useProblem_kill (hnode hn hs) hu).mpr ⟨d, by simpa using hd, hsite, hvar⟩))

theorem flows_of_walk
    {k : Nat}
    (hclosed : (prog.proc p).graph.Closed)
    (hu : (inOrder prog formalsAsDefs p order).uses[k]? = some u)
    (hlocal : u.var.isLocal = true) :
    ∀ (walk : List Int) (n : Int), n ∈ (prog.proc p).ids →
      prog.Delivers formalsAsDefs ⟨p, n⟩ u.var u walk →
      (problemOf prog formalsAsDefs p).Flows k n
  | [], n, _, h => absurd h.starts (by simp)
  | [a], n, _, h => absurd h.long (by simp)
  | a :: b :: rest, n, hn, h => by
      obtain rfl : a = n := by simpa using h.starts
      obtain ⟨hs, hrest⟩ := Program.delivers_cons_iff.mp h
      have hb : b ∈ (prog.proc p).ids := by
        rw [← Procedure.graph_nodes] at hn ⊢
        exact hclosed a hn b hs
      rcases hrest with ⟨-, harrives⟩ | ⟨hclear, hrest⟩
      · unfold Use.ArrivesBy at harrives
        split at harrives
        · rename_i hpred
          exact .edge hs (useProblem_edge.mpr ⟨u, hu, hpred, harrives.1, harrives.2⟩)
        · rename_i hpred
          exact .gen hs ((useProblem_gen hb).mpr ⟨u, hu, by simpa using hpred, harrives⟩)
      · refine .pass hs ?_ (flows_of_walk hclosed hu hlocal (b :: rest) b hb hrest)
        rw [Bool.eq_false_iff]
        intro hkill
        obtain ⟨d, hd, hsite, hvar⟩ := (useProblem_kill hb hu).mp hkill
        exact hclear ((Program.writes_iff hlocal).mpr ⟨d, by simpa using hd, hsite, hvar⟩)

/-- The uses found from the end of a node are those that some walk brings the value to. -/
theorem mem_usesFrom_iff
    (hclosed : (prog.proc p).graph.Closed)
    (horder : ∀ i ∈ (prog.proc p).ids, i ∈ order)
    (hn : n ∈ (prog.proc p).ids) :
    u ∈ (inOrder prog formalsAsDefs p order).usesFrom n v ↔
      prog.LocallyReached formalsAsDefs ⟨p, n⟩ v u := by
  have hnumber : ∀ k, (((item? (inOrder prog formalsAsDefs p order).usesOut n).getD
      (.empty 0)).test k = true ↔ (problemOf prog formalsAsDefs p).Flows k n) :=
    fun k => FlowProblem.test_solveOut_iff (useProblem_sized hclosed) horder hn
  unfold usesFrom
  rw [List.mem_filter, mem_select_iff, decide_eq_true_eq]
  constructor
  · rintro ⟨⟨k, hk, hu⟩, rfl⟩
    obtain ⟨hproc, huse⟩ := mem_uses_iff.mp (Array.mem_of_getElem? hu)
    exact ⟨hproc, rfl, huse,
      exists_walk_of_flows hclosed hu huse.isLocal hn ((hnumber k).mp hk)⟩
  · rintro ⟨hproc, rfl, huse, walk, hwalk⟩
    obtain ⟨k, hu⟩ := Array.getElem?_of_mem
      (mem_uses_iff.mpr ⟨hproc, huse⟩)
    exact ⟨⟨k, (hnumber k).mpr (flows_of_walk hclosed hu huse.isLocal walk n hn hwalk), hu⟩, rfl⟩

theorem defProblem_sized
    {f : Procedure} {defs : Array Def}
    (hclosed : f.graph.Closed) :
    (defProblem f defs).Sized f.nodes.size := by
  refine ⟨f.graph_nodes, hclosed, ?_, fun e he => absurd he List.not_mem_nil⟩
  intro b hb
  simp only [defProblem, List.mem_toArray, List.mem_map] at hb
  obtain ⟨i, -, rfl⟩ := hb
  rfl

theorem defProblem_gen
    {f : Procedure} {defs : Array Def} {i : Int} {k : Nat}
    (hi : i ∈ f.ids) :
    ((defProblem f defs).setAt (defProblem f defs).gen i).test k = true ↔
      ∃ d, defs[k]? = some d ∧ d.site.node = i := by
  simp only [FlowProblem.setAt, defProblem, Procedure.ids]
  rw [item?_map_positions _ hi, Option.getD_some, test_numbersOf]
  simp

/-- Nothing blocks a definition, so it flows to the ends of all nodes that lead to it. -/
theorem defProblem_flows_iff
    {f : Procedure} {defs : Array Def} {d : Def} {k : Nat}
    (hclosed : f.graph.Closed)
    (hd : defs[k]? = some d)
    (hn : n ∈ f.ids) :
    (defProblem f defs).Flows k n ↔ f.graph.Leads n d.site.node := by
  have hnode : ∀ {a b}, a ∈ f.ids → b ∈ f.graph.succs a → b ∈ f.ids := by
    intro a b ha hb
    rw [← Procedure.graph_nodes] at ha ⊢
    exact hclosed a ha b hb
  constructor
  · intro h
    induction h with
    | edge hs hi => exact absurd hi (by simp [FlowProblem.edgeItems, defProblem])
    | @gen a b hs hi =>
        obtain ⟨e, he, hsite⟩ := (defProblem_gen (hnode hn hs)).mp hi
        obtain rfl := Option.some.inj (he.symm.trans hd)
        rw [hsite]
        exact ⟨b, hs, .refl b⟩
    | pass hs _ _ ih => exact ⟨_, hs, (ih (hnode hn hs)).reaches⟩
  · rintro ⟨b, hs, hreach⟩
    have hkill : ∀ i, ((defProblem f defs).setAt (defProblem f defs).kill i).test k = false := by
      intro i
      rw [FlowProblem.setAt, defProblem, item?_eq_none (by simp)]
      exact Bits.test_empty _ k
    generalize htarget : d.site.node = target at hreach
    induction hreach generalizing n with
    | refl b => exact .gen hs ((defProblem_gen (hnode hn hs)).mpr ⟨d, hd, htarget⟩)
    | step hs' _ ih => exact .pass hs (hkill _) (ih (hnode hn hs) hs' htarget)

theorem mem_defsFrom_iff
    {d : Def}
    (hclosed : (prog.proc p).graph.Closed)
    (horder : ∀ i ∈ (prog.proc p).ids, i ∈ order)
    (hn : n ∈ (prog.proc p).ids) :
    d ∈ (inOrder prog formalsAsDefs p order).defsFrom n v ↔
      prog.IsLocalDef formalsAsDefs d ∧ d.site.proc = p ∧ d.var = v ∧
        (prog.proc p).graph.Leads n d.site.node := by
  have hnumber : ∀ k, (((item? (inOrder prog formalsAsDefs p order).defsOut n).getD
      (.empty 0)).test k = true ↔
        (defProblem (prog.proc p) (prog.localDefs formalsAsDefs p).toArray).Flows k n) :=
    fun k => FlowProblem.test_solveOut_iff (defProblem_sized hclosed) horder hn
  unfold defsFrom
  rw [List.mem_filter, mem_select_iff, decide_eq_true_eq]
  constructor
  · rintro ⟨⟨k, hk, hd⟩, rfl⟩
    have hmem : d ∈ prog.localDefs formalsAsDefs p := by
      simpa [inOrder] using Array.mem_of_getElem? hd
    obtain ⟨hlocal, hproc⟩ := Program.mem_localDefs_iff.mp hmem
    exact ⟨hlocal, hproc, rfl, (defProblem_flows_iff hclosed hd hn).mp ((hnumber k).mp hk)⟩
  · rintro ⟨hlocal, hproc, rfl, hleads⟩
    have hmem : d ∈ (inOrder prog formalsAsDefs p order).defs := by
      simpa [inOrder] using Program.mem_localDefs_iff.mpr ⟨hlocal, hproc⟩
    obtain ⟨k, hd⟩ := Array.getElem?_of_mem hmem
    exact ⟨⟨k, (hnumber k).mpr ((defProblem_flows_iff hclosed hd hn).mpr hleads), hd⟩, rfl⟩

theorem defsFrom_nodup :
    ((inOrder prog formalsAsDefs p order).defsFrom n v).Nodup := by
  exact (select_nodup (distinct_nodup _)).filter _

end Exact

end LocalFlow
end DefUse
