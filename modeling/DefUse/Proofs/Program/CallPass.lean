import DefUse.Proofs.Program.Placed
import Mathlib.Data.List.Sort

/-!
# The call graph in one pass

The check of a program that keeps positions goes through the procedures once.  It looks at the ends
of a procedure, then node by node at the successors and at the calls, and puts every callee that it
has not seen in the procedure at the end of two lists: the callees of the procedure, and the callers
of the callee.  It stops at the first flaw.

**Method.** At all times the callers are the transpose of the callees.  The procedure at hand is the
last one that has callees, so appended to the callers of another its position is the largest one
there (`transpose_append`), and the callers are in order without being sorted.

**Results.**
* `Placed.record_calls`: the calls of a procedure are recorded where they occur first.
* `Placed.passProc_eq` and `Placed.passProcs_eq`: what the check of a procedure records, and that of
  all procedures.
* `Placed.finalize_eq`: the pass leaves the call graph of `Program.link` and gives the first flaw.
* `edits_exact`: a program that was edited from nothing keeps the right positions, and its call
  graph is exact.
-/

namespace DefUse

/-- What a check has recorded, and the callees seen in the procedure at hand. -/
structure CallPass where
  /-- The callees of every procedure. -/
  callees : Array (List Int)
  /-- The callers of every procedure. -/
  callers : Array (List Int)
  /-- The callees seen in the procedure at hand. -/
  seen : List Int := []

/-- The list in increasing order. -/
def ascending (xs : List Int) : List Int := sortBy (fun (a b : Int) => a < b) xs

def appendAt (table : Array (List Int)) (i v : Int) : Except Fault (Array (List Int)) := do
  let listed ← fetch table i
  return store table i (listed ++ [v])

/-- What is wrong with the ends of a procedure. -/
def PlacedProcedure.endFlaw? (f : PlacedProcedure) : Except Fault (Option Flaw) := do
  if f.nodes.size < 2 then return some (.noEnds f.name)
  let entry ← fetch f.nodes entryId
  if 0 < entry.preds.length then return some (.entryReentered f.name)
  let exit ← fetch f.nodes exitId
  if 0 < exit.succs.length then return some (.exitLeft f.name)
  return none

namespace PlacedProgram

/-- Records a call at both of its ends, unless the callee was seen in the procedure or is no
procedure of the program. -/
def record (x : PlacedProgram) (f : PlacedProcedure) (k : CallPass) (c : CallSite) :
    Except Fault CallPass :=
  match x.byName.lookup c.callee with
  | none => .ok k
  | some g =>
    if g ∈ k.seen then .ok k
    else do
      let callees ← appendAt k.callees f.index g
      let callers ← appendAt k.callers g f.index
      return { callees, callers, seen := g :: k.seen }

/-- Checks the successors of nodes and records their calls, up to the first flaw. -/
def passNodes (x : PlacedProgram) (f : PlacedProcedure) :
    List PlacedNode → CallPass → Except Fault (CallPass × Option Flaw)
  | [], k => .ok (k, none)
  | n :: rest, k =>
    match n.succs.find? fun s => s < 0 || (f.nodes.size : Int) ≤ s with
    | some s => .ok (k, some (.danglingSuccessor f.name n.id s))
    | none => do
      let k ← n.calls.foldlM (x.record f) k
      passNodes x f rest k

/-- Checks a procedure and records its calls, up to the first flaw. -/
def passProc (x : PlacedProgram) (f : PlacedProcedure) (k : CallPass) :
    Except Fault (CallPass × Option Flaw) := do
  match ← f.endFlaw? with
  | some flaw => return (k, some flaw)
  | none => x.passNodes f f.nodes.toList { k with seen := [] }

/-- Checks procedures and records their calls, up to the first flaw; the callees of a procedure
without a flaw are sorted. -/
def passProcs (x : PlacedProgram) :
    List PlacedProcedure → CallPass → Except Fault (CallPass × Option Flaw)
  | [], k => .ok (k, none)
  | f :: rest, k => do
    match ← x.passProc f k with
    | (k, some flaw) => return (k, some flaw)
    | (k, none) =>
      let called ← fetch k.callees f.index
      passProcs x rest { k with callees := store k.callees f.index (ascending called) }

/-- Records the call graph and gives the first flaw; the callers are sorted if there is none. -/
def finalize (x : PlacedProgram) : Except Fault (PlacedProgram × Option Flaw) := do
  let empty := Array.replicate x.procs.size []
  match ← x.passProcs x.procs.toList { callees := empty, callers := empty } with
  | (k, some flaw) => return ({ x with callees := k.callees, callers := k.callers }, some flaw)
  | (k, none) =>
    return ({ x with callees := k.callees, callers := k.callers.map ascending }, none)

end PlacedProgram

section Rows

variable {α : Type} {n : Nat} {row row' : Int → α} {p : Int}

/-- The table with the given row at every position. -/
def tabulate (n : Nat) (row : Int → α) : Array α := ((positions n).map row).toArray

theorem item?_tabulate
    (hp : p ∈ positions n) :
    item? (tabulate n row) p = some (row p) :=
  item?_map_positions row hp

theorem size_tabulate
    (n : Nat) (row : Int → α) :
    (tabulate n row).size = n := by
  simp [tabulate, positions]

theorem tabulate_congr
    (h : ∀ p ∈ positions n, row p = row' p) :
    tabulate n row = tabulate n row' := by
  unfold tabulate
  rw [List.map_congr_left h]

/-- A table is known by its rows. -/
theorem eq_tabulate
    {table : Array α}
    (hsize : table.size = n)
    (h : ∀ p ∈ positions n, item? table p = some (row p)) :
    table = tabulate n row := by
  refine ext_item? (hsize.trans (size_tabulate n row).symm) fun p => ?_
  by_cases hp : p ∈ positions n
  · rw [h p hp, item?_tabulate hp]
  · rw [mem_positions] at hp
    rw [item?_eq_none (hsize.symm ▸ hp), item?_eq_none (by rwa [size_tabulate])]

/-- Storing a row changes that row alone. -/
theorem store_tabulate
    (n : Nat) (row : Int → α) (p : Int) (a : α) :
    store (tabulate n row) p a = tabulate n (Function.update row p a) := by
  refine eq_tabulate (by rw [size_store, size_tabulate]) fun q hq => ?_
  rw [item?_store, item?_tabulate hq, Function.update_apply]
  by_cases hqp : q = p
  · rw [if_pos ⟨hqp.symm, by rwa [size_tabulate]⟩, if_pos hqp]
  · rw [if_neg fun h => hqp h.1.symm, if_neg hqp]

/-- A position is put at the end of one row. -/
theorem appendAt_tabulate
    {row : Int → List Int}
    (hp : p ∈ positions n) (v : Int) :
    appendAt (tabulate n row) p v = .ok (tabulate n (Function.update row p (row p ++ [v]))) := by
  unfold appendAt
  rw [fetch_eq_ok_iff.mpr (item?_tabulate hp)]
  exact congrArg Except.ok (store_tabulate n row p (row p ++ [v]))

end Rows

section Transpose

variable {n : Nat} {called called' : Int → List Int} {p g : Int}

/-- The positions whose rows have a position, in order. -/
def transpose (n : Nat) (called : Int → List Int) (p : Int) : List Int :=
  (positions n).filter fun q => p ∈ called q

theorem transpose_congr
    (h : ∀ q ∈ positions n, ∀ p, p ∈ called q ↔ p ∈ called' q) :
    transpose n called = transpose n called' :=
  funext fun p => List.filter_congr fun q hq => decide_eq_decide.mpr (h q hq p)

/-- The rows of a transpose are in order, whatever the order of the rows. -/
theorem transpose_pairwise
    (n : Nat) (called : Int → List Int) (p : Int) :
    (transpose n called p).Pairwise (· < ·) :=
  (Program.positions_pairwise n).filter _

/-- A position that the last row lacks is put there: the position of the row comes last in the
transposed row. -/
theorem transpose_append
    (hp : p ∈ positions n)
    (hnew : g ∉ called p)
    (hlater : ∀ q ∈ positions n, p < q → called q = []) :
    transpose n (Function.update called p (called p ++ [g])) =
      Function.update (transpose n called) g (transpose n called g ++ [p]) := by
  have hmem : ∀ q h, h ∈ Function.update called p (called p ++ [g]) q ↔
      h ∈ called q ∨ q = p ∧ h = g := by
    intro q h
    by_cases hq : q = p
    · subst hq
      simp
    · simp [hq]
  have hbelow : ∀ q ∈ transpose n called g, ∀ r ∈ [p], q < r := by
    intro q hq r hr
    obtain ⟨hq, hcalled⟩ := List.mem_filter.mp hq
    rw [decide_eq_true_eq] at hcalled
    rw [List.mem_singleton.mp hr]
    rcases Int.lt_trichotomy q p with hlt | rfl | hgt
    · exact hlt
    · exact absurd hcalled hnew
    · rw [hlater q hq hgt] at hcalled
      exact absurd hcalled List.not_mem_nil
  funext h
  by_cases hh : h = g
  · subst hh
    rw [Function.update_self]
    have hsorted : (transpose n called h ++ [p]).Pairwise (· < ·) :=
      List.pairwise_append.mpr ⟨transpose_pairwise n called h, by simp, hbelow⟩
    refine (transpose_pairwise n _ h).eq_of_mem_iff hsorted fun q => ?_
    simp only [transpose, List.mem_filter, List.mem_append, List.mem_singleton, hmem,
      decide_eq_true_eq, and_true, and_or_left]
    exact or_congr_right (and_iff_right_of_imp fun hq => hq ▸ hp)
  · rw [Function.update_of_ne hh]
    refine List.filter_congr fun q _ => decide_eq_decide.mpr ?_
    rw [hmem]
    exact or_iff_left fun hq => hh hq.2

end Transpose

namespace PlacedProgram

variable {x : PlacedProgram} {f : PlacedProcedure} {n : Nat} {called : Int → List Int} {p : Int}

/-- The pass that has recorded the callees given. -/
def recorded (n : Nat) (called : Int → List Int) (seen : List Int) : CallPass where
  callees := tabulate n called
  callers := tabulate n (transpose n called)
  seen

/-- The callees of a procedure after one more call. -/
def addCallee (x : PlacedProgram) (listed : List Int) (c : CallSite) : List Int :=
  match x.byName.lookup c.callee with
  | none => listed
  | some g => if g ∈ listed then listed else listed ++ [g]

/-- One call of the last procedure that has callees. -/
theorem Placed.record_eq
    (h : x.Placed)
    (hp : f.index ∈ positions x.procs.size)
    (hlater : ∀ q ∈ positions x.procs.size, f.index < q → called q = [])
    (c : CallSite) :
    x.record f (recorded x.procs.size called (called f.index).reverse) c =
      .ok (recorded x.procs.size
        (Function.update called f.index (x.addCallee (called f.index) c))
        (x.addCallee (called f.index) c).reverse) := by
  unfold record addCallee
  cases hlook : x.byName.lookup c.callee with
  | none => rw [Function.update_eq_self]
  | some g =>
      have hg : g ∈ positions x.procs.size := by
        rw [h.byName_eq, Option.map_eq_some_iff] at hlook
        obtain ⟨k, hk, rfl⟩ := hlook
        have := Program.lookup?_lt hk
        rwa [Program.procIds, erase, Array.size_map] at this
      simp only [recorded, List.mem_reverse]
      by_cases hold : g ∈ called f.index
      · rw [if_pos hold, if_pos hold, Function.update_eq_self]
      · rw [if_neg hold, if_neg hold, appendAt_tabulate hp, appendAt_tabulate hg,
          transpose_append hp hold hlater, List.reverse_concat]
        rfl

/-- The calls of the last procedure that has callees. -/
theorem Placed.record_calls
    (h : x.Placed)
    (hp : f.index ∈ positions x.procs.size)
    (calls : List CallSite) :
    ∀ called : Int → List Int, (∀ q ∈ positions x.procs.size, f.index < q → called q = []) →
      calls.foldlM (x.record f) (recorded x.procs.size called (called f.index).reverse) =
        .ok (recorded x.procs.size
          (Function.update called f.index (calls.foldl x.addCallee (called f.index)))
          (calls.foldl x.addCallee (called f.index)).reverse) := by
  induction calls with
  | nil =>
      intro called _
      rw [List.foldl_nil, Function.update_eq_self]
      rfl
  | cons c rest ih =>
      intro called hlater
      have hrest := ih (Function.update called f.index (x.addCallee (called f.index) c))
        fun q hq hlt => by rw [Function.update_of_ne (by omega)]; exact hlater q hq hlt
      rw [Function.update_self, Function.update_idem] at hrest
      rw [List.foldlM_cons, h.record_eq hp hlater]
      exact hrest

/-- Calls put every callee that is part of the program where it occurs first. -/
theorem foldl_addCallee
    (x : PlacedProgram) (calls : List CallSite) :
    ∀ listed, calls.foldl x.addCallee listed =
      listed ++ (distinct (calls.filterMap fun c => x.byName.lookup c.callee)).filter
        (· ∉ listed) := by
  induction calls with
  | nil => simp [distinct]
  | cons c rest ih =>
      intro listed
      rw [List.foldl_cons, ih, addCallee, List.filterMap_cons]
      cases hlook : x.byName.lookup c.callee with
      | none => rfl
      | some g =>
          simp only [distinct]
          by_cases hold : g ∈ listed
          · simp only [hold, if_true]
            rw [List.filter_cons_of_neg (by simpa using hold), List.filter_filter]
            congr 1
            refine List.filter_congr fun r _ => ?_
            by_cases hr : r ∈ listed
            · simp [hr]
            · have hne : r ≠ g := fun hrg => hr (hrg ▸ hold)
              simp [hr, hne]
          · simp only [hold, if_false]
            rw [List.filter_cons_of_pos (by simpa using hold), List.filter_filter,
              List.append_assoc, List.singleton_append]
            congr 2
            refine List.filter_congr fun r _ => ?_
            simp [Bool.and_comm]

/-- The successors that are looked for are those that are no nodes. -/
theorem succsValid_iff
    (f : PlacedProcedure) (n : Node) :
    (n.succs.find? fun s => s < 0 || (f.nodes.size : Int) ≤ s) =
      n.succs.find? fun s => !f.erase.isNode s := by
  congr 1
  funext s
  have hsize : f.erase.nodes.size = f.nodes.size := Array.size_map ..
  unfold Procedure.isNode
  rw [hsize, Bool.eq_iff_iff]
  simp only [Bool.or_eq_true, Bool.not_eq_true', Bool.and_eq_false_iff, decide_eq_true_eq,
    decide_eq_false_iff_not]
  omega

/-- The nodes are passed up to the first one with a successor that is no node. -/
theorem passNodes_eq
    (x : PlacedProgram) (f : PlacedProcedure) (nodes : List PlacedNode) :
    ∀ k, x.passNodes f nodes k = (do
      let k ← ((nodes.takeWhile fun n => f.erase.succsValid n.toNode).flatMap (·.calls)).foldlM
        (x.record f) k
      return (k, nodes.findSome? fun n => (n.succs.find? fun s => !f.erase.isNode s).map
        (.danglingSuccessor f.name n.id ·))) := by
  induction nodes with
  | nil => exact fun _ => rfl
  | cons n rest ih =>
      intro k
      unfold passNodes
      rw [succsValid_iff]
      cases hfind : n.succs.find? fun s => !f.erase.isNode s with
      | some s =>
          have hvalid : f.erase.succsValid n.toNode = false := by
            have hs := List.find?_some hfind
            rw [Procedure.succsValid, List.all_eq_false]
            exact ⟨s, List.mem_of_find?_eq_some hfind, by simpa using hs⟩
          rw [List.takeWhile_cons, hvalid, List.findSome?_cons, hfind]
          rfl
      | none =>
          have hvalid : f.erase.succsValid n.toNode = true := by
            rw [Procedure.succsValid, List.all_eq_true]
            intro s hs
            simpa using List.find?_eq_none.mp hfind s hs
          rw [List.takeWhile_cons, hvalid, if_pos rfl, List.flatMap_cons, List.foldlM_append,
            List.findSome?_cons, hfind]
          simp only [Option.map_none, bind_assoc]
          exact bind_congr ih

/-- The first successor that is no node, where the nodes keep their positions. -/
theorem dangling?_eq
    (hf : f.Placed) :
    (f.nodes.toList.findSome? fun n => (n.succs.find? fun s => !f.erase.isNode s).map
      (Flaw.danglingSuccessor f.name n.id ·)) =
      f.erase.dangling?.map fun (i, s) => .danglingSuccessor f.erase.name i s := by
  have hids : f.erase.ids = f.nodes.toList.map PlacedNode.id := by
    rw [← Array.toList_map, hf, Procedure.ids]
    exact congrArg positions (Array.size_map ..)
  have hnode : ∀ n ∈ f.nodes.toList, f.erase.node n.id = n.toNode := by
    intro n hn
    obtain ⟨i, hi, hget⟩ := Array.mem_iff_getElem.mp (Array.mem_toList_iff.mp hn)
    have hitem : f.nodes[i]? = some n := by rw [Array.getElem?_eq_getElem hi, hget]
    rw [PlacedProgram.eq_of_map_eq_positions hf hitem, Procedure.node, PlacedProcedure.erase,
      item?_map, item?_natCast, hitem]
    rfl
  rw [Procedure.dangling?, hids, List.findSome?_map, List.map_findSome?, ← List.head?_filterMap,
    ← List.head?_filterMap]
  refine congrArg List.head? (List.filterMap_congr fun n hn => ?_)
  rw [Function.comp_apply, Function.comp_apply, hnode n hn, Option.map_map]
  rfl

/-- The calls of the nodes before the first dangling successor lead to the call targets. -/
theorem Placed.callTargets_eq
    (h : x.Placed) (f : PlacedProcedure) :
    ((f.nodes.toList.takeWhile fun n => f.erase.succsValid n.toNode).flatMap (·.calls)).foldl
      x.addCallee [] = x.erase.callTargets f.erase := by
  have hlook : (fun c : CallSite => x.byName.lookup c.callee) =
      fun c => (x.erase.lookup? c.callee).map Int.ofNat := funext fun c => h.byName_eq c.callee
  have hnodes : f.erase.nodes.toList = f.nodes.toList.map PlacedNode.toNode := Array.toList_map ..
  rw [foldl_addCallee, hlook, Program.callTargets, hnodes, List.takeWhile_map, List.flatMap_map,
    List.map_filterMap, List.nil_append, List.filter_eq_self.mpr (by simp)]
  rfl

theorem exists_fetch_node
    {i : Int}
    (hi : 0 ≤ i ∧ i < f.nodes.size) :
    ∃ n, fetch f.nodes i = .ok n ∧ f.erase.node i = n.toNode := by
  obtain ⟨n, hn, -⟩ := item?_eq_some_of_mem_positions (mem_positions.mpr hi)
  refine ⟨n, fetch_eq_ok_iff.mpr hn, ?_⟩
  rw [Procedure.node, PlacedProcedure.erase, item?_map, hn]
  rfl

/-- The callees that the check of a procedure records before it stops or goes on. -/
def passed (prog : Program) (f : Procedure) : List Int :=
  if f.flaw?.isNone then prog.callTargets f else prog.partialCallees f

/-- The ends are flawed, which ends the check before a call is recorded, or what is left to find is
a dangling successor. -/
theorem endFlaw?_cases
    (prog : Program) (f : PlacedProcedure) :
    (∃ flaw, f.endFlaw? = .ok (some flaw) ∧ f.erase.flaw? = some flaw ∧ passed prog f.erase = []) ∨
    f.endFlaw? = .ok none ∧ passed prog f.erase = prog.callTargets f.erase ∧
      f.erase.flaw? = f.erase.dangling?.map fun (i, s) => .danglingSuccessor f.erase.name i s := by
  have hsize : f.erase.nodes.size = f.nodes.size := Array.size_map ..
  have hpassed : ∀ {flaw : Flaw}, f.erase.flaw? = some flaw →
      (∀ proc i s, flaw ≠ .danglingSuccessor proc i s) → passed prog f.erase = [] := by
    intro flaw hflaw hends
    unfold passed Program.partialCallees
    rw [hflaw]
    cases flaw with
    | danglingSuccessor proc i s => exact absurd rfl (hends proc i s)
    | noEnds | entryReentered | exitLeft => rfl
  unfold PlacedProcedure.endFlaw?
  by_cases hfew : f.nodes.size < 2
  · have hflaw : f.erase.flaw? = some (.noEnds f.name) := by
      simp only [Procedure.flaw?, hsize, hfew, if_true]
      rfl
    refine Or.inl ⟨_, ?_, hflaw, hpassed hflaw (by simp)⟩
    simp only [hfew, if_true]
    rfl
  obtain ⟨entry, hentry, hentryNode⟩ := exists_fetch_node (f := f) (i := entryId)
    (by unfold entryId; omega)
  obtain ⟨exit, hexit, hexitNode⟩ := exists_fetch_node (f := f) (i := exitId)
    (by unfold exitId; omega)
  simp only [hfew, if_false, hentry, hexit, bind, Except.bind, pure, Except.pure]
  have hflaw : f.erase.flaw? =
      if 0 < entry.preds.length then some (.entryReentered f.name)
      else if 0 < exit.succs.length then some (.exitLeft f.name)
      else f.erase.dangling?.map fun (i, s) => .danglingSuccessor f.erase.name i s := by
    simp only [Procedure.flaw?, hsize, hfew, if_false, hentryNode, hexitNode, Bool.not_eq_true',
      List.isEmpty_eq_false_iff, ← List.length_pos_iff]
    rfl
  by_cases hpreds : 0 < entry.preds.length
  · rw [if_pos hpreds] at hflaw ⊢
    exact Or.inl ⟨_, rfl, hflaw, hpassed hflaw (by simp)⟩
  by_cases hsuccs : 0 < exit.succs.length
  · rw [if_neg hpreds, if_pos hsuccs] at hflaw ⊢
    exact Or.inl ⟨_, rfl, hflaw, hpassed hflaw (by simp)⟩
  · rw [if_neg hpreds, if_neg hsuccs] at hflaw ⊢
    refine Or.inr ⟨rfl, ?_, hflaw⟩
    unfold passed Program.partialCallees
    rw [hflaw]
    cases f.erase.dangling? <;> rfl

/-- The check of the procedure that comes after those that have callees. -/
theorem Placed.passProc_eq
    (h : x.Placed)
    (hf : f ∈ x.procs)
    (hp : f.index ∈ positions x.procs.size)
    (hlater : ∀ q ∈ positions x.procs.size, f.index ≤ q → called q = [])
    (seen : List Int) :
    ∃ seen', x.passProc f (recorded x.procs.size called seen) =
      .ok (recorded x.procs.size (Function.update called f.index (passed x.erase f.erase)) seen',
        f.erase.flaw?) := by
  have hrow : called f.index = [] := hlater f.index hp (Int.le_refl _)
  unfold passProc
  rcases endFlaw?_cases x.erase f with ⟨flaw, hends, hflaw, hpassed⟩ | ⟨hends, hpassed, hflaw⟩
  · rw [hends, hflaw, hpassed, ← hrow, Function.update_eq_self]
    exact ⟨seen, rfl⟩
  · have hcalls := h.record_calls hp
      ((f.nodes.toList.takeWhile fun n => f.erase.succsValid n.toNode).flatMap (·.calls)) called
      fun q hq hlt => hlater q hq (by omega)
    rw [hrow, h.callTargets_eq, ← hpassed] at hcalls
    refine ⟨(passed x.erase f.erase).reverse, ?_⟩
    rw [hends, hflaw, ← dangling?_eq (h.nodes f hf)]
    simp only [bind, Except.bind]
    rw [passNodes_eq]
    exact congrArg (· >>= fun k => pure (k, _)) hcalls

/-- The callees recorded once the first procedures are checked. -/
def checked (prog : Program) (m : Nat) (p : Int) : List Int :=
  if p < m then ascending (prog.callTargets (prog.proc p)) else []

/-- The number of procedures before the first one with a flaw. -/
def sound (prog : Program) : Nat := (prog.procs.toList.takeWhile (·.flaw?.isNone)).length

/-- The callees recorded once the check has ended. -/
def linked (prog : Program) (p : Int) : List Int :=
  if p < sound prog then ascending (prog.callTargets (prog.proc p))
  else if p = sound prog then prog.partialCallees (prog.proc p)
  else []

theorem recorded_congr
    {called' : Int → List Int} {seen : List Int}
    (h : ∀ p ∈ positions n, called p = called' p) :
    recorded n called seen = recorded n called' seen := by
  unfold recorded
  rw [tabulate_congr h, transpose_congr fun q hq p => by rw [h q hq]]

/-- The callees of the linked program, row by row. -/
theorem linkCallees_eq
    (prog : Program) :
    prog.linkCallees = tabulate prog.procs.size (linked prog) := by
  refine eq_tabulate (by simp [Program.linkCallees]) fun p hp => ?_
  obtain ⟨hp₀, hpn⟩ := mem_positions.mp hp
  obtain ⟨i, rfl⟩ := Int.eq_ofNat_of_zero_le hp₀
  have hi : i < prog.procs.size := by omega
  have hproc : prog.proc (i : Int) = prog.procs[i] := by simp [Program.proc, hi]
  simp only [Program.linkCallees, item?_natCast, Array.getElem?_mapIdx,
    Array.getElem?_eq_getElem hi, Option.map_some, linked, sound, hproc, Int.ofNat_lt,
    Int.ofNat_inj]
  rfl

/-- The callers of the linked program are the transpose of its callees. -/
theorem link_callers_eq
    (prog : Program) :
    prog.link.callers = tabulate prog.procs.size (transpose prog.procs.size (linked prog)) := by
  refine eq_tabulate (by simp [Program.link]) fun p hp => ?_
  obtain ⟨hp₀, hpn⟩ := mem_positions.mp hp
  obtain ⟨i, rfl⟩ := Int.eq_ofNat_of_zero_le hp₀
  have hi : i < prog.procs.size := by omega
  simp only [Program.link, item?_natCast, Array.getElem?_mapIdx, Array.getElem?_eq_getElem hi,
    Option.map_some, linkCallees_eq, transpose, Program.procIds]
  congr 1
  refine List.filter_congr fun q hq => ?_
  rw [item?_tabulate hq]
  rfl

/-- The procedures that were passed are those before the first one with a flaw. -/
theorem sound_eq
    {before rest : List PlacedProcedure}
    (hprocs : x.procs.toList = before ++ rest)
    (hbefore : ∀ f ∈ before, f.erase.flaw? = none)
    (hrest : ∀ f ∈ rest.head?, f.erase.flaw? ≠ none) :
    sound x.erase = before.length := by
  have hflawless : ∀ f ∈ before.map PlacedProcedure.erase, f.flaw?.isNone = true := by
    intro g hg
    obtain ⟨f, hf, rfl⟩ := List.mem_map.mp hg
    rw [hbefore f hf]
    rfl
  have herase : x.erase.procs.toList = x.procs.toList.map PlacedProcedure.erase :=
    Array.toList_map ..
  rw [sound, herase, hprocs, List.map_append, List.takeWhile_append_of_pos hflawless]
  cases rest with
  | nil => simp
  | cons f rest =>
      have hf : f.erase.flaw?.isNone = false := by
        rw [← Bool.not_eq_true, Option.isNone_iff_eq_none]
        exact hrest f rfl
      simp [hf]

theorem mem_ascending
    {xs : List Int} {g : Int} :
    g ∈ ascending xs ↔ g ∈ xs :=
  mem_sortBy xs

/-- The callees of a procedure are sorted, which leaves the callers as they are. -/
theorem sort_recorded
    {seen : List Int} {listed : List Int}
    (hrow : called p = ascending listed) :
    { recorded n (Function.update called p listed) seen with
      callees := store (tabulate n (Function.update called p listed)) p (ascending listed) } =
      recorded n called seen := by
  have hcallers : transpose n (Function.update called p listed) = transpose n called := by
    refine transpose_congr fun q _ g => ?_
    by_cases hq : q = p
    · subst hq
      rw [Function.update_self, hrow, mem_ascending]
    · rw [Function.update_of_ne hq]
  unfold recorded
  rw [store_tabulate, Function.update_idem, ← hrow, Function.update_eq_self, hcallers]

/-- What is recorded of a procedure without a flaw, once it is sorted, adds it to those that are
checked. -/
theorem update_checked
    (prog : Program) (m : Nat) (listed : List Int) :
    Function.update (checked prog m) m listed =
      Function.update (checked prog (m + 1)) m listed := by
  funext q
  rw [Function.update_apply, Function.update_apply]
  by_cases hq : q = m
  · rw [if_pos hq, if_pos hq]
  · have hiff : q < (m : Int) ↔ q < ((m + 1 : Nat) : Int) := by omega
    rw [if_neg hq, if_neg hq, checked, checked, if_congr hiff rfl rfl]

/-- The check of all procedures, of which the first ones were passed without a flaw. -/
theorem Placed.passProcs_eq
    (h : x.Placed)
    (rest : List PlacedProcedure) :
    ∀ (before : List PlacedProcedure) (seen : List Int), x.procs.toList = before ++ rest →
      (∀ f ∈ before, f.erase.flaw? = none) →
      ∃ seen', x.passProcs rest
        (recorded x.procs.size (checked x.erase before.length) seen) =
        .ok (recorded x.procs.size (linked x.erase) seen',
          rest.findSome? fun f => f.erase.flaw?) := by
  induction rest with
  | nil =>
      intro before seen hprocs hbefore
      have hsound := sound_eq hprocs hbefore (by simp)
      have hsize : before.length = x.procs.size := by
        rw [← Array.length_toList, hprocs, List.append_nil]
      refine ⟨seen, congrArg (fun k => Except.ok (k, none)) (recorded_congr fun p hp => ?_)⟩
      have hlt : p < sound x.erase := by
        rw [hsound, hsize]
        exact (mem_positions.mp hp).2
      rw [checked, linked, if_pos hlt, if_pos (hsound ▸ hlt)]
  | cons f rest ih =>
      intro before seen hprocs hbefore
      have hitem : x.procs[before.length]? = some f := by
        rw [← Array.getElem?_toList, hprocs]
        simp
      have hindex : f.index = before.length := eq_of_map_eq_positions h.index_eq hitem
      have hproc : x.erase.proc f.index = f.erase := by
        rw [hindex, Program.proc, erase, item?_map, item?_natCast, hitem]
        rfl
      have hp : f.index ∈ positions x.procs.size := by
        obtain ⟨hlt, -⟩ := Array.getElem?_eq_some_iff.mp hitem
        rw [hindex, mem_positions]
        omega
      have hlater : ∀ q ∈ positions x.procs.size, f.index ≤ q →
          checked x.erase before.length q = [] :=
        fun q _ hle => if_neg (by omega)
      obtain ⟨seen', hpass⟩ := h.passProc_eq (Array.mem_of_getElem? hitem) hp hlater seen
      unfold passProcs
      rw [hpass, List.findSome?_cons]
      cases hflaw : f.erase.flaw? with
      | some flaw =>
          have hsound := sound_eq hprocs hbefore fun g hg => by
            obtain rfl := Option.some.inj hg
            simp [hflaw]
          refine ⟨seen', congrArg (fun k => Except.ok (k, some flaw)) ?_⟩
          refine recorded_congr fun p _ => ?_
          rw [Function.update_apply, linked, hsound, ← hindex, checked, ← hindex]
          by_cases hpf : p = f.index
          · subst hpf
            rw [if_pos rfl, if_neg (lt_irrefl _), if_pos rfl, hproc, passed, hflaw]
            rfl
          · rw [if_neg hpf, if_neg hpf]
      | none =>
          have hpassed : passed x.erase f.erase = x.erase.callTargets f.erase := by
            rw [passed, hflaw]
            rfl
          have hrow : checked x.erase (before.length + 1) f.index =
              ascending (x.erase.callTargets f.erase) := by
            rw [checked, if_pos (by omega), hproc]
          obtain ⟨seen'', hrest⟩ := ih (before ++ [f]) seen' (by rw [hprocs]; simp)
            fun g hg => by
              rcases List.mem_append.mp hg with hg | hg
              · exact hbefore g hg
              · exact List.mem_singleton.mp hg ▸ hflaw
          refine ⟨seen'', ?_⟩
          rw [List.length_append, List.length_singleton, ← sort_recorded hrow, hindex,
            ← update_checked, ← hindex] at hrest
          have hfetch : fetch (tabulate x.procs.size
              (Function.update (checked x.erase before.length) f.index
                (x.erase.callTargets f.erase))) f.index = .ok (x.erase.callTargets f.erase) := by
            rw [fetch_eq_ok_iff, item?_tabulate hp, Function.update_self]
          simp only [hpassed, bind, Except.bind, recorded, hfetch] at hrest ⊢
          exact hrest

/-- A list that is in order is left as it is. -/
theorem ascending_eq_self
    {xs : List Int}
    (h : xs.Pairwise (· < ·)) :
    ascending xs = xs := by
  have hless : ∀ a b : Int, decide (a < b) = true ↔ id a < id b := fun a b => by simp
  have hsorted : xs.Pairwise fun a b => decide (a < b) = true := h.imp fun hab => by simpa using hab
  have hkeys : (xs.map id).Nodup := by
    rw [List.map_id]
    exact h.imp fun hab => Int.ne_of_lt hab
  exact eq_of_perm_of_pairwise hless (sortBy_perm xs) (sortBy_pairwise hless hkeys) hsorted

/-- Before the first procedure nothing is recorded. -/
theorem recorded_nil
    (prog : Program) (n : Nat) :
    recorded n (checked prog 0) [] =
      { callees := Array.replicate n [], callers := Array.replicate n [] } := by
  have hnone : ∀ p ∈ positions n, checked prog 0 p = [] := by
    intro p hp
    exact if_neg (Int.not_lt.mpr (mem_positions.mp hp).1)
  have hempty : ∀ row : Int → List Int, (∀ p ∈ positions n, row p = []) →
      tabulate n row = Array.replicate n [] := by
    intro row hrow
    refine (eq_tabulate (by simp) fun p hp => ?_).symm
    rw [hrow p hp]
    obtain ⟨hp₀, hpn⟩ := mem_positions.mp hp
    obtain ⟨i, rfl⟩ := Int.eq_ofNat_of_zero_le hp₀
    rw [item?_natCast, Array.getElem?_replicate, if_pos (by omega)]
  unfold recorded
  rw [hempty _ hnone, hempty]
  intro p _
  refine List.filter_eq_nil_iff.mpr fun q hq => ?_
  rw [hnone q hq]
  simp

/-- The callers are in order as they were recorded. -/
theorem map_ascending_transpose
    (n : Nat) (called : Int → List Int) :
    (tabulate n (transpose n called)).map ascending = tabulate n (transpose n called) := by
  refine eq_tabulate (by rw [Array.size_map, size_tabulate]) fun p hp => ?_
  rw [item?_map, item?_tabulate hp, Option.map_some,
    ascending_eq_self (transpose_pairwise n called p)]

/-- The pass leaves the call graph that links the procedures, and gives the first flaw. -/
theorem Placed.finalize_eq
    (h : x.Placed) :
    x.finalize = .ok ({ x with
      callees := x.erase.link.callees
      callers := x.erase.link.callers }, x.erase.flaw?) := by
  have hsize : x.erase.procs.size = x.procs.size := Array.size_map ..
  have hflaw : (x.procs.toList.findSome? fun f => f.erase.flaw?) = x.erase.flaw? := by
    have herase : x.erase.procs.toList = x.procs.toList.map PlacedProcedure.erase :=
      Array.toList_map ..
    rw [Program.flaw?, herase, List.findSome?_map]
    rfl
  have hcallees : x.erase.link.callees = tabulate x.procs.size (linked x.erase) := by
    rw [← hsize, ← linkCallees_eq]
    rfl
  have hcallers := link_callers_eq x.erase
  rw [hsize] at hcallers
  obtain ⟨seen, hpass⟩ := h.passProcs_eq x.procs.toList [] [] rfl (by simp)
  rw [List.length_nil, recorded_nil, hflaw] at hpass
  unfold finalize
  simp only [hpass, bind, Except.bind, pure, Except.pure, hcallees, hcallers]
  cases x.erase.flaw? with
  | some flaw => rfl
  | none => simp only [recorded, map_ascending_transpose]

section Exact

/-- The procedures that a procedure calls, as recorded. -/
def calleesAt (x : PlacedProgram) (p : Int) : Except Fault (List Int) := fetch x.callees p

/-- The procedures that call a procedure, as recorded. -/
def callersAt (x : PlacedProgram) (p : Int) : Except Fault (List Int) := fetch x.callers p

/-- Every procedure has its callees and its callers recorded, in increasing order: it calls those
that the calls of its nodes name, and is called by those that call it. -/
structure ExactCalls (x : PlacedProgram) : Prop where
  callees : ∀ f ∈ x.procs, ∃ listed, x.calleesAt f.index = .ok listed ∧ listed.Pairwise (· < ·) ∧
    ∀ q, q ∈ listed ↔
      ∃ g ∈ x.procs, g.index = q ∧ ∃ n ∈ f.nodes, ∃ c ∈ n.calls, c.callee = g.name
  callers : ∀ g ∈ x.procs, ∃ listed, x.callersAt g.index = .ok listed ∧ listed.Pairwise (· < ·) ∧
    ∀ p, p ∈ listed ↔ ∃ called, x.calleesAt p = .ok called ∧ g.index ∈ called

/-- A procedure is at the position that it keeps. -/
theorem Placed.proc_index
    (h : x.Placed)
    (hf : f ∈ x.procs) :
    f.index ∈ positions x.procs.size ∧ x.erase.proc f.index = f.erase := by
  obtain ⟨i, hi, hget⟩ := Array.mem_iff_getElem.mp hf
  have hitem : x.procs[i]? = some f := by rw [Array.getElem?_eq_getElem hi, hget]
  have hindex : f.index = i := eq_of_map_eq_positions h.index_eq hitem
  refine ⟨by rw [hindex, mem_positions]; omega, ?_⟩
  rw [hindex, Program.proc, erase, item?_map, item?_natCast, hitem]
  rfl

/-- At every position is a procedure that keeps it. -/
theorem Placed.exists_of_mem_positions
    (h : x.Placed)
    (hp : p ∈ positions x.procs.size) :
    ∃ f ∈ x.procs, f.index = p := by
  obtain ⟨hp₀, hpn⟩ := mem_positions.mp hp
  obtain ⟨i, rfl⟩ := Int.eq_ofNat_of_zero_le hp₀
  have hi : i < x.procs.size := by omega
  exact ⟨x.procs[i], Array.getElem_mem hi,
    eq_of_map_eq_positions h.index_eq (Array.getElem?_eq_getElem hi)⟩

theorem fetch_eq_ok_getD
    {table : Array (List Int)} {i : Int}
    (hi : i ∈ positions table.size) :
    fetch table i = .ok ((item? table i).getD []) := by
  obtain ⟨listed, hlisted, -⟩ := item?_eq_some_of_mem_positions hi
  rw [fetch_eq_ok_iff, hlisted, Option.getD_some]

/-- The calls are exact if they are without the positions. -/
theorem Placed.exactCalls
    (h : x.Placed)
    (hcallees : x.callees.size = x.procs.size)
    (hcallers : x.callers.size = x.procs.size)
    (hexact : x.erase.ExactCalls) :
    x.ExactCalls := by
  have hids : x.erase.procIds = positions x.procs.size := congrArg positions (Array.size_map ..)
  have hat : ∀ {p : Int}, p ∈ positions x.procs.size → x.calleesAt p = .ok (x.erase.callees p) :=
    fun hp => fetch_eq_ok_getD (hcallees.symm ▸ hp)
  constructor
  · intro f hf
    obtain ⟨hp, hproc⟩ := h.proc_index hf
    refine ⟨_, hat hp, hexact.callees_sorted f.index, fun q => ?_⟩
    rw [hexact.mem_callees_iff, hids, hproc]
    constructor
    · rintro ⟨-, hq, n, hn, c, hc, hname⟩
      obtain ⟨g, hg, rfl⟩ := h.exists_of_mem_positions hq
      obtain ⟨m, hm, rfl⟩ := Array.mem_map.mp hn
      rw [(h.proc_index hg).2] at hname
      exact ⟨g, hg, rfl, m, hm, c, hc, hname⟩
    · rintro ⟨g, hg, rfl, n, hn, c, hc, hname⟩
      obtain ⟨hq, hproc⟩ := h.proc_index hg
      exact ⟨hp, hq, n.toNode, Array.mem_map.mpr ⟨n, hn, rfl⟩, c, hc, by rw [hproc]; exact hname⟩
  · intro g hg
    obtain ⟨hq, -⟩ := h.proc_index hg
    refine ⟨_, fetch_eq_ok_getD (hcallers.symm ▸ hq), hexact.callers_sorted g.index, fun p => ?_⟩
    have hmem := hexact.mem_callers_iff p g.index
    refine hmem.trans ⟨fun hcall => ?_, fun ⟨called, hcalled, hcall⟩ => ?_⟩
    · have hp := ((hexact.mem_callees_iff p g.index).mp hcall).1
      exact ⟨_, hat (hids ▸ hp), hcall⟩
    · have hitem := fetch_eq_ok_iff.mp hcalled
      have hcallees : x.erase.callees p = called := by
        unfold Program.callees
        exact congrArg (Option.getD · []) hitem
      rw [hcallees]
      exact hcall

end Exact

/-- A program that was edited from nothing keeps the right positions, and without them is the one
that the same edits build.  A procedure is refused exactly if its name is taken, which changes
nothing; other edits of what exists are done, and leave everything at its position.  The check finds
no flaw exactly if no entry has a predecessor and no exit a successor, and its pass then records the
call graph exactly. -/
theorem edits_exact
    {edits : List Edit}
    (hrun : edits.foldlM edit {} = .ok x) :
    (x.Consistent ∧ edits.foldlM Program.edit {} = some x.erase) ∧
    (∀ name params, (x.addProcedure name params = .error ⟨name⟩ ↔ name ∈ x.names) ∧
      (name ∈ x.names → x.edit (.procedure name params) = .ok x)) ∧
    (∀ e, x.erase.Addresses e → ∃ x', x.edit e = .ok x') ∧
    (∀ (later : List Edit) x', later.foldlM edit x = .ok x' →
      Extends Procedure.Grows x.erase.procs x'.erase.procs) ∧
    ∃ x' flaw?, x.finalize = .ok (x', flaw?) ∧ x.erase.finalize = (x'.erase, flaw?) ∧
      (flaw? = none ↔ ∀ f ∈ x.procs,
        (f.erase.node entryId).preds = [] ∧ (f.erase.node exitId).succs = []) ∧
      (flaw? = none → x'.ExactCalls) := by
  obtain ⟨hplaced, herase⟩ := Placed.edits edits {} x placed_empty hrun
  rw [erase_empty] at herase
  obtain ⟨hconsistent, -, -, hextends, hsound, hexact⟩ := Program.edited_exact herase
  have hsize : x.erase.procs.size = x.procs.size := Array.size_map ..
  refine ⟨⟨hplaced.consistent hconsistent, herase⟩, fun name params => ?_,
    fun e he => hplaced.edit_eq_ok he, fun later x' hlater => ?_,
    ⟨_, _, hplaced.finalize_eq, rfl, ?_, fun hflaw => ?_⟩⟩
  · have htaken : name ∈ x.names → x.addProcedure name params = .error ⟨name⟩ := by
      intro hname
      have herror := hplaced.addProcedure_eq name params
      rw [Program.addProcedure_of_mem (erase_names x ▸ hname)] at herror
      cases hadd : x.addProcedure name params with
      | ok x' =>
          rw [hadd] at herror
          exact absurd herror (by simp [Except.map])
      | error e =>
          rw [hadd] at herror
          exact congrArg Except.error (Except.error.inj herror)
    refine ⟨⟨fun herror => ?_, htaken⟩, fun hname => ?_⟩
    · by_contra hname
      unfold addProcedure at herror
      rw [hplaced.lookup_eq_none_iff.mpr (erase_names x ▸ hname)] at herror
      exact absurd herror (by simp)
    · simp only [edit, htaken hname, Except.toOption, Option.getD_none]
  · exact hextends later x'.erase (Placed.edits later x x' hplaced hlater).2
  · refine hsound.trans ⟨fun hends f hf => hends f.erase (Array.mem_map.mpr ⟨f, hf, rfl⟩), ?_⟩
    intro hends g hg
    obtain ⟨f, hf, rfl⟩ := Array.mem_map.mp hg
    exact hends f hf
  · have hlinked : Placed { x with
        callees := x.erase.link.callees
        callers := x.erase.link.callers } := ⟨hplaced.index_eq, hplaced.nodes, hplaced.byName_eq⟩
    refine hlinked.exactCalls ?_ ?_ (hexact hflaw)
    · simp [Program.link, Program.linkCallees, hsize]
    · simp [Program.link, hsize]

/-- Two procedures that call themselves, each other and others; one name is asked for twice. -/
def mutualCalls : List Edit :=
  [.procedure "even" [], .procedure "odd" [.ofLocal "odd" "n"], .procedure "even" [],
    .node 0 "call", .call ⟨0, 2⟩ "odd" [], .call ⟨0, 2⟩ "print" [], .chain 0 [entryId, 2, exitId],
    .node 1 "call", .define ⟨1, 2⟩ [.ofLocal "odd" "n"], .use ⟨1, 2⟩ [.ofLocal "odd" "n"],
    .call ⟨1, 2⟩ "odd" [], .call ⟨1, 2⟩ "even" [], .call ⟨1, 2⟩ "odd" [],
    .chain 1 [entryId, 2, exitId], .edge 1 2 exitId]

theorem edits_exact_mutualCalls :
    ∃ x x', mutualCalls.foldlM edit {} = .ok x ∧ x.Consistent ∧ x.names = ["even", "odd"] ∧
      x.finalize = .ok (x', none) ∧ x'.ExactCalls ∧
      x'.callees = #[[1], [0, 1]] ∧ x'.callers = #[[1], [0, 1]] := by
  have hrun : mutualCalls.foldlM edit {} = .ok ((mutualCalls.foldlM edit {}).toOption.getD {}) := by
    decide +kernel
  have hcheck : (mutualCalls.foldlM edit {} >>= finalize).map
      (fun (x', flaw?) => (flaw?, x'.callees, x'.callers)) =
      .ok (none, #[[1], [0, 1]], #[[1], [0, 1]]) := by
    decide +kernel
  obtain ⟨⟨hconsistent, -⟩, -, -, -, x', flaw?, hfinal, -, -, hexact⟩ := edits_exact hrun
  rw [hrun] at hcheck
  have htables := (congrArg (Except.map _) hfinal).symm.trans hcheck
  simp only [Except.map, Except.ok.injEq, Prod.mk.injEq] at htables
  obtain ⟨rfl, hcallees, hcallers⟩ := htables
  exact ⟨_, x', hrun, hconsistent, by decide +kernel, hfinal, hexact rfl, hcallees, hcallers⟩

end PlacedProgram

end DefUse
