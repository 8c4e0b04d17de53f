import DefUse.Proofs.Program.Built
import DefUse.Proofs.Sorted

/-!
# What building keeps consistent, and what the check makes of it

A program is built by edits of what exists: procedures, nodes, edges and chains of edges are added,
and nodes write, read and call more.  A procedure whose name is taken is refused, which leaves the
program as it was.

**Method.** Every edit adds a procedure at the end or replaces the nodes of one by nodes that carry
more, so that nothing leaves its position.  An edge is new at its source exactly if it is new at its
target, since every edge is recorded at both.

**Results.**
* `Linked`: the edges of a procedure are recorded at both ends, once, and end at nodes.
* `Extends.edits`: what is at a position stays there.
* `Linked.flaw?_eq_none_iff`: the check looks at the entry and at the exit only.
* `edited_exact`: the edited program is consistent, and its call graph is exact.
-/

namespace DefUse

/-- Where the first table has an entry, the second has a related one. -/
def Extends {α : Type} (R : α → α → Prop) (table table' : Array α) : Prop :=
  ∀ i a, item? table i = some a → ∃ a', item? table' i = some a' ∧ R a a'

namespace Extends

variable {α : Type} {R : α → α → Prop} {table table' table'' : Array α}

theorem refl
    (hrefl : ∀ a, R a a) (table : Array α) :
    Extends R table table :=
  fun _ a ha => ⟨a, ha, hrefl a⟩

theorem trans
    (htrans : ∀ a b c, R a b → R b c → R a c)
    (h : Extends R table table')
    (h' : Extends R table' table'') :
    Extends R table table'' := by
  intro i a ha
  obtain ⟨b, hb, hab⟩ := h i a ha
  obtain ⟨c, hc, hbc⟩ := h' i b hb
  exact ⟨c, hc, htrans a b c hab hbc⟩

/-- What is added comes last, so that nothing leaves its position. -/
theorem push
    (hrefl : ∀ a, R a a) (table : Array α) (a : α) :
    Extends R table (table.push a) := by
  intro i b hb
  refine ⟨b, ?_, hrefl b⟩
  unfold item? at hb ⊢
  split at hb
  · rename_i hi
    obtain ⟨hlt, hget⟩ := Array.getElem?_eq_some_iff.mp hb
    rw [if_pos hi, Array.getElem?_push_lt hlt, hget]
  · exact absurd hb (by simp)

theorem store
    {i : Int} {a a' : α}
    (hrefl : ∀ a, R a a)
    (ha : item? table i = some a)
    (haa' : R a a') :
    Extends R table (store table i a') := by
  intro j b hb
  rw [item?_store]
  split
  · rename_i hij
    rw [← hij.1, ha] at hb
    exact ⟨a', rfl, Option.some.inj hb ▸ haa'⟩
  · exact ⟨b, hb, hrefl b⟩

end Extends

/-- The second node has the label of the first one, and carries at least as much. -/
structure Node.Grows (n n' : Node) : Prop where
  label : n'.label = n.label
  defs : n.defs <+: n'.defs
  uses : n.uses <+: n'.uses
  calls : n.calls <+: n'.calls
  succs : n.succs <+: n'.succs
  preds : n.preds <+: n'.preds

namespace Node.Grows

theorem refl
    (n : Node) :
    n.Grows n :=
  ⟨rfl, List.prefix_rfl, List.prefix_rfl, List.prefix_rfl, List.prefix_rfl, List.prefix_rfl⟩

theorem trans
    (a b c : Node)
    (h : a.Grows b)
    (h' : b.Grows c) :
    a.Grows c :=
  ⟨h'.label.trans h.label, h.defs.trans h'.defs, h.uses.trans h'.uses, h.calls.trans h'.calls,
    h.succs.trans h'.succs, h.preds.trans h'.preds⟩

theorem define
    (n : Node) (vars : List Variable) :
    n.Grows (n.define vars) :=
  { refl n with defs := List.prefix_append _ _ }

theorem use
    (n : Node) (vars : List Variable) :
    n.Grows (n.use vars) :=
  { refl n with uses := List.prefix_append _ _ }

theorem call
    (n : Node) (callee : String) (args : List Variable) :
    n.Grows (n.call callee args) :=
  { refl n with calls := List.prefix_append _ _ }

end Node.Grows

namespace Procedure

/-- The second procedure has the name and the parameters of the first one, and at the positions of
its nodes ones that carry at least as much. -/
structure Grows (f f' : Procedure) : Prop where
  name : f'.name = f.name
  params : f'.params = f.params
  nodes : Extends Node.Grows f.nodes f'.nodes

/-- The edges of the procedure are recorded at both ends, once, and end at nodes. -/
structure Linked (f : Procedure) : Prop where
  two_le : 2 ≤ f.nodes.size
  succs_mem : ∀ i, ∀ s ∈ (f.node i).succs, s ∈ f.ids
  succs_nodup : ∀ i, (f.node i).succs.Nodup
  preds_nodup : ∀ i, (f.node i).preds.Nodup
  paired : ∀ i j, j ∈ (f.node i).succs ↔ i ∈ (f.node j).preds

variable {f f' : Procedure} {i : Int} {path : List Int}

section Grows

theorem Grows.refl
    (f : Procedure) :
    f.Grows f :=
  ⟨rfl, rfl, .refl Node.Grows.refl f.nodes⟩

theorem Grows.trans
    (f g h : Procedure)
    (hfg : f.Grows g)
    (hgh : g.Grows h) :
    f.Grows h :=
  ⟨hgh.name.trans hfg.name, hgh.params.trans hfg.params,
    hfg.nodes.trans Node.Grows.trans hgh.nodes⟩

theorem grows_addNode
    (f : Procedure) (label : String) :
    f.Grows (f.addNode label) :=
  ⟨rfl, rfl, .push Node.Grows.refl f.nodes _⟩

theorem grows_store
    {n n' : Node}
    (hn : fetch f.nodes i = .ok n)
    (hgrows : n.Grows n') :
    f.Grows { f with nodes := store f.nodes i n' } :=
  ⟨rfl, rfl, .store Node.Grows.refl (fetch_eq_ok_iff.mp hn) hgrows⟩

theorem grows_updateNode
    {edit : Node → Node}
    (hedit : ∀ n : Node, n.Grows (edit n))
    (hstep : f.updateNode i edit = .ok f') :
    f.Grows f' := by
  unfold updateNode at hstep
  obtain ⟨n, hfetch, hstep⟩ := bind_eq_ok_iff.mp hstep
  rw [← Except.ok.inj hstep]
  exact grows_store hfetch (hedit n)

/-- An edge adds to what its ends carry, also if one end is no node. -/
theorem grows_addEdge
    (f : Procedure) (source target : Int) :
    f.Grows (f.addEdge source target).1 := by
  unfold addEdge
  split
  · exact Grows.refl f
  · rename_i n hsource
    split
    · exact Grows.refl f
    · have hout : f.Grows { f with
          nodes := store f.nodes source { n with succs := n.succs ++ [target] } } :=
        grows_store hsource { Node.Grows.refl n with succs := List.prefix_append _ _ }
      dsimp only
      split
      · exact hout
      · rename_i m htarget
        refine hout.trans _ _ _ (grows_store htarget ?_)
        exact { Node.Grows.refl m with preds := List.prefix_append _ _ }

/-- A chain adds to what its nodes carry. -/
theorem grows_chain
    (path : List Int) :
    ∀ f : Procedure, f.Grows (f.chain path).1 := by
  induction path with
  | nil => exact Grows.refl
  | cons u rest ih =>
      cases rest with
      | nil => exact Grows.refl
      | cons v rest =>
          intro f
          have hgrows := grows_addEdge f u v
          unfold chain
          split
          · rename_i g hedge
            rw [hedge] at hgrows
            exact hgrows.trans _ _ _ (ih g)
          · rename_i g e hedge
            rw [hedge] at hgrows
            exact hgrows

end Grows

section Linked

/-- An edge adds no node. -/
theorem addEdge_ids
    (f : Procedure) (source target : Int) :
    (f.addEdge source target).1.ids = f.ids := by
  unfold addEdge
  split
  · rfl
  · split
    · rfl
    · dsimp only
      split <;> simp only [ids, size_store]

/-- An edge whose ends are nodes is recorded. -/
theorem addEdge_fault
    {source target : Int}
    (hsource : source ∈ f.ids)
    (htarget : target ∈ f.ids) :
    (f.addEdge source target).2 = none := by
  obtain ⟨n, hn, -⟩ := item?_eq_some_of_mem_positions hsource
  unfold addEdge
  rw [fetch_eq_ok_iff.mpr hn]
  dsimp only
  split
  · rfl
  · rw [ids, ← size_store f.nodes source { n with succs := n.succs ++ [target] }] at htarget
    obtain ⟨m, hm, -⟩ := item?_eq_some_of_mem_positions htarget
    rw [fetch_eq_ok_iff.mpr hm]

/-- A chain of nodes is recorded. -/
theorem chain_fault
    (path : List Int) :
    ∀ f : Procedure, (∀ i ∈ path, i ∈ f.ids) → (f.chain path).2 = none := by
  induction path with
  | nil => exact fun _ _ => rfl
  | cons u rest ih =>
      cases rest with
      | nil => exact fun _ _ => rfl
      | cons v rest =>
          intro f hpath
          have hedge := addEdge_fault (hpath u (by simp)) (hpath v (by simp))
          have hids := addEdge_ids f u v
          unfold chain
          split
          · rename_i g hstep
            rw [hstep] at hids
            exact ih g fun i hi => hids ▸ hpath i (List.mem_cons_of_mem u hi)
          · rename_i g e hstep
            rw [hstep] at hedge
            exact absurd hedge (by simp)

/-- Nodes without edges. -/
theorem linked_of_bare
    (hsize : 2 ≤ f.nodes.size)
    (hbare : ∀ n ∈ f.nodes, n.succs = [] ∧ n.preds = []) :
    f.Linked := by
  have hedges := edges_of_bare hbare
  refine ⟨hsize, ?_, ?_, ?_, ?_⟩
  · intro i s hs
    rw [(hedges i).1] at hs
    exact absurd hs List.not_mem_nil
  · intro i
    rw [(hedges i).1]
    exact List.nodup_nil
  · intro i
    rw [(hedges i).2]
    exact List.nodup_nil
  · intro i j
    rw [(hedges i).1, (hedges j).2]
    simp only [List.not_mem_nil]

/-- A change that keeps the edges and drops no node. -/
theorem Linked.of_edges
    (h : f.Linked)
    (hsize : f.nodes.size ≤ f'.nodes.size)
    (hedges : ∀ i, (f'.node i).succs = (f.node i).succs ∧ (f'.node i).preds = (f.node i).preds) :
    f'.Linked := by
  refine ⟨Nat.le_trans h.two_le hsize, ?_, ?_, ?_, ?_⟩
  · intro i s hs
    rw [(hedges i).1] at hs
    have hmem := mem_positions.mp (h.succs_mem i s hs)
    exact mem_positions.mpr (by omega)
  · intro i
    rw [(hedges i).1]
    exact h.succs_nodup i
  · intro i
    rw [(hedges i).2]
    exact h.preds_nodup i
  · intro i j
    rw [(hedges i).1, (hedges j).2]
    exact h.paired i j

/-- An edge that is recorded at one end is recorded at the other, and once. -/
theorem Linked.addEdge
    {source target : Int}
    (h : f.Linked)
    (hstep : f.addEdge source target = (f', none)) :
    f'.Linked := by
  have hids : f'.ids = f.ids := by
    have := addEdge_ids f source target
    rwa [hstep] at this
  rcases addEdge_cases hstep with ⟨rfl, -⟩ | ⟨hnew, htarget, hedges⟩
  · exact h
  · have hback : source ∉ (f.node target).preds :=
      fun hmem => hnew ((h.paired source target).mpr hmem)
    have hsuccs : ∀ i j, j ∈ (f'.node i).succs ↔
        j ∈ (f.node i).succs ∨ source = i ∧ j = target := by
      intro i j
      rw [(hedges i).1]
      split <;> simp_all
    have hpreds : ∀ i j, i ∈ (f'.node j).preds ↔
        i ∈ (f.node j).preds ∨ target = j ∧ i = source := by
      intro i j
      rw [(hedges j).2]
      split <;> simp_all
    refine ⟨?_, ?_, ?_, ?_, ?_⟩
    · have hsize : f'.nodes.size = f.nodes.size := by
        simpa [ids, positions] using congrArg List.length hids
      rw [hsize]
      exact h.two_le
    · intro i s hs
      rw [hids]
      rcases (hsuccs i s).mp hs with hs | ⟨-, rfl⟩
      · exact h.succs_mem i s hs
      · exact htarget
    · intro i
      rw [(hedges i).1]
      split
      · rename_i hi
        rw [← hi, ← List.concat_eq_append]
        exact (h.succs_nodup source).concat hnew
      · exact h.succs_nodup i
    · intro i
      rw [(hedges i).2]
      split
      · rename_i hi
        rw [← hi, ← List.concat_eq_append]
        exact (h.preds_nodup target).concat hback
      · exact h.preds_nodup i
    · intro i j
      rw [hsuccs i j, hpreds i j, h.paired i j]
      constructor <;> rintro (hij | ⟨rfl, rfl⟩)
      · exact Or.inl hij
      · exact Or.inr ⟨rfl, rfl⟩
      · exact Or.inl hij
      · exact Or.inr ⟨rfl, rfl⟩

/-- The check of a procedure whose edges are in order looks at its entry and at its exit only. -/
theorem Linked.flaw?_eq_none_iff
    (h : f.Linked) :
    f.flaw? = none ↔ (f.node entryId).preds = [] ∧ (f.node exitId).succs = [] := by
  constructor
  · intro hflaw
    obtain ⟨-, hentry, hexit, -⟩ := sound_of_flaw?_eq_none hflaw
    exact ⟨hentry, hexit⟩
  · rintro ⟨hentry, hexit⟩
    have hdangling : f.dangling? = none := by
      rw [dangling?, List.findSome?_eq_none_iff]
      intro i _
      rw [Option.map_eq_none_iff, List.find?_eq_none]
      intro s hs
      have hmem := mem_positions.mp (h.succs_mem i s hs)
      simp only [isNode, Bool.not_eq_true', Bool.not_eq_false, Bool.and_eq_true, decide_eq_true_eq]
      exact hmem
    have hsize : ¬ f.nodes.size < 2 := Nat.not_lt.mpr h.two_le
    simp [flaw?, hsize, hentry, hexit, hdangling]

end Linked

end Procedure

/-- An edit by which a program is built. -/
inductive Edit where
  /-- A procedure is added, unless its name is taken. -/
  | procedure (name : String) (params : List Variable)
  /-- A node is added to a procedure. -/
  | node (p : Int) (label : String)
  /-- An edge is added to a procedure. -/
  | edge (p source target : Int)
  /-- The edges between neighbours of a list of nodes are added to a procedure. -/
  | chain (p : Int) (path : List Int)
  /-- A node writes more variables. -/
  | define (site : Point) (vars : List Variable)
  /-- A node reads more variables. -/
  | use (site : Point) (vars : List Variable)
  /-- A node calls a procedure. -/
  | call (site : Point) (callee : String) (args : List Variable)

namespace Program

/-- The program after an edit; an address outside the program has no result. -/
def edit (prog : Program) : Edit → Option Program
  | .procedure name params => some ((prog.addProcedure name params).toOption.getD prog)
  | .node p label => prog.build (.node p label)
  | .edge p source target => prog.build (.edge p source target)
  | .chain p path => withoutFault (prog.updateProc p (·.chain path))
  | .define site vars => prog.build (.define site vars)
  | .use site vars => prog.build (.use site vars)
  | .call site callee args => prog.build (.call site callee args)

/-- The edit addresses procedures and nodes of the program. -/
def Addresses (prog : Program) : Edit → Prop
  | .procedure _ _ => True
  | .node p _ => p ∈ prog.procIds
  | .edge p source target => prog.HasPoint ⟨p, source⟩ ∧ prog.HasPoint ⟨p, target⟩
  | .chain p path => p ∈ prog.procIds ∧ ∀ i ∈ path, prog.HasPoint ⟨p, i⟩
  | .define site _ => prog.HasPoint site
  | .use site _ => prog.HasPoint site
  | .call site _ _ => prog.HasPoint site

variable {prog prog' : Program} {e : Edit} {edits : List Edit} {p : Int} {site : Point}

section Addresses

theorem updateProc_isSome
    {change : Procedure → Procedure × Option Fault}
    (hp : p ∈ prog.procIds)
    (hchange : (change (prog.proc p)).2 = none) :
    (withoutFault (prog.updateProc p change)).isSome := by
  unfold updateProc
  rw [proc?_eq hp]
  dsimp only
  rw [hchange]
  rfl

theorem updateNode_isSome
    {change : Node → Node}
    (hsite : prog.HasPoint site) :
    (prog.updateNode site change).toOption.isSome := by
  obtain ⟨n, hn, -⟩ := item?_eq_some_of_mem_positions hsite.2
  simp only [updateNode, proc?_eq hsite.1, Procedure.updateNode, fetch_eq_ok_iff.mpr hn, bind,
    Except.bind, pure, Except.pure]
  rfl

/-- An edit of what exists is done. -/
theorem edit_isSome
    (he : prog.Addresses e) :
    (prog.edit e).isSome := by
  cases e with
  | procedure name params => rfl
  | node p label => exact updateProc_isSome he rfl
  | edge p source target =>
      exact updateProc_isSome he.1.1 (Procedure.addEdge_fault he.1.2 he.2.2)
  | chain p path =>
      exact updateProc_isSome he.1 (Procedure.chain_fault path _ fun i hi => (he.2 i hi).2)
  | define site vars => exact updateNode_isSome he
  | use site vars => exact updateNode_isSome he
  | call site callee args => exact updateNode_isSome he

end Addresses

section Kept

/-- What every edit keeps holds after any edits. -/
theorem edits_induction
    {P : Program → Prop}
    (hstep : ∀ prog e prog', P prog → prog.edit e = some prog' → P prog')
    (edits : List Edit) :
    ∀ prog, P prog → edits.foldlM edit prog = some prog' → P prog' := by
  induction edits with
  | nil =>
      intro prog hprog hrun
      exact Option.some.inj hrun ▸ hprog
  | cons e rest ih =>
      intro prog hprog hrun
      rw [List.foldlM_cons, Option.bind_eq_bind, Option.bind_eq_some_iff] at hrun
      obtain ⟨next, hnext, hrest⟩ := hrun
      exact ih next (hstep prog e next hprog hnext) hrest

/-- An edit leaves the program as it was, is a step by which programs are built, or adds a chain. -/
theorem edit_cases
    (hstep : prog.edit e = some prog') :
    prog' = prog ∨ (∃ step, prog.build step = some prog') ∨
      ∃ p path, withoutFault (prog.updateProc p (·.chain path)) = some prog' := by
  cases e with
  | procedure name params =>
      simp only [edit] at hstep
      cases hadd : (prog.addProcedure name params).toOption with
      | none =>
          rw [hadd] at hstep
          exact Or.inl (Option.some.inj hstep).symm
      | some next =>
          rw [hadd] at hstep
          exact Or.inr (Or.inl ⟨.procedure name params, hadd.trans hstep⟩)
  | node p label => exact Or.inr (Or.inl ⟨.node p label, hstep⟩)
  | edge p source target => exact Or.inr (Or.inl ⟨.edge p source target, hstep⟩)
  | chain p path => exact Or.inr (Or.inr ⟨p, path, hstep⟩)
  | define site vars => exact Or.inr (Or.inl ⟨.define site vars, hstep⟩)
  | use site vars => exact Or.inr (Or.inl ⟨.use site vars, hstep⟩)
  | call site callee args => exact Or.inr (Or.inl ⟨.call site callee args, hstep⟩)

/-- What one edge keeps, a chain keeps. -/
theorem KeptByEdits.chain
    {P : Procedure → Prop}
    (hP : KeptByEdits P)
    (path : List Int) :
    ∀ f f', P f → f.chain path = (f', none) → P f' := by
  induction path with
  | nil => exact fun f f' hf hstep => (Prod.mk.inj hstep).1 ▸ hf
  | cons u rest ih =>
      cases rest with
      | nil => exact fun f f' hf hstep => (Prod.mk.inj hstep).1 ▸ hf
      | cons v rest =>
          intro f f' hf hstep
          unfold Procedure.chain at hstep
          split at hstep
          · rename_i g hedge
            exact ih g f' (hP.addEdge f g u v hf hedge) hstep
          · exact absurd (Prod.mk.inj hstep).2 (by simp)

/-- What every change of a procedure keeps holds of all procedures after an edit. -/
theorem KeptByEdits.forall_edit
    {P : Procedure → Prop}
    (hP : KeptByEdits P)
    (h : ∀ f ∈ prog.procs, P f)
    (hstep : prog.edit e = some prog') :
    ∀ f ∈ prog'.procs, P f := by
  rcases edit_cases hstep with rfl | ⟨step, hstep⟩ | ⟨p, path, hstep⟩
  · exact h
  · exact hP.forall_build h hstep
  · intro f' hf'
    rcases mem_of_updateProc (eq_of_withoutFault hstep) hf' with hf' | ⟨f, hf, hchain⟩
    · exact h f' hf'
    · exact hP.chain path f f' (h f hf) hchain

/-- Every edit keeps the edges in order. -/
theorem keptByEdits_linked : KeptByEdits Procedure.Linked where
  new _ _ := Procedure.linked_of_bare (Nat.le_refl 2) (by simp)
  addNode f label hf := hf.of_edges (by simp [Procedure.addNode]) (Procedure.addNode_edges label)
  updateNode f f' i change hf hchange hstep :=
    hf.of_edges (by rw [Procedure.updateNode_eq_ok hstep, size_store])
      (Procedure.updateNode_edges hchange hstep)
  addEdge _ _ _ _ hf hstep := hf.addEdge hstep

/-- An edit keeps the names, or adds one that was not taken. -/
theorem names_edit
    (hstep : prog.edit e = some prog') :
    prog'.names = prog.names ∨ ∃ name ∉ prog.names, prog'.names = prog.names ++ [name] := by
  rcases edit_cases hstep with rfl | ⟨step, hstep⟩ | ⟨p, path, hstep⟩
  · exact Or.inl rfl
  · exact names_build hstep
  · exact Or.inl (names_updateProc (eq_of_withoutFault hstep)
      fun f => (Procedure.grows_chain path f).name)

theorem extends_updateProc
    {change : Procedure → Procedure × Option Fault}
    (hchange : ∀ f : Procedure, f.Grows (change f).1)
    (hstep : withoutFault (prog.updateProc p change) = some prog') :
    Extends Procedure.Grows prog.procs prog'.procs := by
  have hrun := eq_of_withoutFault hstep
  unfold updateProc at hrun
  split at hrun
  · exact absurd (Prod.mk.inj hrun).2 (by simp)
  · rename_i f hfetch
    rw [← (Prod.mk.inj hrun).1]
    exact .store Procedure.Grows.refl (fetch_eq_ok_iff.mp hfetch) (hchange f)

theorem extends_updateNode
    {change : Node → Node}
    (hchange : ∀ n : Node, n.Grows (change n))
    (hstep : (prog.updateNode site change).toOption = some prog') :
    Extends Procedure.Grows prog.procs prog'.procs := by
  obtain ⟨f, f', hfetch, hedit, rfl⟩ := updateNode_eq_ok_iff.mp (eq_of_toOption hstep)
  exact .store Procedure.Grows.refl (fetch_eq_ok_iff.mp hfetch)
    (Procedure.grows_updateNode hchange hedit)

/-- What is at a position stays there when the program is edited. -/
theorem extends_edit
    (hstep : prog.edit e = some prog') :
    Extends Procedure.Grows prog.procs prog'.procs := by
  cases e with
  | procedure name params =>
      simp only [edit] at hstep
      by_cases htaken : name ∈ prog.names
      · rw [addProcedure_of_mem htaken] at hstep
        exact Option.some.inj hstep ▸ .refl Procedure.Grows.refl _
      · rw [addProcedure_of_not_mem htaken] at hstep
        exact Option.some.inj hstep ▸ .push Procedure.Grows.refl _ _
  | node p label => exact extends_updateProc (fun f => Procedure.grows_addNode f label) hstep
  | edge p source target =>
      exact extends_updateProc (fun f => Procedure.grows_addEdge f source target) hstep
  | chain p path => exact extends_updateProc (Procedure.grows_chain path) hstep
  | define site vars => exact extends_updateNode (fun n => Node.Grows.define n vars) hstep
  | use site vars => exact extends_updateNode (fun n => Node.Grows.use n vars) hstep
  | call site callee args =>
      exact extends_updateNode (fun n => Node.Grows.call n callee args) hstep

end Kept

section Check

/-- The call graph lists in order who calls whom: a procedure calls those that the calls of its
nodes name, and is called by those that call it. -/
structure ExactCalls (prog : Program) : Prop where
  callees_sorted : ∀ p, (prog.callees p).Pairwise (· < ·)
  callers_sorted : ∀ p, (prog.callers p).Pairwise (· < ·)
  mem_callees_iff : ∀ p q, q ∈ prog.callees p ↔
    p ∈ prog.procIds ∧ q ∈ prog.procIds ∧
      ∃ n ∈ (prog.proc p).nodes, ∃ c ∈ n.calls, c.callee = (prog.proc q).name
  mem_callers_iff : ∀ p q, p ∈ prog.callers q ↔ q ∈ prog.callees p

/-- The positions of a table are in order. -/
theorem positions_pairwise
    (n : Nat) :
    (positions n).Pairwise (· < ·) := by
  refine List.Pairwise.map Int.ofNat ?_ List.pairwise_lt_range
  intro a b hab
  exact Int.ofNat_lt.mpr hab

/-- What is no procedure calls nothing. -/
theorem Finalized.callees_eq_nil
    (h : prog.Finalized)
    (hp : p ∉ prog.procIds) :
    prog.callees p = [] := by
  unfold callees
  rw [h.callGraph_eq, item?_eq_none]
  · rfl
  · rw [procIds, mem_positions] at hp
    simpa [link, linkCallees] using hp

/-- The callers of a procedure are those that have it among their callees, in order. -/
theorem Finalized.callers_eq
    (h : prog.Finalized) (p : Int) :
    prog.callers p =
      if p ∈ prog.procIds then prog.procIds.filter fun q => p ∈ prog.callees q else [] := by
  unfold callers callees
  rw [h.callGraph_eq]
  split
  · rename_i hp
    obtain ⟨hp₀, hpn⟩ := mem_positions.mp hp
    obtain ⟨k, rfl⟩ := Int.eq_ofNat_of_zero_le hp₀
    have hk : k < prog.procs.size := by omega
    simp only [link, item?_natCast, Array.getElem?_mapIdx, Array.getElem?_eq_getElem hk,
      Option.map_some, Option.getD_some]
    exact List.filter_congr fun _ _ => decide_eq_decide.mpr Iff.rfl
  · rename_i hp
    rw [procIds, mem_positions] at hp
    rw [item?_eq_none (by simpa [link] using hp)]
    rfl

/-- The call graph of a checked program without repeated names is exact. -/
theorem Finalized.exactCalls
    (h : prog.Finalized)
    (hnames : prog.names.Nodup) :
    prog.ExactCalls := by
  have hcallees : ∀ p q, q ∈ prog.callees p ↔
      p ∈ prog.procIds ∧ q ∈ prog.procIds ∧
        ∃ n ∈ (prog.proc p).nodes, ∃ c ∈ n.calls, c.callee = (prog.proc q).name := by
    intro p q
    by_cases hp : p ∈ prog.procIds
    · rw [h.mem_callees_iff hp]
      constructor
      · rintro ⟨n, hn, c, hc, g, hlook, rfl⟩
        obtain ⟨hg, hname⟩ := (lookup?_eq_some_iff hnames).mp hlook
        exact ⟨hp, hg, n, hn, c, hc, hname.symm⟩
      · rintro ⟨-, hq, n, hn, c, hc, hname⟩
        obtain ⟨g, rfl⟩ := Int.eq_ofNat_of_zero_le (mem_positions.mp hq).1
        exact ⟨n, hn, c, hc, g, (lookup?_eq_some_iff hnames).mpr ⟨hq, hname.symm⟩, rfl⟩
    · rw [h.callees_eq_nil hp]
      simp [hp]
  refine ⟨?_, ?_, hcallees, ?_⟩
  · intro p
    by_cases hp : p ∈ prog.procIds
    · rw [h.callees_eq hp]
      have hkeys : ((prog.callTargets (prog.proc p)).map id).Nodup := by
        rw [List.map_id]
        exact distinct_nodup _
      exact (sortBy_pairwise (fun a b => by simp) hkeys).imp fun hab => by simpa using hab
    · rw [h.callees_eq_nil hp]
      exact List.Pairwise.nil
  · intro p
    rw [h.callers_eq]
    split
    · exact (positions_pairwise _).filter _
    · exact List.Pairwise.nil
  · intro p q
    rw [h.callers_eq]
    split
    · simp only [List.mem_filter, decide_eq_true_eq, and_iff_right_iff_imp]
      exact fun hq => ((hcallees p q).mp hq).1
    · rename_i hq
      rw [hcallees]
      simp [hq]

/-- Where all edges are in order, the check looks at the entries and at the exits only. -/
theorem flaw?_eq_none_iff
    (hlinked : ∀ f ∈ prog.procs, f.Linked) :
    prog.flaw? = none ↔
      ∀ f ∈ prog.procs, (f.node entryId).preds = [] ∧ (f.node exitId).succs = [] := by
  unfold flaw?
  simp only [List.findSome?_eq_none_iff, Array.mem_toList_iff]
  exact forall₂_congr fun f hf => (hlinked f hf).flaw?_eq_none_iff

end Check

/-- Procedures are found at their positions, no two have the same name, and the edges of each are in
order. -/
structure Consistent (prog : Program) : Prop where
  found_iff : ∀ name (g : Nat),
    prog.lookup? name = some g ↔ ∃ f, prog.procs[g]? = some f ∧ f.name = name
  names_nodup : prog.names.Nodup
  linked : ∀ f ∈ prog.procs, f.Linked

/-- A program that was edited from nothing is consistent.  A procedure is refused exactly if its
name is taken, which changes nothing; other edits of what exists are done, and leave everything at
its position.  The check finds no flaw exactly if no entry has a predecessor and no exit a
successor, and then records the call graph exactly. -/
theorem edited_exact
    (hrun : edits.foldlM edit {} = some prog) :
    prog.Consistent ∧
    (∀ name params, (prog.addProcedure name params = .error ⟨name⟩ ↔ name ∈ prog.names) ∧
      (name ∈ prog.names → prog.edit (.procedure name params) = some prog)) ∧
    (∀ e, prog.Addresses e → (prog.edit e).isSome) ∧
    (∀ (later : List Edit) prog', later.foldlM edit prog = some prog' →
      Extends Procedure.Grows prog.procs prog'.procs) ∧
    (prog.finalize.2 = none ↔
      ∀ f ∈ prog.procs, (f.node entryId).preds = [] ∧ (f.node exitId).succs = []) ∧
    (prog.finalize.2 = none → prog.finalize.1.ExactCalls) := by
  have hnames : prog.names.Nodup := by
    refine edits_induction (P := fun prog => prog.names.Nodup) ?_ edits {} List.nodup_nil hrun
    intro prog e prog' hnodup hstep
    rcases names_edit hstep with hsame | ⟨name, hnew, hadded⟩
    · rw [hsame]
      exact hnodup
    · rw [hadded, ← List.concat_eq_append]
      exact hnodup.concat hnew
  have hlinked : ∀ f ∈ prog.procs, f.Linked :=
    edits_induction (P := fun prog => ∀ f ∈ prog.procs, f.Linked)
      (fun _ _ _ hprog hstep => keptByEdits_linked.forall_edit hprog hstep) edits {} (by simp) hrun
  refine ⟨⟨fun name g => ?_, hnames, hlinked⟩, fun name params => ?_, fun _ => edit_isSome, ?_,
    flaw?_eq_none_iff hlinked, fun hflaw => ?_⟩
  · rw [lookup?_eq_some_iff hnames, procIds, mem_positions, proc, item?_natCast]
    constructor
    · rintro ⟨⟨-, hlt⟩, hname⟩
      have hg : g < prog.procs.size := by omega
      rw [Array.getElem?_eq_getElem hg] at hname ⊢
      exact ⟨_, rfl, hname⟩
    · rintro ⟨f, hf, hname⟩
      obtain ⟨hg, -⟩ := Array.getElem?_eq_some_iff.mp hf
      rw [hf]
      exact ⟨⟨by omega, by omega⟩, hname⟩
  · refine ⟨⟨fun h => ?_, fun h => addProcedure_of_mem h params⟩, fun h => ?_⟩
    · by_contra hfree
      rw [addProcedure_of_not_mem hfree] at h
      exact absurd h (by simp)
    · simp only [edit, addProcedure_of_mem h, Except.toOption, Option.getD_none]
  · intro later prog' hlater
    exact edits_induction (P := fun next => Extends Procedure.Grows prog.procs next.procs)
      (fun _ _ _ hnext hstep => hnext.trans Procedure.Grows.trans (extends_edit hstep)) later prog
      (.refl Procedure.Grows.refl _) hlater
  · exact Finalized.exactCalls (finalized_of_sound hflaw rfl) hnames

end Program

end DefUse
