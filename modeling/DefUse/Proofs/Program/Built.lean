import DefUse.Proofs.Program.Finalized

/-!
# Programs that are built step by step

Programs are built by adding procedures, nodes and edges, and by editing what the nodes carry
besides their edges.

**Method.** A property of programs that every step keeps holds of every program that was built; a
property of procedures need only be kept by the steps that change a procedure.

**Results.**
* `Built.paired`: in a program that was built step by step, every edge is recorded at both ends.
* `Built.nodup_succs` and `Built.names_nodup`: no edge is recorded twice, and no two procedures
  have the same name.
* `Built.not_leads_entry`: if such a program was checked, nothing leads to the entry of a
  procedure.
-/

namespace DefUse

/-- An edit of a node that leaves its edges as they are. -/
def Node.KeepsEdges (edit : Node → Node) : Prop :=
  ∀ n, (edit n).succs = n.succs ∧ (edit n).preds = n.preds

/-- Every edge that is recorded at its source is recorded at its target. -/
def Procedure.Paired (f : Procedure) : Prop :=
  ∀ i s, s ∈ (f.node i).succs → i ∈ (f.node s).preds

/-- A step by which a program is built. -/
inductive BuildStep where
  /-- A procedure is added. -/
  | procedure (name : String) (params : List Variable)
  /-- A node is added to a procedure. -/
  | node (p : Int) (label : String)
  /-- An edge is added to a procedure. -/
  | edge (p source target : Int)
  /-- A node writes more variables. -/
  | define (site : Point) (vars : List Variable)
  /-- A node reads more variables. -/
  | use (site : Point) (vars : List Variable)
  /-- A node calls a procedure. -/
  | call (site : Point) (callee : String) (args : List Variable)
  /-- The marks of a node are set. -/
  | mark (site : Point) (constant predicate handler : Bool)
  /-- The subtypes of a type are recorded. -/
  | subtypes (type : String) (names : List String)
  /-- The call graph is recorded. -/
  | finalize

namespace Program

/-- The result of an edit without a fault. -/
def withoutFault : Program × Option Fault → Option Program
  | (prog, none) => some prog
  | (_, some _) => none

/-- The program after a step, unless the step is refused. -/
def build (prog : Program) : BuildStep → Option Program
  | .procedure name params => (prog.addProcedure name params).toOption
  | .node p label => withoutFault (prog.updateProc p fun f => (f.addNode label, none))
  | .edge p source target => withoutFault (prog.updateProc p (·.addEdge source target))
  | .define site vars => (prog.updateNode site (·.define vars)).toOption
  | .use site vars => (prog.updateNode site (·.use vars)).toOption
  | .call site callee args => (prog.updateNode site (·.call callee args)).toOption
  | .mark site constant predicate handler =>
    (prog.updateNode site fun n => { n with constant, predicate, handler }).toOption
  | .subtypes type names => some (prog.setSubtypes type names)
  | .finalize => some prog.finalize.1

/-- The program was built from nothing, step by step. -/
def Built (prog : Program) : Prop :=
  ∃ steps : List BuildStep, steps.foldlM build {} = some prog

end Program

namespace Procedure

variable {f f' : Procedure} {i j : Int} {n : Node}

theorem node_store :
    Procedure.node { f with nodes := store f.nodes i n } j =
      if i = j ∧ j ∈ f.ids then n else f.node j := by
  by_cases hij : i = j ∧ j ∈ f.ids
  · rw [if_pos hij, node, item?_store, if_pos (by rwa [ids] at hij)]
    rfl
  · rw [if_neg hij, node, item?_store, if_neg (by rwa [ids] at hij)]
    rfl

theorem eq_node_of_fetch
    (h : fetch f.nodes i = .ok n) :
    i ∈ f.ids ∧ f.node i = n := by
  rw [fetch_eq_ok_iff] at h
  have hsome : (item? f.nodes i).isSome := by
    rw [h]
    rfl
  rw [item?_isSome_iff] at hsome
  refine ⟨mem_positions.mpr hsome, ?_⟩
  rw [node, h]
  rfl

/-- Where no node has edges, none is found at a position. -/
theorem edges_of_bare
    (hbare : ∀ n ∈ f.nodes, n.succs = [] ∧ n.preds = []) (i : Int) :
    (f.node i).succs = [] ∧ (f.node i).preds = [] := by
  unfold node
  cases hitem : item? f.nodes i with
  | none => exact ⟨rfl, rfl⟩
  | some n =>
      unfold item? at hitem
      split at hitem
      · exact hbare n (Array.mem_of_getElem? hitem)
      · exact absurd hitem (by simp)

/-- A new procedure has no edges. -/
theorem edges_new
    (name : String) (params : List Variable) (i : Int) :
    (Procedure.node { name, params } i).succs = [] ∧
      (Procedure.node { name, params } i).preds = [] :=
  edges_of_bare (by simp) i

theorem paired_new
    (name : String) (params : List Variable) :
    Paired { name, params } := by
  intro i s hs
  rw [(edges_new name params i).1] at hs
  exact absurd hs List.not_mem_nil

/-- A new node has no edges. -/
theorem addNode_edges
    (label : String) (j : Int) :
    ((f.addNode label).node j).succs = (f.node j).succs ∧
      ((f.addNode label).node j).preds = (f.node j).preds := by
  unfold Procedure.addNode node item?
  split
  · rw [Array.getElem?_push]
    split
    · rename_i hj
      rw [hj]
      simp
    · exact ⟨rfl, rfl⟩
  · exact ⟨rfl, rfl⟩

/-- A new node has no edges. -/
theorem Paired.addNode
    (h : f.Paired) (label : String) :
    (f.addNode label).Paired := by
  intro i s hs
  rw [(addNode_edges label i).1] at hs
  rw [(addNode_edges label s).2]
  exact h i s hs

theorem updateNode_eq_ok
    {edit : Node → Node}
    (hstep : f.updateNode i edit = .ok f') :
    f' = { f with nodes := store f.nodes i (edit (f.node i)) } := by
  unfold Procedure.updateNode at hstep
  obtain ⟨n, hfetch, hstep⟩ := bind_eq_ok_iff.mp hstep
  obtain ⟨-, rfl⟩ := eq_node_of_fetch hfetch
  exact (Except.ok.inj hstep).symm

/-- A change that keeps the edges of a node keeps those of all nodes. -/
theorem updateNode_edges
    {edit : Node → Node}
    (hedit : Node.KeepsEdges edit)
    (hstep : f.updateNode i edit = .ok f') (j : Int) :
    (f'.node j).succs = (f.node j).succs ∧ (f'.node j).preds = (f.node j).preds := by
  rw [updateNode_eq_ok hstep, node_store]
  split
  · rename_i hij
    rw [← hij.1]
    exact hedit (f.node i)
  · exact ⟨rfl, rfl⟩

/-- A change that keeps the edges of nodes keeps them paired. -/
theorem Paired.updateNode
    {edit : Node → Node}
    (h : f.Paired)
    (hedit : Node.KeepsEdges edit)
    (hstep : f.updateNode i edit = .ok f') :
    f'.Paired := by
  intro j s hs
  rw [(updateNode_edges hedit hstep j).1] at hs
  rw [(updateNode_edges hedit hstep s).2]
  exact h j s hs

/-- A new edge is recorded at its source and at its target, and changes nothing else of the
edges; one that exists changes nothing. -/
theorem addEdge_cases
    {source target : Int}
    (hstep : f.addEdge source target = (f', none)) :
    (f' = f ∧ target ∈ (f.node source).succs) ∨
      target ∉ (f.node source).succs ∧ target ∈ f.ids ∧
      ∀ i, (f'.node i).succs =
          (if source = i then (f.node i).succs ++ [target] else (f.node i).succs) ∧
        (f'.node i).preds =
          (if target = i then (f.node i).preds ++ [source] else (f.node i).preds) := by
  unfold Procedure.addEdge at hstep
  split at hstep
  · exact absurd (Prod.mk.inj hstep).2 (by simp)
  · rename_i n hsource
    split at hstep
    · rename_i hold
      obtain ⟨-, rfl⟩ := eq_node_of_fetch hsource
      exact Or.inl ⟨(Prod.mk.inj hstep).1.symm, hold⟩
    · rename_i hnew
      simp only at hstep
      split at hstep
      · exact absurd (Prod.mk.inj hstep).2 (by simp)
      · rename_i m htarget
        obtain rfl := (Prod.mk.inj hstep).1
        let g : Procedure :=
          { f with nodes := store f.nodes source { n with succs := n.succs ++ [target] } }
        obtain ⟨hsourceId, rfl⟩ := eq_node_of_fetch hsource
        obtain ⟨htargetId, rfl⟩ := @eq_node_of_fetch g target m htarget
        have hg : ∀ i, (g.node i).succs =
              (if source = i then (f.node i).succs ++ [target] else (f.node i).succs) ∧
            (g.node i).preds = (f.node i).preds := by
          intro i
          rw [node_store]
          by_cases hi : source = i
          · subst hi
            simp [hsourceId]
          · simp [hi]
        right
        refine ⟨hnew, by simpa [g, ids] using htargetId, ?_⟩
        intro i
        rw [← (hg i).1, ← (hg i).2, @node_store g]
        by_cases hi : target = i
        · subst hi
          simp [htargetId]
        · simp [hi]

theorem addEdge_name
    (f : Procedure) (source target : Int) :
    (f.addEdge source target).1.name = f.name := by
  unfold addEdge
  split
  · rfl
  · split
    · rfl
    · simp only
      split <;> rfl

/-- An edge is recorded at both of its ends. -/
theorem Paired.addEdge
    {source target : Int}
    (h : f.Paired)
    (hstep : f.addEdge source target = (f', none)) :
    f'.Paired := by
  rcases addEdge_cases hstep with ⟨rfl, -⟩ | ⟨-, -, hedges⟩
  · exact h
  · intro i s hs
    rw [(hedges i).1] at hs
    rw [(hedges s).2]
    have hold : s ∈ (f.node i).succs → i ∈ (if target = s then (f.node s).preds ++ [source]
        else (f.node s).preds) := by
      intro hs
      split
      · exact List.mem_append_left _ (h i s hs)
      · exact h i s hs
    split at hs
    · rename_i hi
      rcases List.mem_append.mp hs with hs | hs
      · exact hold hs
      · rw [List.mem_singleton] at hs
        simp [hs, hi]
    · exact hold hs

end Procedure

namespace Program

variable {prog prog' : Program} {p : Int}

theorem mem_of_mem_store
    {α : Type} {table : Array α} {i : Int} {a b : α}
    (h : b ∈ store table i a) :
    b = a ∨ b ∈ table := by
  unfold store at h
  split at h
  · rcases Array.mem_or_eq_of_mem_setIfInBounds h with h | h
    · exact Or.inr h
    · exact Or.inl h
  · exact Or.inr h

theorem mem_of_fetch
    {α : Type} {table : Array α} {i : Int} {a : α}
    (h : fetch table i = .ok a) :
    a ∈ table := by
  rw [fetch_eq_ok_iff, item?] at h
  split at h
  · exact Array.mem_of_getElem? h
  · exact absurd h (by simp)

/-- A procedure of the changed program was there before, or is the changed one. -/
theorem mem_of_updateProc
    {edit : Procedure → Procedure × Option Fault} {fault : Option Fault} {f' : Procedure}
    (hstep : prog.updateProc p edit = (prog', fault))
    (hf' : f' ∈ prog'.procs) :
    f' ∈ prog.procs ∨ ∃ f ∈ prog.procs, edit f = (f', fault) := by
  unfold updateProc at hstep
  split at hstep
  · obtain rfl := (Prod.mk.inj hstep).1
    exact Or.inl hf'
  · rename_i f hfetch
    obtain ⟨rfl, rfl⟩ := Prod.mk.inj hstep
    rcases mem_of_mem_store hf' with rfl | hf'
    · exact Or.inr ⟨f, mem_of_fetch hfetch, rfl⟩
    · exact Or.inl hf'

/-- A node is changed in the procedure at its point, which is put back where it was. -/
theorem updateNode_eq_ok_iff
    {site : Point} {edit : Node → Node} :
    prog.updateNode site edit = .ok prog' ↔
      ∃ f f', prog.proc? site.proc = .ok f ∧ f.updateNode site.node edit = .ok f' ∧
        { prog with procs := store prog.procs site.proc f' } = prog' := by
  unfold updateNode
  simp only [bind_eq_ok_iff, pure, Except.pure, Except.ok.injEq, exists_and_left]

/-- A procedure of the changed program was there before, or has the changed node. -/
theorem mem_of_updateNode
    {site : Point} {edit : Node → Node} {f' : Procedure}
    (hstep : prog.updateNode site edit = .ok prog')
    (hf' : f' ∈ prog'.procs) :
    f' ∈ prog.procs ∨ ∃ f ∈ prog.procs, f.updateNode site.node edit = .ok f' := by
  obtain ⟨f, g, hfetch, hedit, rfl⟩ := updateNode_eq_ok_iff.mp hstep
  rcases mem_of_mem_store hf' with rfl | hf'
  · exact Or.inr ⟨f, mem_of_fetch hfetch, hedit⟩
  · exact Or.inl hf'

theorem eq_of_withoutFault
    {result : Program × Option Fault}
    (h : withoutFault result = some prog') :
    result = (prog', none) := by
  obtain ⟨prog, fault⟩ := result
  cases fault with
  | none => rw [Option.some.inj h]
  | some e => exact absurd h (by simp [withoutFault])

theorem eq_of_toOption
    {ε α : Type} {x : Except ε α} {a : α}
    (h : x.toOption = some a) :
    x = .ok a := by
  cases x with
  | error e => exact absurd h (by simp [Except.toOption])
  | ok b => rw [Option.some.inj h]

/-- A property of programs that every step keeps holds of the programs that were built. -/
theorem Built.induction
    {P : Program → Prop}
    (hempty : P {})
    (hstep : ∀ prog step prog', P prog → prog.build step = some prog' → P prog')
    (h : prog.Built) :
    P prog := by
  obtain ⟨steps, hrun⟩ := h
  have hsteps : ∀ (steps : List BuildStep) (start : Program), P start →
      steps.foldlM build start = some prog → P prog := by
    intro steps
    induction steps with
    | nil =>
        intro start hstart hrun
        obtain rfl := Option.some.inj hrun
        exact hstart
    | cons step rest ih =>
        intro start hstart hrun
        rw [List.foldlM_cons, Option.bind_eq_bind, Option.bind_eq_some_iff] at hrun
        obtain ⟨next, hnext, hrest⟩ := hrun
        exact ih next (hstep start step next hstart hnext) hrest
  exact hsteps steps {} hempty hrun

/-- A property of procedures that the changes of a procedure keep. -/
structure KeptByEdits (P : Procedure → Prop) : Prop where
  new : ∀ name params, P { name, params }
  addNode : ∀ f label, P f → P (f.addNode label)
  updateNode : ∀ f f' i edit, P f → Node.KeepsEdges edit → f.updateNode i edit = .ok f' → P f'
  addEdge : ∀ f f' source target, P f → f.addEdge source target = (f', none) → P f'

/-- What changes of nodes keep holds of all procedures after one. -/
theorem KeptByEdits.forall_updateNode
    {P : Procedure → Prop} {site : Point} {edit : Node → Node}
    (hP : KeptByEdits P)
    (h : ∀ f ∈ prog.procs, P f)
    (hstep : (prog.updateNode site edit).toOption = some prog')
    (hedit : Node.KeepsEdges edit) :
    ∀ f ∈ prog'.procs, P f := by
  intro f' hf'
  rcases mem_of_updateNode (eq_of_toOption hstep) hf' with hf' | ⟨f, hf, hrun⟩
  · exact h f' hf'
  · exact hP.updateNode f f' _ edit (h f hf) hedit hrun

/-- What every change of a procedure keeps holds of all procedures after a step. -/
theorem KeptByEdits.forall_build
    {P : Procedure → Prop} {step : BuildStep}
    (hP : KeptByEdits P)
    (h : ∀ f ∈ prog.procs, P f)
    (hstep : prog.build step = some prog') :
    ∀ f ∈ prog'.procs, P f := by
  cases step with
  | procedure name params =>
      have hadd := eq_of_toOption hstep
      unfold Program.addProcedure at hadd
      split at hadd
      · exact absurd hadd (by simp)
      · obtain rfl := Except.ok.inj hadd
        intro f hf
        rcases Array.mem_push.mp hf with hf | rfl
        · exact h f hf
        · exact hP.new name params
  | node p label =>
      intro f' hf'
      rcases mem_of_updateProc (eq_of_withoutFault hstep) hf' with hf' | ⟨f, hf, hedit⟩
      · exact h f' hf'
      · obtain rfl := (Prod.mk.inj hedit).1
        exact hP.addNode f label (h f hf)
  | edge p source target =>
      intro f' hf'
      rcases mem_of_updateProc (eq_of_withoutFault hstep) hf' with hf' | ⟨f, hf, hedit⟩
      · exact h f' hf'
      · exact hP.addEdge f f' source target (h f hf) hedit
  | define site vars => exact hP.forall_updateNode h hstep fun _ => ⟨rfl, rfl⟩
  | use site vars => exact hP.forall_updateNode h hstep fun _ => ⟨rfl, rfl⟩
  | call site callee args => exact hP.forall_updateNode h hstep fun _ => ⟨rfl, rfl⟩
  | mark site constant predicate handler =>
      exact hP.forall_updateNode h hstep fun _ => ⟨rfl, rfl⟩
  | subtypes type names =>
      obtain rfl := Option.some.inj hstep
      exact h
  | finalize =>
      obtain rfl := Option.some.inj hstep
      exact h

/-- What every change of a procedure keeps holds of all procedures of a program that was built. -/
theorem KeptByEdits.forall_procs
    {P : Procedure → Prop}
    (hP : KeptByEdits P)
    (h : prog.Built) :
    ∀ f ∈ prog.procs, P f :=
  h.induction (P := fun prog => ∀ f ∈ prog.procs, P f) (by simp)
    fun _ _ _ hprog hstep => hP.forall_build hprog hstep

/-- In a program that was built step by step, every edge is recorded at both ends. -/
theorem Built.paired
    (h : prog.Built) :
    ∀ f ∈ prog.procs, f.Paired :=
  KeptByEdits.forall_procs
    ⟨Procedure.paired_new, fun _ label hf => hf.addNode label,
      fun _ _ _ _ hf hedit hstep => hf.updateNode hedit hstep,
      fun _ _ _ _ hf hstep => hf.addEdge hstep⟩ h

/-- In a program that was built step by step, no edge is recorded twice. -/
theorem Built.nodup_succs
    (h : prog.Built) :
    ∀ f ∈ prog.procs, ∀ i, (f.node i).succs.Nodup := by
  refine KeptByEdits.forall_procs ⟨?_, ?_, ?_, ?_⟩ h
  · intro name params i
    rw [(Procedure.edges_new name params i).1]
    exact List.nodup_nil
  · intro f label hf i
    rw [(Procedure.addNode_edges label i).1]
    exact hf i
  · intro f f' j edit hf hedit hstep i
    rw [(Procedure.updateNode_edges hedit hstep i).1]
    exact hf i
  · intro f f' source target hf hstep i
    rcases Procedure.addEdge_cases hstep with ⟨rfl, -⟩ | ⟨hnew, -, hedges⟩
    · exact hf i
    · rw [(hedges i).1]
      split
      · rename_i hi
        subst hi
        rw [← List.concat_eq_append]
        exact (hf source).concat hnew
      · exact hf i

section Names

def names (prog : Program) : List String := prog.procs.toList.map Procedure.name

theorem names_store
    {f f' : Procedure}
    (hfetch : prog.proc? p = .ok f)
    (hname : f'.name = f.name) :
    names { prog with procs := store prog.procs p f' } = prog.names := by
  rw [proc?, fetch_eq_ok_iff] at hfetch
  unfold item? at hfetch
  unfold names store
  split at hfetch
  · rename_i hp
    simp only [hp, if_true, Array.toList_setIfInBounds, List.map_set, hname]
    apply List.ext_getElem?
    intro i
    rw [List.getElem?_set]
    split
    · rename_i hi
      obtain ⟨hlt, hget⟩ := Array.getElem?_eq_some_iff.mp hfetch
      simp [← hi, hlt, hget]
    · rfl
  · exact absurd hfetch (by simp)

/-- A change that keeps the name of a procedure keeps all names. -/
theorem names_updateProc
    {edit : Procedure → Procedure × Option Fault} {fault : Option Fault}
    (hstep : prog.updateProc p edit = (prog', fault))
    (hedit : ∀ f, (edit f).1.name = f.name) :
    prog'.names = prog.names := by
  unfold updateProc at hstep
  split at hstep
  · rw [(Prod.mk.inj hstep).1]
  · rename_i f hfetch
    rw [← (Prod.mk.inj hstep).1]
    exact names_store hfetch (hedit f)

/-- A change of a node keeps all names. -/
theorem names_updateNode
    {site : Point} {edit : Node → Node}
    (hstep : (prog.updateNode site edit).toOption = some prog') :
    prog'.names = prog.names := by
  obtain ⟨f, f', hfetch, hedit, rfl⟩ := updateNode_eq_ok_iff.mp (eq_of_toOption hstep)
  exact names_store hfetch (by rw [Procedure.updateNode_eq_ok hedit])

/-- A name leads nowhere exactly if no procedure has it. -/
theorem lookup?_eq_none_iff
    {name : String} :
    prog.lookup? name = none ↔ name ∉ prog.names := by
  unfold lookup? names
  simp only [Array.findIdx?_eq_none_iff, decide_eq_false_iff_not, List.mem_map, not_exists, not_and,
    Array.mem_toList_iff]

/-- A procedure whose name is taken is refused. -/
theorem addProcedure_of_mem
    {name : String}
    (h : name ∈ prog.names) (params : List Variable) :
    prog.addProcedure name params = .error ⟨name⟩ := by
  unfold addProcedure
  cases hlook : prog.lookup? name with
  | none => exact absurd h (lookup?_eq_none_iff.mp hlook)
  | some g => rfl

/-- A procedure with a new name comes last. -/
theorem addProcedure_of_not_mem
    {name : String}
    (h : name ∉ prog.names) (params : List Variable) :
    prog.addProcedure name params =
      .ok { prog with procs := prog.procs.push { name, params } } := by
  unfold addProcedure
  rw [lookup?_eq_none_iff.mpr h]

/-- Where no two procedures have the same name, a name leads to the procedure that has it. -/
theorem lookup?_eq_some_iff
    {name : String} {g : Nat}
    (hnames : prog.names.Nodup) :
    prog.lookup? name = some g ↔ (g : Int) ∈ prog.procIds ∧ (prog.proc g).name = name := by
  constructor
  · intro hlook
    refine ⟨lookup?_lt hlook, ?_⟩
    obtain ⟨hlt, hname, -⟩ := Array.findIdx?_eq_some_iff_getElem.mp hlook
    simpa [proc, hlt] using hname
  · rintro ⟨hmem, hname⟩
    have hlt : g < prog.procs.size := by
      have := (mem_positions.mp hmem).2
      omega
    have hname' : prog.procs[g].name = name := by simpa [proc, hlt] using hname
    refine Array.findIdx?_eq_some_iff_getElem.mpr ⟨hlt, by simpa using hname', ?_⟩
    intro j hj hsame
    have hjlt : j < prog.procs.size := by omega
    have heq : prog.names[j]? = prog.names[g]? := by
      simp only [names, List.getElem?_map, Array.getElem?_toList, Array.getElem?_eq_getElem hjlt,
        Array.getElem?_eq_getElem hlt, Option.map_some, hname']
      simpa using hsame
    have := (List.nodup_iff_getElem?_ne_getElem?.mp hnames) j g hj (by simpa [names] using hlt)
    exact this heq

/-- A step keeps the names, or adds one that was not taken. -/
theorem names_build
    {step : BuildStep}
    (hstep : prog.build step = some prog') :
    prog'.names = prog.names ∨ ∃ name ∉ prog.names, prog'.names = prog.names ++ [name] := by
  cases step with
  | procedure name params =>
      have hadd := eq_of_toOption hstep
      by_cases htaken : name ∈ prog.names
      · rw [addProcedure_of_mem htaken] at hadd
        exact absurd hadd (by simp)
      · rw [addProcedure_of_not_mem htaken] at hadd
        obtain rfl := Except.ok.inj hadd
        exact Or.inr ⟨name, htaken, by simp [names]⟩
  | node p label =>
      exact Or.inl (names_updateProc (eq_of_withoutFault hstep) fun _ => rfl)
  | edge p source target =>
      exact Or.inl (names_updateProc (eq_of_withoutFault hstep)
        fun f => Procedure.addEdge_name f source target)
  | define site vars => exact Or.inl (names_updateNode hstep)
  | use site vars => exact Or.inl (names_updateNode hstep)
  | call site callee args => exact Or.inl (names_updateNode hstep)
  | mark site constant predicate handler => exact Or.inl (names_updateNode hstep)
  | subtypes type names =>
      obtain rfl := Option.some.inj hstep
      exact Or.inl rfl
  | finalize =>
      obtain rfl := Option.some.inj hstep
      exact Or.inl rfl

/-- In a program that was built step by step, no two procedures have the same name. -/
theorem Built.names_nodup
    (h : prog.Built) :
    prog.names.Nodup := by
  refine h.induction (P := fun prog => prog.names.Nodup) List.nodup_nil ?_
  intro prog step prog' hnodup hstep
  rcases names_build hstep with hsame | ⟨name, hnew, hadded⟩
  · rw [hsame]
    exact hnodup
  · rw [hadded, ← List.concat_eq_append]
    exact hnodup.concat hnew

end Names

/-- No edge of a procedure leads to its entry. -/
theorem Built.entry_not_mem_succs
    (h : prog.Built)
    (hprog : prog.Finalized)
    (hp : p ∈ prog.procIds)
    (v : Int) :
    entryId ∉ ((prog.proc p).node v).succs := by
  have hmem := proc_mem hp
  obtain ⟨-, hpreds, -, -⟩ := Procedure.sound_of_flaw?_eq_none (hprog.flaw?_eq_none hmem)
  intro hv
  have hback := h.paired _ hmem v entryId hv
  rw [hpreds] at hback
  exact List.not_mem_nil hback

/-- Nothing leads to the entry of a procedure. -/
theorem Built.not_leads_entry
    (h : prog.Built)
    (hprog : prog.Finalized)
    (hp : p ∈ prog.procIds)
    (v : Int) :
    ¬ (prog.proc p).graph.Leads v entryId := by
  rintro ⟨u, hu, hreach⟩
  generalize htarget : entryId = target at hreach
  induction hreach generalizing v with
  | refl w =>
      subst htarget
      rw [Procedure.graph_succs] at hu
      exact h.entry_not_mem_succs hprog hp v hu
  | step hs _ ih => exact ih _ hs htarget

end Program

end DefUse
