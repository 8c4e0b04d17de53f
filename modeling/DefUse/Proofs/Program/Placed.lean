import DefUse.Proofs.Program.Edited

/-!
# Programs that keep positions

A program may keep at every procedure and at every node its position, and the positions of the
names.  A look-up by name then need not go through the procedures, but what it finds is the right
procedure only as long as the positions are in step with the tables.

**Method.** Without the positions, an edit does to the tables what the edit of a program does
(`erase_edit`).  Nothing leaves its position, and what is added comes last, so the position kept is
the length of the table before.

**Results.**
* `Placed.edit` and `Placed.edits`: the positions stay in step with the tables.
* `erase_edits`: without the positions, the programs are those that `Program.edit` builds.
* `Placed.consistent`: what the positions and the edges of an edited program are.
-/

namespace DefUse

/-- A node that keeps its position. -/
structure PlacedNode extends Node where
  /-- The position of the node in its procedure. -/
  id : Int
  deriving DecidableEq, Repr

/-- A procedure that keeps its position and those of its nodes. -/
structure PlacedProcedure where
  /-- The position of the procedure in the program. -/
  index : Int
  /-- The name. -/
  name : String
  /-- The formal parameters. -/
  params : List Variable := []
  /-- The nodes, by position. -/
  nodes : Array PlacedNode := #[]
  deriving DecidableEq, Repr

/-- A program that keeps the positions of the names of its procedures. -/
structure PlacedProgram where
  /-- The procedures, by position. -/
  procs : Array PlacedProcedure := #[]
  /-- The positions of the names. -/
  byName : List (String × Int) := []
  /-- The procedures that each procedure calls, as far as a check has recorded them. -/
  callees : Array (List Int) := #[]
  /-- The procedures that call each procedure, as far as a check has recorded them. -/
  callers : Array (List Int) := #[]
  deriving DecidableEq, Repr

namespace PlacedProcedure

/-- The procedure with one more node, which keeps the number of those before it. -/
def addNode (f : PlacedProcedure) (label : String) : PlacedProcedure :=
  { f with nodes := f.nodes.push { label, id := f.nodes.size } }

/-- Changes what the node at a position carries. -/
def updateNode (f : PlacedProcedure) (i : Int) (change : Node → Node) :
    Except Fault PlacedProcedure := do
  let n ← fetch f.nodes i
  return { f with nodes := store f.nodes i { n with toNode := change n.toNode } }

/-- Records an edge at its source, then at its target, unless the source has it already. -/
def addEdge (f : PlacedProcedure) (source target : Int) : Except Fault PlacedProcedure := do
  let n ← fetch f.nodes source
  if target ∈ n.succs then return f
  let f ← f.updateNode source fun n => { n with succs := n.succs ++ [target] }
  f.updateNode target fun m => { m with preds := m.preds ++ [source] }

/-- Records the edges between neighbours of a list. -/
def chain (f : PlacedProcedure) : List Int → Except Fault PlacedProcedure
  | u :: v :: rest => do
    let f ← f.addEdge u v
    chain f (v :: rest)
  | _ => .ok f

/-- A procedure with an entry and an exit. -/
def new (index : Int) (name : String) (params : List Variable) : PlacedProcedure :=
  (({ index, name, params } : PlacedProcedure).addNode "entry").addNode "exit"

/-- The procedure without the positions. -/
def erase (f : PlacedProcedure) : Procedure where
  name := f.name
  params := f.params
  nodes := f.nodes.map PlacedNode.toNode

end PlacedProcedure

namespace PlacedProgram

/-- The program with one more procedure, whose name leads to its position. -/
def addProcedure (x : PlacedProgram) (name : String) (params : List Variable) :
    Except DuplicateName PlacedProgram :=
  match x.byName.lookup name with
  | some _ => .error ⟨name⟩
  | none =>
    let f := PlacedProcedure.new x.procs.size name params
    .ok { x with procs := x.procs.push f, byName := (name, f.index) :: x.byName }

def lookup? (x : PlacedProgram) (name : String) : Except Fault (Option PlacedProcedure) :=
  match x.byName.lookup name with
  | some i => (fetch x.procs i).map some
  | none => .ok none

def updateProc (x : PlacedProgram) (p : Int)
    (change : PlacedProcedure → Except Fault PlacedProcedure) : Except Fault PlacedProgram := do
  let f ← change (← fetch x.procs p)
  return { x with procs := store x.procs p f }

/-- The program after an edit; a procedure whose name is taken is refused. -/
def edit (x : PlacedProgram) : Edit → Except Fault PlacedProgram
  | .procedure name params => .ok ((x.addProcedure name params).toOption.getD x)
  | .node p label => x.updateProc p fun f => .ok (f.addNode label)
  | .edge p source target => x.updateProc p (·.addEdge source target)
  | .chain p path => x.updateProc p (·.chain path)
  | .define site vars => x.updateProc site.proc (·.updateNode site.node (·.define vars))
  | .use site vars => x.updateProc site.proc (·.updateNode site.node (·.use vars))
  | .call site callee args =>
    x.updateProc site.proc (·.updateNode site.node (·.call callee args))

/-- The program without the positions. -/
def erase (x : PlacedProgram) : Program where
  procs := x.procs.map PlacedProcedure.erase
  callGraph := { callees := x.callees, callers := x.callers }

end PlacedProgram

section Tables

variable {α β : Type}

theorem map_store
    (g : α → β) (table : Array α) (i : Int) (a : α) :
    (store table i a).map g = store (table.map g) i (g a) := by
  unfold store
  split
  · rw [Array.map_setIfInBounds]
  · rfl

/-- An entry replaced by one that looks the same leaves the looks of the table as they are. -/
theorem map_store_of_eq
    {g : α → β} {table : Array α} {i : Int} {a b : α}
    (ha : item? table i = some a)
    (hb : g b = g a) :
    (store table i b).map g = table.map g := by
  refine ext_item? (by simp) fun j => ?_
  rw [item?_map, item?_map, item?_store]
  split
  · rename_i hij
    rw [← hij.1, ha, Option.map_some, Option.map_some, hb]
  · rfl

theorem positions_succ
    (n : Nat) :
    positions (n + 1) = positions n ++ [(n : Int)] := by
  rw [positions, List.range_succ, List.map_append]
  rfl

end Tables

/-- The result of an edit of a procedure, or the fault that it met. -/
def orFault : Procedure × Option Fault → Except Fault Procedure
  | (f, none) => .ok f
  | (_, some e) => .error e

namespace PlacedProcedure

variable {f f' : PlacedProcedure} {i : Int} {change : Node → Node}

section Erase

/-- Without the positions, a node is added as to a procedure. -/
theorem erase_addNode
    (f : PlacedProcedure) (label : String) :
    (f.addNode label).erase = f.erase.addNode label := by
  simp only [erase, addNode, Procedure.addNode, Array.map_push]

theorem erase_new
    (index : Int) (name : String) (params : List Variable) :
    (new index name params).erase = { name, params } := by
  rw [new, erase_addNode, erase_addNode]
  simp [erase, Procedure.addNode]

/-- Without the positions, a node is changed as in a procedure. -/
theorem erase_updateNode
    (f : PlacedProcedure) (i : Int) (change : Node → Node) :
    (f.updateNode i change).map erase = f.erase.updateNode i change := by
  unfold updateNode Procedure.updateNode
  rw [erase, fetch_map]
  cases fetch f.nodes i with
  | error e => rfl
  | ok n =>
      simp only [Except.map, bind, Except.bind, pure, Except.pure, erase, map_store]

/-- Without the positions, an edge is recorded, or meets its fault, as in a procedure. -/
theorem erase_addEdge
    (f : PlacedProcedure) (source target : Int) :
    (f.addEdge source target).map erase = orFault (f.erase.addEdge source target) := by
  have hnodes : f.erase.nodes = f.nodes.map PlacedNode.toNode := rfl
  unfold addEdge Procedure.addEdge
  rw [hnodes, fetch_map]
  cases hsource : fetch f.nodes source with
  | error e => rfl
  | ok n =>
      by_cases hold : target ∈ n.succs
      · simp only [Except.map, bind, Except.bind, pure, Except.pure, hold, if_true, orFault]
      · have hstore := map_store PlacedNode.toNode f.nodes source
          { n with succs := n.succs ++ [target] }
        simp only [Except.map, bind, Except.bind, pure, Except.pure, hold, if_false, updateNode,
          hsource]
        rw [← hstore, fetch_map]
        cases fetch (store f.nodes source { n with succs := n.succs ++ [target] }) target with
        | error e => rfl
        | ok m => simp only [Except.map, erase, map_store, orFault]

/-- Without the positions, a chain is recorded, or meets its fault, as in a procedure. -/
theorem erase_chain
    (path : List Int) :
    ∀ f : PlacedProcedure, (f.chain path).map erase = orFault (f.erase.chain path) := by
  induction path with
  | nil => exact fun _ => rfl
  | cons u rest ih =>
      cases rest with
      | nil => exact fun _ => rfl
      | cons v rest =>
          intro f
          have hedge := erase_addEdge f u v
          unfold chain Procedure.chain
          rcases hpair : f.erase.addEdge u v with ⟨g', _ | e'⟩
          · rw [hpair] at hedge
            cases hstep : f.addEdge u v with
            | error e => rw [hstep] at hedge; exact absurd hedge (by simp [Except.map, orFault])
            | ok g =>
                rw [hstep] at hedge
                have hg : g.erase = g' := Except.ok.inj hedge
                simp only [bind, Except.bind]
                rw [ih g, hg]
          · rw [hpair] at hedge
            cases hstep : f.addEdge u v with
            | error e =>
                rw [hstep] at hedge
                exact congrArg Except.error (Except.error.inj hedge)
            | ok g => rw [hstep] at hedge; exact absurd hedge (by simp [Except.map, orFault])

end Erase

section Keeps

/-- The nodes keep their positions. -/
def Placed (f : PlacedProcedure) : Prop :=
  f.nodes.map PlacedNode.id = (positions f.nodes.size).toArray

/-- The second procedure has the position and the name of the first one, and its nodes keep their
positions if those of the first one do. -/
structure Keeps (f f' : PlacedProcedure) : Prop where
  index : f'.index = f.index
  name : f'.name = f.name
  placed : f.Placed → f'.Placed

theorem Keeps.refl
    (f : PlacedProcedure) :
    f.Keeps f :=
  ⟨rfl, rfl, id⟩

theorem Keeps.trans
    {f g h : PlacedProcedure}
    (hfg : f.Keeps g)
    (hgh : g.Keeps h) :
    f.Keeps h :=
  ⟨hgh.index.trans hfg.index, hgh.name.trans hfg.name, fun hf => hgh.placed (hfg.placed hf)⟩

/-- The node that is added keeps the position at which it is put. -/
theorem keeps_addNode
    (f : PlacedProcedure) (label : String) :
    f.Keeps (f.addNode label) := by
  refine ⟨rfl, rfl, fun hf => ?_⟩
  unfold Placed at hf ⊢
  simp only [addNode, Array.map_push, Array.size_push, hf, positions_succ, List.push_toArray]

/-- The entry and the exit keep the positions zero and one. -/
theorem placed_new
    (index : Int) (name : String) (params : List Variable) :
    (new index name params).Placed := by
  refine (keeps_addNode _ "exit").placed ((keeps_addNode _ "entry").placed ?_)
  simp [Placed, positions]

theorem keeps_updateNode
    (hstep : f.updateNode i change = .ok f') :
    f.Keeps f' := by
  unfold updateNode at hstep
  obtain ⟨n, hfetch, hstep⟩ := bind_eq_ok_iff.mp hstep
  rw [← Except.ok.inj hstep]
  refine ⟨rfl, rfl, fun hf => ?_⟩
  unfold Placed at hf ⊢
  rw [size_store, ← hf]
  exact map_store_of_eq (fetch_eq_ok_iff.mp hfetch) rfl

/-- An edge moves no node. -/
theorem keeps_addEdge
    {source target : Int}
    (hstep : f.addEdge source target = .ok f') :
    f.Keeps f' := by
  unfold addEdge at hstep
  obtain ⟨n, -, hstep⟩ := bind_eq_ok_iff.mp hstep
  split at hstep
  · exact Except.ok.inj hstep ▸ Keeps.refl f
  · obtain ⟨g, hout, hin⟩ := bind_eq_ok_iff.mp hstep
    exact (keeps_updateNode hout).trans (keeps_updateNode hin)

theorem keeps_chain
    (path : List Int) :
    ∀ f f' : PlacedProcedure, f.chain path = .ok f' → f.Keeps f' := by
  induction path with
  | nil => exact fun f f' hstep => Except.ok.inj hstep ▸ Keeps.refl f
  | cons u rest ih =>
      cases rest with
      | nil => exact fun f f' hstep => Except.ok.inj hstep ▸ Keeps.refl f
      | cons v rest =>
          intro f f' hstep
          unfold chain at hstep
          obtain ⟨g, hedge, hrest⟩ := bind_eq_ok_iff.mp hstep
          exact (keeps_addEdge hedge).trans (ih g f' hrest)

end Keeps

end PlacedProcedure

namespace PlacedProgram

variable {x x' : PlacedProgram} {e : Edit} {name : String} {p : Int}
  {change : PlacedProcedure → Except Fault PlacedProcedure}

/-- Procedures and nodes keep their positions, and every name leads to the first procedure that has
it. -/
structure Placed (x : PlacedProgram) : Prop where
  index_eq : x.procs.map PlacedProcedure.index = (positions x.procs.size).toArray
  nodes : ∀ f ∈ x.procs, f.Placed
  byName_eq : ∀ name, x.byName.lookup name = (x.erase.lookup? name).map Int.ofNat

section Erase

/-- A name is searched for among the names. -/
theorem lookup?_erase
    (x : PlacedProgram) (name : String) :
    x.erase.lookup? name = (x.procs.map PlacedProcedure.name).findIdx? (· = name) := by
  unfold Program.lookup? erase
  rw [Array.findIdx?_map, Array.findIdx?_map]
  rfl

/-- Without the positions, a procedure is changed as in a program. -/
theorem erase_updateProc
    {change' : Procedure → Procedure × Option Fault}
    (hchange : ∀ f, (change f).map PlacedProcedure.erase = orFault (change' f.erase))
    (x : PlacedProgram) (p : Int) :
    (x.updateProc p change).toOption.map erase =
      Program.withoutFault (x.erase.updateProc p change') := by
  have hprocs : x.erase.procs = x.procs.map PlacedProcedure.erase := rfl
  unfold updateProc Program.updateProc Program.proc?
  rw [hprocs, fetch_map]
  cases fetch x.procs p with
  | error e => rfl
  | ok f =>
      have hf := hchange f
      simp only [Except.map, bind, Except.bind, pure, Except.pure]
      rcases hpair : change' f.erase with ⟨g', _ | e'⟩
      · rw [hpair] at hf
        cases hstep : change f with
        | error e => rw [hstep] at hf; exact absurd hf (by simp [Except.map, orFault])
        | ok g =>
            rw [hstep] at hf
            have hg : g.erase = g' := Except.ok.inj hf
            simp only [Except.toOption, Option.map_some, erase, map_store, hg,
              Program.withoutFault]
      · rw [hpair] at hf
        cases hstep : change f with
        | error e => rfl
        | ok g => rw [hstep] at hf; exact absurd hf (by simp [Except.map, orFault])

theorem erase_updateNode
    (x : PlacedProgram) (site : Point) (change : Node → Node) :
    (x.updateProc site.proc (·.updateNode site.node change)).toOption.map erase =
      (x.erase.updateNode site change).toOption := by
  have hprocs : x.erase.procs = x.procs.map PlacedProcedure.erase := rfl
  unfold updateProc Program.updateNode Program.proc?
  rw [hprocs, fetch_map]
  cases fetch x.procs site.proc with
  | error e => rfl
  | ok f =>
      simp only [Except.map, bind, Except.bind, pure, Except.pure]
      rw [← PlacedProcedure.erase_updateNode]
      cases f.updateNode site.node change with
      | error e => rfl
      | ok g => simp only [Except.map, Except.toOption, Option.map_some, erase, map_store]

/-- A name leads nowhere exactly if no procedure has it. -/
theorem Placed.lookup_eq_none_iff
    (h : x.Placed) :
    x.byName.lookup name = none ↔ name ∉ x.erase.names := by
  rw [h.byName_eq, Option.map_eq_none_iff, Program.lookup?_eq_none_iff]

/-- A procedure whose name is taken is refused, as without the positions. -/
theorem Placed.addProcedure_eq
    (h : x.Placed) (name : String) (params : List Variable) :
    (x.addProcedure name params).map erase = x.erase.addProcedure name params := by
  unfold addProcedure Program.addProcedure
  rw [h.byName_eq]
  cases x.erase.lookup? name with
  | some g => rfl
  | none =>
      simp only [Option.map_none, Except.map, erase, Array.map_push, PlacedProcedure.erase_new]

/-- Without the positions, an edit is that of a program. -/
theorem Placed.erase_edit
    (h : x.Placed) (e : Edit) :
    (x.edit e).toOption.map erase = x.erase.edit e := by
  cases e with
  | procedure name params =>
      simp only [edit, Program.edit, ← h.addProcedure_eq, Except.toOption, Option.map_some]
      cases x.addProcedure name params <;> rfl
  | node p label => exact erase_updateProc (fun f => by rw [← f.erase_addNode]; rfl) x p
  | edge p source target =>
      exact erase_updateProc (fun f => f.erase_addEdge source target) x p
  | chain p path => exact erase_updateProc (PlacedProcedure.erase_chain path) x p
  | define site vars => exact erase_updateNode x site (·.define vars)
  | use site vars => exact erase_updateNode x site (·.use vars)
  | call site callee args => exact erase_updateNode x site (·.call callee args)

end Erase

section Step

/-- The procedure that is added keeps the position at which it is put, and its name leads there. -/
theorem Placed.addProcedure
    {params : List Variable}
    (h : x.Placed)
    (hstep : x.addProcedure name params = .ok x') :
    x'.Placed := by
  unfold PlacedProgram.addProcedure at hstep
  cases hlook : x.byName.lookup name with
  | some i => rw [hlook] at hstep; exact absurd hstep (by simp)
  | none =>
      rw [hlook] at hstep
      have hnew : x.erase.lookup? name = none := by
        rw [h.byName_eq] at hlook
        exact Option.map_eq_none_iff.mp hlook
      rw [← Except.ok.inj hstep]
      refine ⟨?_, ?_, ?_⟩
      · simp only [Array.map_push, Array.size_push, h.index_eq, positions_succ, List.push_toArray]
        rfl
      · intro f hf
        rcases Array.mem_push.mp hf with hf | rfl
        · exact h.nodes f hf
        · exact PlacedProcedure.placed_new _ name params
      · intro name'
        have hold := h.byName_eq name'
        rw [lookup?_erase] at hnew hold ⊢
        rw [Array.map_push, Array.findIdx?_push, List.lookup_cons]
        by_cases hname : name' = name
        · subst hname
          rw [beq_self_eq_true, hnew]
          simp [PlacedProcedure.new, PlacedProcedure.addNode]
        · rw [beq_false_of_ne hname, hold]
          simp [PlacedProcedure.new, PlacedProcedure.addNode, Ne.symm hname]

/-- A change that keeps the position and the name of a procedure keeps all positions. -/
theorem Placed.updateProc
    (h : x.Placed)
    (hchange : ∀ f f', change f = .ok f' → f.Keeps f')
    (hstep : x.updateProc p change = .ok x') :
    x'.Placed := by
  unfold PlacedProgram.updateProc at hstep
  obtain ⟨f, hfetch, hstep⟩ := bind_eq_ok_iff.mp hstep
  obtain ⟨f', hf, hstep⟩ := bind_eq_ok_iff.mp hstep
  have hkeeps := hchange f f' hf
  have hitem := fetch_eq_ok_iff.mp hfetch
  rw [← Except.ok.inj hstep]
  refine ⟨?_, ?_, ?_⟩
  · rw [size_store, ← h.index_eq]
    exact map_store_of_eq hitem hkeeps.index
  · intro g hg
    rcases Program.mem_of_mem_store hg with rfl | hg
    · exact hkeeps.placed (h.nodes f (Program.mem_of_fetch hfetch))
    · exact h.nodes g hg
  · intro name
    rw [lookup?_erase, map_store_of_eq hitem hkeeps.name, ← lookup?_erase]
    exact h.byName_eq name

/-- Every edit keeps the positions in step. -/
theorem Placed.edit
    (h : x.Placed)
    (hstep : x.edit e = .ok x') :
    x'.Placed := by
  cases e with
  | procedure name params =>
      have hstep := Except.ok.inj hstep
      cases hadd : x.addProcedure name params with
      | error e =>
          rw [hadd] at hstep
          exact hstep ▸ h
      | ok y =>
          rw [hadd] at hstep
          exact hstep ▸ h.addProcedure hadd
  | node p label =>
      exact h.updateProc (fun f f' hf => Except.ok.inj hf ▸ f.keeps_addNode label) hstep
  | edge p source target => exact h.updateProc (fun _ _ => PlacedProcedure.keeps_addEdge) hstep
  | chain p path => exact h.updateProc (PlacedProcedure.keeps_chain path) hstep
  | define site vars => exact h.updateProc (fun _ _ => PlacedProcedure.keeps_updateNode) hstep
  | use site vars => exact h.updateProc (fun _ _ => PlacedProcedure.keeps_updateNode) hstep
  | call site callee args =>
      exact h.updateProc (fun _ _ => PlacedProcedure.keeps_updateNode) hstep

theorem erase_empty : ({} : PlacedProgram).erase = {} := by
  simp [erase]

theorem placed_empty : Placed {} where
  index_eq := by simp [positions]
  nodes _ hf := absurd hf (Array.not_mem_empty _)
  byName_eq name := by simp [lookup?_erase]

/-- The positions stay in step, and without them the edits are those of a program. -/
theorem Placed.edits
    (edits : List Edit) :
    ∀ x x', Placed x → edits.foldlM PlacedProgram.edit x = .ok x' →
      x'.Placed ∧ edits.foldlM Program.edit x.erase = some x'.erase := by
  induction edits with
  | nil =>
      intro x x' h hrun
      exact Except.ok.inj hrun ▸ ⟨h, rfl⟩
  | cons e rest ih =>
      intro x x' h hrun
      rw [List.foldlM_cons] at hrun ⊢
      obtain ⟨y, hstep, hrun⟩ := bind_eq_ok_iff.mp hrun
      have herase := h.erase_edit e
      rw [hstep] at herase
      obtain ⟨hplaced, hrest⟩ := ih y x' (h.edit hstep) hrun
      rw [← herase]
      exact ⟨hplaced, hrest⟩

/-- An edit of what exists is done. -/
theorem Placed.edit_eq_ok
    (h : x.Placed)
    (he : x.erase.Addresses e) :
    ∃ x', x.edit e = .ok x' := by
  have hsome := Program.edit_isSome he
  rw [← h.erase_edit] at hsome
  cases hstep : x.edit e with
  | error fault =>
      rw [hstep] at hsome
      exact absurd hsome (by simp [Except.toOption])
  | ok x' => exact ⟨x', rfl⟩

end Step

section Consistent

def names (x : PlacedProgram) : List String := x.procs.toList.map PlacedProcedure.name

/-- Procedures and nodes keep the positions at which they are, a procedure is found by its name, no
two have the same name, and the edges of each are recorded at both ends, once. -/
structure Consistent (x : PlacedProgram) : Prop where
  index_eq : ∀ (i : Nat) f, x.procs[i]? = some f → f.index = i
  id_eq : ∀ f ∈ x.procs, ∀ (i : Nat) n, f.nodes[i]? = some n → n.id = i
  byName_iff : ∀ name (i : Nat),
    x.byName.lookup name = some (i : Int) ↔ ∃ f, x.procs[i]? = some f ∧ f.name = name
  lookup_iff : ∀ name f, x.lookup? name = .ok (some f) ↔ f ∈ x.procs ∧ f.name = name
  lookup_none_iff : ∀ name, x.lookup? name = .ok none ↔ name ∉ x.names
  names_nodup : x.names.Nodup
  linked : ∀ f ∈ x.procs, f.erase.Linked

theorem erase_names
    (x : PlacedProgram) :
    x.erase.names = x.names := by
  unfold Program.names names erase
  rw [Array.toList_map, List.map_map]
  rfl

/-- A table whose entries keep their positions has at every position one that keeps it. -/
theorem eq_of_map_eq_positions
    {α : Type} {key : α → Int} {table : Array α}
    (h : table.map key = (positions table.size).toArray)
    {i : Nat} {a : α}
    (ha : table[i]? = some a) :
    key a = i := by
  have hkey : (table.map key)[i]? = some (key a) := by rw [Array.getElem?_map, ha, Option.map_some]
  obtain ⟨hi, -⟩ := Array.getElem?_eq_some_iff.mp ha
  rw [h] at hkey
  simpa [positions, hi, eq_comm] using hkey

/-- A name leads to the position of the procedure that has it. -/
theorem Placed.byName_iff
    (h : x.Placed)
    (hprog : x.erase.Consistent) (name : String) (i : Nat) :
    x.byName.lookup name = some (i : Int) ↔ ∃ f, x.procs[i]? = some f ∧ f.name = name := by
  have hlook : x.byName.lookup name = some (i : Int) ↔ x.erase.lookup? name = some i := by
    rw [h.byName_eq, Option.map_eq_some_iff]
    simp only [Int.ofNat_eq_natCast, Int.natCast_inj, exists_eq_right]
  have hget : x.erase.procs[i]? = x.procs[i]?.map PlacedProcedure.erase := Array.getElem?_map
  rw [hlook, hprog.found_iff, hget]
  simp only [Option.map_eq_some_iff, exists_exists_and_eq_and]
  rfl

/-- Every procedure is found by its name. -/
theorem Placed.lookup?_eq_ok
    (h : x.Placed)
    (hprog : x.erase.Consistent)
    {f : PlacedProcedure}
    (hf : f ∈ x.procs) :
    x.lookup? f.name = .ok (some f) := by
  obtain ⟨i, hi, hget⟩ := Array.mem_iff_getElem.mp hf
  have hitem : x.procs[i]? = some f := by rw [Array.getElem?_eq_getElem hi, hget]
  have hfetch : fetch x.procs (i : Int) = .ok f := by rw [fetch_eq_ok_iff, item?_natCast, hitem]
  unfold PlacedProgram.lookup?
  rw [(h.byName_iff hprog f.name i).mpr ⟨f, hitem, rfl⟩]
  simp only [hfetch, Except.map]

theorem Placed.lookup?_eq_none
    (h : x.Placed)
    (hname : name ∉ x.names) :
    x.lookup? name = .ok none := by
  unfold PlacedProgram.lookup?
  rw [h.lookup_eq_none_iff.mpr (by rwa [erase_names])]

/-- Positions in step with a consistent program are consistent with it. -/
theorem Placed.consistent
    (h : x.Placed)
    (hprog : x.erase.Consistent) :
    x.Consistent := by
  have hfound : ∀ name ∈ x.names, ∃ f ∈ x.procs, f.name = name ∧ x.lookup? name = .ok (some f) := by
    intro name hname
    obtain ⟨f, hf, rfl⟩ := List.mem_map.mp hname
    rw [Array.mem_toList_iff] at hf
    exact ⟨f, hf, rfl, h.lookup?_eq_ok hprog hf⟩
  refine ⟨fun i f => eq_of_map_eq_positions h.index_eq,
    fun f hf i n => eq_of_map_eq_positions (h.nodes f hf), h.byName_iff hprog, ?_, ?_,
    erase_names x ▸ hprog.names_nodup, ?_⟩
  · intro name f
    constructor
    · intro hlook
      by_cases hname : name ∈ x.names
      · obtain ⟨g, hg, hgname, hglook⟩ := hfound name hname
        rw [hglook] at hlook
        exact Option.some.inj (Except.ok.inj hlook) ▸ ⟨hg, hgname⟩
      · rw [h.lookup?_eq_none hname] at hlook
        exact absurd (Except.ok.inj hlook) (by simp)
    · rintro ⟨hf, rfl⟩
      exact h.lookup?_eq_ok hprog hf
  · intro name
    constructor
    · intro hlook hname
      obtain ⟨f, -, -, hf⟩ := hfound name hname
      rw [hf] at hlook
      exact absurd (Except.ok.inj hlook) (by simp)
    · exact h.lookup?_eq_none
  · intro f hf
    exact hprog.linked f.erase (Array.mem_map.mpr ⟨f, hf, rfl⟩)

end Consistent

end PlacedProgram

end DefUse
