import DefUse.Proofs.Flow.Reading
import DefUse.Proofs.Order.GraphOrder
import DefUse.Proofs.Program.Built
import Mathlib.Logic.Equiv.Defs

/-!
# Programs with their procedures in another order

A procedure is called by its name and known by its position.  If the procedures of a program are
added in another order, they get other positions, and everything that mentions a position changes
in the same way.

**Method.** A bijection of positions that takes every procedure to itself relates the two programs.
The relation is symmetric, so that a property of points, definitions and uses carries over in both
directions as soon as it carries over in one.

**Results.**
* `Rearranged.locallyReached`, `Rearranged.isEndpoint_iff` and `Rearranged.isPassedTo`: reading and
  writing of local variables carries over.
* `Rearranged.reaches_eq`, `Rearranged.dominates_eq` and `Rearranged.postdominates_eq`: so does the
  order of execution.
* `exists_rearranged`: a program and the same procedures in another order are related by the
  names of the procedures.
-/

namespace DefUse

section Rename

variable {σ : Int → Int}

/-- The point with the position of its procedure changed. -/
def Point.rename (σ : Int → Int) (site : Point) : Point := ⟨σ site.proc, site.node⟩

/-- The definition with the position of its procedure changed. -/
def Def.rename (σ : Int → Int) (d : Def) : Def := { d with site := d.site.rename σ }

/-- The use with the position of its procedure changed. -/
def Use.rename (σ : Int → Int) (u : Use) : Use := { u with site := u.site.rename σ }

/-- The formal with the position of its procedure changed. -/
def Formal.rename (σ : Int → Int) (x : Formal) : Formal := { x with proc := (σ x.proc).toNat }

@[simp] theorem Point.rename_proc (site : Point) : (site.rename σ).proc = σ site.proc := rfl

@[simp] theorem Point.rename_node (site : Point) : (site.rename σ).node = site.node := rfl

@[simp] theorem Def.rename_site (d : Def) : (d.rename σ).site = d.site.rename σ := rfl

@[simp] theorem Def.rename_var (d : Def) : (d.rename σ).var = d.var := rfl

@[simp] theorem Def.rename_constant (d : Def) : (d.rename σ).constant = d.constant := rfl

@[simp] theorem Use.rename_site (u : Use) : (u.rename σ).site = u.site.rename σ := rfl

@[simp] theorem Use.rename_var (u : Use) : (u.rename σ).var = u.var := rfl

@[simp] theorem Use.rename_computation
    (site : Point) (v : Variable) :
    (Use.computation site v).rename σ = .computation (site.rename σ) v := rfl

end Rename

section Inverse

variable (σ : Int ≃ Int)

/-- Renaming back undoes the renaming of a point. -/
@[simp] theorem Point.rename_symm (site : Point) : (site.rename σ).rename σ.symm = site := by
  simp [Point.rename]

@[simp] theorem Point.symm_rename (site : Point) : (site.rename σ.symm).rename σ = site := by
  simp [Point.rename]

/-- Renaming back undoes the renaming of a definition. -/
@[simp] theorem Def.rename_symm (d : Def) : (d.rename σ).rename σ.symm = d := by
  simp [Def.rename]

@[simp] theorem Def.symm_rename (d : Def) : (d.rename σ.symm).rename σ = d := by
  simp [Def.rename]

/-- Renaming back undoes the renaming of a use. -/
@[simp] theorem Use.rename_symm (u : Use) : (u.rename σ).rename σ.symm = u := by
  simp [Use.rename]

@[simp] theorem Use.symm_rename (u : Use) : (u.rename σ.symm).rename σ = u := by
  simp [Use.rename]

/-- Different points keep apart. -/
theorem Point.rename_injective : Function.Injective (Point.rename σ) :=
  Function.LeftInverse.injective (Point.rename_symm σ)

/-- Different definitions keep apart. -/
theorem Def.rename_injective : Function.Injective (Def.rename σ) :=
  Function.LeftInverse.injective (Def.rename_symm σ)

/-- Different uses keep apart. -/
theorem Use.rename_injective : Function.Injective (Use.rename σ) :=
  Function.LeftInverse.injective (Use.rename_symm σ)

end Inverse

/-- The uses at a renamed point are the renamed uses. -/
theorem Procedure.usesOf_rename
    (σ : Int → Int) (f : Procedure) (site : Point) :
    f.usesOf (site.rename σ) = (f.usesOf site).map (Use.rename σ) := by
  unfold usesOf
  rw [List.map_flatMap]
  change List.flatMap _ (f.node site.node).uses = _
  congr 1
  funext v
  change (if (f.node site.node).isBranch = true then _ else _) = _
  by_cases hbranch : (f.node site.node).isBranch = true
  · rw [if_pos hbranch, if_pos hbranch, List.map_map]
    rfl
  · rw [if_neg hbranch, if_neg hbranch]
    rfl

namespace Program

/-- Two checked programs with the same procedures, related by a bijection of their positions. -/
structure Rearranged (prog prog' : Program) (σ : Int ≃ Int) : Prop where
  finalized : prog.Finalized
  finalized' : prog'.Finalized
  proc : ∀ p, prog'.proc (σ p) = prog.proc p
  mem : ∀ p, σ p ∈ prog'.procIds ↔ p ∈ prog.procIds
  lookup : ∀ name (g g' : Nat), (g' : Int) = σ g →
    (prog'.lookup? name = some g' ↔ prog.lookup? name = some g)
  subtypes : prog'.subtypes = prog.subtypes

namespace Rearranged

variable {prog prog' : Program} {σ : Int ≃ Int} {formalsAsDefs : Bool} {site : Point}
  {v : Variable} {d : Def} {u : Use} {x : Formal}

/-- A program is rearranged from the one it is rearranged into. -/
theorem symm
    (h : Rearranged prog prog' σ) :
    Rearranged prog' prog σ.symm := by
  refine ⟨h.finalized', h.finalized, ?_, ?_, ?_, h.subtypes.symm⟩
  · intro p
    rw [← h.proc, Equiv.apply_symm_apply]
  · intro p
    rw [← h.mem, Equiv.apply_symm_apply]
  · intro name g' g hg
    refine (h.lookup name g g' ?_).symm
    rw [hg, Equiv.apply_symm_apply]

/-- A name leads to the procedure that it led to, at its new position. -/
theorem lookup_eq
    (h : Rearranged prog prog' σ)
    {name : String} {g : Nat}
    (hg : prog.lookup? name = some g) :
    prog'.lookup? name = some (σ g).toNat ∧ ((σ g).toNat : Int) = σ g := by
  have hmem := (h.mem g).mpr (lookup?_lt hg)
  have hcast : ((σ g).toNat : Int) = σ g := Int.toNat_of_nonneg (mem_positions.mp hmem).1
  exact ⟨(h.lookup name g _ hcast).mpr hg, hcast⟩

/-- The node at a renamed point is the one that was at the point. -/
@[simp] theorem node_rename
    (h : Rearranged prog prog' σ)
    (site : Point) :
    prog'.node (site.rename σ) = prog.node site := by
  rw [node, node, Point.rename_proc, h.proc]
  rfl

/-- What a node writes does not depend on the positions of procedures. -/
theorem writes_iff
    (h : Rearranged prog prog' σ) :
    prog'.Writes formalsAsDefs (site.rename σ) v ↔ prog.Writes formalsAsDefs site v := by
  unfold Writes
  rw [h.node_rename, Point.rename_proc, h.proc]
  rfl

/-- Local definitions are renamed with their points. -/
theorem isLocalDef_iff
    (h : Rearranged prog prog' σ) :
    prog'.IsLocalDef formalsAsDefs (d.rename σ) ↔ prog.IsLocalDef formalsAsDefs d := by
  unfold IsLocalDef
  simp only [mem_defsOf_iff, mem_formalDefs_iff, Def.rename_site, Def.rename_var,
    Def.rename_constant, Point.rename_proc, Point.rename_node, h.proc, true_and]
  have hentry : d.site.rename σ = ⟨σ d.site.proc, entryId⟩ ↔ d.site = ⟨d.site.proc, entryId⟩ := by
    rcases d with ⟨⟨q, i⟩, x, c⟩
    simp [Point.rename]
  rw [hentry]

/-- Plain uses are renamed with their points. -/
theorem isPlainUse_iff
    (h : Rearranged prog prog' σ) :
    prog'.IsPlainUse (u.rename σ) ↔ prog.IsPlainUse u := by
  unfold IsPlainUse
  rw [Use.rename_var, Use.rename_site, Point.rename_proc, h.proc, Procedure.usesOf_rename,
    List.mem_map_of_injective (Use.rename_injective σ)]

/-- Arguments stay at their calls. -/
theorem isArgument_iff
    (h : Rearranged prog prog' σ)
    {c : CallSite} {i : Nat} :
    prog'.IsArgument (u.rename σ) c i ↔ prog.IsArgument u c i := by
  constructor
  · rintro ⟨hcall, harg, hzero, hlocal, huse⟩
    rw [Use.rename_site, h.node_rename] at hcall
    refine ⟨hcall, harg, hzero, hlocal, Use.rename_injective σ ?_⟩
    rw [Use.rename_computation]
    exact huse
  · rintro ⟨hcall, harg, hzero, hlocal, huse⟩
    refine ⟨?_, harg, hzero, hlocal, ?_⟩
    · rw [Use.rename_site, h.node_rename]
      exact hcall
    · rw [Use.rename_site, Use.rename_var, ← Use.rename_computation, ← huse]

/-- The formals of a procedure that is called stay those of the call. -/
theorem params_rename
    (h : Rearranged prog prog' σ)
    {name : String}
    (hx : prog.lookup? name = some x.proc) :
    (prog'.proc (x.rename σ).proc).params = (prog.proc x.proc).params := by
  unfold Formal.rename
  rw [(h.lookup_eq hx).2, h.proc]

/-- A call passes to the renamed formal what it passed to the formal. -/
theorem passesThrough
    (h : Rearranged prog prog' σ)
    {c : CallSite} {i : Nat}
    (hpass : prog.PassesThrough formalsAsDefs c i x) :
    prog'.PassesThrough formalsAsDefs c i (x.rename σ) := by
  refine ⟨hpass.linked, (h.lookup_eq hpass.callee).1, hpass.index, ?_⟩
  rw [h.params_rename hpass.callee]
  exact hpass.formal

/-- A use that is passed to a formal is passed to the renamed one. -/
theorem isPassedTo
    (h : Rearranged prog prog' σ)
    (hpassed : prog.IsPassedTo formalsAsDefs u x) :
    prog'.IsPassedTo formalsAsDefs (u.rename σ) (x.rename σ) := by
  obtain ⟨c, i, harg, hpass⟩ := hpassed
  exact ⟨c, i, h.isArgument_iff.mpr harg, h.passesThrough hpass⟩

/-- Uses are renamed with their points. -/
theorem isUse_iff
    (h : Rearranged prog prog' σ) :
    prog'.IsUse (u.rename σ) ↔ prog.IsUse u := by
  unfold IsUse
  simp only [h.isPlainUse_iff, h.isArgument_iff]

/-- Endpoints stay endpoints. -/
theorem isEndpoint
    (h : Rearranged prog prog' σ)
    (hend : prog.IsEndpoint formalsAsDefs u) :
    prog'.IsEndpoint formalsAsDefs (u.rename σ) := by
  rcases hend with hplain | ⟨c, i, harg, hstop⟩
  · exact Or.inl (h.isPlainUse_iff.mpr hplain)
  · refine Or.inr ⟨c, i, h.isArgument_iff.mpr harg, ?_⟩
    intro x hpass
    exact hstop _ (h.symm.passesThrough hpass)

/-- A renamed use is an endpoint exactly if the use is one. -/
theorem isEndpoint_iff
    (h : Rearranged prog prog' σ) :
    prog'.IsEndpoint formalsAsDefs (u.rename σ) ↔ prog.IsEndpoint formalsAsDefs u := by
  constructor
  · intro hend
    simpa using h.symm.isEndpoint hend
  · exact h.isEndpoint

/-- A walk that delivers a value does so in the renamed procedure as well. -/
theorem delivers
    (h : Rearranged prog prog' σ)
    {walk : List Int}
    (hwalk : prog.Delivers formalsAsDefs site v u walk) :
    prog'.Delivers formalsAsDefs (site.rename σ) v (u.rename σ) walk := by
  refine ⟨?_, hwalk.starts, hwalk.long, hwalk.arrives, ?_⟩
  · rw [Point.rename_proc, h.proc]
    exact hwalk.isWalk
  · intro i hi hwrites
    exact hwalk.clear i hi (h.writes_iff.mp hwrites)

/-- What a point reaches in its procedure, the renamed point reaches in the renamed one. -/
theorem locallyReached
    (h : Rearranged prog prog' σ)
    (hreached : prog.LocallyReached formalsAsDefs site v u) :
    prog'.LocallyReached formalsAsDefs (site.rename σ) v (u.rename σ) := by
  obtain ⟨walk, hwalk⟩ := hreached.walk
  refine ⟨?_, hreached.var, h.isUse_iff.mpr hreached.isUse, walk, h.delivers hwalk⟩
  rw [Use.rename_site, Point.rename_proc, hreached.proc, Point.rename_proc]

section Calls

variable {p q : Int}

/-- The callees of a procedure are renamed with it. -/
theorem mem_callees
    (h : Rearranged prog prog' σ)
    (hp : p ∈ prog.procIds)
    (hq : q ∈ prog.callees p) :
    σ q ∈ prog'.callees (σ p) := by
  obtain ⟨n, hn, c, hc, g, hlook, rfl⟩ := (h.finalized.mem_callees_iff hp).mp hq
  obtain ⟨hlook', hcast⟩ := h.lookup_eq hlook
  rw [h.finalized'.mem_callees_iff ((h.mem p).mpr hp), h.proc]
  exact ⟨n, hn, c, hc, _, hlook', hcast.symm⟩

/-- Chains of calls are renamed call by call. -/
theorem leads_calls
    (h : Rearranged prog prog' σ)
    (hp : p ∈ prog.procIds)
    (hleads : prog.calls.Leads p q) :
    prog'.calls.Leads (σ p) (σ q) := by
  obtain ⟨r, hr, hreach⟩ := hleads
  have hmem := h.finalized.calls_closed p hp r hr
  refine ⟨σ r, h.mem_callees hp hr, ?_⟩
  clear hr
  induction hreach with
  | refl r => exact .refl _
  | step hs _ ih =>
      exact .step (h.mem_callees hmem hs) (ih (h.finalized.calls_closed _ hmem _ hs))

/-- A procedure calls itself, directly or through others, exactly if the renamed one does. -/
theorem mem_selfCalling_iff
    (h : Rearranged prog prog' σ)
    (hp : p ∈ prog.procIds) :
    σ p ∈ prog'.selfCalling ↔ p ∈ prog.selfCalling := by
  have hp' := (h.mem p).mpr hp
  rw [Program.mem_selfCalling_iff h.finalized hp, Program.mem_selfCalling_iff h.finalized' hp']
  constructor
  · intro hleads
    simpa using h.symm.leads_calls hp' hleads
  · exact h.leads_calls hp

end Calls

section Order

open GraphOrder

variable {a b : Point}

theorem fetch_procs_error
    {p : Int}
    (hp : p ∉ prog.procIds) :
    ∃ e, fetch (ofProgram prog).procs p = .error e := by
  cases hfetch : fetch (ofProgram prog).procs p with
  | error e => exact ⟨e, rfl⟩
  | ok order => exact absurd (mem_procIds_of_fetch (a := ⟨p, 0⟩) hfetch) hp

/-- Whichever of the two orders is asked, the renamed points get the answer of the points. -/
theorem answer_rename
    (h : Rearranged prog prog' σ)
    (select : ProcOrder → Array (List Int)) :
    answer (do
      if σ a.proc ≠ σ b.proc then return false
      let order ← fetch (ofProgram prog').procs (σ a.proc)
      lookupDominated (select order) a.node b.node) =
    answer (do
      if a.proc ≠ b.proc then return false
      let order ← fetch (ofProgram prog).procs a.proc
      lookupDominated (select order) a.node b.node) := by
  by_cases hproc : a.proc = b.proc
  · rw [if_neg (not_not.mpr hproc), if_neg (not_not.mpr (congrArg σ hproc))]
    by_cases ha : a.proc ∈ prog.procIds
    · have hfetch := fetch_procs (a := a.rename σ) ((h.mem _).mpr ha)
      rw [Point.rename_proc, h.proc] at hfetch
      rw [fetch_procs ha, hfetch]
    · obtain ⟨e, he⟩ := fetch_procs_error ha
      obtain ⟨e', he'⟩ := fetch_procs_error fun hmem => ha ((h.mem _).mp hmem)
      rw [he, he']
      rfl
  · rw [if_pos hproc, if_pos fun heq => hproc (σ.injective heq)]

/-- Dominance does not depend on the positions of procedures. -/
theorem dominates_eq
    (h : Rearranged prog prog' σ) :
    (ofProgram prog').oracle.dominates (a.rename σ) (b.rename σ) =
      (ofProgram prog).oracle.dominates a b :=
  h.answer_rename ProcOrder.dominated

/-- Post-dominance does not depend on the positions of procedures. -/
theorem postdominates_eq
    (h : Rearranged prog prog' σ) :
    (ofProgram prog').oracle.postdominates (a.rename σ) (b.rename σ) =
      (ofProgram prog).oracle.postdominates a b :=
  h.answer_rename ProcOrder.postdominated

/-- Reachability does not depend on the positions of procedures, also where procedures call
themselves. -/
theorem reaches_eq
    (h : Rearranged prog prog' σ)
    (ha : a.proc ∈ prog.procIds)
    (hn : a.node ∈ (prog.proc a.proc).ids) :
    (ofProgram prog').oracle.reaches (a.rename σ) (b.rename σ) true =
      (ofProgram prog).oracle.reaches a b true := by
  by_cases hb : b.proc = a.proc
  · rw [Bool.eq_iff_iff, GraphOrder.reaches_iff h.finalized ha hn hb,
      GraphOrder.reaches_iff h.finalized' ((h.mem _).mpr ha)
        (by rw [Point.rename_proc, h.proc]; exact hn) (congrArg σ hb),
      Point.rename_proc, h.proc, h.mem_selfCalling_iff ha]
    rfl
  · simp [GraphOrder.oracle, reaches?, Ne.symm hb, answer]

end Order

end Rearranged

section Positions

variable {prog prog' : Program} {p : Int}

/-- The position in the second program of the procedure at a position of the first one. -/
def movedTo (prog prog' : Program) (p : Int) : Int :=
  if p ∈ prog.procIds then ((prog'.lookup? (prog.proc p).name).map Int.ofNat).getD p else p

/-- The procedure at a position is found at the position it has moved to. -/
theorem movedTo_spec
    (hnames' : prog'.names.Nodup)
    (hperm : prog'.procs.toList.Perm prog.procs.toList)
    (hp : p ∈ prog.procIds) :
    movedTo prog prog' p ∈ prog'.procIds ∧ prog'.proc (movedTo prog prog' p) = prog.proc p := by
  have hmem : prog.proc p ∈ prog'.procs :=
    Array.mem_toList_iff.mp (hperm.mem_iff.mpr (Array.mem_toList_iff.mpr (proc_mem hp)))
  obtain ⟨g, hg, hget⟩ := Array.getElem_of_mem hmem
  have hids : (g : Int) ∈ prog'.procIds := by
    rw [procIds, mem_positions]
    omega
  have hproc : prog'.proc g = prog.proc p := by simpa [proc, hg] using hget
  have hlook : prog'.lookup? (prog.proc p).name = some g :=
    (lookup?_eq_some_iff hnames').mpr ⟨hids, by rw [hproc]⟩
  have hmoved : movedTo prog prog' p = g := by
    rw [movedTo, if_pos hp, hlook]
    rfl
  rw [hmoved]
  exact ⟨hids, hproc⟩

/-- A program that is reordered has as many procedures as before. -/
theorem procIds_eq
    (hperm : prog'.procs.toList.Perm prog.procs.toList) :
    prog'.procIds = prog.procIds := by
  rw [procIds, procIds]
  congr 1
  simpa using hperm.length_eq

/-- Moving there and back leads to where a procedure was. -/
theorem movedTo_movedTo
    (hnames : prog.names.Nodup)
    (hnames' : prog'.names.Nodup)
    (hperm : prog'.procs.toList.Perm prog.procs.toList)
    (p : Int) :
    movedTo prog' prog (movedTo prog prog' p) = p := by
  by_cases hp : p ∈ prog.procIds
  · obtain ⟨hids, hproc⟩ := movedTo_spec hnames' hperm hp
    obtain ⟨g, rfl⟩ := Int.eq_ofNat_of_zero_le (mem_positions.mp hp).1
    have hlook : prog.lookup? (prog.proc g).name = some g :=
      (lookup?_eq_some_iff hnames).mpr ⟨hp, rfl⟩
    rw [movedTo, if_pos hids, hproc, hlook]
    rfl
  · have hp' : p ∉ prog'.procIds := by
      rw [procIds_eq hperm]
      exact hp
    rw [movedTo, movedTo, if_neg hp, if_neg hp']

/-- The same procedures in another order are related by their names. -/
theorem exists_rearranged
    (hnames : prog.names.Nodup)
    (hprog : prog.Finalized)
    (hprog' : prog'.Finalized)
    (hperm : prog'.procs.toList.Perm prog.procs.toList)
    (hsubtypes : prog'.subtypes = prog.subtypes) :
    ∃ σ : Int ≃ Int, prog.Rearranged prog' σ := by
  have hnames' : prog'.names.Nodup := (hperm.map Procedure.name).nodup_iff.mpr hnames
  let σ : Int ≃ Int :=
    ⟨movedTo prog prog', movedTo prog' prog, movedTo_movedTo hnames hnames' hperm,
      movedTo_movedTo hnames' hnames hperm.symm⟩
  have hmem : ∀ p, σ p ∈ prog'.procIds ↔ p ∈ prog.procIds := by
    intro p
    constructor
    · intro hp
      have hback := (movedTo_spec hnames hperm.symm hp).1
      rw [← σ.symm_apply_apply p]
      exact hback
    · intro hp
      exact (movedTo_spec hnames' hperm hp).1
  have hproc : ∀ p, prog'.proc (σ p) = prog.proc p := by
    intro p
    by_cases hp : p ∈ prog.procIds
    · exact (movedTo_spec hnames' hperm hp).2
    · rw [proc_eq_empty hp, proc_eq_empty fun hp' => hp ((hmem p).mp hp')]
  refine ⟨σ, hprog, hprog', hproc, hmem, ?_, hsubtypes⟩
  intro name g g' hσ
  rw [lookup?_eq_some_iff hnames, lookup?_eq_some_iff hnames', hσ, hproc, hmem]

/-- The program with its procedures in another order, checked again. -/
def reordered (prog : Program) (procs : Array Procedure) : Program :=
  ({ prog with procs } : Program).finalize.1

/-- A reordered program passes the check if the program does. -/
theorem Finalized.reordered
    {procs : Array Procedure}
    (hprog : prog.Finalized)
    (hperm : procs.toList.Perm prog.procs.toList) :
    (prog.reordered procs).Finalized := by
  refine finalized_of_sound ?_ rfl
  rw [flaw?, List.findSome?_eq_none_iff]
  intro f hf
  exact hprog.flaw?_eq_none (Array.mem_toList_iff.mp (hperm.mem_iff.mp hf))

end Positions

end Program

end DefUse
