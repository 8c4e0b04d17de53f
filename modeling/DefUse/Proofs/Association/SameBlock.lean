import DefUse.Proofs.Association.Kills

/-!
# Pairs inside basic blocks and associations

Two stages decide whether a definition reaches a use of its basic block: the scan of the block,
which asks at each node for the uses first and stops at a node that may write the location, and
the equations of the local flow, in which a branch carries its uses on its edges, behind the writes
of the node.

**Method.** The nodes of a block follow each other along single edges, and none of them but the
first is the entry.  The way from a definition to a use through its block is therefore a walk that
brings the value, unless the last node has to be passed and writes the variable.

**Results.**
* `straightTo_of_mem_sameBlockPairs`: a pair inside a block is joined by a straight way.
* `sameBlock_associated_iff`: a pair of a block that ends in a use of its node is associated, unless
  the use is on a branch whose node writes the variable.
* `sameBlock_not_associated`: a branch on a variable that its own node writes.
-/

namespace DefUse

theorem Variable.mayEqual_self
    (v : Variable) :
    v.mayEqual v = true := by
  unfold mayEqual
  simp only [ne_eq, not_true_eq_false, if_false, decide_true, Bool.true_or, Bool.and_self, ite_self]

/-- What may be the same location as a local variable is a local variable, and the same one unless
they are marked differently. -/
theorem Variable.mayEqual_of_isLocal
    {v w : Variable}
    (h : v.mayEqual w = true)
    (hw : w.isLocal = true) :
    v.isLocal = true ∧ (v.exactType = w.exactType → v = w) := by
  have hkind : w.kind = .localVar := of_decide_eq_true hw
  unfold mayEqual at h
  split at h
  · exact absurd h Bool.false_ne_true
  · rename_i hsame
    rw [ne_eq, not_not] at hsame
    rw [hsame, hkind, if_neg (by decide), if_neg (by decide), Bool.and_eq_true, decide_eq_true_eq,
      decide_eq_true_eq] at h
    refine ⟨decide_eq_true (hsame.trans hkind), ?_⟩
    intro hexact
    cases v
    cases w
    simp_all

namespace Procedure

variable {f : Procedure} {i : Int} {site : Point} {u : Use}

/-- The only edge of the first node leads to the second one, which leads no block. -/
def StraightEdge (f : Procedure) (a b : Int) : Prop :=
  (f.node a).succs = [b] ∧ f.isLeader b = false

theorem runAfter_isChain
    (f : Procedure) (steps : Nat) (i : Int) :
    (i :: f.runAfter steps i).IsChain f.StraightEdge := by
  induction steps generalizing i with
  | zero => exact List.isChain_singleton i
  | succ steps ih =>
      unfold runAfter
      split
      · rename_i s hs
        split
        · exact List.isChain_singleton i
        · rename_i hleader
          rw [Bool.not_eq_true] at hleader
          exact List.isChain_cons_cons.mpr ⟨⟨hs, hleader⟩, ih s⟩
      · exact List.isChain_singleton i

theorem ne_entry_of_not_leader
    (h : f.isLeader i = false) :
    i ≠ entryId := by
  rintro rfl
  simp [isLeader] at h

theorem StraightEdge.isWalk
    {walk : List Int}
    (h : walk.IsChain f.StraightEdge) :
    f.graph.IsWalk walk := by
  refine h.imp ?_
  intro a b hab
  rw [graph_succs, hab.1]
  exact List.mem_singleton.mpr rfl

/-- No node of a straight way but the first one is the entry. -/
theorem StraightEdge.ne_entry
    {a x : Int} {rest : List Int}
    (h : (a :: rest).IsChain f.StraightEdge)
    (hx : x ∈ rest) :
    x ≠ entryId := by
  induction rest generalizing a with
  | nil => exact absurd hx List.not_mem_nil
  | cons b rest ih =>
      obtain ⟨hedge, htail⟩ := List.isChain_cons_cons.mp h
      rcases List.mem_cons.mp hx with rfl | hx
      · exact ne_entry_of_not_leader hedge.2
      · exact ih htail hx

theorem usesWithArguments_site
    (h : u ∈ f.usesWithArguments site) :
    u.site = site := by
  rcases List.mem_append.mp h with h | h
  · exact Program.usesOf_site h
  · obtain ⟨v, -, rfl⟩ := List.mem_map.mp h
    rfl

/-- A use on a branch lies at a node with several successors, of which it is on one. -/
theorem branch_of_mem_usesOf
    (hu : u ∈ f.usesOf site)
    (hpred : u.isPredicate = true) :
    1 < (f.node site.node).succs.length ∧ u.succ ∈ (f.node site.node).succs := by
  unfold usesOf at hu
  obtain ⟨v, -, hu⟩ := List.mem_flatMap.mp hu
  split at hu
  · rename_i hbranch
    obtain ⟨s, hs, rfl⟩ := List.mem_map.mp hu
    rw [Node.isBranch, Bool.and_eq_true, decide_eq_true_eq] at hbranch
    exact ⟨hbranch.2, hs⟩
  · rw [List.mem_singleton] at hu
    rw [hu] at hpred
    exact absurd hpred Bool.false_ne_true

end Procedure

namespace Program

variable {prog : Program} {formalsAsDefs : Bool} {d : Def} {u : Use} {p : Int}

/-- A straight way inside a block leads from a definition to a use of a location that may be the
same, and no node between them may write the location. -/
structure StraightTo (prog : Program) (d : Def) (u : Use) (between : List Int) : Prop where
  proc : u.site.proc = d.site.proc
  straight : (d.site.node :: (between ++ [u.site.node])).IsChain
    (prog.proc d.site.proc).StraightEdge
  clear : ∀ x ∈ between, ((prog.proc d.site.proc).node x).defines d.var = false
  var : u.var.mayEqual d.var = true

/-- The scan of the nodes after a definition finds a use at one of them, behind nodes that do not
write the location. -/
theorem exists_split_of_mem_reachedInBlock
    {f : Procedure} {rest : List Int}
    (h : u ∈ reachedInBlock f d rest) :
    ∃ between back, rest = between ++ u.site.node :: back ∧
      (∀ x ∈ between, (f.node x).defines d.var = false) ∧
      u.site.proc = d.site.proc ∧ u.var.mayEqual d.var = true := by
  induction rest with
  | nil => exact absurd h List.not_mem_nil
  | cons i rest ih =>
      rw [reachedInBlock, List.mem_append, List.mem_filter] at h
      rcases h with ⟨huse, hvar⟩ | h
      · have hsite := Procedure.usesWithArguments_site huse
        refine ⟨[], rest, ?_, fun x hx => absurd hx List.not_mem_nil, ?_, hvar⟩
        · rw [hsite]
          rfl
        · rw [hsite]
      · split at h
        · exact absurd h List.not_mem_nil
        · rename_i hclear
          obtain ⟨between, back, rfl, hbetween, hfound⟩ := ih h
          refine ⟨i :: between, back, rfl, ?_, hfound⟩
          intro x hx
          rcases List.mem_cons.mp hx with rfl | hx
          · rwa [Bool.not_eq_true] at hclear
          · exact hbetween x hx

theorem straightTo_of_mem_blockPairs
    {block : List Int}
    (hstraight : block.IsChain (prog.proc p).StraightEdge)
    (h : (d, u) ∈ prog.blockPairs formalsAsDefs p block) :
    prog.IsDef formalsAsDefs d ∧ ∃ between, prog.StraightTo d u between := by
  induction block with
  | nil => exact absurd h List.not_mem_nil
  | cons i rest ih =>
      rw [blockPairs, List.mem_append] at h
      rcases h with h | h
      · simp only [List.mem_flatMap, List.mem_map, Prod.mk.injEq] at h
        obtain ⟨d', hd, u', hu, rfl, rfl⟩ := h
        obtain ⟨hsite, hdef⟩ := mem_defsAt_iff.mp hd
        obtain ⟨between, back, rfl, hclear, hproc, hvar⟩ :=
          exists_split_of_mem_reachedInBlock hu
        refine ⟨hdef, between, hproc, ?_, ?_, hvar⟩
        · rw [hsite]
          exact hstraight.prefix ⟨back, by simp⟩
        · rw [hsite]
          exact hclear
      · exact ih hstraight.tail h

/-- A pair inside a block is joined by a straight way. -/
theorem straightTo_of_mem_sameBlockPairs
    (h : (d, u) ∈ prog.sameBlockPairs formalsAsDefs) :
    prog.IsDef formalsAsDefs d ∧ ∃ between, prog.StraightTo d u between := by
  unfold sameBlockPairs Procedure.blocks at h
  simp only [List.mem_flatMap, List.mem_map] at h
  obtain ⟨p, -, block, ⟨i, -, rfl⟩, h⟩ := h
  exact straightTo_of_mem_blockPairs ((prog.proc p).runAfter_isChain _ i) h

/-- Only an entry writes variables that its node does not list. -/
theorem writes_iff_of_ne_entry
    {x : Int} {v : Variable}
    (hx : x ≠ entryId) :
    prog.Writes formalsAsDefs ⟨p, x⟩ v ↔ v ∈ ((prog.proc p).node x).defs := by
  constructor
  · rintro (hdef | ⟨-, hentry, -⟩)
    · exact hdef
    · exact absurd hentry hx
  · exact Or.inl

section Straight

variable {between : List Int}

theorem StraightTo.ne_entry
    (h : prog.StraightTo d u between) :
    u.site.node ≠ entryId :=
  Procedure.StraightEdge.ne_entry h.straight (by simp)

theorem StraightTo.not_writes
    (h : prog.StraightTo d u between)
    {x : Int}
    (hx : x ∈ between) :
    ¬ prog.Writes formalsAsDefs ⟨d.site.proc, x⟩ d.var := by
  have hentry : x ≠ entryId :=
    Procedure.StraightEdge.ne_entry h.straight (List.mem_append_left _ hx)
  rw [writes_iff_of_ne_entry hentry]
  intro hdef
  have hclear := h.clear x hx
  rw [Node.defines, List.any_eq_false] at hclear
  exact hclear d.var hdef d.var.mayEqual_self

/-- The way to a use in a computation ends at its node, the way to a use on a branch passes it. -/
theorem StraightTo.locallyReached
    (h : prog.StraightTo d u between)
    (hvar : u.var = d.var)
    (hplain : prog.IsPlainUse u)
    (hbranch : u.isPredicate = true → u.var ∉ (prog.node u.site).defs) :
    prog.LocallyReached formalsAsDefs d.site d.var u := by
  refine ⟨h.proc, hvar, Or.inl hplain, ?_⟩
  have hwalk := Procedure.StraightEdge.isWalk h.straight
  by_cases hpred : u.isPredicate = true
  · refine ⟨d.site.node :: ((between ++ [u.site.node]) ++ [u.succ]), ?_, rfl, by simp, ?_, ?_⟩
    · rw [← List.cons_append]
      refine List.isChain_append.mpr ⟨hwalk, List.isChain_singleton _, ?_⟩
      intro a ha b hb
      rw [← List.cons_append, List.getLast?_concat, Option.mem_some_iff] at ha
      rw [List.head?_cons, Option.mem_some_iff] at hb
      rw [← ha, ← hb, Procedure.graph_succs, ← h.proc]
      exact (Procedure.branch_of_mem_usesOf hplain.2 hpred).2
    · rw [Use.arrival, if_pos hpred]
      exact ⟨d.site.node :: between, by simp⟩
    · rw [Digraph.inside_cons_concat]
      intro x hx
      rcases List.mem_append.mp hx with hx | hx
      · exact h.not_writes hx
      · rw [List.mem_singleton.mp hx, writes_iff_of_ne_entry h.ne_entry, ← hvar, ← h.proc]
        exact hbranch hpred
  · refine ⟨d.site.node :: (between ++ [u.site.node]), hwalk, rfl, by simp, ?_, ?_⟩
    · rw [Use.arrival, if_neg hpred]
      exact ⟨d.site.node :: between, by simp⟩
    · rw [Digraph.inside_cons_concat]
      exact fun x hx => h.not_writes hx

/-- The definition of a straight way to a branch lies at another node: only one edge leaves it. -/
theorem StraightTo.site_ne
    (h : prog.StraightTo d u between)
    (hplain : prog.IsPlainUse u)
    (hpred : u.isPredicate = true) :
    d.site ≠ u.site := by
  intro hsame
  have hmany := (Procedure.branch_of_mem_usesOf hplain.2 hpred).1
  obtain ⟨b, rest, hrest⟩ := List.exists_cons_of_ne_nil
    (List.append_ne_nil_of_right_ne_nil between (List.cons_ne_nil u.site.node []))
  have hstraight := h.straight
  rw [hrest] at hstraight
  have hedge := (List.isChain_cons_cons.mp hstraight).1.1
  rw [← hsame, hedge] at hmany
  exact absurd hmany (by simp)

end Straight

/-- Nothing but a definition at the node itself reaches a branch on a variable that the node
writes, if the node is no entry. -/
theorem Chain.not_written
    {site : Point} {v : Variable}
    (h : prog.Chain formalsAsDefs site v u)
    (hpred : u.isPredicate = true)
    (hsite : site ≠ u.site)
    (hentry : u.site.node ≠ entryId) :
    u.var ∉ (prog.node u.site).defs := by
  induction h with
  | @last site v u hreached _ =>
      obtain ⟨walk, hwalk⟩ := hreached.walk
      obtain ⟨front, hfront⟩ := hwalk.arrives
      rw [Use.arrival, if_pos hpred] at hfront
      have hstarts := hwalk.starts
      -- the walk passes the node, because it starts at another one
      obtain ⟨a, middle, rfl⟩ : ∃ a middle, front = a :: middle := by
        refine List.exists_cons_of_ne_nil ?_
        rintro rfl
        rw [← hfront] at hstarts
        have hnode : u.site.node = site.node := Option.some.inj hstarts
        apply hsite
        calc site = ⟨site.proc, site.node⟩ := rfl
          _ = ⟨u.site.proc, u.site.node⟩ := by rw [hreached.proc, hnode]
          _ = u.site := rfl
      have hclear := hwalk.clear u.site.node
      rw [← hfront, List.cons_append, List.append_cons, Digraph.inside_cons_concat,
        writes_iff_of_ne_entry hentry, ← hreached.proc, ← hreached.var] at hclear
      exact hclear (by simp)
  | @pass site v param w u x _ _ _ _ _ ih =>
      refine ih hpred ?_ hentry
      intro hsame
      rw [← hsame] at hentry
      exact hentry rfl

/-- The value that a variable has after a point is passed to a formal from which a chain goes on to
a use. -/
def PassedOn (prog : Program) (formalsAsDefs : Bool) (site : Point) (v : Variable) (u : Use) :
    Prop :=
  ∃ w x param, prog.LocallyReached formalsAsDefs site v w ∧ prog.IsPassedTo formalsAsDefs w x ∧
    (prog.proc x.proc).params[x.index]? = some param ∧ param.isLocal = true ∧
      prog.Chain formalsAsDefs ⟨x.proc, entryId⟩ param u

theorem chain_iff_passedOn
    {site : Point} {v : Variable}
    (hvar : u.var ≠ v) :
    prog.Chain formalsAsDefs site v u ↔ prog.PassedOn formalsAsDefs site v u := by
  constructor
  · intro h
    cases h with
    | last hreached _ => exact absurd hreached.var hvar
    | pass hreached hpassed hparam hlocal hrest =>
        exact ⟨_, _, _, hreached, hpassed, hparam, hlocal, hrest⟩
  · rintro ⟨w, x, param, hreached, hpassed, hparam, hlocal, hrest⟩
    exact .pass hreached hpassed hparam hlocal hrest

end Program

/-- A definition of a local variable and a use of its node that share a basic block are associated,
unless the use is on a branch and its node writes the variable.  A use of a variable that differs
from the one defined by its mark of exactness only is associated if the value is passed on to it
through formals. -/
theorem sameBlock_associated_iff
    (prog : Program) (oracle : Oracle) (settings : Settings)
    (hprog : prog.Finalized) :
    ∃ set events, analyzeProgram prog oracle settings = .ok (set, events) ∧
      ∀ d u, d.var.isLocal = true → u ∈ set.sameBlockUses d →
        u ∈ (prog.proc u.site.proc).usesOf u.site →
        (u.var = d.var →
          ((∃ a ∈ set.items, a.definition = d ∧ a.use = u) ↔
            (u.isPredicate = true → u.var ∉ (prog.node u.site).defs))) ∧
        (u.var ≠ d.var →
          u.var.exactType ≠ d.var.exactType ∧
          ((∃ a ∈ set.items, a.definition = d ∧ a.use = u) ↔
            prog.PassedOn settings.formalsAsDefs d.site d.var u)) := by
  obtain ⟨events, hrun⟩ := @analyzeProgram_eq prog oracle settings hprog
  refine ⟨_, events, hrun, ?_⟩
  intro d u hlocal hshared huse
  simp only [AssociationSet.sameBlockUses, mem_sortDistinct, List.mem_map, List.mem_filter,
    decide_eq_true_eq] at hshared
  obtain ⟨⟨d, u⟩, ⟨hmem, rfl⟩, rfl⟩ := hshared
  obtain ⟨hdef, between, hway⟩ := Program.straightTo_of_mem_sameBlockPairs hmem
  obtain ⟨hread, hsame⟩ := Variable.mayEqual_of_isLocal hway.var hlocal
  have hplain : prog.IsPlainUse u := ⟨hread, huse⟩
  rw [associated_iff_chain hprog ⟨hlocal, hdef⟩]
  constructor
  · intro hvar
    constructor
    · intro hchain hpred
      exact hchain.not_written hpred (hway.site_ne hplain hpred) hway.ne_entry
    · intro hbranch
      exact .last (hway.locallyReached hvar hplain hbranch) (Or.inl hplain)
  · intro hvar
    exact ⟨fun hexact => hvar (hsame hexact), Program.chain_iff_passedOn hvar⟩

/-- A variable is set and read, and then read and updated by a branch. -/
def branchUpdate : Program where
  procs := #[
    { name := "f"
      nodes := #[
        { label := "entry", succs := [2] },
        { label := "exit", preds := [4, 5] },
        { label := "x = g()", defs := [.ofLocal "f" "x"], succs := [3], preds := [0] },
        { label := "h(x)", uses := [.ofLocal "f" "x"], succs := [4], preds := [2] },
        { label := "if x = g(x)", defs := [.ofLocal "f" "x"], uses := [.ofLocal "f" "x"],
          predicate := true, succs := [5, 1], preds := [3] },
        { label := "h()", succs := [1], preds := [4] }] }]
  callGraph := ⟨#[[]], #[[]]⟩

/-- The first definition of the variable. -/
def branchUpdateDef : Def := ⟨⟨0, 2⟩, .ofLocal "f" "x", false⟩

/-- The use of the variable on the branch that updates it. -/
def branchUpdateUse : Use := .branch ⟨0, 4⟩ 5 (.ofLocal "f" "x")

theorem branchUpdate_sameBlock :
    ((analyzeProgram branchUpdate .null {}).map fun r =>
      decide (r.1.sameBlockUses branchUpdateDef =
        [.computation ⟨0, 3⟩ (.ofLocal "f" "x"), .branch ⟨0, 4⟩ 1 (.ofLocal "f" "x"),
          branchUpdateUse])) = .ok true := by
  decide +kernel

/-- The computation that shares the block with the definition is associated with it, the branch is
not. -/
theorem sameBlock_associated_iff_branchUpdate :
    branchUpdate.Finalized ∧
      ∃ set events, analyzeProgram branchUpdate .null {} = .ok (set, events) ∧
        (∃ a ∈ set.items, a.definition = branchUpdateDef ∧
          a.use = .computation ⟨0, 3⟩ (.ofLocal "f" "x")) ∧
        ¬ ∃ a ∈ set.items, a.definition = branchUpdateDef ∧ a.use = branchUpdateUse := by
  have hprog : branchUpdate.Finalized := by decide +kernel
  refine ⟨hprog, ?_⟩
  obtain ⟨set, events, hrun, hiff⟩ := sameBlock_associated_iff branchUpdate .null {} hprog
  have hshared := branchUpdate_sameBlock
  rw [hrun] at hshared
  have huses := of_decide_eq_true (Except.ok.inj hshared)
  refine ⟨set, events, hrun, ?_, ?_⟩
  · refine ((hiff _ _ rfl (by rw [huses]; simp) (by decide)).1 rfl).mpr ?_
    exact fun hpred => absurd hpred Bool.false_ne_true
  · rw [(hiff _ _ rfl (by rw [huses]; simp) (by decide)).1 rfl]
    decide

/-- A branch that shares the block with a definition of its variable, but not the association. -/
theorem sameBlock_not_associated :
    ¬ ∃ set events, analyzeProgram branchUpdate .null {} = .ok (set, events) ∧
      ∀ d u, d.var.isLocal = true → u ∈ set.sameBlockUses d →
        u ∈ (branchUpdate.proc u.site.proc).usesOf u.site →
          ∃ a ∈ set.items, a.definition = d ∧ a.use = u := by
  rintro ⟨set, events, hrun, hall⟩
  have hshared := branchUpdate_sameBlock
  have hnone : ((analyzeProgram branchUpdate .null {}).map fun r => r.1.items.all fun a =>
      !(a.definition = branchUpdateDef && a.use = branchUpdateUse)) = .ok true := by
    decide +kernel
  rw [hrun] at hshared hnone
  have huses := of_decide_eq_true (Except.ok.inj hshared)
  obtain ⟨a, ha, hdef, huse⟩ :=
    hall branchUpdateDef branchUpdateUse rfl (by rw [huses]; simp) (by decide)
  have hclear := List.all_eq_true.mp (Except.ok.inj hnone) a ha
  simp [hdef, huse] at hclear

end DefUse
