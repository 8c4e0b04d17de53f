import DefUse.Proofs.Path.Sets

/-!
# Conservation of paths

A path that goes through a node comes to it in one way and leaves it in one way.  It leaves by an
edge, by a back edge or by a call, both of which end it, or, at the entry, by going to the target
of a back edge; and it comes by an edge, or from the entry to the target of a back edge.

**Method.** Every edge of the acyclic graph stands for one way, and a path has one edge out of a
node and one into it.  So the numbers of the paths through a node are divided by the ways of those
edges.

**Results.** `numbering_conserves_paths`: the sets of the ways out of a node are a partition of the
set of the paths through it, and so are those of the ways into it.
-/

namespace DefUse

/-- Sets without common members whose union is the whole. -/
structure Bits.Partition (parts : List Bits) (whole : Bits) : Prop where
  apart : parts.Pairwise fun a b => (a.inter b).toList = []
  union : parts.foldl Bits.union (.empty whole.length) = whole

theorem Bits.partition_of_test
    {parts : List Bits} {whole : Bits}
    (hlength : ∀ b ∈ parts, b.length = whole.length)
    (htest : ∀ i, whole.test i = true ↔ ∃ b ∈ parts, b.test i = true)
    (hapart : parts.Pairwise fun a b => ∀ i, a.test i = true → b.test i = false) :
    Partition parts whole := by
  have hunion : ∀ (parts : List Bits) (acc : Bits), acc.length = whole.length →
      (∀ b ∈ parts, b.length = whole.length) →
      (parts.foldl Bits.union acc).length = whole.length ∧
      ∀ i, (parts.foldl Bits.union acc).test i = true ↔
        acc.test i = true ∨ ∃ b ∈ parts, b.test i = true := by
    intro parts
    induction parts with
    | nil =>
        intro acc hacc _
        exact ⟨hacc, by simp⟩
    | cons b rest ih =>
        intro acc hacc hparts
        obtain ⟨hb, hrest⟩ := List.forall_mem_cons.mp hparts
        obtain ⟨hlen, hmem⟩ := ih (acc.union b) (by rw [length_union, hacc, hb, max_self]) hrest
        refine ⟨hlen, fun i => ?_⟩
        rw [List.foldl_cons, hmem, test_union, Bool.or_eq_true, or_assoc]
        simp only [List.mem_cons, exists_eq_or_imp]
  obtain ⟨hlen, hmem⟩ := hunion parts (.empty whole.length) rfl hlength
  refine ⟨hapart.imp fun {a b} hab => ?_, ext_test hlen fun i => Bool.eq_iff_iff.mpr ?_⟩
  · refine List.eq_nil_iff_forall_not_mem.mpr fun i hi => ?_
    rw [mem_toList, test_inter, Bool.and_eq_true] at hi
    exact Bool.false_ne_true ((hab i hi.1).symm.trans hi.2)
  · rw [hmem, htest, test_empty]
    simp

namespace Numbering

/-- A way for a path to leave a node or to come to one. -/
inductive Way where
  /-- It takes an edge of the procedure; if that is a back edge, it ends there. -/
  | edge (e : Edge)
  /-- It ends in a call at a node. -/
  | call (v : Int)
  /-- It starts at the target of a back edge. -/
  | restart (e : Edge)
  deriving DecidableEq

/-- The paths that go a way. -/
def pathsBy (nb : Numbering) : Way → Bits
  | .edge e => nb.pathsOf e
  | .call v => (item? nb.callPaths v).getD (.empty nb.size)
  | .restart e => ((nb.connection? e).map Connection.outgoing).getD (.empty nb.size)

/-- The paths through a node. -/
def pathsAt (nb : Numbering) (v : Int) : Bits := (item? nb.nodePaths v).getD (.empty nb.size)

/-- The ways out of a node: its edges, its calls and, at the entry, all targets of back edges. -/
def waysOut (nb : Numbering) (v : Int) : List Way :=
  ((nb.proc.node v).succs.map fun s => .edge ⟨v, s⟩) ++ .call v ::
    (if v = entryId then nb.backEdges.map .restart else [])

/-- The ways into a node: the edges to it but the back edges, and the back edges to it as starts of
paths. -/
def waysIn (nb : Numbering) (v : Int) : List Way :=
  ((flowEdges nb.proc).filter fun e => e.target = v && !nb.isBackEdge e).map .edge ++
    (nb.backEdges.filter (·.target = v)).map .restart

variable {f : Procedure} {nb : Numbering} {bound : Int64} {order : List Int} {v : Int}
  {x y : PathEdge} {path : List PathEdge}

/-- The edge of the acyclic graph goes a way. -/
def Way.Taken (f : Procedure) : Way → PathEdge → Prop
  | .edge e, x => Numbers.Takes f e x
  | .call v, x => isCallExit v x = true
  | .restart e, x => ∃ i : Nat, f.backEdges[i]? = some e ∧ isLoopEntry i x = true

section Ways

variable {w w' : Way} {e : Edge}

theorem takes_kind
    (h : Numbers.Takes f e x) :
    x.kind = .real ∨ x.kind = .loopExit := by
  rcases h with h | ⟨i, -, h⟩
  · exact Or.inl (isReal_iff.mp h).1
  · exact Or.inr (isLoopExit_iff.mp h).1

/-- An edge goes one way. -/
theorem Way.Taken.unique
    (h : w.Taken f x)
    (h' : w'.Taken f x) :
    w = w' := by
  have hedge : ∀ {e}, (Way.edge e).Taken f x → x.kind = .real ∨ x.kind = .loopExit :=
    fun h => takes_kind h
  have hcall : ∀ {v}, (Way.call v).Taken f x → x.kind = .callExit :=
    fun h => (isCallExit_iff.mp h).1
  have hrestart : ∀ {e}, (Way.restart e).Taken f x → x.kind = .loopEntry := by
    rintro e ⟨i, -, h⟩
    exact (isLoopEntry_iff.mp h).1
  have hkinds : PathEdgeKind.callExit ≠ .real ∧ PathEdgeKind.callExit ≠ .loopExit ∧
      PathEdgeKind.loopEntry ≠ .real ∧ PathEdgeKind.loopEntry ≠ .loopExit ∧
      PathEdgeKind.loopEntry ≠ .callExit := by decide
  cases w with
  | edge e =>
      cases w' with
      | edge e' => rw [Numbers.Takes.unique h h']
      | call v => simpa [hcall h', hkinds] using hedge h
      | restart e' => simpa [hrestart h', hkinds] using hedge h
  | call v =>
      cases w' with
      | edge e => simpa [hcall h, hkinds] using hedge h'
      | call v' => rw [← (isCallExit_iff.mp h).2, ← (isCallExit_iff.mp h').2]
      | restart e => simpa [hrestart h', hkinds] using hcall h
  | restart e =>
      cases w' with
      | edge e' => simpa [hrestart h, hkinds] using hedge h'
      | call v => simpa [hrestart h, hkinds] using hcall h'
      | restart e' =>
          obtain ⟨i, hi, hx⟩ := h
          obtain ⟨j, hj, hx'⟩ := h'
          obtain rfl : i = j :=
            Int.ofNat.inj ((isLoopEntry_iff.mp hx).2.symm.trans (isLoopEntry_iff.mp hx').2)
          rw [Option.some.inj (hi.symm.trans hj)]

/-- The edges out of a node go the ways out of it. -/
theorem source_eq_iff
    (hproc : nb.proc = f)
    (hback : nb.backEdges = f.backEdges)
    (hx : f.IsPathEdge x) :
    x.source = v ↔ ∃ w ∈ nb.waysOut v, w.Taken f x := by
  simp only [waysOut, hproc, hback, List.mem_append, List.mem_map, List.mem_cons,
    List.mem_ite_nil_right]
  constructor
  · rintro rfl
    cases hx with
    | @real v s hreach hs hnot =>
        exact ⟨.edge ⟨v, s⟩, Or.inl ⟨s, hs, rfl⟩, Or.inl (isReal_iff.mpr ⟨rfl, rfl, rfl⟩)⟩
    | @loopEntry i b hb =>
        exact ⟨.restart b, Or.inr (Or.inr ⟨rfl, b, List.mem_of_getElem? hb, rfl⟩), i, hb,
          isLoopEntry_iff.mpr ⟨rfl, rfl⟩⟩
    | @loopExit i b hb =>
        have hsucc := (Procedure.mem_backEdges (List.mem_of_getElem? hb)).2
        exact ⟨.edge b, Or.inl ⟨b.target, hsucc, rfl⟩,
          Or.inr ⟨i, hb, isLoopExit_iff.mpr ⟨rfl, rfl⟩⟩⟩
    | @callExit v i c hreach hc =>
        exact ⟨.call v, Or.inr (Or.inl rfl), isCallExit_iff.mpr ⟨rfl, rfl⟩⟩
  · rintro ⟨w, ⟨s, -, rfl⟩ | rfl | ⟨rfl, b, -, rfl⟩, htaken⟩
    · exact (Numbers.Takes.source_eq hx htaken).1
    · exact (isCallExit_iff.mp htaken).2
    · obtain ⟨i, -, hentry⟩ := htaken
      obtain ⟨_, _, -, -, hsource, -⟩ := hx.of_loopEntry (isLoopEntry_iff.mp hentry).1
      exact hsource

/-- The edges into a node other than the exit go the ways into it. -/
theorem target_eq_iff
    (hf : f.Simple)
    (hproc : nb.proc = f)
    (hback : nb.backEdges = f.backEdges)
    (hv : v ≠ exitId)
    (hx : f.IsPathEdge x) :
    x.target = v ↔ ∃ w ∈ nb.waysIn v, w.Taken f x := by
  simp only [waysIn, isBackEdge, hproc, hback, List.mem_append, List.mem_map, List.mem_filter,
    mem_flowEdges_iff, Bool.and_eq_true, decide_eq_true_eq, Bool.not_eq_true',
    decide_eq_false_iff_not]
  constructor
  · rintro rfl
    have hmem := hf.source_mem hx
    cases hx with
    | @real v s hreach hs hnot =>
        exact ⟨.edge ⟨v, s⟩, Or.inl ⟨⟨v, s⟩, ⟨⟨hmem, hs⟩, rfl, hnot⟩, rfl⟩,
          Or.inl (isReal_iff.mpr ⟨rfl, rfl, rfl⟩)⟩
    | @loopEntry i b hb =>
        exact ⟨.restart b, Or.inr ⟨b, ⟨List.mem_of_getElem? hb, rfl⟩, rfl⟩, i, hb,
          isLoopEntry_iff.mpr ⟨rfl, rfl⟩⟩
    | loopExit hb => exact absurd rfl hv
    | callExit hreach hc => exact absurd rfl hv
  · rintro ⟨w, ⟨e, ⟨-, rfl, hnot⟩, rfl⟩ | ⟨b, ⟨-, rfl⟩, rfl⟩, htaken⟩
    · rcases htaken with hreal | ⟨i, hi, -⟩
      · exact (isReal_iff.mp hreal).2.2
      · exact absurd (List.mem_of_getElem? hi) hnot
    · obtain ⟨i, hi, hentry⟩ := htaken
      obtain ⟨hkind, hindex⟩ := isLoopEntry_iff.mp hentry
      obtain ⟨j, b', hb', hj, -, htarget⟩ := hx.of_loopEntry hkind
      obtain rfl : i = j := Int.ofNat.inj (hindex.symm.trans hj)
      rw [htarget, Option.some.inj (hi.symm.trans hb')]

/-- No way out of a node is listed twice. -/
theorem waysOut_nodup
    (hf : f.Simple)
    (hproc : nb.proc = f)
    (hback : nb.backEdges = f.backEdges) :
    (nb.waysOut v).Nodup := by
  have hrestarts : (if v = entryId then nb.backEdges.map Way.restart else []).Nodup := by
    split
    · rw [hback]
      exact hf.backEdges_nodup.map fun a b h => Way.restart.inj h
    · exact List.nodup_nil
  have hedges : ((nb.proc.node v).succs.map fun s => Way.edge ⟨v, s⟩).Nodup := by
    rw [hproc]
    exact (hf.nodup v).map fun a b h => (Edge.mk.inj (Way.edge.inj h)).2
  refine hedges.append (List.nodup_cons.mpr ⟨?_, hrestarts⟩) ?_
  · simp
  · rw [List.disjoint_left]
    intro w hw
    obtain ⟨s, -, rfl⟩ := List.mem_map.mp hw
    simp

theorem flowEdges_nodup
    (hf : f.Simple) :
    (flowEdges f).Nodup := by
  refine List.nodup_flatMap.mpr ⟨fun v _ => ?_, ?_⟩
  · exact (hf.nodup v).map fun a b h => (Edge.mk.inj h).2
  · refine (positions_nodup _).imp fun {u v} huv => List.disjoint_left.mpr fun e hu hv => ?_
    obtain ⟨s, -, rfl⟩ := List.mem_map.mp hu
    obtain ⟨t, -, heq⟩ := List.mem_map.mp hv
    exact huv (Edge.mk.inj heq).1.symm

/-- No way into a node is listed twice. -/
theorem waysIn_nodup
    (hf : f.Simple)
    (hproc : nb.proc = f)
    (hback : nb.backEdges = f.backEdges) :
    (nb.waysIn v).Nodup := by
  unfold waysIn
  rw [hproc, hback]
  refine List.Nodup.append ?_ ?_ ?_
  · exact ((flowEdges_nodup hf).filter _).map fun a b h => Way.edge.inj h
  · exact (hf.backEdges_nodup.filter _).map fun a b h => Way.restart.inj h
  · rw [List.disjoint_left]
    intro w hw
    obtain ⟨e, -, rfl⟩ := List.mem_map.mp hw
    simp

end Ways

namespace Numbers

variable {id : Nat} {e : Edge}

theorem pathsBy_restart
    (h : Numbers f bound order nb)
    (hf : f.Simple)
    {i : Nat}
    (hi : f.backEdges[i]? = some e) :
    nb.pathsBy (.restart e) = nb.numbersWith (isLoopEntry i) := by
  have hc := (h.connection?_eq_some_iff hf).mpr ⟨i, hi, rfl⟩
  rw [pathsBy, hc, Option.map_some, Option.getD_some]
  rfl

theorem pathsBy_restart_of_notMem
    (h : Numbers f bound order nb)
    (hf : f.Simple)
    (he : e ∉ f.backEdges) :
    nb.pathsBy (.restart e) = .empty nb.size := by
  rw [pathsBy, (h.connection?_eq_none_iff hf).mpr he, Option.map_none, Option.getD_none]

/-- The paths of a way are those with an edge that goes it. -/
theorem test_pathsBy_iff
    (h : Numbers f bound order nb)
    (hf : f.Simple)
    (w : Way) :
    (nb.pathsBy w).test id = true ↔
      ∃ path, nb.HasPath id path ∧ ∃ x ∈ path, w.Taken f x := by
  cases w with
  | edge e => exact h.test_pathsOf_iff hf
  | call v =>
      rw [pathsBy, h.item?_callPaths]
      split
      · exact test_numbersWith_iff
      · rename_i hout
        rw [Bits.test_empty]
        refine iff_of_false Bool.false_ne_true ?_
        rintro ⟨path, hpath, x, hx, hcall⟩
        apply hout
        rw [← (isCallExit_iff.mp hcall).2]
        exact hf.source_mem ((h.isPath hf hpath).isPathEdge hx)
  | restart e =>
      by_cases he : e ∈ f.backEdges
      · obtain ⟨i, hi⟩ := List.mem_iff_getElem?.mp he
        have hentry : ∀ x, isLoopEntry i x = true ↔ (Way.restart e).Taken f x := by
          intro x
          refine ⟨fun hx => ⟨i, hi, hx⟩, ?_⟩
          rintro ⟨j, hj, hx⟩
          rwa [hf.backEdge_index_unique hi hj]
        simp only [← hentry]
        rw [h.pathsBy_restart hf hi]
        exact test_numbersWith_iff
      · rw [h.pathsBy_restart_of_notMem hf he, Bits.test_empty]
        refine iff_of_false Bool.false_ne_true ?_
        rintro ⟨path, -, x, -, i, hi, -⟩
        exact he (List.mem_of_getElem? hi)

theorem length_pathsBy
    (h : Numbers f bound order nb)
    (hf : f.Simple)
    (w : Way) :
    (nb.pathsBy w).length = nb.size := by
  cases w with
  | edge e => exact h.length_pathsOf e
  | call v =>
      rw [pathsBy, h.item?_callPaths]
      split
      · exact length_numbersWith _ _
      · rfl
  | restart e =>
      by_cases he : e ∈ f.backEdges
      · obtain ⟨i, hi⟩ := List.mem_iff_getElem?.mp he
        rw [h.pathsBy_restart hf hi]
        exact length_numbersWith _ _
      · rw [h.pathsBy_restart_of_notMem hf he]
        rfl

theorem length_pathsAt
    (h : Numbers f bound order nb)
    (v : Int) :
    (nb.pathsAt v).length = nb.size := by
  rw [pathsAt, h.item?_nodePaths]
  split
  · exact length_numbersWith _ _
  · rfl

/-- If a path has at most one edge with a property, the ways that such edges go divide the paths
with one. -/
theorem partition_pathsBy
    (h : Numbers f bound order nb)
    (hf : f.Simple)
    {ways : List Way} {At : PathEdge → Prop} {whole : Bits}
    (hnodup : ways.Nodup)
    (hways : ∀ x, f.IsPathEdge x → (At x ↔ ∃ w ∈ ways, w.Taken f x))
    (honce : ∀ path x y, f.IsPath path → x ∈ path → y ∈ path → At x → At y → x = y)
    (hlength : whole.length = nb.size)
    (hwhole : ∀ id, whole.test id = true ↔ ∃ path, nb.HasPath id path ∧ ∃ x ∈ path, At x) :
    Bits.Partition (ways.map nb.pathsBy) whole := by
  refine Bits.partition_of_test ?_ ?_ ?_
  · intro b hb
    obtain ⟨w, -, rfl⟩ := List.mem_map.mp hb
    rw [h.length_pathsBy hf, hlength]
  · intro id
    simp only [hwhole, List.mem_map, exists_exists_and_eq_and, h.test_pathsBy_iff hf]
    constructor
    · rintro ⟨path, hpath, x, hx, hat⟩
      obtain ⟨w, hw, htaken⟩ := (hways x ((h.isPath hf hpath).isPathEdge hx)).mp hat
      exact ⟨w, hw, path, hpath, x, hx, htaken⟩
    · rintro ⟨w, hw, path, hpath, x, hx, htaken⟩
      have hat := (hways x ((h.isPath hf hpath).isPathEdge hx)).mpr ⟨w, hw, htaken⟩
      exact ⟨path, hpath, x, hx, hat⟩
  · refine List.pairwise_map.mpr (hnodup.imp_of_mem fun {w w'} hw hw' hne id hid => ?_)
    refine Bool.eq_false_iff.mpr fun hid' => hne ?_
    obtain ⟨path, hpath, x, hx, htaken⟩ := (h.test_pathsBy_iff hf w).mp hid
    obtain ⟨path', hpath', y, hy, htaken'⟩ := (h.test_pathsBy_iff hf w').mp hid'
    obtain rfl := hpath.unique hpath'
    have hispath := h.isPath hf hpath
    have hx' := (hways x (hispath.isPathEdge hx)).mpr ⟨w, hw, htaken⟩
    have hy' := (hways y (hispath.isPathEdge hy)).mpr ⟨w', hw', htaken'⟩
    obtain rfl := honce path x y hispath hx hy hx' hy'
    exact htaken.unique htaken'

section Nodes

/-- A path goes through a node other than the exit exactly if it leaves the node. -/
theorem test_pathsAt_iff_source
    (h : Numbers f bound order nb)
    (hf : f.Simple)
    (hv : v ≠ exitId) :
    (nb.pathsAt v).test id = true ↔
      ∃ path, nb.HasPath id path ∧ ∃ x ∈ path, x.source = v := by
  rw [pathsAt, h.test_nodePaths_iff hf]
  refine exists_congr fun path => and_congr_right fun _ => ⟨?_, ?_⟩
  · rintro ⟨rest, hrest, rfl⟩
    cases rest with
    | nil => exact absurd rfl hv
    | cons x rest => exact ⟨x, hrest.subset List.mem_cons_self, rfl⟩
  · rintro ⟨x, hx, rfl⟩
    obtain ⟨front, rest, rfl⟩ := List.append_of_mem hx
    exact ⟨x :: rest, ⟨front, rfl⟩, rfl⟩

/-- A path goes through a node other than the entry exactly if it comes to the node. -/
theorem test_pathsAt_iff_target
    (h : Numbers f bound order nb)
    (hv : v ∈ f.ids)
    (hentry : v ≠ entryId) :
    (nb.pathsAt v).test id = true ↔
      ∃ path, nb.HasPath id path ∧ ∃ x ∈ path, x.target = v := by
  rw [pathsAt, h.item?_nodePaths, if_pos hv, test_numbersWith_iff]
  simp [hentry]

end Nodes

/-- The paths that end by a back edge are the paths of the back edge. -/
theorem incoming_eq_pathsOf
    (h : Numbers f bound order nb)
    (hf : f.Simple)
    {c : Connection}
    (hc : nb.connection? e = some c) :
    c.incoming = nb.pathsOf e := by
  obtain ⟨i, hi, rfl⟩ := (h.connection?_eq_some_iff hf).mp hc
  refine Bits.ext_test ?_ fun id => Bool.eq_iff_iff.mpr ?_
  · rw [h.length_pathsOf]
    exact length_numbersWith _ _
  · rw [h.test_pathsOf_iff hf]
    refine test_numbersWith_iff.trans (exists_congr fun path => and_congr_right fun hpath =>
      exists_congr fun x => and_congr_right fun hx => ⟨fun hexit => Or.inr ⟨i, hi, hexit⟩, ?_⟩)
    rintro (hreal | ⟨j, hj, hexit⟩)
    · -- a back edge is no edge of the acyclic graph
      obtain ⟨hkind, hsource, htarget⟩ := isReal_iff.mp hreal
      have hnot := (((h.isPath hf hpath).isPathEdge hx).of_real hkind).2
      rw [hsource, htarget] at hnot
      exact absurd (List.mem_of_getElem? hi) hnot
    · rwa [hf.backEdge_index_unique hi hj]

end Numbers
end Numbering

open DefUse.Numbering

/-- Whatever the exact sort and the bound, the paths through a node other than the exit are divided
by the ways out of it, and, if it is not the entry either, by the ways into it.  The paths that end
at the connection point of a back edge are the paths of the back edge. -/
theorem numbering_conserves_paths
    (sort : TopologicalSort) (prog : Program) (p : Int) (bound : Int64) (nb : Numbering)
    (hsort : sort.IsExact)
    (hbuilt : prog.Built)
    (hprog : prog.Finalized)
    (hp : p ∈ prog.procIds)
    (hrun : ofProcedure sort (prog.proc p) bound = .ok nb) :
    (∀ v ∈ (prog.proc p).ids, v ≠ exitId →
      Bits.Partition ((nb.waysOut v).map nb.pathsBy) (nb.pathsAt v)) ∧
    (∀ v ∈ (prog.proc p).ids, v ≠ entryId → v ≠ exitId →
      Bits.Partition ((nb.waysIn v).map nb.pathsBy) (nb.pathsAt v)) ∧
    ∀ e ∈ nb.backEdges, ∃ c, nb.connection? e = some c ∧ c.incoming = nb.pathsOf e := by
  have hf := Procedure.Simple.of_built hbuilt hprog hp
  obtain ⟨order, h⟩ := numbers_of_eq_ok hsort hf hrun
  refine ⟨?_, ?_, ?_⟩
  · intro v _ hexit
    refine h.partition_pathsBy hf (waysOut_nodup hf h.proc h.backEdges)
      (fun x hx => source_eq_iff h.proc h.backEdges hx) ?_ (h.length_pathsAt v)
      fun id => h.test_pathsAt_iff_source hf hexit
    intro path x y hpath hx hy hat hat'
    exact (hf.ranks h.sorted).eq_of_source_eq hpath hx hy (hat.trans hat'.symm)
  · intro v hv hentry hexit
    refine h.partition_pathsBy hf (waysIn_nodup hf h.proc h.backEdges)
      (fun x hx => target_eq_iff hf h.proc h.backEdges hexit hx) ?_ (h.length_pathsAt v)
      fun id => h.test_pathsAt_iff_target hv hentry
    intro path x y hpath hx hy hat hat'
    exact (hf.ranks h.sorted).eq_of_target_eq hpath hx hy (hat.trans hat'.symm)
  · intro e he
    rw [h.backEdges] at he
    cases hc : nb.connection? e with
    | none => exact absurd he ((h.connection?_eq_none_iff hf).mp hc)
    | some c => exact ⟨c, rfl, h.incoming_eq_pathsOf hf hc⟩

/-- The paths of a loop come to the node at its head from the entry or by the back edge. -/
theorem numbering_conserves_paths_retry :
    TopologicalSort.IsExact Digraph.topologicalOrder? ∧
      retry.Built ∧ retry.Finalized ∧ 0 ∈ retry.procIds ∧
      ∃ nb, ofProcedure Digraph.topologicalOrder? (retry.proc 0) 100 = .ok nb ∧
        nb.waysIn 2 = [.edge ⟨0, 2⟩, .restart ⟨3, 2⟩] ∧
        Bits.Partition [nb.pathsOf ⟨0, 2⟩, nb.pathsBy (.restart ⟨3, 2⟩)] (nb.pathsAt 2) := by
  have hbuilt : retry.Built := ⟨retrySteps, by decide +kernel⟩
  have hprog : retry.Finalized := by decide +kernel
  have hp : 0 ∈ retry.procIds := by decide +kernel
  have hways :
      (ofProcedure Digraph.topologicalOrder? (retry.proc 0) 100).map (fun nb => nb.waysIn 2) =
        .ok [.edge ⟨0, 2⟩, .restart ⟨3, 2⟩] := by
    decide +kernel
  obtain ⟨nb, hrun, hin⟩ := eq_ok_of_map_eq_ok hways
  obtain ⟨-, hinto, -⟩ := numbering_conserves_paths Digraph.topologicalOrder? retry 0 100 nb
    isExact_topologicalOrder? hbuilt hprog hp hrun
  have hpart := hinto 2 (by decide +kernel) (by decide) (by decide)
  rw [hin] at hpart
  exact ⟨isExact_topologicalOrder?, hbuilt, hprog, hp, nb, hrun, hin, hpart⟩

end DefUse
