import DefUse.Association.Block
import DefUse.Flow.Local
import DefUse.Proofs.Program.Finalized

/-!
# Reading and writing of local variables

What the nodes of a program say about its local variables, without any numbering: which points
write a variable, which uses read one, which arguments are passed through to formals, and which
walks bring the value of a variable from a point to a use.

**Results.**
* `delivers_cons_iff`: a walk that brings a value is a first edge and the rest.
* `mem_defsAt_iff`: the definitions at a point are those of the program.
* `mem_localDefs_iff`: the numbered definitions are the definitions of local variables.
* `mem_reads_iff`: the numbered reads are the uses and arguments with the formals they are passed
  to.
-/

namespace DefUse

/-- The last nodes of every walk that arrives at a use: its node, or the ends of its branch. -/
def Use.arrival (u : Use) : List Int :=
  if u.isPredicate then [u.site.node, u.succ] else [u.site.node]

/-- The edge arrives at the use: at its node, or through its branch. -/
def Use.ArrivesBy (u : Use) (a b : Int) : Prop :=
  if u.isPredicate then u.site.node = a ∧ u.succ = b else u.site.node = b

theorem Use.arrivesBy_iff
    {u : Use} {a b : Int} :
    u.ArrivesBy a b ↔ u.arrival <:+ [a, b] := by
  unfold ArrivesBy arrival
  split
  · constructor
    · rintro ⟨rfl, rfl⟩
      exact List.suffix_rfl
    · intro h
      simpa using h.eq_of_length rfl
  · constructor
    · rintro rfl
      exact List.suffix_cons a _
    · intro h
      have hlast := List.suffix_of_suffix_length_le h (List.suffix_cons a [b]) (by simp)
      simpa using hlast.eq_of_length rfl

namespace Program

/-- The point writes a variable; an entry also writes its formals if formals are definitions. -/
def Writes (prog : Program) (formalsAsDefs : Bool) (site : Point) (v : Variable) : Prop :=
  v ∈ (prog.node site).defs ∨
    formalsAsDefs = true ∧ site.node = entryId ∧
      v ∈ (prog.proc site.proc).params ∧ v.isZero = false

/-- A definition of a local variable: a node writes it, or it is a formal and formals are
definitions. -/
def IsLocalDef (prog : Program) (formalsAsDefs : Bool) (d : Def) : Prop :=
  d.var.isLocal = true ∧
    (d ∈ (prog.proc d.site.proc).defsOf d.site ∨
      formalsAsDefs = true ∧ d ∈ prog.formalDefs d.site.proc)

/-- A definition of the program: a node writes the variable, or it is a formal other than zero at
the entry and formals are definitions. -/
def IsDef (prog : Program) (formalsAsDefs : Bool) (d : Def) : Prop :=
  d ∈ (prog.proc d.site.proc).defsOf d.site ∨
    formalsAsDefs = true ∧ d ∈ prog.formalDefs d.site.proc

/-- The use reads a local variable as one of the uses of its node. -/
def IsPlainUse (prog : Program) (u : Use) : Prop :=
  u.var.isLocal = true ∧ u ∈ (prog.proc u.site.proc).usesOf u.site

/-- The use reads a local variable as the argument at a position of a call. -/
structure IsArgument (prog : Program) (u : Use) (c : CallSite) (i : Nat) : Prop where
  call : c ∈ (prog.node u.site).calls
  argument : c.args[i]? = some u.var
  notZero : u.var.isZero = false
  isLocal : u.var.isLocal = true
  computation : u = .computation u.site u.var

/-- The argument at a position of a call is passed through to a formal: formals are no
definitions, the procedure called is in the program, and it has a formal at the position. -/
structure PassesThrough (prog : Program) (formalsAsDefs : Bool) (c : CallSite) (i : Nat)
    (x : Formal) : Prop where
  linked : formalsAsDefs = false
  callee : prog.lookup? c.callee = some x.proc
  index : x.index = i
  formal : ∃ param, (prog.proc x.proc).params[i]? = some param ∧ param.isZero = false

/-- The use reads a local variable. -/
def IsUse (prog : Program) (u : Use) : Prop :=
  prog.IsPlainUse u ∨ ∃ c i, prog.IsArgument u c i

/-- The use ends associations: it belongs to its node, or some call does not pass it through. -/
def IsEndpoint (prog : Program) (formalsAsDefs : Bool) (u : Use) : Prop :=
  prog.IsPlainUse u ∨
    ∃ c i, prog.IsArgument u c i ∧ ∀ x, ¬ prog.PassesThrough formalsAsDefs c i x

/-- The use is an argument that is passed through to a formal. -/
def IsPassedTo (prog : Program) (formalsAsDefs : Bool) (u : Use) (x : Formal) : Prop :=
  ∃ c i, prog.IsArgument u c i ∧ prog.PassesThrough formalsAsDefs c i x

/-- A walk of one or more edges that starts at a point and arrives at a use, and strictly inside
of which no node writes the variable. -/
structure Delivers (prog : Program) (formalsAsDefs : Bool) (site : Point) (v : Variable)
    (u : Use) (walk : List Int) : Prop where
  isWalk : (prog.proc site.proc).graph.IsWalk walk
  starts : walk.head? = some site.node
  long : 2 ≤ walk.length
  arrives : u.arrival <:+ walk
  clear : ∀ x ∈ Digraph.inside walk, ¬ prog.Writes formalsAsDefs ⟨site.proc, x⟩ v

/-- The use reads a variable and some walk in its procedure brings the value there from the
point. -/
structure LocallyReached (prog : Program) (formalsAsDefs : Bool) (site : Point) (v : Variable)
    (u : Use) : Prop where
  proc : u.site.proc = site.proc
  var : u.var = v
  isUse : prog.IsUse u
  walk : ∃ walk, prog.Delivers formalsAsDefs site v u walk

variable {prog : Program} {formalsAsDefs : Bool} {p i : Int}

theorem node_eq_empty
    {f : Procedure}
    (hi : i ∉ f.ids) :
    f.node i = {} := by
  rw [Procedure.ids, mem_positions] at hi
  rw [Procedure.node, item?_eq_none hi]
  rfl

theorem proc_eq_empty
    (hp : p ∉ prog.procIds) :
    prog.proc p = { name := "", nodes := #[] } := by
  rw [procIds, mem_positions] at hp
  rw [proc, item?_eq_none hp]
  rfl

theorem mem_defsOf_iff
    {f : Procedure} {site : Point} {d : Def} :
    d ∈ f.defsOf site ↔
      d.site = site ∧ d.var ∈ (f.node site.node).defs ∧
        d.constant = (f.node site.node).constant := by
  unfold Procedure.defsOf
  rw [List.mem_map]
  constructor
  · rintro ⟨v, hv, rfl⟩
    exact ⟨rfl, hv, rfl⟩
  · rintro ⟨rfl, hv, hc⟩
    refine ⟨d.var, hv, ?_⟩
    rw [← hc]

theorem mem_formalDefs_iff
    {d : Def} :
    d ∈ prog.formalDefs p ↔
      d.site = ⟨p, entryId⟩ ∧ d.var ∈ (prog.proc p).params ∧ d.var.isZero = false ∧
        d.constant = false := by
  unfold formalDefs
  simp only [List.mem_map, List.mem_filter, Bool.not_eq_true']
  constructor
  · rintro ⟨v, ⟨hv, hz⟩, rfl⟩
    exact ⟨rfl, hv, hz, rfl⟩
  · rintro ⟨hsite, hv, hz, hc⟩
    refine ⟨d.var, ⟨hv, hz⟩, ?_⟩
    rw [← hsite, ← hc]

/-- The definitions at a point are the definitions of the program that lie there. -/
theorem mem_defsAt_iff
    {site : Point} {d : Def} :
    d ∈ prog.defsAt formalsAsDefs site ↔ d.site = site ∧ prog.IsDef formalsAsDefs d := by
  unfold defsAt IsDef
  rw [List.mem_append, List.mem_ite_nil_right, Bool.and_eq_true, decide_eq_true_eq]
  constructor
  · rintro (hd | ⟨⟨hentry, hflag⟩, hd⟩)
    · have hsite := (mem_defsOf_iff.mp hd).1
      rw [hsite]
      exact ⟨rfl, Or.inl hd⟩
    · have hformal : d ∈ prog.formalDefs site.proc := hd
      have hsite : d.site = site := by
        rw [(mem_formalDefs_iff.mp hformal).1, ← hentry]
      rw [hsite]
      exact ⟨rfl, Or.inr ⟨hflag, hformal⟩⟩
  · rintro ⟨rfl, hd | ⟨hflag, hd⟩⟩
    · exact Or.inl hd
    · have hsite := (mem_formalDefs_iff.mp hd).1
      exact Or.inr ⟨⟨by rw [hsite], hflag⟩, hd⟩

theorem mem_ids_of_mem_defs
    {f : Procedure} {v : Variable}
    (hv : v ∈ (f.node i).defs) :
    i ∈ f.ids := by
  by_contra hi
  rw [node_eq_empty hi] at hv
  exact absurd hv List.not_mem_nil

theorem mem_localDefs_iff
    {d : Def} :
    d ∈ prog.localDefs formalsAsDefs p ↔
      prog.IsLocalDef formalsAsDefs d ∧ d.site.proc = p := by
  unfold localDefs IsLocalDef
  simp only [mem_distinct, List.mem_filter, List.mem_append, List.mem_flatMap]
  constructor
  · rintro ⟨⟨i, hi, hd⟩ | hd, hlocal⟩
    · obtain ⟨hsite, -, -⟩ := mem_defsOf_iff.mp hd
      rw [hsite]
      exact ⟨⟨hlocal, Or.inl hd⟩, rfl⟩
    · cases formalsAsDefs with
      | false => exact absurd hd List.not_mem_nil
      | true =>
          obtain ⟨hsite, -, -, -⟩ := mem_formalDefs_iff.mp hd
          rw [hsite]
          exact ⟨⟨hlocal, Or.inr ⟨rfl, hd⟩⟩, rfl⟩
  · rintro ⟨⟨hlocal, hd⟩, rfl⟩
    refine ⟨?_, hlocal⟩
    rcases hd with hd | ⟨hflag, hd⟩
    · obtain ⟨-, hv, -⟩ := mem_defsOf_iff.mp hd
      exact Or.inl ⟨d.site.node, mem_ids_of_mem_defs hv, hd⟩
    · right
      rw [hflag]
      exact hd

/-- A point writes a local variable exactly if it has a definition of it. -/
theorem writes_iff
    {v : Variable}
    (hv : v.isLocal = true) :
    prog.Writes formalsAsDefs ⟨p, i⟩ v ↔
      ∃ d ∈ prog.localDefs formalsAsDefs p, d.site.node = i ∧ d.var = v := by
  constructor
  · rintro (hdef | ⟨hflag, hentry, hparam, hzero⟩)
    · let d : Def := ⟨⟨p, i⟩, v, ((prog.proc p).node i).constant⟩
      have hd : d ∈ (prog.proc p).defsOf ⟨p, i⟩ := mem_defsOf_iff.mpr ⟨rfl, hdef, rfl⟩
      exact ⟨d, mem_localDefs_iff.mpr ⟨⟨hv, Or.inl hd⟩, rfl⟩, rfl, rfl⟩
    · let d : Def := ⟨⟨p, entryId⟩, v, false⟩
      have hd : d ∈ prog.formalDefs p := mem_formalDefs_iff.mpr ⟨rfl, hparam, hzero, rfl⟩
      exact ⟨d, mem_localDefs_iff.mpr ⟨⟨hv, Or.inr ⟨hflag, hd⟩⟩, rfl⟩, hentry.symm, rfl⟩
  · rintro ⟨d, hd, rfl, rfl⟩
    obtain ⟨⟨_, horigin⟩, rfl⟩ := mem_localDefs_iff.mp hd
    rcases horigin with hdef | ⟨hflag, hformal⟩
    · obtain ⟨-, hdef, -⟩ := mem_defsOf_iff.mp hdef
      exact Or.inl hdef
    · obtain ⟨hsite, hparam, hzero, -⟩ := mem_formalDefs_iff.mp hformal
      exact Or.inr ⟨hflag, by rw [hsite], hparam, hzero⟩

theorem boundFormal?_eq_some_iff
    {callee : String} {index : Nat} {x : Formal} :
    prog.boundFormal? callee index = some x ↔
      prog.lookup? callee = some x.proc ∧ x.index = index ∧
        ∃ param, (prog.proc x.proc).params[index]? = some param ∧ param.isZero = false := by
  unfold boundFormal?
  simp only [Option.bind_eq_bind, Option.bind_eq_some_iff]
  constructor
  · rintro ⟨g, hg, param, hparam, hx⟩
    split at hx
    · simp at hx
    · rename_i hzero
      obtain rfl := Option.some.inj hx
      exact ⟨hg, rfl, param, hparam, by simpa using hzero⟩
  · rintro ⟨hg, rfl, param, hparam, hzero⟩
    exact ⟨x.proc, hg, param, hparam, by simp [hzero]⟩

theorem passesThrough_iff
    {c : CallSite} {index : Nat} {x : Formal} :
    prog.PassesThrough formalsAsDefs c index x ↔
      (if formalsAsDefs then none else prog.boundFormal? c.callee index) = some x := by
  cases formalsAsDefs with
  | true =>
      simp only [if_true, reduceCtorEq, iff_false]
      intro h
      exact absurd h.linked (by decide)
  | false =>
      simp only [Bool.false_eq_true, if_false, boundFormal?_eq_some_iff]
      constructor
      · intro h
        exact ⟨h.callee, h.index, h.formal⟩
      · rintro ⟨hcallee, hindex, hformal⟩
        exact ⟨rfl, hcallee, hindex, hformal⟩

theorem mem_argumentReads_iff
    {site : Point} {c : CallSite} {r : Read} :
    r ∈ prog.argumentReads formalsAsDefs site c ↔
      ∃ index, c.args[index]? = some r.use.var ∧ r.use.var.isZero = false ∧
        r.use.var.isLocal = true ∧ r.use = .computation site r.use.var ∧
        r.link = if formalsAsDefs then none else prog.boundFormal? c.callee index := by
  unfold argumentReads
  simp only [List.mem_filterMap, Prod.exists, List.mk_mem_zipIdx_iff_getElem?]
  constructor
  · rintro ⟨a, index, ha, hr⟩
    split at hr
    · simp at hr
    · rename_i hskip
      simp only [Bool.or_eq_true, Bool.not_eq_true', not_or, Bool.not_eq_true,
        Bool.not_eq_false] at hskip
      obtain rfl := Option.some.inj hr
      exact ⟨index, ha, hskip.1, hskip.2, rfl, rfl⟩
  · rintro ⟨index, ha, hzero, hlocal, huse, hlink⟩
    refine ⟨r.use.var, index, ha, ?_⟩
    rw [← huse, ← hlink, hzero, hlocal]
    rfl

theorem usesOf_site
    {f : Procedure} {site : Point} {u : Use}
    (hu : u ∈ f.usesOf site) :
    u.site = site := by
  unfold Procedure.usesOf at hu
  obtain ⟨v, -, hu⟩ := List.mem_flatMap.mp hu
  split at hu
  · obtain ⟨s, -, rfl⟩ := List.mem_map.mp hu
    rfl
  · rw [List.mem_singleton] at hu
    rw [hu]
    rfl

theorem mem_ids_of_isPlainUse
    {u : Use}
    (hu : prog.IsPlainUse u) :
    u.site.node ∈ (prog.proc u.site.proc).ids := by
  by_contra hi
  have := hu.2
  rw [Procedure.usesOf, node_eq_empty hi] at this
  simp at this

theorem mem_ids_of_isArgument
    {u : Use} {c : CallSite} {index : Nat}
    (hu : prog.IsArgument u c index) :
    u.site.node ∈ (prog.proc u.site.proc).ids := by
  by_contra hi
  have := hu.call
  rw [node, node_eq_empty hi] at this
  simp at this

theorem IsUse.isLocal
    {u : Use}
    (hu : prog.IsUse u) :
    u.var.isLocal = true := by
  rcases hu with hplain | ⟨_, _, harg⟩
  · exact hplain.1
  · exact harg.isLocal

/-- A walk brings a value along its first edge if that edge arrives and is the last one, or leads to
a node that does not write the variable and from which the rest brings the value. -/
theorem delivers_cons_iff
    {v : Variable} {u : Use} {a b : Int} {rest : List Int} :
    prog.Delivers formalsAsDefs ⟨p, a⟩ v u (a :: b :: rest) ↔
      b ∈ (prog.proc p).graph.succs a ∧
        (rest = [] ∧ u.ArrivesBy a b ∨
          ¬ prog.Writes formalsAsDefs ⟨p, b⟩ v ∧
            prog.Delivers formalsAsDefs ⟨p, b⟩ v u (b :: rest)) := by
  have hshort : u.arrival.length ≤ 2 := by
    unfold Use.arrival
    split <;> simp
  constructor
  · intro h
    obtain ⟨hs, htail⟩ := Digraph.isWalk_cons_cons.mp h.isWalk
    refine ⟨hs, ?_⟩
    have harrives := h.arrives
    have hclear := h.clear
    cases rest with
    | nil => exact Or.inl ⟨rfl, Use.arrivesBy_iff.mpr harrives⟩
    | cons c rest =>
        rw [Digraph.inside, List.tail_cons, List.dropLast_cons_cons] at hclear
        refine Or.inr ⟨hclear b List.mem_cons_self, htail, rfl, by simp, ?_, ?_⟩
        · apply List.suffix_of_suffix_length_le harrives (List.suffix_cons a _)
          simp only [List.length_cons]
          omega
        · exact fun x hx => hclear x (List.mem_cons_of_mem b hx)
  · rintro ⟨hs, ⟨rfl, harrives⟩ | ⟨hclear, h⟩⟩
    · refine ⟨Digraph.isWalk_cons_cons.mpr ⟨hs, List.isChain_singleton b⟩, rfl, Nat.le_refl 2,
        Use.arrivesBy_iff.mp harrives, ?_⟩
      simp [Digraph.inside]
    · obtain ⟨c, rest, rfl⟩ : ∃ c rest', rest = c :: rest' :=
        List.exists_cons_of_length_pos (by have := h.long; simp at this; omega)
      refine ⟨Digraph.isWalk_cons_cons.mpr ⟨hs, h.isWalk⟩, rfl, by simp,
        h.arrives.trans (List.suffix_cons a _), ?_⟩
      intro x hx
      rw [Digraph.inside, List.tail_cons, List.dropLast_cons_cons] at hx
      rcases List.mem_cons.mp hx with rfl | hx
      · exact hclear
      · exact h.clear x hx

theorem Delivers.exists_cons
    {site : Point} {v : Variable} {u : Use} {walk : List Int}
    (h : prog.Delivers formalsAsDefs site v u walk) :
    ∃ s rest, walk = site.node :: s :: rest := by
  obtain ⟨tail, rfl⟩ := List.head?_eq_some_iff.mp h.starts
  obtain ⟨s, rest, rfl⟩ : ∃ s rest, tail = s :: rest :=
    List.exists_cons_of_length_pos (by have := h.long; simp at this; omega)
  exact ⟨s, rest, rfl⟩

/-- The reads of a procedure are its plain uses and its arguments, the latter with the formals
that they are passed through to. -/
theorem mem_reads_iff
    {r : Read} :
    r ∈ prog.reads formalsAsDefs p ↔
      r.use.site.proc = p ∧
      (prog.IsPlainUse r.use ∧ r.link = none ∨
        ∃ c index, prog.IsArgument r.use c index ∧
          r.link = if formalsAsDefs then none else prog.boundFormal? c.callee index) := by
  unfold reads readsAt
  simp only [List.mem_flatMap, List.mem_append, List.mem_map, List.mem_filter,
    mem_argumentReads_iff]
  constructor
  · rintro ⟨i, hi, ⟨u, ⟨hu, hlocal⟩, rfl⟩ | ⟨c, hc, index, ha, hzero, hlocal, huse, hlink⟩⟩
    · have hsite := usesOf_site hu
      refine ⟨by rw [hsite], Or.inl ⟨⟨hlocal, ?_⟩, rfl⟩⟩
      rw [hsite]
      exact hu
    · have hsite : r.use.site = ⟨p, i⟩ := by
        rw [huse]
        rfl
      refine ⟨by rw [hsite], Or.inr ⟨c, index, ⟨?_, ha, hzero, hlocal, ?_⟩, hlink⟩⟩
      · rw [hsite]
        exact hc
      · rw [hsite]
        exact huse
  · rintro ⟨rfl, ⟨hplain, hlink⟩ | ⟨c, index, harg, hlink⟩⟩
    · refine ⟨r.use.site.node, mem_ids_of_isPlainUse hplain, Or.inl ?_⟩
      refine ⟨r.use, ⟨hplain.2, hplain.1⟩, ?_⟩
      rw [← hlink]
    · refine ⟨r.use.site.node, mem_ids_of_isArgument harg, Or.inr ?_⟩
      exact ⟨c, harg.call, index, harg.argument, harg.notZero, harg.isLocal, harg.computation,
        hlink⟩

end Program

end DefUse
