import DefUse.Path.Engine
import DefUse.Proofs.Path.Expr
import DefUse.Proofs.Rounds

/-!
# The solution of the equations of path expressions

Paths get to a place at the start of a node if the node generates them, or at its end if it is not
blocked; at the end of a node if an edge generates them, if they take an edge to a node at whose
start they are, or if they end in a back edge after which some path goes on.

**Method.** The equations are an instance of tables that are filled by rounds.  An expression is
canonical and has paths at nodes and back edges of the procedure only, so there are finitely many
things that it can say.

**Results.** `Sized.round_solve`: the rounds come to rest; `Sized.test_exprAt_solve_iff` and
`Sized.test_out_solve_iff`: the expressions found have exactly the paths that get there, whatever
the order of the visits, as long as every node is visited.
-/

namespace DefUse

/-- The start or the end of a node. -/
inductive Spot where
  /-- The start. -/
  | start (v : Int)
  /-- The end. -/
  | finish (v : Int)

namespace PathProblem

/-- The path with a number gets from a spot to a place. -/
inductive Covers (p : PathProblem) : Spot → Expr.Place → Nat → Prop
  | gen {v : Int} {place : Expr.Place} {id : Nat}
      (h : (p.gen v).test place id = true) :
      Covers p (.start v) place id
  | through {v : Int} {place : Expr.Place} {id : Nat}
      (hopen : p.blocked v = false)
      (h : Covers p (.finish v) place id) :
      Covers p (.start v) place id
  | edge {v s : Int} {place : Expr.Place} {id : Nat}
      (hs : s ∈ (p.numbering.proc.node v).succs)
      (h : (p.edgeGen ⟨v, s⟩).test place id = true) :
      Covers p (.finish v) place id
  | pass {v s : Int} {place : Expr.Place} {id : Nat}
      (hs : s ∈ (p.numbering.proc.node v).succs)
      (hreal : p.numbering.connection? ⟨v, s⟩ = none)
      (hid : (p.numbering.pathsOf ⟨v, s⟩).test id = true)
      (h : Covers p (.start s) place id) :
      Covers p (.finish v) place id
  | turn {v s : Int} {c : Connection} {place : Expr.Place} {id next : Nat}
      (hs : s ∈ (p.numbering.proc.node v).succs)
      (hback : p.numbering.connection? ⟨v, s⟩ = some c)
      (hid : c.incoming.test id = true)
      (hnext : c.outgoing.test next = true)
      (h : Covers p (.start s) place next) :
      Covers p (.finish v) (.edge ⟨v, s⟩) id

/-- The nodes and the back edges of the procedure. -/
def places (p : PathProblem) : List Expr.Place :=
  p.numbering.proc.ids.map Expr.Place.node ++ p.numbering.backEdges.map Expr.Place.edge

/-- The expression says only what an expression of the procedure can say. -/
structure Fits (p : PathProblem) (e : Expr Unit) : Prop where
  canonical : e.Canonical p.numbering.size
  places : ∀ place id, e.test place id = true → place ∈ p.places

/-- What the nodes and edges generate and let pass fits the procedure. -/
structure Sized (p : PathProblem) : Prop where
  closed : ∀ v ∈ p.numbering.proc.ids, ∀ s ∈ (p.numbering.proc.node v).succs,
    s ∈ p.numbering.proc.ids
  gen : ∀ v, p.Fits (p.gen v)
  edgeGen : ∀ e, p.Fits (p.edgeGen e)
  pathsOf : ∀ e, (p.numbering.pathsOf e).length = p.numbering.size
  connection : ∀ e c, p.numbering.connection? e = some c →
    e ∈ p.numbering.backEdges ∧ c.incoming.length = p.numbering.size

def equations (p : PathProblem) : TableEquations (Expr Unit) (Expr.Place × Nat) where
  zero := .empty
  test e x := e.test x.1 x.2
  transfer := p.transfer

variable {p : PathProblem} {t : Array (Expr Unit)} {v s : Int} {place : Expr.Place} {id : Nat}
  {order : List Int}

section Reading

theorem test_out_iff :
    (p.out t v).test place id = true ↔
      ∃ s ∈ (p.numbering.proc.node v).succs,
        (p.along t ⟨v, s⟩).test place id = true ∨ (p.edgeGen ⟨v, s⟩).test place id = true := by
  have hfold : ∀ (succs : List Int) (acc : Expr Unit),
      (succs.foldl (fun acc s =>
          (acc.merge (p.along t ⟨v, s⟩)).merge (p.edgeGen ⟨v, s⟩)) acc).test place id = true ↔
        acc.test place id = true ∨ ∃ s ∈ succs,
          (p.along t ⟨v, s⟩).test place id = true ∨
            (p.edgeGen ⟨v, s⟩).test place id = true := by
    intro succs
    induction succs with
    | nil => simp
    | cons s rest ih =>
        intro acc
        rw [List.foldl_cons, ih]
        simp only [Expr.test_merge, Bool.or_eq_true, List.mem_cons, exists_eq_or_imp, or_assoc]
  unfold out
  rw [hfold]
  simp

/-- What comes back along an edge: the paths that take it, or through a back edge those that end
in it if any path goes on. -/
theorem test_along_iff
    {e : Edge} :
    (p.along t e).test place id = true ↔
      (p.numbering.connection? e = none ∧ (p.numbering.pathsOf e).test id = true ∧
        (exprAt t e.target).test place id = true) ∨
      ∃ c, p.numbering.connection? e = some c ∧ place = .edge e ∧ c.incoming.test id = true ∧
        ∃ place' next, (exprAt t e.target).test place' next = true ∧
          c.outgoing.test next = true := by
  unfold along
  cases hc : p.numbering.connection? e with
  | none =>
      simp only [Expr.test_restrict, Bool.and_eq_true]
      constructor
      · rintro ⟨htest, hid⟩
        exact Or.inl ⟨trivial, hid, htest⟩
      · rintro (⟨-, hid, htest⟩ | ⟨c, hnone, -⟩)
        · exact ⟨htest, hid⟩
        · exact absurd hnone (by simp)
  | some c =>
      simp only [Expr.test_extend_iff, Expr.isEmpty_restrict_eq_false_iff]
      constructor
      · rintro ⟨hplace, hnext, hid⟩
        exact Or.inr ⟨c, rfl, hplace, hid, hnext⟩
      · rintro (⟨hsome, -⟩ | ⟨c', hc', hplace, hid, hnext⟩)
        · exact absurd hsome (by simp)
        · obtain rfl := Option.some.inj hc'
          exact ⟨hplace, hnext, hid⟩

theorem test_transfer_iff :
    (p.transfer t v).test place id = true ↔
      (p.gen v).test place id = true ∨
      p.blocked v = false ∧ (p.out t v).test place id = true := by
  unfold transfer
  split
  · rename_i hblocked
    simp [hblocked]
  · rename_i hopen
    rw [Expr.test_merge, Bool.or_eq_true, and_iff_right (Bool.eq_false_iff.mpr hopen)]

end Reading

section Laws

theorem Fits.empty : p.Fits .empty :=
  ⟨.empty, fun _ _ h => absurd h (by rw [Expr.test_empty]; exact Bool.false_ne_true)⟩

theorem Fits.merge
    {a b : Expr Unit}
    (ha : p.Fits a)
    (hb : p.Fits b) :
    p.Fits (a.merge b) := by
  refine ⟨ha.canonical.merge hb.canonical, ?_⟩
  intro place id h
  rw [Expr.test_merge, Bool.or_eq_true] at h
  rcases h with h | h
  · exact ha.places place id h
  · exact hb.places place id h

theorem fits_exprAt
    (ht : ∀ e ∈ t, p.Fits e)
    (v : Int) :
    p.Fits (exprAt t v) := by
  unfold exprAt
  by_cases hv : v ∈ positions t.size
  · obtain ⟨e, he, hmem⟩ := item?_eq_some_of_mem_positions hv
    rw [he]
    exact ht e hmem
  · rw [mem_positions] at hv
    rw [item?_eq_none hv]
    exact .empty

namespace Sized

theorem fits_along
    (hp : p.Sized)
    (ht : ∀ e ∈ t, p.Fits e)
    (e : Edge) :
    p.Fits (p.along t e) := by
  have hafter := fits_exprAt ht e.target
  refine ⟨?_, ?_⟩
  · unfold along
    cases hc : p.numbering.connection? e with
    | none => exact hafter.canonical.restrict (hp.pathsOf e)
    | some c => exact .extend (hp.connection e c hc).2 _ _ _
  · intro place id h
    rcases test_along_iff.mp h with ⟨-, -, htest⟩ | ⟨c, hc, rfl, -⟩
    · exact hafter.places place id htest
    · refine List.mem_append_right _ (List.mem_map_of_mem ?_)
      exact (hp.connection e c hc).1

theorem fits_out
    (hp : p.Sized)
    (ht : ∀ e ∈ t, p.Fits e)
    (v : Int) :
    p.Fits (p.out t v) := by
  unfold out
  refine List.foldlRecOn (motive := p.Fits) _ _ .empty ?_
  intro acc hacc s _
  exact (hacc.merge (hp.fits_along ht _)).merge (hp.edgeGen _)

theorem fits_transfer
    (hp : p.Sized)
    (ht : ∀ e ∈ t, p.Fits e)
    (v : Int) :
    p.Fits (p.transfer t v) := by
  unfold transfer
  split
  · exact hp.gen v
  · exact (hp.gen v).merge (hp.fits_out ht v)

theorem along_mono
    {t' : Array (Expr Unit)} {e : Edge}
    (h : p.equations.Below t t')
    (hid : (p.along t e).test place id = true) :
    (p.along t' e).test place id = true := by
  rw [test_along_iff] at hid ⊢
  rcases hid with ⟨hc, hpath, htest⟩ | ⟨c, hc, hplace, hin, place', next, htest, hout⟩
  · exact Or.inl ⟨hc, hpath, h e.target (place, id) htest⟩
  · exact Or.inr ⟨c, hc, hplace, hin, place', next, h e.target (place', next) htest, hout⟩

/-- The equations of path expressions have a least solution that rounds find. -/
theorem lawful
    (hp : p.Sized) :
    p.equations.Lawful p.Fits (p.places.toFinset ×ˢ Finset.range p.numbering.size) where
  zero := .empty
  test_zero := fun _ => Expr.test_empty
  mem_items := by
    rintro e ⟨place, id⟩ he h
    rw [Finset.mem_product, List.mem_toFinset, Finset.mem_range]
    exact ⟨he.places place id h, he.canonical.id_lt h⟩
  ext := fun a b ha hb h => ha.canonical.ext hb.canonical fun place id => h (place, id)
  transfer := fun _ v ht => hp.fits_transfer ht v
  mono := by
    rintro t t' v ⟨place, id⟩ hbelow h
    rcases test_transfer_iff.mp h with h | ⟨hopen, h⟩
    · exact test_transfer_iff.mpr (Or.inl h)
    · refine test_transfer_iff.mpr (Or.inr ⟨hopen, ?_⟩)
      obtain ⟨s, hs, h⟩ := test_out_iff.mp h
      refine test_out_iff.mpr ⟨s, hs, ?_⟩
      rcases h with h | h
      · exact Or.inl (along_mono hbelow h)
      · exact Or.inr h

theorem card_items_lt
    (p : PathProblem) :
    p.numbering.proc.nodes.size *
      (p.places.toFinset ×ˢ Finset.range p.numbering.size).card < p.roundBound := by
  have hplaces : p.places.toFinset.card ≤
      p.numbering.proc.nodes.size + p.numbering.backEdges.length := by
    refine (List.toFinset_card_le _).trans ?_
    simp [places, Procedure.ids, positions]
  rw [Finset.card_product, Finset.card_range, ← Nat.mul_assoc]
  exact Nat.lt_succ_of_le (Nat.mul_le_mul_right _ (Nat.mul_le_mul_left _ hplaces))

end Sized

end Laws

section Solution

/-- What an expression of a table tells, if the paths of the table get there. -/
theorem covers_of_test_out
    (ht : ∀ v place id, (exprAt t v).test place id = true → p.Covers (.start v) place id)
    (h : (p.out t v).test place id = true) :
    p.Covers (.finish v) place id := by
  obtain ⟨s, hs, h⟩ := test_out_iff.mp h
  rcases h with h | h
  · rcases test_along_iff.mp h with ⟨hc, hid, htest⟩ | ⟨c, hc, rfl, hid, place', next, htest, hout⟩
    · exact .pass hs hc hid (ht s place id htest)
    · exact .turn hs hc hid hout (ht s place' next htest)
  · exact .edge hs h

theorem covers_of_test_solve
    (h : (exprAt (p.solve order) v).test place id = true) :
    p.Covers (.start v) place id := by
  have hwithin : p.equations.Within (fun v x => p.Covers (.start v) x.1 x.2) (p.solve order) := by
    refine TableEquations.test_sound (E := p.equations) (fun _ => Expr.test_empty) ?_ _ _ order
    rintro t v ⟨place, id⟩ ht h
    rcases test_transfer_iff.mp h with h | ⟨hopen, h⟩
    · exact .gen h
    · exact .through hopen (covers_of_test_out (fun v place id => ht v (place, id)) h)
  exact hwithin v (place, id) h

namespace Sized

/-- The rounds come to rest. -/
theorem round_solve
    (hp : p.Sized)
    (order : List Int) :
    p.round order (p.solve order) = p.solve order :=
  hp.lawful.round_solve (card_items_lt p) order

theorem test_solve_of_transfer
    (hp : p.Sized)
    (hv : v ∈ p.numbering.proc.ids)
    (horder : v ∈ order)
    (h : (p.transfer (p.solve order) v).test place id = true) :
    (exprAt (p.solve order) v).test place id = true :=
  hp.lawful.test_of_transfer (i := (place, id)) (card_items_lt p) hv horder h

/-- What is found at a spot in a table. -/
def found (p : PathProblem) (t : Array (Expr Unit)) : Spot → Expr Unit
  | .start v => exprAt t v
  | .finish v => p.out t v

def nodeOf : Spot → Int
  | .start v => v
  | .finish v => v

theorem test_found_of_covers
    {spot : Spot}
    (hp : p.Sized)
    (horder : ∀ v ∈ p.numbering.proc.ids, v ∈ order)
    (h : p.Covers spot place id)
    (hv : nodeOf spot ∈ p.numbering.proc.ids) :
    (found p (p.solve order) spot).test place id = true := by
  induction h with
  | gen h =>
      exact hp.test_solve_of_transfer hv (horder _ hv) (test_transfer_iff.mpr (Or.inl h))
  | through hopen _ ih =>
      exact hp.test_solve_of_transfer hv (horder _ hv)
        (test_transfer_iff.mpr (Or.inr ⟨hopen, ih hv⟩))
  | edge hs h => exact test_out_iff.mpr ⟨_, hs, Or.inr h⟩
  | pass hs hc hid _ ih =>
      refine test_out_iff.mpr ⟨_, hs, Or.inl (test_along_iff.mpr (Or.inl ⟨hc, hid, ?_⟩))⟩
      exact ih (hp.closed _ hv _ hs)
  | turn hs hc hid hnext _ ih =>
      refine test_out_iff.mpr ⟨_, hs, Or.inl (test_along_iff.mpr (Or.inr ?_))⟩
      exact ⟨_, hc, rfl, hid, _, _, ih (hp.closed _ hv _ hs), hnext⟩

/-- The expression found at the start of a node has exactly the paths that get there. -/
theorem test_exprAt_solve_iff
    (hp : p.Sized)
    (horder : ∀ v ∈ p.numbering.proc.ids, v ∈ order)
    (hv : v ∈ p.numbering.proc.ids) :
    (exprAt (p.solve order) v).test place id = true ↔ p.Covers (.start v) place id :=
  ⟨covers_of_test_solve, fun h => hp.test_found_of_covers horder h hv⟩

/-- The expression found at the end of a node has exactly the paths that get there. -/
theorem test_out_solve_iff
    (hp : p.Sized)
    (horder : ∀ v ∈ p.numbering.proc.ids, v ∈ order)
    (hv : v ∈ p.numbering.proc.ids) :
    (p.out (p.solve order) v).test place id = true ↔ p.Covers (.finish v) place id :=
  ⟨covers_of_test_out fun _ _ _ => covers_of_test_solve,
    fun h => hp.test_found_of_covers horder h hv⟩

end Sized

end Solution

end PathProblem
end DefUse
