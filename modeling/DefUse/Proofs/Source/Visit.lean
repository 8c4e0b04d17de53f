import DefUse.Proofs.Iterate
import DefUse.Proofs.Source.Reads
import Mathlib.Logic.Relation

/-!
# The visit of an expression

**Algorithm.** What is entered goes on a stack, and its parts are entered next.  A call marks the
names that it passes when it is entered; a name that is marked when it is entered is not read.  What
is left comes off the stack, and if it is a call it is recorded.

**Method.** Under the place of an expression at most one name is marked: the one that the role of
the expression keeps from being read (`Expr.withheldPlace?`).  Entering the expression hands this on
to its parts, and their visits change marks only under their own places.  So by induction on parts a
visit adds what the expression with its role contributes.

**Results.**
* `Expr.mem_passes_or_withheld_iff`: the marks under a part when the whole has been entered.
* `Scope.visitedAs`: what the visit of an expression does to the state.
* `Scope.haltsAt_visit`: the visit of an expression ends, and what it leaves in the node.
-/

namespace DefUse
namespace Source

namespace Expr

section Marks

/-- Where the name stands that an expression is, inside its parentheses. -/
def namePlace? : Expr → Option Place
  | name .. => some []
  | paren _ inner => inner.namePlace?.map (0 :: ·)
  | _ => none

/-- Where the name stands whose method is called. -/
def receiverPlace? : Expr → Option Place
  | select _ subject _ selection =>
    if selection.any (·.kind = .method) then subject.namePlace?.map (0 :: ·) else none
  | paren _ inner => inner.receiverPlace?.map (0 :: ·)
  | _ => none

/-- Where the names stand that a call passes.  A conversion passes none. -/
def passes : Expr → List Place
  | call _ false callee args =>
    (callee.receiverPlace?.map (0 :: ·)).toList ++
      (args.zipIdx 1).filterMap fun arg => arg.1.namePlace?.map (arg.2 :: ·)
  | _ => []

/-- Where the name stands that a role keeps from being read. -/
def withheldPlace? : Role → Expr → Option Place
  | .plain, _ => none
  | .argument, x => x.namePlace?
  | .callee, x => x.receiverPlace?

variable {role : Role} {x : Expr}

theorem withheldPlace?_paren
    (role : Role) (pos : Int) (inner : Expr) :
    (paren pos inner).withheldPlace? role = (inner.withheldPlace? role).map (0 :: ·) := by
  cases role <;> rfl

/-- A role keeps the expression itself from being read only if it is the name of an argument. -/
theorem role_of_withheldPlace?
    (h : x.withheldPlace? role = some []) :
    role = .argument := by
  cases role with
  | plain => exact absurd h (by simp [withheldPlace?])
  | argument => rfl
  | callee =>
      cases x with
      | select pos subject member selection =>
          rw [withheldPlace?, receiverPlace?] at h
          split at h
          · exact absurd h (by simp)
          · exact absurd h (by simp)
      | _ => exact absurd h (by simp [withheldPlace?, receiverPlace?])

theorem zero_mem_passes_iff
    {pos : Int} {callee : Expr} {args : List Expr} {q : Place} :
    0 :: q ∈ (call pos false callee args).passes ↔ callee.receiverPlace? = some q := by
  rw [passes, List.mem_append, Option.mem_toList]
  constructor
  · rintro (h | h)
    · obtain ⟨q', hq', heq⟩ := Option.map_eq_some_iff.mp h
      rw [hq', (List.cons.inj heq).2]
    · obtain ⟨arg, harg, h⟩ := List.mem_filterMap.mp h
      obtain ⟨q', -, heq⟩ := Option.map_eq_some_iff.mp h
      have := (List.mem_zipIdx harg).1
      rw [(List.cons.inj heq).1] at this
      exact absurd this (by decide)
  · intro h
    exact Or.inl (by rw [h]; rfl)

theorem succ_mem_passes_iff
    {pos : Int} {callee : Expr} {args : List Expr} {i : Nat} {q : Place} :
    (i + 1) :: q ∈ (call pos false callee args).passes ↔
      ∃ y, args[i]? = some y ∧ y.namePlace? = some q := by
  rw [passes, List.mem_append, Option.mem_toList]
  constructor
  · rintro (h | h)
    · obtain ⟨q', -, heq⟩ := Option.map_eq_some_iff.mp h
      exact absurd (List.cons.inj heq).1 (by omega)
    · obtain ⟨⟨y, j⟩, harg, h⟩ := List.mem_filterMap.mp h
      obtain ⟨q', hq', heq⟩ := Option.map_eq_some_iff.mp h
      obtain ⟨rfl, rfl⟩ := List.cons.inj heq
      exact ⟨y, by simpa using List.mk_mem_zipIdx_iff_le_and_getElem?_sub.mp harg, hq'⟩
  · rintro ⟨y, hy, hq⟩
    refine Or.inr (List.mem_filterMap.mpr ⟨(y, i + 1), ?_, by rw [hq]; rfl⟩)
    exact List.mk_mem_zipIdx_iff_le_and_getElem?_sub.mpr ⟨by omega, by simpa using hy⟩

theorem eq_of_getElem?_singleton
    {α : Type} {a b : α} {i : Nat}
    (h : [a][i]? = some b) :
    i = 0 ∧ b = a := by
  cases i with
  | zero => exact ⟨rfl, (Option.some.inj h).symm⟩
  | succ i => exact absurd h (by simp)

/-- The marks under a part when the whole has been entered: what the whole passes and what was kept
from the whole is what the role of the part keeps from it. -/
theorem mem_passes_or_withheld_iff
    {i : Nat} {part : Role × Expr}
    (hpart : (x.roles role)[i]? = some part)
    (q : Place) :
    i :: q ∈ x.passes ∨ x.withheldPlace? role = some (i :: q) ↔
      part.2.withheldPlace? part.1 = some q := by
  have hplain : ∀ ys : List Expr, (ys.map fun y => (Role.plain, y))[i]? = some part →
      part.2.withheldPlace? part.1 ≠ some q := by
    intro ys h
    rw [List.getElem?_map] at h
    obtain ⟨y, -, rfl⟩ := Option.map_eq_some_iff.mp h
    simp [withheldPlace?]
  cases x with
  | select pos subject member selection =>
      obtain ⟨rfl, rfl⟩ := eq_of_getElem?_singleton hpart
      cases role <;>
        by_cases hmethod : selection.any (·.kind = .method) <;>
          simp [passes, withheldPlace?, namePlace?, receiverPlace?, hmethod]
  | call pos conversion callee args =>
      have hwhole : (call pos conversion callee args).withheldPlace? role = none := by
        cases role <;> rfl
      rw [hwhole]
      cases conversion with
      | true => simpa [passes] using hplain (callee :: args) hpart
      | false =>
          cases i with
          | zero =>
              obtain rfl := Option.some.inj hpart
              simp [zero_mem_passes_iff, withheldPlace?]
          | succ i =>
              have hpart : (args.map fun y => (Role.argument, y))[i]? = some part := hpart
              rw [List.getElem?_map] at hpart
              obtain ⟨y, hy, rfl⟩ := Option.map_eq_some_iff.mp hpart
              simp [succ_mem_passes_iff, withheldPlace?, hy]
  | paren pos inner =>
      obtain ⟨rfl, rfl⟩ := eq_of_getElem?_singleton hpart
      rw [withheldPlace?_paren]
      simp [passes]
  | _ =>
      have := hplain _ hpart
      cases role <;> simpa [passes, withheldPlace?, namePlace?, receiverPlace?] using this

end Marks

end Expr

section States

/-- Something that a visit has still to do. -/
inductive Task where
  /-- The part at a place is entered. -/
  | enter (p : Expr.Place) (x : Expr)
  /-- The name of what a selection picks is read. -/
  | member (symbol : Option Symbol)
  /-- What was entered last is left. -/
  | leave

/-- The state of a visit. -/
structure Visit where
  /-- What is still to do, the next one first. -/
  tasks : List Task
  /-- What was entered and not left, the last one first. -/
  entered : List Expr
  /-- Where the names stand that the calls entered so far pass. -/
  passed : List Expr.Place
  /-- What was found so far. -/
  node : Node

/-- Expressions at a place are entered one after the other; they are numbered from a number on. -/
def Task.enterAll (p : Expr.Place) (i : Nat) (ys : List Expr) : List Task :=
  (ys.zipIdx i).map fun y => .enter (p ++ [y.2]) y.1

/-- The name of what an expression picks; no call passes it. -/
def Task.members : Expr → List Task
  | .select _ _ picked _ => [.member picked]
  | _ => []

/-- What is recorded when an expression is left: the call that it is. -/
def Scope.recording (c : Scope) : Expr → List Effect
  | .call _ conversion callee args => c.callEffects conversion callee args
  | _ => []

def Expr.isFunction : Expr → Bool
  | .function .. => true
  | _ => false

/-- One step of a visit.  Function literals are not entered. -/
def Visit.step (c : Scope) (s : Visit) : Option Visit :=
  match s.tasks with
  | [] => none
  | .enter p x :: rest =>
    if x.isFunction then some { s with tasks := rest }
    else some
      { tasks := Task.enterAll p 0 x.parts ++ Task.members x ++ .leave :: rest
        entered := x :: s.entered
        passed := x.passes.map (p ++ ·) ++ s.passed
        node := (c.entering (if p ∈ s.passed then .argument else .plain) x).foldl Node.absorb
          s.node }
  | .member symbol :: rest => some
    { s with tasks := rest, node := (Scope.useOf (symbol.bind c.local?)).foldl Node.absorb s.node }
  | .leave :: rest => s.entered.head?.map fun x =>
    { s with
      tasks := rest
      entered := s.entered.tail
      node := (c.recording x).foldl Node.absorb s.node }

/-- Before the visit of an expression nothing is entered and nothing is marked. -/
def Visit.start (x : Expr) (n : Node) : Visit := ⟨[.enter [] x], [], [], n⟩

/-- Steps lead from one state of a visit to another one. -/
def Visit.Reaches (c : Scope) : Visit → Visit → Prop :=
  Relation.ReflTransGen fun s t => s.step c = some t

end States

section Runs

variable {c : Scope} {role : Role} {x : Expr} {p : Expr.Place} {s t : Visit}

theorem Visit.Reaches.haltsAt
    (h : Visit.Reaches c s t)
    (ht : t.tasks = []) :
    HaltsAt (Visit.step c) s t := by
  induction h using Relation.ReflTransGen.head_induction_on with
  | refl => exact .of_none (by rw [Visit.step, ht])
  | head hstep _ ih => exact .of_step hstep ih

/-- Under a place a name is marked exactly if the role of the expression there keeps it from being
read. -/
def Marked (passed : List Expr.Place) (p : Expr.Place) (role : Role) (x : Expr) : Prop :=
  ∀ q, p ++ q ∈ passed ↔ x.withheldPlace? role = some q

/-- Marks that do not stand under a place are the same. -/
def SameOutside (p : Expr.Place) (passed passed' : List Expr.Place) : Prop :=
  ∀ q, ¬ p <+: q → (q ∈ passed' ↔ q ∈ passed)

/-- From wherever an expression with a role is entered, its visit goes on to what comes after the
expression, with what the expression contributes, and has changed no marks of others. -/
def Scope.VisitedAs (c : Scope) (role : Role) (x : Expr) : Prop :=
  ∀ p passed rest entered n, Marked passed p role x →
    ∃ passed', SameOutside p passed passed' ∧
      Visit.Reaches c ⟨.enter p x :: rest, entered, passed, n⟩
        ⟨rest, entered, passed', (c.exprEffects role x).foldl Node.absorb n⟩

namespace Scope

/-- What is marked tells on entering the expression whether its role keeps it from being read. -/
theorem entering_of_marked
    {passed : List Expr.Place}
    (h : Marked passed p role x) :
    c.entering (if p ∈ passed then .argument else .plain) x = c.entering role x := by
  have hp : p ∈ passed ↔ x.withheldPlace? role = some [] := by
    rw [← h [], List.append_nil]
  cases x with
  | name pos text symbol =>
      by_cases hmem : p ∈ passed
      · rw [if_pos hmem, Expr.role_of_withheldPlace? (hp.mp hmem)]
      · have hrole : role ≠ .argument := by
          rintro rfl
          exact hmem (hp.mpr rfl)
        rw [if_neg hmem, entering, entering, if_neg hrole, if_neg (by decide)]
  | _ => rfl

/-- After its parts an expression reads the name that it picks, and is left. -/
theorem reaches_leave
    (x : Expr) (rest : List Task) (entered : List Expr) (passed : List Expr.Place) (n : Node) :
    Visit.Reaches c ⟨Task.members x ++ .leave :: rest, x :: entered, passed, n⟩
      ⟨rest, entered, passed, (c.leaving x).foldl Node.absorb n⟩ := by
  cases x with
  | select pos subject member selection => exact .tail (.single rfl) rfl
  | _ => exact .single rfl

/-- The parts of an expression are visited one after the other, if each is visited as it should. -/
theorem reaches_parts
    {parts : List (Role × Expr)}
    (hparts : ∀ part ∈ parts, c.VisitedAs part.1 part.2)
    (i : Nat) (passed : List Expr.Place)
    (hmarked : ∀ j part, parts[j]? = some part → Marked passed (p ++ [i + j]) part.1 part.2)
    (rest : List Task) (entered : List Expr) (n : Node) :
    ∃ passed', SameOutside p passed passed' ∧
      Visit.Reaches c ⟨Task.enterAll p i (parts.map Prod.snd) ++ rest, entered, passed, n⟩
        ⟨rest, entered, passed',
          (parts.flatMap fun y => c.exprEffects y.1 y.2).foldl Node.absorb n⟩ := by
  induction parts generalizing i passed n with
  | nil => exact ⟨passed, fun _ _ => Iff.rfl, .refl⟩
  | cons part parts ih =>
      obtain ⟨between, hsame, hfirst⟩ := hparts part List.mem_cons_self (p ++ [i]) passed
        (Task.enterAll p (i + 1) (parts.map Prod.snd) ++ rest) entered n (hmarked 0 part rfl)
      -- the first part has left the marks of the others as they were
      have hothers : ∀ j other, parts[j]? = some other →
          Marked between (p ++ [i + 1 + j]) other.1 other.2 := by
        intro j other hother q
        have hbeside : ¬ p ++ [i] <+: p ++ [i + 1 + j] ++ q := by
          have hne : i ≠ i + 1 + j := by omega
          simp [hne]
        rw [hsame _ hbeside, ← hmarked (j + 1) other hother q, Nat.add_assoc, Nat.add_comm 1]
      obtain ⟨passed', hsame', hrest⟩ := ih
        (fun other hother => hparts other (List.mem_cons_of_mem part hother)) (i + 1) between
        hothers ((c.exprEffects part.1 part.2).foldl Node.absorb n)
      refine ⟨passed', fun q hq => ?_, ?_⟩
      · exact (hsame' q hq).trans (hsame q fun h => hq ((List.prefix_append p [i]).trans h))
      · rw [List.flatMap_cons, List.foldl_append]
        exact hfirst.trans hrest

/-- A visit adds what the expression with its role contributes. -/
theorem visitedAs
    (role : Role) (x : Expr) :
    c.VisitedAs role x := by
  induction x using Expr.parts_induction generalizing role with
  | step x ih =>
      intro p passed rest entered n hmarked
      by_cases hfunction : x.isFunction = true
      · refine ⟨passed, fun _ _ => Iff.rfl, .single ?_⟩
        cases x with
        | function => rfl
        | _ => exact absurd hfunction Bool.false_ne_true
      · have hentered : ∀ j part, (x.roles role)[j]? = some part →
            Marked (x.passes.map (p ++ ·) ++ passed) (p ++ [0 + j]) part.1 part.2 := by
          intro j part hpart q
          rw [Nat.zero_add, List.append_assoc, List.singleton_append, List.mem_append,
            hmarked (j :: q), ← Expr.mem_passes_or_withheld_iff hpart q]
          simp
        obtain ⟨passed', hsame, hparts⟩ := reaches_parts
          (fun part hpart => ih part.2 (Expr.mem_parts_of_mem_roles hpart) part.1) 0 _ hentered
          (Task.members x ++ .leave :: rest) (x :: entered)
          ((c.entering role x).foldl Node.absorb n)
        refine ⟨passed', fun q hq => ?_, .head ?_ (hparts.trans ?_)⟩
        · rw [hsame q hq, List.mem_append]
          refine or_iff_right ?_
          rintro hq'
          obtain ⟨q', -, rfl⟩ := List.mem_map.mp hq'
          exact hq (List.prefix_append p q')
        · simp only [Visit.step, if_neg hfunction, entering_of_marked hmarked, Expr.map_snd_roles,
            List.append_assoc]
        · rw [exprEffects_eq, List.foldl_append, List.foldl_append]
          exact reaches_leave x rest entered passed' _

/-- The node with what an expression contributes. -/
def exprNode (c : Scope) (x : Expr) (n : Node) : Node :=
  (c.exprEffects .plain x).foldl Node.absorb n

/-- The visit of an expression ends; it has added what the expression contributes, and has left
everything that it entered. -/
theorem haltsAt_visit
    (x : Expr) (n : Node) :
    ∃ passed, HaltsAt (Visit.step c) (.start x n)
      ⟨[], [], passed, c.exprNode x n⟩ := by
  have hmarked : Marked [] [] .plain x := fun q => by simp [Expr.withheldPlace?]
  obtain ⟨passed, -, h⟩ := c.visitedAs .plain x [] [] [] [] n hmarked
  exact ⟨passed, h.haltsAt rfl⟩

end Scope

end Runs

namespace Scope

section Reads

/-- The visit of an expression ends with a node that takes the local variables and parameters that
the expression refers to, and the parameters that types in it name.  These are just the variables
that the expression refers to if and only if it refers to each parameter that a type in it names.
The call sites of the node are those of the calls in the expression, in post-order. -/
theorem visit_takes_iff
    (c : Scope) (x : Expr) (n : Node)
    (huses : n.uses = [])
    (hcalls : n.calls = []) :
    (∃ passed, HaltsAt (Visit.step c) (.start x n) ⟨[], [], passed, c.exprNode x n⟩) ∧
      (∀ v, (c.exprNode x n).Takes v ↔ c.RefersTo x v ∨ c.Declares x v) ∧
      ((∀ v, (c.exprNode x n).Takes v ↔ c.RefersTo x v) ↔
        ∀ v, c.Declares x v → c.RefersTo x v) ∧
      ∃ order : List Expr.Place, order.Pairwise Expr.Place.Before ∧
        (∀ p, p ∈ order ↔ (x.at? p).isSome) ∧
        (c.exprNode x n).calls = order.filterMap fun p => (x.at? p).bind c.site? := by
  have htakes : ∀ v, (c.exprNode x n).Takes v ↔ c.RefersTo x v ∨ c.Declares x v := by
    intro v
    rw [exprNode, takes_foldl_absorb_iff huses hcalls, taken_iff_occurs,
      occurs_iff_refersTo_or_declares]
  refine ⟨haltsAt_visit x n, htakes, ?_, x.places, x.pairwise_places,
    fun _ => Expr.mem_places_iff, ?_⟩
  · exact forall_congr' fun v => by rw [htakes v, or_iff_left_iff_imp]
  · rw [exprNode, calls_foldl_absorb, hcalls, List.nil_append, sites_exprEffects]

/-- A function whose declaration stands between two positions. -/
def small : Scope :=
  { files := [], types := #[], modelled := [], function := "p.f", start := 0, stop := 90 }

/-- The call `g((x), h(y))`. -/
def nestedCall : Expr :=
  .call 20 false (.name 20 "g" (some (.function ⟨"p.g", "p.g", some "p", .none⟩)))
    [.paren 22 (.name 23 "x" (some (.variable "x" 5 false))),
      .call 27 false (.name 27 "h" (some (.function ⟨"p.h", "p.h", some "p", .none⟩)))
        [.name 29 "y" (some (.variable "y" 8 false))]]

theorem visit_takes_iff_nestedCall :
    ({} : Node).uses = [] ∧ ({} : Node).calls = [] ∧
      (∀ v, (small.exprNode nestedCall {}).Takes v ↔ small.RefersTo nestedCall v) ∧
      (small.exprNode nestedCall {}).Takes (small.localAt "x" 5) ∧
      (small.exprNode nestedCall {}).Takes (small.localAt "y" 8) ∧
      (small.exprNode nestedCall {}).calls =
        [⟨"p.h", [small.localAt "y" 8]⟩, ⟨"p.g", [small.localAt "x" 5, .zero]⟩] := by
  obtain ⟨-, htakes, hexact, -⟩ := visit_takes_iff small nestedCall {} rfl rfl
  have hnames : ∀ y ∈ nestedCall.places.filterMap nestedCall.at?, ¬ y.isDeclaration := by decide
  refine ⟨rfl, rfl, hexact.mpr fun v hv => ?_, ?_, ?_, by decide⟩
  · obtain ⟨y, hy, hdeclares, -⟩ := Expr.exists_at?_iff_mem.mp hv
    exact absurd hdeclares (hnames y hy)
  · exact (htakes _).mpr (Or.inl (by decide))
  · exact (htakes _).mpr (Or.inl (by decide))

/-- The type assertion `v.(func(y int))`. -/
def assertion : Expr :=
  .assertType 20 (.name 20 "v" (some (.variable "v" 5 false)))
    (some (.compound 23
      [.compound 27 [.compound 28
        [.name 28 "y" (some (.variable "y" 28 false)), .name 30 "int" (some .other)]]]))

/-- The name of a parameter in a type is taken for a local variable that is read. -/
theorem visit_takes_declared :
    ¬ ∀ (c : Scope) (x : Expr) (n : Node), n.uses = [] → n.calls = [] →
      ∀ v, (c.exprNode x n).Takes v ↔ c.RefersTo x v := by
  intro h
  have hy : (small.exprNode assertion {}).Takes (small.localAt "y" 28) :=
    ⟨⟨by decide, by decide⟩, Or.inl (by decide)⟩
  exact absurd ((h small assertion {} rfl rfl _).mp hy) (by decide)

end Reads

end Scope

end Source
end DefUse
