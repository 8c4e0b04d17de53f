import DefUse.Source.Effects
import Mathlib.Data.List.Basic

/-!
# The parts of expressions and where they stand

An expression is visited part by part; function literals are not entered.  A part stands at a place:
the numbers of the parts that lead there.

**Method.** What a visit contributes is what entering an expression contributes, then what its parts
contribute in order, then what leaving it contributes.  Statements about visits follow by induction
on parts from what entering and leaving do, and from what the parts are to the expression.

**Results.**
* `parts_induction`: what holds of an expression if it holds of its parts holds of all expressions.
* `pairwise_places` and `mem_places_iff`: the places of an expression, in post-order.
* `Scope.exprEffects_eq`: a visit enters the expression, visits its parts and leaves it.
-/

namespace DefUse
namespace Source

namespace Expr

section Parts

/-- The parts of an expression that are visited, in order.  Function literals are not entered. -/
def parts : Expr → List Expr
  | name .. | function .. => []
  | select _ subject _ _ => [subject]
  | index _ subject key _ => [subject, key]
  | instantiate _ subject args => subject :: args
  | call _ _ callee args => callee :: args
  | paren _ inner => [inner]
  | assertType _ subject type => subject :: type.toList
  | compound _ parts => parts

theorem sizeOf_position_pos
    (pos : Int) :
    0 < sizeOf pos := by
  cases pos with
  | ofNat n =>
      rw [Int.ofNat.sizeOf_spec]
      omega
  | negSucc n =>
      rw [Int.negSucc.sizeOf_spec]
      omega

/-- The size of an expression is enough for the list of its parts: what the list takes more, the
position makes up for. -/
theorem sizeOf_parts_le
    (x : Expr) :
    sizeOf x.parts ≤ sizeOf x := by
  cases x with
  | name | function | compound | instantiate | call => simp +arith [parts]
  | select pos | paren pos =>
      have hpos := sizeOf_position_pos pos
      simp +arith [parts]
      omega
  | index pos _ _ type | assertType pos _ type =>
      have hpos := sizeOf_position_pos pos
      cases type <;> simp +arith [parts] <;> omega

variable {x y : Expr}

theorem sizeOf_lt_of_mem_parts
    (hy : y ∈ x.parts) :
    sizeOf y < sizeOf x :=
  Nat.lt_of_lt_of_le (List.sizeOf_lt_of_mem hy) (sizeOf_parts_le x)

/-- What holds of an expression if it holds of its parts holds of all expressions. -/
@[elab_as_elim]
theorem parts_induction
    {P : Expr → Prop}
    (step : ∀ x : Expr, (∀ y ∈ x.parts, P y) → P x)
    (x : Expr) :
    P x :=
  step x fun y hy =>
    have := sizeOf_lt_of_mem_parts hy
    parts_induction step y
termination_by sizeOf x

end Parts

section Places

/-- Where a part of an expression stands: the numbers of the parts that lead there. -/
abbrev Place := List Nat

/-- The part of an expression at a place. -/
def at? (x : Expr) : Place → Option Expr
  | [] => some x
  | i :: p => x.parts[i]?.bind fun y => y.at? p

/-- One place comes before another one in post-order: what is inside an expression before the
expression, and otherwise what is further left before what is further right. -/
inductive Place.Before : Place → Place → Prop
  | inside (i : Nat) (p : Place) : Before (i :: p) []
  | left {i j : Nat} (hij : i < j) (p q : Place) : Before (i :: p) (j :: q)
  | under (i : Nat) {p q : Place} (h : Before p q) : Before (i :: p) (i :: q)

mutual

/-- The places of an expression, in post-order. -/
def places : Expr → List Place
  | name .. | function .. => [[]]
  | select _ subject _ _ => subject.places.map (0 :: ·) ++ [[]]
  | index _ subject key _ => subject.places.map (0 :: ·) ++ key.places.map (1 :: ·) ++ [[]]
  | instantiate _ subject args => subject.places.map (0 :: ·) ++ placesFrom 1 args ++ [[]]
  | call _ _ callee args => callee.places.map (0 :: ·) ++ placesFrom 1 args ++ [[]]
  | paren _ inner => inner.places.map (0 :: ·) ++ [[]]
  | assertType _ subject type => subject.places.map (0 :: ·) ++ placesOfOption 1 type ++ [[]]
  | compound _ parts => placesFrom 0 parts ++ [[]]

/-- The places in parts that are numbered from a number on. -/
def placesFrom (i : Nat) : List Expr → List Place
  | [] => []
  | y :: rest => y.places.map (i :: ·) ++ placesFrom (i + 1) rest

/-- The places in a part with a number, if there is one. -/
def placesOfOption (i : Nat) : Option Expr → List Place
  | none => []
  | some y => y.places.map (i :: ·)

end

variable {x y : Expr} {p q : Place}

theorem placesOfOption_eq
    (i : Nat) (type : Option Expr) :
    placesOfOption i type = placesFrom i type.toList := by
  cases type <;> simp [placesOfOption, placesFrom]

/-- The places of an expression are those in its parts, and then its own. -/
theorem places_eq
    (x : Expr) :
    x.places = placesFrom 0 x.parts ++ [[]] := by
  cases x <;> simp [places, placesFrom, parts, placesOfOption_eq]

theorem mem_placesFrom_iff
    {i : Nat} {ys : List Expr} :
    p ∈ placesFrom i ys ↔ ∃ j y q, ys[j]? = some y ∧ q ∈ y.places ∧ p = (i + j) :: q := by
  induction ys generalizing i with
  | nil => simp [placesFrom]
  | cons y rest ih =>
      rw [placesFrom, List.mem_append, List.mem_map, ih]
      constructor
      · rintro (⟨q, hq, rfl⟩ | ⟨j, z, q, hz, hq, rfl⟩)
        · exact ⟨0, y, q, rfl, hq, rfl⟩
        · exact ⟨j + 1, z, q, hz, hq, by rw [Nat.add_right_comm, Nat.add_assoc]⟩
      · rintro ⟨j, z, q, hz, hq, rfl⟩
        cases j with
        | zero =>
            obtain rfl := Option.some.inj hz
            exact Or.inl ⟨q, hq, rfl⟩
        | succ j => exact Or.inr ⟨j, z, q, hz, hq, by rw [Nat.add_right_comm, Nat.add_assoc]⟩

/-- The places of an expression are those at which it has a part. -/
theorem mem_places_iff :
    p ∈ x.places ↔ (x.at? p).isSome := by
  induction x using parts_induction generalizing p with
  | step x ih =>
      rw [places_eq, List.mem_append, mem_placesFrom_iff, List.mem_singleton]
      cases p with
      | nil => simp [at?]
      | cons i p =>
          rw [at?]
          constructor
          · rintro (⟨j, y, q, hy, hq, heq⟩ | hnil)
            · obtain ⟨rfl, rfl⟩ := List.cons.inj heq
              rw [Nat.zero_add, hy, Option.bind_some]
              exact (ih y (List.mem_of_getElem? hy)).mp hq
            · exact absurd hnil (List.cons_ne_nil i p)
          · intro h
            cases hy : x.parts[i]? with
            | none => simp [hy] at h
            | some y =>
                rw [hy, Option.bind_some] at h
                exact Or.inl ⟨i, y, p, hy, (ih y (List.mem_of_getElem? hy)).mpr h,
                  by rw [Nat.zero_add]⟩

theorem pairwise_placesFrom
    {i : Nat} {ys : List Expr}
    (h : ∀ y ∈ ys, y.places.Pairwise Place.Before) :
    (placesFrom i ys).Pairwise Place.Before := by
  induction ys generalizing i with
  | nil => exact List.Pairwise.nil
  | cons y rest ih =>
      rw [placesFrom]
      refine List.pairwise_append.mpr ⟨?_, ih fun z hz => h z (List.mem_cons_of_mem y hz), ?_⟩
      · exact (h y List.mem_cons_self).map (i :: ·) fun _ _ => Place.Before.under i
      · intro p hp q hq
        obtain ⟨p, -, rfl⟩ := List.mem_map.mp hp
        obtain ⟨j, z, q, -, -, rfl⟩ := mem_placesFrom_iff.mp hq
        exact .left (by omega) p q

/-- The places of an expression are listed in post-order. -/
theorem pairwise_places
    (x : Expr) :
    x.places.Pairwise Place.Before := by
  induction x using parts_induction with
  | step x ih =>
      rw [places_eq]
      refine List.pairwise_append.mpr ⟨pairwise_placesFrom ih, List.pairwise_singleton _ _, ?_⟩
      intro p hp q hq
      obtain ⟨j, y, p, -, -, rfl⟩ := mem_placesFrom_iff.mp hp
      obtain rfl := List.mem_singleton.mp hq
      exact .inside _ p

/-- What is found at the places of numbered parts is found part by part. -/
theorem filterMap_placesFrom
    {β : Type} (f : Place → Option β) (g : Expr → Place → Option β)
    {i : Nat} {ys : List Expr}
    (h : ∀ j y q, ys[j]? = some y → f ((i + j) :: q) = g y q) :
    (placesFrom i ys).filterMap f = ys.flatMap fun y => y.places.filterMap (g y) := by
  induction ys generalizing i with
  | nil => rfl
  | cons y rest ih =>
      rw [placesFrom, List.filterMap_append, List.filterMap_map, List.flatMap_cons]
      congr 1
      · exact List.filterMap_congr fun q _ => h 0 y q rfl
      · refine ih fun j z q hz => ?_
        rw [← h (j + 1) z q hz, Nat.add_right_comm, Nat.add_assoc]

end Places

end Expr

section Visits

/-- The parts of an expression with what they are to it.  An expression between parentheses is what
the whole is to the expression around it. -/
def Expr.roles (role : Role) : Expr → List (Role × Expr)
  | .select _ subject _ selection =>
    [(if role = .callee && selection.any (·.kind = .method) then .argument else .plain, subject)]
  | .call _ conversion callee args =>
    (if conversion then .plain else .callee, callee) ::
      args.map fun x => (if conversion then .plain else .argument, x)
  | .paren _ inner => [(role, inner)]
  | x => x.parts.map fun y => (.plain, y)

theorem Expr.map_snd_roles
    (role : Role) (x : Expr) :
    (x.roles role).map Prod.snd = x.parts := by
  cases x <;> simp [roles, parts, Function.comp_def]

theorem Expr.mem_parts_of_mem_roles
    {role : Role} {x : Expr} {part : Role × Expr}
    (hpart : part ∈ x.roles role) :
    part.2 ∈ x.parts := by
  rw [← map_snd_roles role x]
  exact List.mem_map_of_mem hpart

namespace Scope

/-- What entering an expression contributes, before its parts. -/
def entering (c : Scope) (role : Role) : Expr → List Effect
  | .name _ _ symbol => if role = .argument then [] else useOf (symbol.bind c.local?)
  | .select _ _ _ selection => useOf (selection.bind c.field?)
  | .index _ _ _ type => useOf (type.bind c.element?)
  | _ => []

/-- What leaving an expression contributes, after its parts. -/
def leaving (c : Scope) : Expr → List Effect
  | .select _ _ member _ => useOf (member.bind c.local?)
  | .call _ conversion callee args => c.callEffects conversion callee args
  | _ => []

variable {c : Scope}

theorem partEffects_eq
    (role : Role) (xs : List Expr) :
    c.partEffects role xs = xs.flatMap (c.exprEffects role) := by
  induction xs with
  | nil => simp [partEffects]
  | cons x rest ih => rw [partEffects, ih, List.flatMap_cons]

theorem optEffects_eq
    (x : Option Expr) :
    c.optEffects x = x.toList.flatMap (c.exprEffects .plain) := by
  cases x <;> simp [optEffects]

/-- A visit enters the expression, visits its parts and leaves it. -/
theorem exprEffects_eq
    (role : Role) (x : Expr) :
    c.exprEffects role x =
      c.entering role x ++ ((x.roles role).flatMap fun y => c.exprEffects y.1 y.2) ++
        c.leaving x := by
  cases x <;>
    simp [exprEffects, entering, leaving, Expr.roles, Expr.parts, partEffects_eq, optEffects_eq,
      List.flatMap_map]

end Scope

end Visits

end Source
end DefUse
