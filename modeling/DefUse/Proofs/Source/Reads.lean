import DefUse.Source.Model
import DefUse.Proofs.Source.Parts

/-!
# Reads of local variables

A name that is the receiver or an argument of a call is no use of the node: the variable is among
what the call passes, or it is read when the call of one of the language's own functions is left.

**Method.** A role keeps at most one name of an expression from being read: the one that the
expression is, or the one whose method it is.  What is kept from a part is either kept from the
whole, or taken when the whole is left.  So by induction on parts, what is taken and what is kept
from an expression are together the variables whose names occur in it.

**Results.**
* `Scope.taken_or_withheld_iff`: what the visit of an expression takes, and what is kept from it.
* `Scope.sites_exprEffects`: the call sites of a visit are those of the calls, in post-order.
-/

namespace DefUse

/-- A plain variable: local, and not the one that stands for anything else. -/
def Variable.IsPlain (v : Variable) : Prop := v.isLocal = true ∧ v.isZero = false

/-- The node reads a plain variable or passes it to a call. -/
def Node.Takes (n : Node) (v : Variable) : Prop :=
  v.IsPlain ∧ (v ∈ n.uses ∨ ∃ site ∈ n.calls, v ∈ site.args)

namespace Source

section Effects

variable {v : Variable} {n : Node} {effects : List Effect}

/-- The effect reads a variable or passes it to a call. -/
def Effect.Takes (v : Variable) : Effect → Prop
  | .use w => w = v
  | .call _ args => v ∈ args
  | _ => False

/-- The call site that an effect records. -/
def Effect.site? : Effect → Option CallSite
  | .call callee args => some ⟨callee, args⟩
  | _ => none

/-- An effect adds its call, if it is one. -/
theorem calls_absorb
    (n : Node) (e : Effect) :
    (n.absorb e).calls = n.calls ++ e.site?.toList := by
  cases e with
  | use w =>
      simp only [Node.absorb, Node.useOnce]
      split <;> simp [Node.use, Effect.site?]
  | define w =>
      simp only [Node.absorb, Node.defineOnce]
      split <;> simp [Node.define, Effect.site?]
  | call callee args => rfl
  | mention type => simp [Node.absorb, Effect.site?]

/-- An effect adds the variable that it reads, if it reads one. -/
theorem mem_uses_absorb
    (n : Node) (e : Effect) :
    v ∈ (n.absorb e).uses ↔ v ∈ n.uses ∨ e = .use v := by
  cases e with
  | use w =>
      simp only [Node.absorb, Node.useOnce, Effect.use.injEq]
      split
      · rename_i hw
        constructor
        · exact Or.inl
        · rintro (hv | rfl)
          · exact hv
          · exact hw
      · simp [Node.use, eq_comm]
  | define w =>
      simp only [Node.absorb, Node.defineOnce]
      split <;> simp [Node.define]
  | call callee args => simp [Node.absorb, Node.call]
  | mention type => simp [Node.absorb]

/-- The calls of a node are those of its effects, in order. -/
theorem calls_foldl_absorb
    (effects : List Effect) (n : Node) :
    (effects.foldl Node.absorb n).calls = n.calls ++ effects.filterMap Effect.site? := by
  induction effects generalizing n with
  | nil => simp
  | cons e rest ih =>
      rw [List.foldl_cons, ih, calls_absorb, List.append_assoc, List.filterMap_cons]
      cases e.site? <;> rfl

/-- The variables that a node reads are those that its effects read. -/
theorem mem_uses_foldl_absorb
    (effects : List Effect) (n : Node) :
    v ∈ (effects.foldl Node.absorb n).uses ↔ v ∈ n.uses ∨ .use v ∈ effects := by
  induction effects generalizing n with
  | nil => simp
  | cons e rest ih => rw [List.foldl_cons, ih, mem_uses_absorb, List.mem_cons, or_assoc, eq_comm]

/-- Some of the effects read a variable or pass it to a call. -/
def Taken (effects : List Effect) (v : Variable) : Prop := ∃ e ∈ effects, e.Takes v

@[simp] theorem taken_nil :
    ¬ Taken [] v := by
  simp [Taken]

/-- What is taken by effects together is taken by some of them. -/
@[simp] theorem taken_append
    {others : List Effect} :
    Taken (effects ++ others) v ↔ Taken effects v ∨ Taken others v := by
  simp [Taken, or_and_right, exists_or]

@[simp] theorem taken_flatMap
    {α : Type} {items : List α} {f : α → List Effect} :
    Taken (items.flatMap f) v ↔ ∃ a ∈ items, Taken (f a) v := by
  simp only [Taken, List.mem_flatMap]
  constructor
  · rintro ⟨e, ⟨a, ha, he⟩, hv⟩
    exact ⟨a, ha, e, he, hv⟩
  · rintro ⟨a, ha, e, he, hv⟩
    exact ⟨e, ⟨a, ha, he⟩, hv⟩

/-- A call takes its arguments. -/
@[simp] theorem taken_call
    {callee : String} {args : List Variable} :
    Taken [.call callee args] v ↔ v ∈ args := by
  simp [Taken, Effect.Takes]

/-- What a node takes after effects on a node that takes nothing. -/
theorem takes_foldl_absorb_iff
    (huses : n.uses = [])
    (hcalls : n.calls = []) :
    (effects.foldl Node.absorb n).Takes v ↔ v.IsPlain ∧ Taken effects v := by
  rw [Node.Takes, calls_foldl_absorb, mem_uses_foldl_absorb, huses, hcalls, List.nil_append]
  refine and_congr_right fun _ => ?_
  simp only [List.not_mem_nil, false_or, List.mem_filterMap]
  constructor
  · rintro (huse | ⟨site, ⟨e, he, hsite⟩, hv⟩)
    · exact ⟨_, huse, rfl⟩
    · cases e with
      | call callee args =>
          obtain rfl := Option.some.inj hsite
          exact ⟨_, he, hv⟩
      | use | define | mention => exact absurd hsite (by simp [Effect.site?])
  · rintro ⟨e, he, hv⟩
    cases e with
    | use w =>
        obtain rfl : w = v := hv
        exact Or.inl he
    | call callee args => exact Or.inr ⟨⟨callee, args⟩, ⟨_, he, rfl⟩, hv⟩
    | define | mention => exact absurd hv not_false

end Effects

namespace Expr

variable {x y : Expr} {P : Expr → Prop}

/-- The symbol of the identifier that an expression is or picks. -/
def identifier : Expr → Option Symbol
  | name _ _ symbol => symbol
  | select _ _ member _ => member
  | _ => none

/-- The expression is a name that stands where its variable is declared.  Outside function literals
these are the names that types give to parameters. -/
def isDeclaration : Expr → Bool
  | name pos _ (some (.variable _ declared _)) => pos = declared
  | _ => false

/-- What some part of an expression is, the expression is or a part of one of its parts. -/
theorem exists_at?_iff :
    (∃ p y, x.at? p = some y ∧ P y) ↔ P x ∨ ∃ y ∈ x.parts, ∃ p z, y.at? p = some z ∧ P z := by
  constructor
  · rintro ⟨p, z, hz, hP⟩
    cases p with
    | nil =>
        obtain rfl := Option.some.inj hz
        exact Or.inl hP
    | cons i p =>
        obtain ⟨y, hy, hz⟩ := Option.bind_eq_some_iff.mp hz
        exact Or.inr ⟨y, List.mem_of_getElem? hy, p, z, hz, hP⟩
  · rintro (hP | ⟨y, hy, p, z, hz, hP⟩)
    · exact ⟨[], x, rfl, hP⟩
    · obtain ⟨i, hi⟩ := List.mem_iff_getElem?.mp hy
      exact ⟨i :: p, z, by rw [at?, hi]; exact hz, hP⟩

/-- The parts of an expression are found at its places. -/
theorem exists_at?_iff_mem :
    (∃ p y, x.at? p = some y ∧ P y) ↔ ∃ y ∈ x.places.filterMap x.at?, P y := by
  simp only [List.mem_filterMap, mem_places_iff]
  constructor
  · rintro ⟨p, y, hy, hP⟩
    exact ⟨y, ⟨p, by rw [hy]; rfl, hy⟩, hP⟩
  · rintro ⟨y, ⟨p, -, hy⟩, hP⟩
    exact ⟨p, y, hy, hP⟩

end Expr

namespace Scope

variable {c : Scope} {role : Role} {x y : Expr} {v : Variable}

section Occurrences

/-- An identifier that occurs in the expression, outside function literals, is that of a local
variable or parameter. -/
def Occurs (c : Scope) (x : Expr) (v : Variable) : Prop :=
  ∃ p y, x.at? p = some y ∧ y.identifier.bind c.local? = some v

/-- The expression refers, outside function literals, to a local variable or parameter that is
declared elsewhere. -/
def RefersTo (c : Scope) (x : Expr) (v : Variable) : Prop :=
  ∃ p y, x.at? p = some y ∧ ¬ y.isDeclaration ∧ y.identifier.bind c.local? = some v

/-- The expression declares a variable outside function literals: a type in it names a parameter. -/
def Declares (c : Scope) (x : Expr) (v : Variable) : Prop :=
  ∃ p y, x.at? p = some y ∧ y.isDeclaration ∧ y.identifier.bind c.local? = some v

instance : Decidable (c.RefersTo x v) := decidable_of_iff _ Expr.exists_at?_iff_mem.symm

instance : Decidable (c.Declares x v) := decidable_of_iff _ Expr.exists_at?_iff_mem.symm

/-- A variable occurs where it is read or where it is declared. -/
theorem occurs_iff_refersTo_or_declares :
    c.Occurs x v ↔ c.RefersTo x v ∨ c.Declares x v := by
  constructor
  · rintro ⟨p, y, hy, hv⟩
    by_cases hdeclares : y.isDeclaration
    · exact Or.inr ⟨p, y, hy, hdeclares, hv⟩
    · exact Or.inl ⟨p, y, hy, hdeclares, hv⟩
  · rintro (⟨p, y, hy, -, hv⟩ | ⟨p, y, hy, -, hv⟩) <;> exact ⟨p, y, hy, hv⟩

/-- A variable occurs in an expression that is its identifier, or in a part. -/
theorem occurs_iff :
    c.Occurs x v ↔ x.identifier.bind c.local? = some v ∨ ∃ y ∈ x.parts, c.Occurs y v :=
  Expr.exists_at?_iff

end Occurrences

section Variables

/-- A symbol that is local stands for a plain variable. -/
theorem isPlain_of_local?
    {s : Symbol}
    (h : c.local? s = some v) :
    v.IsPlain := by
  unfold local? at h
  split at h
  · rename_i name pos isField
    split at h
    · exact absurd h (by simp)
    · rename_i hnot
      obtain rfl := Option.some.inj h
      have hname : name ≠ "" := by
        rintro rfl
        simp at hnot
      exact ⟨rfl, by simp [Variable.isZero, Variable.zero, localAt, Variable.ofLocal, hname]⟩
  · exact absurd h (by simp)

theorem field?_ne
    (hv : v.IsPlain) (s : Selection) :
    c.field? s ≠ some v := by
  rintro h
  unfold field? at h
  split at h
  · exact absurd h (by simp)
  · obtain ⟨owner, -, rfl⟩ := Option.map_eq_some_iff.mp h
    exact absurd hv.1
      (by simp [Variable.isLocal, Variable.ofField, VarKind.field, VarKind.localVar])

theorem element?_ne
    (hv : v.IsPlain) (type : TypeId) :
    c.element? type ≠ some v := by
  intro h
  obtain ⟨t, -, rfl⟩ := Option.map_eq_some_iff.mp h
  exact absurd hv.1
    (by simp [Variable.isLocal, Variable.ofElement, VarKind.element, VarKind.localVar])

@[simp] theorem taken_useOf
    {o : Option Variable} :
    Taken (useOf o) v ↔ o = some v := by
  cases o <;> simp [useOf, Taken, Effect.Takes]

/-- A plain variable is an argument exactly if the argument is the variable. -/
theorem argument_eq_iff
    (hv : v.IsPlain) (x : Expr) :
    v = c.argument x ↔ c.localOf? x = some v := by
  unfold argument
  cases c.localOf? x with
  | none =>
      have hne : v ≠ .zero := by
        rintro rfl
        exact absurd hv.2 (by simp [Variable.isZero])
      simp [hne]
  | some w => simp [eq_comm]

/-- An access to an object takes no plain variable. -/
theorem not_taken_objectAccess
    (hv : v.IsPlain) (s : Selection) :
    ¬ Taken (c.objectAccess s) v := by
  have hobject : ∀ text flag, Variable.ofObject text flag ≠ v := by
    rintro text flag rfl
    exact absurd hv.1
      (by simp [Variable.isLocal, Variable.ofObject, VarKind.object, VarKind.localVar])
  unfold objectAccess
  split
  · split
    · simp
    · split <;> simp [Taken, Effect.Takes, hobject]
  · simp

end Variables

section Withheld

/-- The variable whose name a role keeps from being read: that of an argument, and that of the
receiver of what is called. -/
def withheld? (c : Scope) : Role → Expr → Option Variable
  | .plain, _ => none
  | .argument, x => c.localOf? x
  | .callee, x => x.receiver?.bind fun y => c.localOf? y.1

/-- The language's own functions have no receiver. -/
theorem receiver?_of_builtin?
    {callee : Expr}
    (h : callee.builtin?.isSome = true) :
    callee.receiver? = none := by
  unfold Expr.builtin? Expr.symbol? at h
  unfold Expr.receiver?
  cases hbare : callee.bare with
  | select pos subject member selection =>
      rw [hbare] at h
      exact absurd h (by simp)
  | _ => rfl

/-- A call takes what was kept from its receiver and from its arguments. -/
theorem taken_callEffects_iff
    (hv : v.IsPlain) (callee : Expr) (args : List Expr) :
    Taken (c.callEffects false callee args) v ↔
      c.withheld? .callee callee = some v ∨ ∃ x ∈ args, c.withheld? .argument x = some v := by
  have hargs : v ∈ args.map c.argument ↔ ∃ x ∈ args, c.localOf? x = some v := by
    rw [List.mem_map]
    exact exists_congr fun x => and_congr_right fun _ => eq_comm.trans (argument_eq_iff hv x)
  unfold callEffects
  simp only [Bool.false_eq_true, if_false, withheld?]
  split
  · rename_i hbuiltin
    simp [receiver?_of_builtin? hbuiltin]
  · cases hreceiver : callee.receiver? with
    | none => simpa using hargs
    | some y =>
        have haccess := iff_false_intro (@not_taken_objectAccess c v hv y.2)
        simp only [taken_append, haccess, taken_call, List.mem_cons, argument_eq_iff hv, hargs,
          false_or, Option.bind_some]

/-- Parentheses are looked through. -/
theorem withheld?_paren
    (role : Role) (pos : Int) (inner : Expr) :
    c.withheld? role (.paren pos inner) = c.withheld? role inner := by
  cases role <;> rfl

/-- What is kept from a selection that is called is its subject. -/
theorem withheld?_select
    (pos : Int) (subject : Expr) (member : Option Symbol) (selection : Option Selection) :
    c.withheld? .callee (.select pos subject member selection) =
      if selection.any (·.kind = .method) then c.localOf? subject else none := by
  cases selection with
  | none => rfl
  | some s =>
      by_cases hmethod : s.kind = .method <;>
        simp [withheld?, Expr.receiver?, Expr.bare, hmethod]

/-- What is kept from a part is kept from the whole, or taken when the whole is left. -/
theorem withheld?_of_mem_roles
    (hv : v.IsPlain)
    {part : Role × Expr}
    (hpart : part ∈ x.roles role)
    (h : c.withheld? part.1 part.2 = some v) :
    c.withheld? role x = some v ∨ Taken (c.leaving x) v := by
  have hplain : ∀ parts : List Expr, part ∉ parts.map fun y => (.plain, y) := by
    intro parts hmem
    obtain ⟨y, -, rfl⟩ := List.mem_map.mp hmem
    exact absurd h (by simp [withheld?])
  cases x with
  | select pos subject member selection =>
      obtain rfl := List.mem_singleton.mp hpart
      dsimp only at h
      split at h
      · rename_i hcalled
        simp only [Bool.and_eq_true, decide_eq_true_eq] at hcalled
        left
        rw [hcalled.1, withheld?_select, if_pos hcalled.2]
        exact h
      · exact absurd h (by simp [withheld?])
  | call pos conversion callee args =>
      cases conversion with
      | true => exact absurd hpart (hplain (callee :: args))
      | false =>
          right
          refine (taken_callEffects_iff hv callee args).mpr ?_
          rcases List.mem_cons.mp hpart with rfl | hpart
          · exact Or.inl h
          · obtain ⟨y, hy, rfl⟩ := List.mem_map.mp hpart
            exact Or.inr ⟨y, hy, h⟩
  | paren pos inner =>
      obtain rfl := List.mem_singleton.mp hpart
      left
      rw [withheld?_paren]
      exact h
  | _ => exact absurd hpart (hplain _)

/-- What a role keeps from an expression is its own variable or kept from one of its parts. -/
theorem withheld?_cases
    (h : c.withheld? role x = some v) :
    x.identifier.bind c.local? = some v ∨
      ∃ part ∈ x.roles role, c.withheld? part.1 part.2 = some v := by
  cases x with
  | paren pos inner =>
      rw [withheld?_paren] at h
      exact Or.inr ⟨(role, inner), List.mem_singleton_self _, h⟩
  | name pos text symbol =>
      cases role with
      | argument => exact Or.inl h
      | plain | callee => exact absurd h (by simp [withheld?, Expr.receiver?, Expr.bare])
  | select pos subject member selection =>
      cases role with
      | callee =>
          rw [withheld?_select] at h
          split at h
          · rename_i hmethod
            refine Or.inr ⟨(.argument, subject), ?_, h⟩
            simp [Expr.roles, hmethod]
          · exact absurd h (by simp)
      | plain | argument =>
          exact absurd h (by simp [withheld?, localOf?, Expr.symbol?, Expr.bare])
  | _ =>
      cases role <;>
        exact absurd h (by simp [withheld?, localOf?, Expr.symbol?, Expr.receiver?, Expr.bare])

end Withheld

section Visits

/-- What entering an expression takes is its own variable. -/
theorem own_of_taken_entering
    (hv : v.IsPlain)
    (h : Taken (c.entering role x) v) :
    x.identifier.bind c.local? = some v := by
  cases x with
  | name pos text symbol =>
      rw [entering] at h
      split at h
      · exact absurd h taken_nil
      · exact taken_useOf.mp h
  | select pos subject member selection =>
      obtain ⟨s, -, hs⟩ := Option.bind_eq_some_iff.mp (taken_useOf.mp h)
      exact absurd hs (field?_ne hv s)
  | index pos subject key type =>
      obtain ⟨t, -, ht⟩ := Option.bind_eq_some_iff.mp (taken_useOf.mp h)
      exact absurd ht (element?_ne hv t)
  | _ => exact absurd h taken_nil

/-- What leaving an expression takes is its own variable or was kept from one of its parts. -/
theorem taken_leaving_cases
    (hv : v.IsPlain) (role : Role)
    (h : Taken (c.leaving x) v) :
    x.identifier.bind c.local? = some v ∨
      ∃ part ∈ x.roles role, c.withheld? part.1 part.2 = some v := by
  cases x with
  | select pos subject member selection => exact Or.inl (taken_useOf.mp h)
  | call pos conversion callee args =>
      cases conversion with
      | true => exact absurd h taken_nil
      | false =>
          right
          rcases (taken_callEffects_iff hv callee args).mp h with hcallee | ⟨y, hy, hkept⟩
          · exact ⟨(.callee, callee), List.mem_cons_self, hcallee⟩
          · exact ⟨(.argument, y), List.mem_cons_of_mem _ (List.mem_map_of_mem hy), hkept⟩
  | _ => exact absurd h taken_nil

/-- The variable of an expression's own identifier is taken, unless its role keeps it. -/
theorem taken_of_own
    (role : Role)
    (h : x.identifier.bind c.local? = some v) :
    Taken (c.entering role x) v ∨ Taken (c.leaving x) v ∨ c.withheld? role x = some v := by
  cases x with
  | name pos text symbol =>
      by_cases hrole : role = .argument
      · subst hrole
        exact Or.inr (Or.inr h)
      · left
        rw [entering, if_neg hrole]
        exact taken_useOf.mpr h
  | select pos subject member selection => exact Or.inr (Or.inl (taken_useOf.mpr h))
  | _ => exact absurd h (by simp [Expr.identifier])

/-- What the visit of an expression takes, and what its role keeps from it, are together the
variables whose names occur in it. -/
theorem taken_or_withheld_iff
    (hv : v.IsPlain) (role : Role) (x : Expr) :
    Taken (c.exprEffects role x) v ∨ c.withheld? role x = some v ↔ c.Occurs x v := by
  induction x using Expr.parts_induction generalizing role with
  | step x ih =>
      have hpart : ∀ part ∈ x.roles role,
          Taken (c.exprEffects part.1 part.2) v ∨ c.withheld? part.1 part.2 = some v ↔
            c.Occurs part.2 v :=
        fun part hpart => ih part.2 (Expr.mem_parts_of_mem_roles hpart) part.1
      have hown : x.identifier.bind c.local? = some v → c.Occurs x v :=
        fun h => occurs_iff.mpr (Or.inl h)
      have hinside : ∀ part ∈ x.roles role, c.Occurs part.2 v → c.Occurs x v :=
        fun part hpart h => occurs_iff.mpr (Or.inr ⟨_, Expr.mem_parts_of_mem_roles hpart, h⟩)
      have hkept : (∃ part ∈ x.roles role, c.withheld? part.1 part.2 = some v) → c.Occurs x v := by
        rintro ⟨part, hmem, h⟩
        exact hinside part hmem ((hpart part hmem).mp (Or.inr h))
      rw [exprEffects_eq, taken_append, taken_append, taken_flatMap]
      constructor
      · rintro (((h | ⟨part, hmem, h⟩) | h) | h)
        · exact hown (own_of_taken_entering hv h)
        · exact hinside part hmem ((hpart part hmem).mp (Or.inl h))
        · exact (taken_leaving_cases hv role h).elim hown hkept
        · exact (withheld?_cases h).elim hown hkept
      · intro h
        rcases occurs_iff.mp h with h | ⟨y, hy, h⟩
        · rcases taken_of_own role h with h | h | h
          · exact Or.inl (Or.inl (Or.inl h))
          · exact Or.inl (Or.inr h)
          · exact Or.inr h
        · rw [← Expr.map_snd_roles role x] at hy
          obtain ⟨part, hmem, rfl⟩ := List.mem_map.mp hy
          rcases (hpart part hmem).mpr h with h | h
          · exact Or.inl (Or.inl (Or.inr ⟨part, hmem, h⟩))
          · rcases withheld?_of_mem_roles hv hmem h with h | h
            · exact Or.inr h
            · exact Or.inl (Or.inr h)

/-- Nothing is kept from an expression on its own: its visit takes all variables whose names occur
in it. -/
theorem taken_iff_occurs
    (x : Expr) :
    v.IsPlain ∧ Taken (c.exprEffects .plain x) v ↔ c.Occurs x v := by
  constructor
  · rintro ⟨hv, h⟩
    exact (taken_or_withheld_iff hv .plain x).mp (Or.inl h)
  · intro h
    obtain ⟨p, y, -, hy⟩ := id h
    obtain ⟨s, -, hs⟩ := Option.bind_eq_some_iff.mp hy
    have hv := isPlain_of_local? hs
    refine ⟨hv, ((taken_or_withheld_iff hv .plain x).mpr h).resolve_right ?_⟩
    simp [withheld?]

end Visits

section Sites

/-- The call site of a call of a function or method, with what is passed for its receiver and its
arguments.  Conversions and calls of the language's own functions have none. -/
def site? (c : Scope) : Expr → Option CallSite
  | .call _ false callee args =>
    if callee.builtin?.isSome then none
    else some
      { callee := ((c.callee? callee).map Function.generic).getD ""
        args := ((callee.receiver?.map Prod.fst).toList ++ args).map c.argument }
  | _ => none

theorem sites_useOf
    (o : Option Variable) :
    (useOf o).filterMap Effect.site? = [] := by
  cases o <;> rfl

theorem sites_entering
    (role : Role) (x : Expr) :
    (c.entering role x).filterMap Effect.site? = [] := by
  cases x with
  | name pos text symbol =>
      rw [entering]
      split
      · rfl
      · exact sites_useOf _
  | select pos subject member selection => exact sites_useOf _
  | index pos subject key type => exact sites_useOf _
  | _ => rfl

theorem sites_objectAccess
    (s : Selection) :
    (c.objectAccess s).filterMap Effect.site? = [] := by
  unfold objectAccess
  split
  · split
    · rfl
    · split <;> rfl
  · rfl

/-- Leaving an expression records its call site, if it has one. -/
theorem sites_leaving
    (x : Expr) :
    (c.leaving x).filterMap Effect.site? = (c.site? x).toList := by
  cases x with
  | select pos subject member selection => exact sites_useOf _
  | call pos conversion callee args =>
      cases conversion with
      | true => rfl
      | false =>
          simp only [leaving, callEffects, site?, Bool.false_eq_true, if_false]
          split
          · rw [List.filterMap_flatMap]
            simp [sites_useOf]
          · cases callee.receiver? with
            | none => rfl
            | some y =>
                rw [List.filterMap_append, sites_objectAccess]
                rfl
  | _ => rfl

/-- The call sites of a visit are those of the calls, in post-order. -/
theorem sites_exprEffects
    (role : Role) (x : Expr) :
    (c.exprEffects role x).filterMap Effect.site? =
      x.places.filterMap fun p => (x.at? p).bind c.site? := by
  induction x using Expr.parts_induction generalizing role with
  | step x ih =>
      have hparts : ((x.roles role).flatMap fun part => c.exprEffects part.1 part.2).filterMap
            Effect.site? =
          x.parts.flatMap fun y => y.places.filterMap fun p => (y.at? p).bind c.site? := by
        rw [List.filterMap_flatMap, ← Expr.map_snd_roles role x, List.flatMap_map]
        exact List.flatMap_congr fun part hpart =>
          ih part.2 (Expr.mem_parts_of_mem_roles hpart) part.1
      have hplaces : (Expr.placesFrom 0 x.parts).filterMap (fun p => (x.at? p).bind c.site?) =
          x.parts.flatMap fun y => y.places.filterMap fun p => (y.at? p).bind c.site? := by
        refine Expr.filterMap_placesFrom _ (fun y p => (y.at? p).bind c.site?) ?_
        intro j y q hy
        rw [Expr.at?, Nat.zero_add, hy, Option.bind_some]
      rw [exprEffects_eq, List.filterMap_append, List.filterMap_append, sites_entering, hparts,
        sites_leaving, Expr.places_eq, List.filterMap_append, hplaces, List.nil_append]
      rfl

end Sites

end Scope

end Source
end DefUse
