import DefUse.Program.Point
import Mathlib.Data.Prod.Lex
import Mathlib.Data.String.Basic
import Mathlib.Order.BoundedOrder.Basic

/-!
# The orders of variables, points, definitions and uses

**Method.** Each comparison looks at one component after the other.  The components of a value
make up its key, and keys are ordered lexicographically by the standard library.

**Results.** `Variable.less_iff`, `Point.less_iff`, `Def.less_iff` and `Use.less_iff`: a value comes
before another one exactly if its key is less; the key determines the value.
-/

namespace DefUse

/-- A comparison that looks at a first component, and at the rest where the first components
agree, compares pairs of keys. -/
theorem lexicographic_iff
    {α κ μ : Type} [DecidableEq α] [LinearOrder κ] [LinearOrder μ]
    {f : α → κ} {x y : α} {first rest : Bool} {s t : μ}
    (hf : Function.Injective f)
    (hfirst : first = true ↔ f x < f y)
    (hrest : rest = true ↔ s < t) :
    (if x ≠ y then first else rest) = true ↔ toLex (f x, s) < toLex (f y, t) := by
  rw [Prod.Lex.toLex_lt_toLex]
  by_cases hxy : x = y
  · subst hxy
    simp [hrest]
  · have hne : f x ≠ f y := fun h => hxy (hf h)
    simp [hxy, hfirst, hne]

theorem not_and_iff_lt
    (a b : Bool) :
    (!a && b) = true ↔ a < b := by
  cases a <;> cases b <;> decide

theorem octet_less_iff
    (a b : UInt8) :
    decide (a < b) = true ↔ a.toNat < b.toNat := by
  rw [decide_eq_true_eq]
  exact UInt8.lt_iff_toNat_lt

theorem VarKind.code_injective :
    Function.Injective fun k : VarKind => k.code.toNat := by
  intro k l h
  cases k
  cases l
  simpa using UInt8.toNat_inj.mp h

theorem UseKind.code_injective :
    Function.Injective fun k : UseKind => k.code.toNat := by
  intro k l h
  cases k
  cases l
  simpa using UInt8.toNat_inj.mp h

namespace Variable

/-- The components of a variable in the order of comparison. -/
def key (v : Variable) : Nat ×ₗ String ×ₗ String ×ₗ Bool :=
  toLex (v.kind.code.toNat, toLex (v.scope, toLex (v.name, v.exactType)))

theorem key_injective : Function.Injective key := by
  intro v w h
  simp only [key, EmbeddingLike.apply_eq_iff_eq, Prod.mk.injEq] at h
  obtain ⟨hkind, hscope, hname, hexact⟩ := h
  cases v
  cases w
  rw [Variable.mk.injEq]
  exact ⟨VarKind.code_injective hkind, hname, hscope, hexact⟩

theorem less_iff
    (v w : Variable) :
    v.less w = true ↔ v.key < w.key := by
  refine lexicographic_iff VarKind.code_injective (octet_less_iff _ _) ?_
  refine lexicographic_iff Function.injective_id decide_eq_true_iff ?_
  refine lexicographic_iff Function.injective_id decide_eq_true_iff ?_
  exact not_and_iff_lt _ _

end Variable

namespace Point

/-- The components of a point in the order of comparison. -/
def key (p : Point) : Int ×ₗ Int := toLex (p.proc, p.node)

theorem key_injective : Function.Injective key := by
  intro p q h
  simp only [key, EmbeddingLike.apply_eq_iff_eq, Prod.mk.injEq] at h
  cases p
  cases q
  simpa using h

theorem less_iff
    (p q : Point) :
    p.less q = true ↔ p.key < q.key :=
  lexicographic_iff Function.injective_id decide_eq_true_iff decide_eq_true_iff

end Point

namespace Def

/-- The components of a definition in the order of comparison. -/
def key (d : Def) : (Int ×ₗ Int) ×ₗ (Nat ×ₗ String ×ₗ String ×ₗ Bool) ×ₗ Bool :=
  toLex (d.site.key, toLex (d.var.key, d.constant))

theorem key_injective : Function.Injective key := by
  intro d e h
  simp only [key, EmbeddingLike.apply_eq_iff_eq, Prod.mk.injEq] at h
  obtain ⟨hsite, hvar, hconstant⟩ := h
  cases d
  cases e
  rw [Def.mk.injEq]
  exact ⟨Point.key_injective hsite, Variable.key_injective hvar, hconstant⟩

theorem less_iff
    (d e : Def) :
    d.less e = true ↔ d.key < e.key := by
  refine lexicographic_iff Point.key_injective (Point.less_iff _ _) ?_
  refine lexicographic_iff Variable.key_injective (Variable.less_iff _ _) ?_
  exact not_and_iff_lt _ _

end Def

namespace Use

/-- The components of a use in the order of comparison. -/
def key (u : Use) : (Int ×ₗ Int) ×ₗ Nat ×ₗ Int ×ₗ (Nat ×ₗ String ×ₗ String ×ₗ Bool) :=
  toLex (u.site.key, toLex (u.kind.code.toNat, toLex (u.succ, u.var.key)))

theorem key_injective : Function.Injective key := by
  intro u w h
  simp only [key, EmbeddingLike.apply_eq_iff_eq, Prod.mk.injEq] at h
  obtain ⟨hsite, hkind, hsucc, hvar⟩ := h
  cases u
  cases w
  rw [Use.mk.injEq]
  exact ⟨UseKind.code_injective hkind, Point.key_injective hsite, hsucc,
    Variable.key_injective hvar⟩

theorem less_iff
    (u w : Use) :
    u.less w = true ↔ u.key < w.key := by
  refine lexicographic_iff Point.key_injective (Point.less_iff _ _) ?_
  refine lexicographic_iff UseKind.code_injective (octet_less_iff _ _) ?_
  refine lexicographic_iff Function.injective_id decide_eq_true_iff ?_
  exact Variable.less_iff _ _

end Use

end DefUse
