import DefUse.Graph.Digraph
import DefUse.Proofs.Graph.Walk
import Mathlib.Data.List.Nodup

/-!
# Traversals of forests

In a forest every node has one parent at most and a size that is larger than the sizes of its
children.  A traversal lists the nodes below some siblings twice: in the order in which they are
entered and in the order in which they are left.

**Results.**
* `IsForest.exists_traverses`: every list of siblings has a traversal.
* `Traverses.mem_pre_iff`, `Traverses.perm` and `Traverses.nodup`: it lists what the siblings lead
  to, both times without repetitions.
* `Parted.encloses_below_iff` and its companions: how the orders of a tree and of its siblings make
  up the whole orders.
* `Traverses.reaches_iff`: one node lies below another exactly if it is entered no earlier and left
  no later.
-/

namespace DefUse
namespace Digraph

variable {α : Type}

/-- Every node has one parent at most, is listed among its children once, and is smaller. -/
structure IsForest (g : Digraph α) (size : α → Nat) : Prop where
  nodup : ∀ d, (g.succs d).Nodup
  parent_unique : ∀ {c d e}, c ∈ g.succs d → c ∈ g.succs e → d = e
  size_lt : ∀ {c d}, c ∈ g.succs d → size c < size d

/-- The nodes below some siblings, in the order of entering and in the order of leaving. -/
inductive Traverses (g : Digraph α) : List α → List α → List α → Prop where
  | nil : Traverses g [] [] []
  | cons {c : α} {rest preBelow postBelow preRest postRest : List α}
      (below : Traverses g (g.succs c) preBelow postBelow)
      (after : Traverses g rest preRest postRest) :
      Traverses g (c :: rest) (c :: (preBelow ++ preRest)) (postBelow ++ c :: postRest)

/-- What is reached from a node other than the node itself is reached from its successors. -/
theorem reaches_iff_eq_or
    {g : Digraph α} {u v : α} :
    g.Reaches u v ↔ u = v ∨ ∃ c ∈ g.succs u, g.Reaches c v := by
  constructor
  · intro h
    cases h with
    | refl _ => exact Or.inl rfl
    | step hs hrest => exact Or.inr ⟨_, hs, hrest⟩
  · rintro (rfl | ⟨c, hc, hrest⟩)
    · exact .refl u
    · exact .step hc hrest

theorem Reaches.leads
    {g : Digraph α} {u v w : α}
    (h : g.Reaches u v)
    (hw : w ∈ g.succs v) :
    g.Leads u w := by
  rcases reaches_iff_eq_or.mp h with rfl | ⟨c, hc, hcv⟩
  · exact ⟨w, hw, .refl w⟩
  · exact ⟨c, hc, hcv.trans (.single hw)⟩

/-- The last edge of the way to a node. -/
theorem Reaches.eq_or_last
    {g : Digraph α} {u v : α}
    (h : g.Reaches u v) :
    u = v ∨ ∃ w, g.Reaches u w ∧ v ∈ g.succs w := by
  induction h with
  | refl _ => exact Or.inl rfl
  | step hs _ ih =>
      right
      rcases ih with rfl | ⟨x, hx, hv⟩
      · exact ⟨_, .refl _, hs⟩
      · exact ⟨x, .step hs hx, hv⟩

namespace IsForest

variable {g : Digraph α} {size : α → Nat}

/-- Trees below a node are not larger than the one it is in. -/
theorem size_le
    (hg : g.IsForest size)
    {u v : α}
    (h : g.Reaches u v) :
    size v ≤ size u := by
  induction h with
  | refl _ => exact le_rfl
  | step hs _ ih => exact ih.trans (hg.size_lt hs).le

/-- Of two nodes above a third one, one lies above the other. -/
theorem reaches_or_reaches
    (hg : g.IsForest size)
    {u v x : α}
    (hu : g.Reaches u x)
    (hv : g.Reaches v x) :
    g.Reaches u v ∨ g.Reaches v u := by
  induction hu with
  | refl _ => exact Or.inr hv
  | @step u w x hs _ ih =>
      rcases ih hv with hwv | hvw
      · exact Or.inl (.step hs hwv)
      -- The way down to the child comes through its only parent.
      · rcases hvw.eq_or_last with rfl | ⟨y, hy, hw⟩
        · exact Or.inl (.single hs)
        · rw [hg.parent_unique hs hw]
          exact Or.inr hy

/-- Nothing lies below two siblings. -/
theorem siblings_eq
    (hg : g.IsForest size)
    {c d p x : α}
    (hc : c ∈ g.succs p)
    (hd : d ∈ g.succs p)
    (hcx : g.Reaches c x)
    (hdx : g.Reaches d x) :
    c = d := by
  have key : ∀ {c d : α}, c ∈ g.succs p → d ∈ g.succs p → g.Reaches c d → c = d := by
    intro c d hc hd hcd
    rcases hcd.eq_or_last with rfl | ⟨w, hw, hdw⟩
    · rfl
    · rw [hg.parent_unique hdw hd] at hw
      have := hg.size_le hw
      have := hg.size_lt hc
      omega
  rcases hg.reaches_or_reaches hcx hdx with hcd | hdc
  · exact key hc hd hcd
  · exact (key hd hc hdc).symm

/-- Every forest can be traversed. -/
theorem exists_traverses
    (hg : g.IsForest size)
    (bound : Nat) (siblings : List α)
    (hsize : ∀ c ∈ siblings, size c < bound) :
    ∃ pre post, g.Traverses siblings pre post := by
  -- The outer induction goes down to the children, the inner one along the siblings.
  induction bound using Nat.strong_induction_on generalizing siblings with
  | _ bound ih =>
      induction siblings with
      | nil => exact ⟨[], [], .nil⟩
      | cons c rest ihrest =>
          obtain ⟨preBelow, postBelow, hbelow⟩ :=
            ih (size c) (hsize c List.mem_cons_self) (g.succs c) fun _ hd => hg.size_lt hd
          obtain ⟨preRest, postRest, hrest⟩ :=
            ihrest fun d hd => hsize d (List.mem_cons_of_mem c hd)
          exact ⟨_, _, .cons hbelow hrest⟩

end IsForest

namespace Traverses

variable {g : Digraph α} {siblings pre post : List α} {x : α}

/-- What is entered are the nodes below the roots. -/
theorem mem_pre_iff
    (h : g.Traverses siblings pre post) :
    x ∈ pre ↔ ∃ c ∈ siblings, g.Reaches c x := by
  induction h with
  | nil => simp
  | @cons c rest preBelow postBelow preRest postRest _ _ ihbelow ihrest =>
      rw [List.mem_cons, List.mem_append, ihbelow, ihrest, List.exists_mem_cons_iff, ← or_assoc,
        reaches_iff_eq_or (u := c), eq_comm (a := x)]

/-- What lies below a listed node is listed. -/
theorem mem_pre_of_reaches
    {y : α}
    (h : g.Traverses siblings pre post)
    (hx : x ∈ pre)
    (hxy : g.Reaches x y) :
    y ∈ pre := by
  obtain ⟨c, hc, hcx⟩ := h.mem_pre_iff.mp hx
  exact h.mem_pre_iff.mpr ⟨c, hc, hcx.trans hxy⟩

/-- What is entered is left. -/
theorem perm
    (h : g.Traverses siblings pre post) :
    post.Perm pre := by
  induction h with
  | nil => exact .nil
  | cons _ _ ihbelow ihrest =>
      exact List.perm_middle.trans ((ihbelow.append ihrest).cons _)

end Traverses

/-- The siblings are different, and nothing lies below two of them. -/
structure Apart (g : Digraph α) (siblings : List α) : Prop where
  nodup : siblings.Nodup
  eq_of_reaches : ∀ c ∈ siblings, ∀ d ∈ siblings, ∀ x, g.Reaches c x → g.Reaches d x → c = d

/-- Siblings have nothing below them in common. -/
theorem IsForest.apart
    {g : Digraph α} {size : α → Nat}
    (hg : g.IsForest size)
    (c : α) :
    g.Apart (g.succs c) :=
  ⟨hg.nodup c, fun _ hd _ he _ hdx hex => hg.siblings_eq hd he hdx hex⟩

theorem apart_singleton
    (g : Digraph α) (c : α) :
    g.Apart [c] := by
  refine ⟨List.nodup_singleton c, ?_⟩
  intro d hd e he _ _ _
  rw [List.mem_singleton.mp hd, List.mem_singleton.mp he]

theorem Apart.tail
    {g : Digraph α} {c : α} {rest : List α}
    (h : g.Apart (c :: rest)) :
    g.Apart rest :=
  ⟨(List.nodup_cons.mp h.nodup).2, fun d hd e he =>
    h.eq_of_reaches d (List.mem_cons_of_mem c hd) e (List.mem_cons_of_mem c he)⟩

namespace Traverses

variable {g : Digraph α} {size : α → Nat} {siblings pre post : List α}

section Cons

variable {c x : α} {rest preBelow postBelow preRest postRest : List α}

/-- A node is not below itself. -/
theorem not_mem_below
    (hg : g.IsForest size)
    (hbelow : g.Traverses (g.succs c) preBelow postBelow) :
    c ∉ preBelow := by
  intro hc
  obtain ⟨d, hd, hdc⟩ := hbelow.mem_pre_iff.mp hc
  have := hg.size_le hdc
  have := hg.size_lt hd
  omega

/-- What is below a node is not below its siblings. -/
theorem not_mem_after
    (hapart : g.Apart (c :: rest))
    (hafter : g.Traverses rest preRest postRest)
    (hx : g.Reaches c x) :
    x ∉ preRest := by
  intro hmem
  obtain ⟨d, hd, hdx⟩ := hafter.mem_pre_iff.mp hmem
  have hcd := hapart.eq_of_reaches c List.mem_cons_self d (List.mem_cons_of_mem c hd) x hx hdx
  rw [← hcd] at hd
  exact (List.nodup_cons.mp hapart.nodup).1 hd

theorem reaches_of_mem_below
    (hbelow : g.Traverses (g.succs c) preBelow postBelow)
    (hx : x ∈ preBelow) :
    g.Reaches c x :=
  reaches_iff_eq_or.mpr (Or.inr (hbelow.mem_pre_iff.mp hx))

end Cons

/-- No node is entered twice. -/
theorem nodup
    (hg : g.IsForest size)
    (hapart : g.Apart siblings)
    (h : g.Traverses siblings pre post) :
    pre.Nodup := by
  induction h with
  | nil => exact List.nodup_nil
  | @cons c rest preBelow postBelow preRest postRest hbelow hafter ihbelow ihrest =>
      rw [List.nodup_cons, List.mem_append, not_or, List.nodup_append']
      refine ⟨⟨hbelow.not_mem_below hg, hafter.not_mem_after hapart (.refl c)⟩,
        ihbelow (hg.apart c), ihrest hapart.tail, ?_⟩
      intro x hx
      exact hafter.not_mem_after hapart (hbelow.reaches_of_mem_below hx)

end Traverses

section Positions

variable [DecidableEq α]

/-- The first node is entered no later than the second one and left no earlier. -/
def Encloses (pre post : List α) (a b : α) : Prop :=
  pre.idxOf a ≤ pre.idxOf b ∧ post.idxOf b ≤ post.idxOf a

instance (pre post : List α) (a b : α) : Decidable (Encloses pre post a b) :=
  inferInstanceAs (Decidable (_ ∧ _))

/-- The root of a tree, the nodes below it and those of its siblings are different, and the nodes
below it are left as often as they are entered. -/
structure Parted (c : α) (preBelow postBelow preRest : List α) : Prop where
  perm : postBelow.Perm preBelow
  root_below : c ∉ preBelow
  root_rest : c ∉ preRest
  rest_below : ∀ x ∈ preRest, x ∉ preBelow

namespace Parted

variable {a b c x : α} {preBelow postBelow preRest postRest : List α}

/-- A root is left right after what is below it. -/
theorem idxOf_left_root
    (h : Parted c preBelow postBelow preRest) :
    (postBelow ++ c :: postRest).idxOf c = postBelow.length := by
  have hc : c ∉ postBelow := mt h.perm.mem_iff.mp h.root_below
  rw [List.idxOf_append_of_notMem hc, List.idxOf_cons_self, Nat.add_zero]

/-- What is below a root is entered right after it. -/
theorem idxOf_entered_below
    (h : Parted c preBelow postBelow preRest)
    (hx : x ∈ preBelow) :
    (c :: (preBelow ++ preRest)).idxOf x = preBelow.idxOf x + 1 := by
  have hne : c ≠ x := fun heq => h.root_below (heq ▸ hx)
  rw [List.idxOf_cons_ne _ hne, List.idxOf_append_of_mem hx]

/-- What is below a root is left before it. -/
theorem idxOf_left_below
    (h : Parted c preBelow postBelow preRest)
    (hx : x ∈ preBelow) :
    (postBelow ++ c :: postRest).idxOf x = postBelow.idxOf x :=
  List.idxOf_append_of_mem (h.perm.mem_iff.mpr hx)

/-- What lies below the root is left before the root. -/
theorem idxOf_below_lt
    (h : Parted c preBelow postBelow preRest)
    (hx : x ∈ preBelow) :
    postBelow.idxOf x < postBelow.length :=
  List.idxOf_lt_length_of_mem (h.perm.mem_iff.mpr hx)

/-- What is below the siblings is entered after what is below the root. -/
theorem idxOf_entered_rest
    (h : Parted c preBelow postBelow preRest)
    (hx : x ∈ preRest) :
    (c :: (preBelow ++ preRest)).idxOf x = preBelow.length + preRest.idxOf x + 1 := by
  have hne : c ≠ x := fun heq => h.root_rest (heq ▸ hx)
  rw [List.idxOf_cons_ne _ hne, List.idxOf_append_of_notMem (h.rest_below x hx)]

/-- What is below the siblings is left after the root. -/
theorem idxOf_left_rest
    (h : Parted c preBelow postBelow preRest)
    (hx : x ∈ preRest) :
    (postBelow ++ c :: postRest).idxOf x = postBelow.length + postRest.idxOf x + 1 := by
  have hne : c ≠ x := fun heq => h.root_rest (heq ▸ hx)
  have hpost : x ∉ postBelow := mt h.perm.mem_iff.mp (h.rest_below x hx)
  rw [List.idxOf_append_of_notMem hpost, List.idxOf_cons_ne _ hne]
  omega

/-- The root encloses itself and the nodes below it. -/
theorem encloses_root_iff
    (h : Parted c preBelow postBelow preRest)
    (hb : b ∈ c :: (preBelow ++ preRest)) :
    Encloses (c :: (preBelow ++ preRest)) (postBelow ++ c :: postRest) c b ↔
      c = b ∨ b ∈ preBelow := by
  rw [Encloses, List.idxOf_cons_self, h.idxOf_left_root]
  rcases List.mem_cons.mp hb with rfl | hb
  · exact iff_of_true ⟨Nat.zero_le _, h.idxOf_left_root.le⟩ (Or.inl rfl)
  rcases List.mem_append.mp hb with hb | hb
  · rw [h.idxOf_left_below hb]
    exact iff_of_true ⟨Nat.zero_le _, (h.idxOf_below_lt hb).le⟩ (Or.inr hb)
  · rw [h.idxOf_left_rest hb]
    refine iff_of_false (by omega) ?_
    rintro (rfl | hbelow)
    · exact h.root_rest hb
    · exact h.rest_below b hb hbelow

/-- A node below the root encloses nodes below the root only. -/
theorem encloses_below_iff
    (h : Parted c preBelow postBelow preRest)
    (ha : a ∈ preBelow)
    (hb : b ∈ c :: (preBelow ++ preRest)) :
    Encloses (c :: (preBelow ++ preRest)) (postBelow ++ c :: postRest) a b ↔
      b ∈ preBelow ∧ Encloses preBelow postBelow a b := by
  rw [Encloses, h.idxOf_entered_below ha, h.idxOf_left_below ha]
  rcases List.mem_cons.mp hb with rfl | hb
  · rw [List.idxOf_cons_self]
    exact iff_of_false (by omega) fun hin => h.root_below hin.1
  rcases List.mem_append.mp hb with hb | hb
  · rw [h.idxOf_entered_below hb, h.idxOf_left_below hb, and_iff_right hb, Encloses]
    omega
  · have := h.idxOf_below_lt ha
    rw [h.idxOf_left_rest hb]
    exact iff_of_false (by omega) fun hin => h.rest_below b hb hin.1

/-- A node of a sibling encloses nodes of the siblings only. -/
theorem encloses_rest_iff
    (h : Parted c preBelow postBelow preRest)
    (ha : a ∈ preRest)
    (hb : b ∈ c :: (preBelow ++ preRest)) :
    Encloses (c :: (preBelow ++ preRest)) (postBelow ++ c :: postRest) a b ↔
      b ∈ preRest ∧ Encloses preRest postRest a b := by
  rw [Encloses, h.idxOf_entered_rest ha, h.idxOf_left_rest ha]
  rcases List.mem_cons.mp hb with rfl | hb
  · rw [List.idxOf_cons_self]
    exact iff_of_false (by omega) fun hin => h.root_rest hin.1
  rcases List.mem_append.mp hb with hb | hb
  · have := List.idxOf_lt_length_of_mem hb
    rw [h.idxOf_entered_below hb]
    exact iff_of_false (by omega) fun hin => h.rest_below b hin.1 hb
  · rw [h.idxOf_entered_rest hb, h.idxOf_left_rest hb, and_iff_right hb, Encloses]
    omega

end Parted

end Positions

namespace Traverses

variable {g : Digraph α} {size : α → Nat} {siblings pre post : List α}

theorem parted
    {c : α} {rest preBelow postBelow preRest postRest : List α}
    (hg : g.IsForest size)
    (hapart : g.Apart (c :: rest))
    (hbelow : g.Traverses (g.succs c) preBelow postBelow)
    (hafter : g.Traverses rest preRest postRest) :
    Parted c preBelow postBelow preRest where
  perm := hbelow.perm
  root_below := hbelow.not_mem_below hg
  root_rest := hafter.not_mem_after hapart (.refl c)
  rest_below := fun _ hrest hx =>
    hafter.not_mem_after hapart (hbelow.reaches_of_mem_below hx) hrest

/-- A node lies below another one exactly if that one encloses it. -/
theorem reaches_iff
    [DecidableEq α]
    (hg : g.IsForest size)
    (hapart : g.Apart siblings)
    (h : g.Traverses siblings pre post)
    {a b : α}
    (ha : a ∈ pre)
    (hb : b ∈ pre) :
    g.Reaches a b ↔ Encloses pre post a b := by
  induction h with
  | nil => exact absurd ha List.not_mem_nil
  | @cons c rest preBelow postBelow preRest postRest hbelow hafter ihbelow ihrest =>
      have hparted := parted hg hapart hbelow hafter
      rcases List.mem_cons.mp ha with rfl | ha
      · rw [hparted.encloses_root_iff hb, reaches_iff_eq_or, hbelow.mem_pre_iff]
      rcases List.mem_append.mp ha with ha | ha
      · rw [hparted.encloses_below_iff ha hb]
        constructor
        · intro hab
          have hin := hbelow.mem_pre_of_reaches ha hab
          exact ⟨hin, (ihbelow (hg.apart c) ha hin).mp hab⟩
        · rintro ⟨hin, hencloses⟩
          exact (ihbelow (hg.apart c) ha hin).mpr hencloses
      · rw [hparted.encloses_rest_iff ha hb]
        constructor
        · intro hab
          have hin := hafter.mem_pre_of_reaches ha hab
          exact ⟨hin, (ihrest hapart.tail ha hin).mp hab⟩
        · rintro ⟨hin, hencloses⟩
          exact (ihrest hapart.tail ha hin).mpr hencloses

end Traverses
end Digraph
end DefUse
