import DefUse.Proofs.Graph.Walk
import DefUse.Proofs.Iterate
import Mathlib.Data.List.Perm.Subperm

/-!
# The search of a slice

A slice is searched for between items of two kinds: uses lead to the definitions that reach them,
and a definition to the uses at its point; or the other way round.  Items of the first kind wait in
a list from which the latest is taken.  They are marked when they are put there, so that each waits
once; items of the second kind are marked when they are met, and lead on only then.

**Input.** The items that an item leads to, listed in any order.

**Method.** Whatever a marked item of the first kind leads to is marked, unless the item still
waits.  What is put into the list is marked as well, so the marked items that do not wait any more
become more with every step; there are finitely many.

**Results.**
* `Sound.step`: every step keeps the invariant.
* `exists_haltsAt`: the search ends, and has met exactly what the items that it can get to lead to.
-/

namespace DefUse

/-- The state of the search of a slice. -/
structure SliceSearch (α β : Type) where
  /-- The items that wait, the latest first. -/
  waiting : List α
  /-- The marked items of the first kind. -/
  seen : List α
  /-- The marked items of the second kind. -/
  visited : List β := []

namespace SliceSearch

section Machine

variable {α β : Type} [DecidableEq α] [DecidableEq β]

/-- The start of a search: one item waits. -/
def start (root : α) : SliceSearch α β := { waiting := [root], seen := [root] }

/-- Marks an item that is not marked, and lets it wait. -/
def enter (t : SliceSearch α β) (a : α) : SliceSearch α β :=
  if a ∈ t.seen then t else { t with waiting := a :: t.waiting, seen := a :: t.seen }

/-- Marks an item of the second kind that is not marked, and goes on from it. -/
def visit (next : β → List α) (t : SliceSearch α β) (b : β) : SliceSearch α β :=
  if b ∈ t.visited then t else (next b).foldl enter { t with visited := b :: t.visited }

/-- Takes the latest item that waits and meets what it leads to. -/
def step (into : α → List β) (next : β → List α) (t : SliceSearch α β) :
    Option (SliceSearch α β) :=
  match t.waiting with
  | [] => none
  | a :: rest => some ((into a).foldl (visit next) { t with waiting := rest })

/-- More items are marked; those of the first kind that are new wait. -/
structure Extends (s t : SliceSearch α β) : Prop where
  fresh : ∃ news, t.seen = news ++ s.seen ∧ t.waiting = news ++ s.waiting
  visited : s.visited ⊆ t.visited

end Machine

variable {α β : Type}

section Extension

variable {r s t : SliceSearch α β}

theorem Extends.refl
    (s : SliceSearch α β) :
    Extends s s :=
  ⟨⟨[], rfl, rfl⟩, List.Subset.refl _⟩

theorem Extends.trans
    (h : Extends r s)
    (h' : Extends s t) :
    Extends r t := by
  obtain ⟨news, hseen, hwaiting⟩ := h.fresh
  obtain ⟨news', hseen', hwaiting'⟩ := h'.fresh
  refine ⟨⟨news' ++ news, ?_, ?_⟩, List.Subset.trans h.visited h'.visited⟩
  · rw [hseen', hseen, List.append_assoc]
  · rw [hwaiting', hwaiting, List.append_assoc]

theorem Extends.seen_subset
    (h : Extends s t) :
    s.seen ⊆ t.seen := by
  obtain ⟨news, hseen, -⟩ := h.fresh
  rw [hseen]
  exact List.subset_append_right _ _

end Extension

variable {into : α → List β} {next : β → List α} {g : Digraph α} {root a : α} {b : β}
  {s t : SliceSearch α β}

/-- The marked items of the first kind are those that the root gets to so far; those of the second
kind are led to by them, and lead to marked items. -/
structure Sound (into : α → List β) (next : β → List α) (g : Digraph α) (root : α)
    (t : SliceSearch α β) : Prop where
  nodup : t.seen.Nodup
  waiting_seen : t.waiting ⊆ t.seen
  root_mem : root ∈ t.seen
  reached : ∀ a ∈ t.seen, g.Reaches root a
  visited : ∀ b ∈ t.visited, ∃ a ∈ t.seen, b ∈ into a
  followed : ∀ b ∈ t.visited, ∀ a ∈ next b, a ∈ t.seen

/-- What a marked item leads to is marked, unless the item waits. -/
def Settled (into : α → List β) (t : SliceSearch α β) : Prop :=
  ∀ a ∈ t.seen, a ∈ t.waiting ∨ ∀ b ∈ into a, b ∈ t.visited

section Entering

variable [DecidableEq α]

theorem extends_enter
    (t : SliceSearch α β) (a : α) :
    Extends t (t.enter a) ∧ a ∈ (t.enter a).seen ∧ (t.enter a).visited = t.visited := by
  unfold enter
  split
  · rename_i hseen
    exact ⟨.refl t, hseen, rfl⟩
  · exact ⟨⟨⟨[a], rfl, rfl⟩, List.Subset.refl _⟩, List.mem_cons_self, rfl⟩

/-- What enters is marked and, if it is new, waits; nothing else changes. -/
theorem extends_foldl_enter
    (items : List α) :
    ∀ t : SliceSearch α β, Extends t (items.foldl enter t) ∧
      (∀ a ∈ items, a ∈ (items.foldl enter t).seen) ∧
      (items.foldl enter t).visited = t.visited := by
  induction items with
  | nil => exact fun t => ⟨.refl t, fun a ha => absurd ha List.not_mem_nil, rfl⟩
  | cons a rest ih =>
      intro t
      obtain ⟨hfirst, ha, hvisited⟩ := extends_enter t a
      obtain ⟨hrest, hall, hvisited'⟩ := ih (t.enter a)
      refine ⟨hfirst.trans hrest, fun x hx => ?_, hvisited'.trans hvisited⟩
      rcases List.mem_cons.mp hx with rfl | hx
      · exact hrest.seen_subset ha
      · exact hall x hx

theorem nodup_enter
    (h : t.seen.Nodup) (a : α) :
    (t.enter a).seen.Nodup := by
  unfold enter
  split
  · exact h
  · rename_i hnew
    exact List.nodup_cons.mpr ⟨hnew, h⟩

theorem mem_seen_foldl_enter
    (items : List α) :
    ∀ t : SliceSearch α β, t.seen.Nodup → (items.foldl enter t).seen.Nodup ∧
      ∀ a ∈ (items.foldl enter t).seen, a ∈ t.seen ∨ a ∈ items := by
  induction items with
  | nil => exact fun t h => ⟨h, fun a ha => Or.inl ha⟩
  | cons x rest ih =>
      intro t h
      obtain ⟨hnodup, hmem⟩ := ih (t.enter x) (nodup_enter h x)
      refine ⟨hnodup, fun a ha => ?_⟩
      rcases hmem a ha with ha | ha
      · unfold enter at ha
        split at ha
        · exact Or.inl ha
        · rcases List.mem_cons.mp ha with rfl | ha
          · exact Or.inr List.mem_cons_self
          · exact Or.inl ha
      · exact Or.inr (List.mem_cons_of_mem x ha)

end Entering

section Steps

variable [DecidableEq α] [DecidableEq β]

/-- A visit keeps the invariant, and marks what is visited. -/
theorem Sound.visit
    (h : Sound into next g root t)
    (hedge : ∀ {a a'}, a' ∈ g.succs a ↔ ∃ b ∈ into a, a' ∈ next b)
    (ha : a ∈ t.seen)
    (hb : b ∈ into a) :
    Sound into next g root (t.visit next b) ∧ Extends t (t.visit next b) ∧
      b ∈ (t.visit next b).visited := by
  unfold SliceSearch.visit
  split
  · rename_i hvisited
    exact ⟨h, .refl t, hvisited⟩
  · let u : SliceSearch α β := { t with visited := b :: t.visited }
    obtain ⟨hextends, hall, hvisited⟩ := extends_foldl_enter (next b) u
    obtain ⟨hnodup, hmem⟩ := mem_seen_foldl_enter (next b) u h.nodup
    obtain ⟨news, hseen, hwaiting⟩ := hextends.fresh
    have hextends' : Extends t ((next b).foldl enter u) :=
      ⟨⟨news, hseen, hwaiting⟩, fun x hx => by
        rw [hvisited]
        exact List.mem_cons_of_mem b hx⟩
    refine ⟨⟨hnodup, ?_, hextends.seen_subset h.root_mem, ?_, ?_, ?_⟩, hextends', ?_⟩
    · rw [hseen, hwaiting]
      exact List.append_subset.mpr ⟨List.subset_append_left _ _,
        List.Subset.trans h.waiting_seen (List.subset_append_right _ _)⟩
    · intro x hx
      rcases hmem x hx with hx | hx
      · exact h.reached x hx
      · exact (h.reached a ha).trans (.single (hedge.mpr ⟨b, hb, hx⟩))
    · intro c hc
      rw [hvisited] at hc
      rcases List.mem_cons.mp hc with rfl | hc
      · exact ⟨a, hextends.seen_subset ha, hb⟩
      · obtain ⟨x, hx, hcx⟩ := h.visited c hc
        exact ⟨x, hextends.seen_subset hx, hcx⟩
    · intro c hc x hx
      rw [hvisited] at hc
      rcases List.mem_cons.mp hc with rfl | hc
      · exact hall x hx
      · exact hextends.seen_subset (h.followed c hc x hx)
    · rw [hvisited]
      exact List.mem_cons_self

theorem Sound.foldl_visit
    (hedge : ∀ {a a'}, a' ∈ g.succs a ↔ ∃ b ∈ into a, a' ∈ next b)
    {items : List β}
    (hitems : ∀ b ∈ items, b ∈ into a) :
    ∀ {t : SliceSearch α β}, Sound into next g root t → a ∈ t.seen →
      Sound into next g root (items.foldl (SliceSearch.visit next) t) ∧
      Extends t (items.foldl (SliceSearch.visit next) t) ∧
      ∀ b ∈ items, b ∈ (items.foldl (SliceSearch.visit next) t).visited := by
  induction items with
  | nil => exact fun h _ => ⟨h, .refl _, fun b hb => absurd hb List.not_mem_nil⟩
  | cons b rest ih =>
      intro t h ha
      obtain ⟨hsound, hfirst, hb⟩ := h.visit hedge ha (hitems b List.mem_cons_self)
      obtain ⟨hsound', hrest, hall⟩ := ih (fun c hc => hitems c (List.mem_cons_of_mem b hc)) hsound
        (hfirst.seen_subset ha)
      refine ⟨hsound', hfirst.trans hrest, fun c hc => ?_⟩
      rcases List.mem_cons.mp hc with rfl | hc
      · exact hrest.visited hb
      · exact hall c hc

/-- What a step does: the latest item does not wait any more, what it leads to is marked, and what
is new waits. -/
theorem Sound.step_cases
    (h : Sound into next g root s)
    (hedge : ∀ {a a'}, a' ∈ g.succs a ↔ ∃ b ∈ into a, a' ∈ next b)
    (hstep : s.step into next = some t) :
    ∃ a rest, s.waiting = a :: rest ∧ Sound into next g root t ∧
      Extends { s with waiting := rest } t ∧ ∀ b ∈ into a, b ∈ t.visited := by
  unfold SliceSearch.step at hstep
  split at hstep
  · exact absurd hstep (by simp)
  · rename_i a rest hwaiting
    obtain rfl := Option.some.inj hstep
    have ha : a ∈ s.seen := h.waiting_seen (by rw [hwaiting]; exact List.mem_cons_self)
    have hless : Sound into next g root { s with waiting := rest } :=
      { h with
        waiting_seen := fun x hx =>
          h.waiting_seen (by rw [hwaiting]; exact List.mem_cons_of_mem a hx) }
    exact ⟨a, rest, hwaiting, hless.foldl_visit hedge (fun _ hb => hb) ha⟩

/-- Every step keeps the invariant. -/
theorem Sound.step
    (h : Sound into next g root s)
    (hsettled : Settled into s)
    (hedge : ∀ {a a'}, a' ∈ g.succs a ↔ ∃ b ∈ into a, a' ∈ next b)
    (hstep : s.step into next = some t) :
    Sound into next g root t ∧ Settled into t := by
  obtain ⟨a, rest, hwaiting, hsound, hextends, hall⟩ := h.step_cases hedge hstep
  obtain ⟨news, hseen, hwaiting'⟩ := hextends.fresh
  refine ⟨hsound, fun x hx => ?_⟩
  rw [hseen, List.mem_append] at hx
  rw [hwaiting', List.mem_append]
  rcases hx with hx | hx
  · exact Or.inl (Or.inl hx)
  · rcases hsettled x hx with hx | hx
    · rw [hwaiting] at hx
      rcases List.mem_cons.mp hx with rfl | hx
      · exact Or.inr hall
      · exact Or.inl (Or.inr hx)
    · exact Or.inr fun b hb => hextends.visited (hx b hb)

/-- A bound on the steps that are left: the items that wait and those that are not marked. -/
def room (g : Digraph α) (t : SliceSearch α β) : Nat :=
  t.waiting.length + (g.nodes.length - t.seen.length)

theorem Sound.room_lt
    (h : Sound into next g root s)
    (hedge : ∀ {a a'}, a' ∈ g.succs a ↔ ∃ b ∈ into a, a' ∈ next b)
    (hg : g.Closed)
    (hroot : root ∈ g.nodes)
    (hstep : s.step into next = some t) :
    room g t < room g s := by
  obtain ⟨a, rest, hwaiting, hsound, hextends, -⟩ := h.step_cases hedge hstep
  obtain ⟨news, hseen, hwaiting'⟩ := hextends.fresh
  have hinside : t.seen ⊆ g.nodes := fun x hx => hg.reaches hroot (hsound.reached x hx)
  have hfits : t.seen.length ≤ g.nodes.length :=
    (List.subperm_of_subset hsound.nodup hinside).length_le
  have hseen' : t.seen.length = news.length + s.seen.length := by
    rw [hseen, List.length_append]
  have hlength : t.waiting.length = news.length + rest.length := by
    rw [hwaiting', List.length_append]
  unfold room
  rw [hwaiting, List.length_cons]
  omega

/-- The search ends, whatever the order in which items are listed.  It has met what the items lead
to that the root gets to. -/
theorem exists_haltsAt
    (hedge : ∀ {a a'}, a' ∈ g.succs a ↔ ∃ b ∈ into a, a' ∈ next b)
    (hg : g.Closed)
    (hroot : root ∈ g.nodes) :
    ∃ t, HaltsAt (step into next) (start root) t ∧
      ∀ b, b ∈ t.visited ↔ ∃ a, g.Reaches root a ∧ b ∈ into a := by
  have hstart : Sound into next g root (start root) ∧ Settled into (start root) := by
    refine ⟨⟨List.nodup_singleton root, List.Subset.refl _, List.mem_cons_self, ?_, ?_, ?_⟩, ?_⟩
    · intro a ha
      obtain rfl := List.mem_singleton.mp ha
      exact .refl a
    · exact fun b hb => absurd hb List.not_mem_nil
    · exact fun b hb => absurd hb List.not_mem_nil
    · exact fun a ha => Or.inl ha
  have hkeeps : ∀ s t : SliceSearch α β, (Sound into next g root s ∧ Settled into s) →
      s.step into next = some t → Sound into next g root t ∧ Settled into t :=
    fun s t hs hstep => hs.1.step hs.2 hedge hstep
  obtain ⟨t, ht⟩ : ∃ t, t = runSteps (step into next) (room g (start root (β := β)) + 1)
      (start root) := ⟨_, rfl⟩
  have hrest : step into next t = none := by
    rw [ht]
    exact runSteps_done hkeeps (fun s t hs hstep => hs.1.room_lt hedge hg hroot hstep) _ _ hstart
      (Nat.lt_succ_self _)
  obtain ⟨hsound, hsettled⟩ : Sound into next g root t ∧ Settled into t := by
    rw [ht]
    exact runSteps_invariant hkeeps _ _ hstart
  have hempty : t.waiting = [] := by
    unfold step at hrest
    split at hrest
    · assumption
    · exact absurd hrest (by simp)
  -- nothing waits, so that what a marked item leads to is marked
  have hdone : ∀ a ∈ t.seen, ∀ b ∈ into a, b ∈ t.visited := by
    intro a ha
    refine (hsettled a ha).resolve_left ?_
    rw [hempty]
    exact List.not_mem_nil
  have hseen : ∀ {x y}, g.Reaches x y → x ∈ t.seen → y ∈ t.seen := by
    intro x y hxy
    induction hxy with
    | refl _ => exact id
    | step hstep _ ih =>
        intro hx
        obtain ⟨b, hb, hnext⟩ := hedge.mp hstep
        exact ih (hsound.followed b (hdone _ hx b hb) _ hnext)
  refine ⟨t, ⟨hrest, _, ht.symm⟩, fun b => ⟨fun hb => ?_, ?_⟩⟩
  · obtain ⟨a, ha, hb⟩ := hsound.visited b hb
    exact ⟨a, hsound.reached a ha, hb⟩
  · rintro ⟨a, hreach, hb⟩
    exact hdone a (hseen hreach hsound.root_mem) b hb

end Steps

end SliceSearch
end DefUse
