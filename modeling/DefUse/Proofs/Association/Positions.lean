import DefUse.Proofs.Association.Build

/-!
# Sets that keep positions

A set may keep the positions of its associations by pair, by definition and by use, so that a
look-up need not go through the list.  What it finds at positions that are wrong would be other
associations, and what lies beyond the list would be a fault.

**Method.** An addition is refused exactly if its ends were asked for before, and otherwise puts one
association at the end of the list and its position at the end of the positions of its ends.  So the
positions of a pair, a definition or a use are those at which the list has them, in order.

**Results.**
* `Collects.additions`: a history of additions leaves the associations whose ends no earlier one
  has.
* `PositionSet.InStep.push`: an addition keeps the positions in step with the list.
* `additions_exact`: what every history of additions makes of both kinds of set.
-/

namespace DefUse

section History

variable {σ : Type} {add : σ → Association → Except Violation σ} {P : σ → List Association → Prop}
  {start : σ} {a : Association} {history : List Association}

/-- The state after an addition, which leaves it as it was if it is refused. -/
def attempt (add : σ → Association → Except Violation σ) (s : σ) (a : Association) : σ :=
  (add s a).toOption.getD s

/-- The state after a history of additions. -/
def additions (add : σ → Association → Except Violation σ) (start : σ)
    (history : List Association) : σ :=
  history.foldl (attempt add) start

/-- The associations of a history whose ends no earlier one has. -/
def firsts (history : List Association) : List Association :=
  (history.zipIdx.filter fun (a, i) => a.ends ∉ (history.take i).map Association.ends).map Prod.fst

theorem firsts_concat
    (history : List Association) (a : Association) :
    firsts (history ++ [a]) =
      if a.ends ∈ history.map Association.ends then firsts history else firsts history ++ [a] := by
  have hearlier : (history.zipIdx.filter fun (b, i) =>
        b.ends ∉ ((history ++ [a]).take i).map Association.ends) =
      history.zipIdx.filter fun (b, i) => b.ends ∉ (history.take i).map Association.ends := by
    refine List.filter_congr fun (b, i) hb => ?_
    have hi : i < history.length := by simpa using (List.mem_zipIdx hb).2.1
    simp only [List.take_append_of_le_length (Nat.le_of_lt hi)]
  unfold firsts
  rw [List.zipIdx_append, List.filter_append, hearlier, List.map_append]
  split
  · rename_i hold
    simp [hold]
  · rename_i hnew
    simp [hnew]

theorem mem_ends_firsts_iff
    {e : Def × Use} :
    e ∈ (firsts history).map Association.ends ↔ e ∈ history.map Association.ends := by
  induction history using List.reverseRecOn with
  | nil => rfl
  | append_singleton history a ih =>
      rw [firsts_concat]
      split
      · rename_i hold
        simp only [ih, List.map_append, List.map_cons, List.map_nil, List.mem_append,
          List.mem_singleton]
        constructor
        · exact Or.inl
        · rintro (h | rfl)
          · exact h
          · exact hold
      · simp only [List.map_append, List.mem_append, ih]

theorem nodup_ends_firsts
    (history : List Association) :
    ((firsts history).map Association.ends).Nodup := by
  induction history using List.reverseRecOn with
  | nil => exact List.nodup_nil
  | append_singleton history a ih =>
      rw [firsts_concat]
      split
      · exact ih
      · rename_i hnew
        rw [List.map_append]
        refine ih.append (List.nodup_singleton _) ?_
        rw [List.map_cons, List.map_nil, List.disjoint_singleton, mem_ends_firsts_iff]
        exact hnew

/-- Additions put associations with new ends at the end of the list that a state stands for, and
refuse all others. -/
structure Collects (add : σ → Association → Except Violation σ) (P : σ → List Association → Prop) :
    Prop where
  refused : ∀ s listed a, P s listed → a.ends ∈ listed.map Association.ends →
    add s a = .error (.duplicate a)
  added : ∀ s listed a, P s listed → a.ends ∉ listed.map Association.ends →
    ∃ s', add s a = .ok s' ∧ P s' (listed ++ [a])

theorem additions_concat
    (history : List Association) (a : Association) :
    additions add start (history ++ [a]) = attempt add (additions add start history) a := by
  rw [additions, List.foldl_concat]
  rfl

/-- A history of additions leaves the associations whose ends no earlier one has. -/
theorem Collects.additions
    (h : Collects add P)
    (hstart : P start []) (history : List Association) :
    P (additions add start history) (firsts history) := by
  induction history using List.reverseRecOn with
  | nil => exact hstart
  | append_singleton history a ih =>
      rw [additions_concat, firsts_concat, attempt]
      split
      · rename_i hold
        rw [h.refused _ _ a ih (mem_ends_firsts_iff.mpr hold)]
        exact ih
      · rename_i hnew
        obtain ⟨s', hadd, hs'⟩ := h.added _ _ a ih fun hold => hnew (mem_ends_firsts_iff.mp hold)
        rw [hadd]
        exact hs'

/-- The next addition is refused if its ends were asked for before, and then changes nothing. -/
theorem Collects.add_of_mem
    (h : Collects add P)
    (hstart : P start [])
    (ha : a.ends ∈ history.map Association.ends) :
    add (DefUse.additions add start history) a = .error (.duplicate a) ∧
      DefUse.additions add start (history ++ [a]) = DefUse.additions add start history := by
  have hadd := h.refused _ _ a (h.additions hstart history) (mem_ends_firsts_iff.mpr ha)
  rw [additions_concat, attempt, hadd]
  exact ⟨rfl, rfl⟩

/-- The next addition is done if its ends were not asked for. -/
theorem Collects.add_of_not_mem
    (h : Collects add P)
    (hstart : P start [])
    (ha : a.ends ∉ history.map Association.ends) :
    add (DefUse.additions add start history) a =
      .ok (DefUse.additions add start (history ++ [a])) := by
  obtain ⟨s', hadd, -⟩ := h.added _ _ a (h.additions hstart history)
    fun hold => ha (mem_ends_firsts_iff.mp hold)
  rw [additions_concat, attempt, hadd]
  rfl

end History

namespace AssociationSet

variable {s : AssociationSet} {a : Association} {d : Def} {u : Use}

theorem lookup?_eq_none_iff :
    s.lookup? d u = none ↔ (d, u) ∉ s.items.map Association.ends := by
  simp [lookup?, Association.ends]

theorem lookup?_eq_some_iff
    (hs : (s.items.map Association.ends).Nodup) :
    s.lookup? d u = some a ↔ a ∈ s.items ∧ a.ends = (d, u) := by
  constructor
  · intro h
    have hends := List.find?_some h
    rw [Bool.and_eq_true, decide_eq_true_eq, decide_eq_true_eq] at hends
    exact ⟨List.mem_of_find?_eq_some h, Prod.ext hends.1 hends.2⟩
  · rintro ⟨ha, hends⟩
    cases hfound : s.lookup? d u with
    | none => exact absurd (List.mem_map.mpr ⟨a, ha, hends⟩) (lookup?_eq_none_iff.mp hfound)
    | some b =>
        have hb := List.find?_some hfound
        rw [Bool.and_eq_true, decide_eq_true_eq, decide_eq_true_eq] at hb
        have hsame : b.ends = a.ends := (Prod.ext hb.1 hb.2 : b.ends = (d, u)).trans hends.symm
        rw [List.inj_on_of_nodup_map hs (List.mem_of_find?_eq_some hfound) ha hsame]

theorem collects_add : Collects add fun s listed => s.items = listed where
  refused := by
    rintro s _ a rfl hold
    unfold add
    cases hfound : s.lookup? a.definition a.use with
    | none => exact absurd hold (lookup?_eq_none_iff.mp hfound)
    | some b => rfl
  added := by
    rintro s _ a rfl hnew
    have hnone : s.lookup? a.definition a.use = none := lookup?_eq_none_iff.mpr hnew
    exact ⟨_, by rw [add, hnone], rfl⟩

/-- Every association has one of the three grades. -/
theorem sum_count
    (s : AssociationSet) :
    s.count .nonInferrable + s.count .conditional + s.count .definite = s.items.length := by
  unfold count
  induction s.items with
  | nil => rfl
  | cons a rest ih =>
      cases hgrade : a.classification <;> simp [hgrade] <;> omega

end AssociationSet

/-- Associations in the order of their addition, with their positions by pair, by definition and by
use. -/
structure PositionSet where
  /-- The associations. -/
  items : Array Association := #[]
  /-- The position of a pair. -/
  place : Def × Use → Option Nat := fun _ => none
  /-- The positions of a definition. -/
  ofDef : Def → List Nat := fun _ => []
  /-- The positions of a use. -/
  ofUse : Use → List Nat := fun _ => []

namespace PositionSet

/-- The set with one more association at the end. -/
def push (x : PositionSet) (a : Association) : PositionSet where
  items := x.items.push a
  place := Function.update x.place a.ends (some x.items.size)
  ofDef := Function.update x.ofDef a.definition (x.ofDef a.definition ++ [x.items.size])
  ofUse := Function.update x.ofUse a.use (x.ofUse a.use ++ [x.items.size])

/-- The set with one more association, unless the position of its pair is known. -/
def add (x : PositionSet) (a : Association) : Except Violation PositionSet :=
  match x.place a.ends with
  | some _ => .error (.duplicate a)
  | none => .ok (x.push a)

/-- The associations at positions. -/
def collect (x : PositionSet) (found : List Nat) : Except Fault (List Association) :=
  found.mapM fun (i : Nat) => fetch x.items i

/-- The association at the position of a pair. -/
def lookup? (x : PositionSet) (d : Def) (u : Use) : Except Fault (Option Association) :=
  match x.place (d, u) with
  | some i => (fetch x.items i).map some
  | none => .ok none

/-- The associations at the positions of a definition. -/
def fromDef (x : PositionSet) (d : Def) : Except Fault (List Association) := x.collect (x.ofDef d)

/-- The associations at the positions of a use. -/
def toUse (x : PositionSet) (u : Use) : Except Fault (List Association) := x.collect (x.ofUse u)

/-- The number of associations of every grade, counted in one pass. -/
def counts (x : PositionSet) : Classification → Nat :=
  x.items.toList.foldl (fun counted a =>
    Function.update counted a.classification (counted a.classification + 1)) fun _ => 0

/-- The positions at which a list has what satisfies a condition. -/
def positionsOf (p : Association → Bool) (listed : List Association) : List Nat :=
  (listed.zipIdx.filter fun x => p x.1).map Prod.snd

/-- The positions are those at which the list has a pair, a definition or a use. -/
structure InStep (x : PositionSet) (listed : List Association) : Prop where
  items : x.items = listed.toArray
  place : ∀ e i, x.place e = some i ↔ ∃ a, listed[i]? = some a ∧ a.ends = e
  ofDef : ∀ d, x.ofDef d = positionsOf (fun a => a.definition = d) listed
  ofUse : ∀ u, x.ofUse u = positionsOf (fun a => a.use = u) listed

section Step

variable {x : PositionSet} {listed : List Association} {a : Association} {e : Def × Use}

theorem positionsOf_concat
    (p : Association → Bool) (listed : List Association) (a : Association) :
    positionsOf p (listed ++ [a]) =
      if p a then positionsOf p listed ++ [listed.length] else positionsOf p listed := by
  unfold positionsOf
  rw [List.zipIdx_append, List.filter_append, List.map_append]
  split
  · rename_i hp
    simp [hp]
  · rename_i hp
    simp [hp]

/-- The position of an added association joins those of its key. -/
theorem update_positionsOf
    {κ : Type} [DecidableEq κ] {key : Association → κ} {found : κ → List Nat}
    (hfound : ∀ k, found k = positionsOf (fun b => key b = k) listed) (k : κ) :
    Function.update found (key a) (found (key a) ++ [listed.length]) k =
      positionsOf (fun b => key b = k) (listed ++ [a]) := by
  rw [positionsOf_concat]
  by_cases hk : k = key a
  · subst hk
    rw [Function.update_self, hfound, if_pos (decide_eq_true rfl)]
  · rw [Function.update_of_ne hk, hfound, if_neg (by simpa using Ne.symm hk)]

/-- The position of an added association is that of its pair, if the pair is new. -/
theorem update_place
    {place : Def × Use → Option Nat}
    (hplace : ∀ e i, place e = some i ↔ ∃ b, listed[i]? = some b ∧ b.ends = e)
    (hnew : a.ends ∉ listed.map Association.ends) (e : Def × Use) (i : Nat) :
    Function.update place a.ends (some listed.length) e = some i ↔
      ∃ b, (listed ++ [a])[i]? = some b ∧ b.ends = e := by
  have hold : ∀ b, listed[i]? = some b → b.ends ≠ a.ends :=
    fun b hb hends => hnew (List.mem_map.mpr ⟨b, List.mem_of_getElem? hb, hends⟩)
  have hget : ∀ b, (listed ++ [a])[i]? = some b ↔
      listed[i]? = some b ∨ i = listed.length ∧ b = a := by
    intro b
    rw [List.getElem?_append]
    split
    · rename_i hlt
      simp [Nat.ne_of_lt hlt]
    · rename_i hle
      rw [List.getElem?_eq_none (Nat.not_lt.mp hle), List.getElem?_singleton]
      split
      · rename_i hzero
        have hi : i = listed.length := by omega
        simp [hi, eq_comm]
      · rename_i hpos
        have hi : i ≠ listed.length := by omega
        simp [hi]
  simp only [hget, or_and_right, exists_or]
  by_cases he : e = a.ends
  · subst he
    rw [Function.update_self, Option.some_inj, or_iff_right fun ⟨b, hb, hends⟩ => hold b hb hends]
    constructor
    · rintro rfl
      exact ⟨a, ⟨rfl, rfl⟩, rfl⟩
    · rintro ⟨b, ⟨hi, -⟩, -⟩
      exact hi.symm
  · rw [Function.update_of_ne he, hplace]
    refine (or_iff_left ?_).symm
    rintro ⟨b, ⟨-, rfl⟩, hends⟩
    exact he hends.symm

theorem InStep.push
    (h : x.InStep listed)
    (hnew : a.ends ∉ listed.map Association.ends) :
    (x.push a).InStep (listed ++ [a]) := by
  have hsize : x.items.size = listed.length := by rw [h.items, List.size_toArray]
  unfold PositionSet.push
  rw [hsize]
  exact ⟨by simp [h.items], update_place h.place hnew, update_positionsOf h.ofDef,
    update_positionsOf h.ofUse⟩

theorem InStep.place_eq_none_iff
    (h : x.InStep listed) :
    x.place e = none ↔ e ∉ listed.map Association.ends := by
  rw [Option.eq_none_iff_forall_ne_some, List.mem_map]
  constructor
  · rintro hnone ⟨a, ha, hends⟩
    obtain ⟨i, hi⟩ := List.getElem?_of_mem ha
    exact hnone i ((h.place e i).mpr ⟨a, hi, hends⟩)
  · intro hnew i hi
    obtain ⟨a, hget, hends⟩ := (h.place e i).mp hi
    exact hnew ⟨a, List.mem_of_getElem? hget, hends⟩

theorem collects_add : Collects add InStep where
  refused := by
    intro x listed a h hold
    unfold add
    cases hplace : x.place a.ends with
    | none => exact absurd hold (h.place_eq_none_iff.mp hplace)
    | some i => rfl
  added := by
    intro x listed a h hnew
    exact ⟨_, by rw [add, h.place_eq_none_iff.mpr hnew], h.push hnew⟩

theorem inStep_empty : InStep {} [] :=
  ⟨rfl, by simp, fun _ => rfl, fun _ => rfl⟩

/-- What is collected at the positions of a condition satisfies it, in the order of the list. -/
theorem InStep.collect_positionsOf
    (h : x.InStep listed) (p : Association → Bool) :
    x.collect (positionsOf p listed) = .ok (listed.filter p) := by
  have hget : ∀ y ∈ listed.zipIdx.filter fun y => p y.1, fetch x.items (y.2 : Int) = .ok y.1 := by
    intro y hy
    rw [fetch_eq_ok_iff, item?_natCast, h.items]
    simpa using (List.mem_zipIdx_iff_getElem?.mp (List.mem_filter.mp hy).1)
  have hfilter : (listed.zipIdx.filter fun y => p y.1).map Prod.fst = listed.filter p := by
    have hmap := List.filter_map (f := Prod.fst) (p := p) (l := listed.zipIdx)
    rw [List.zipIdx_map_fst] at hmap
    exact hmap.symm
  unfold collect positionsOf
  rw [List.mapM_map, ← hfilter]
  exact mapM_eq_ok hget

theorem InStep.lookup?_eq_ok
    (h : x.InStep listed)
    (hends : (listed.map Association.ends).Nodup) (d : Def) (u : Use) :
    x.lookup? d u = .ok ((⟨listed, []⟩ : AssociationSet).lookup? d u) := by
  unfold PositionSet.lookup?
  cases hplace : x.place (d, u) with
  | none =>
      rw [AssociationSet.lookup?_eq_none_iff.mpr (h.place_eq_none_iff.mp hplace)]
  | some i =>
      obtain ⟨a, hget, ha⟩ := (h.place _ i).mp hplace
      have hfetch : fetch x.items (i : Int) = .ok a := by
        rw [fetch_eq_ok_iff, item?_natCast, h.items]
        simpa using hget
      rw [(AssociationSet.lookup?_eq_some_iff hends).mpr ⟨List.mem_of_getElem? hget, ha⟩]
      simp only [hfetch]
      rfl

theorem InStep.counts_eq
    (h : x.InStep listed) (c : Classification) :
    x.counts c = listed.countP (·.classification = c) := by
  have hpass : ∀ (rest : List Association) (counted : Classification → Nat),
      rest.foldl (fun counted a =>
        Function.update counted a.classification (counted a.classification + 1)) counted c =
      counted c + rest.countP (·.classification = c) := by
    intro rest
    induction rest with
    | nil => exact fun _ => rfl
    | cons a rest ih =>
        intro counted
        rw [List.foldl_cons, ih, List.countP_cons]
        by_cases hc : a.classification = c
        · subst hc
          rw [Function.update_self, if_pos (decide_eq_true rfl)]
          omega
        · rw [Function.update_of_ne (Ne.symm hc), if_neg (by simpa using hc)]
          rfl
  rw [counts, h.items, hpass, Nat.zero_add]

end Step

end PositionSet

/-- What every history of additions to an empty set leads to.  The next addition is refused exactly
if its ends were asked for before, which changes nothing.  The set lists the associations whose ends
no earlier one has, in the order of their addition; it finds the one of a pair, and those of a
definition and of a use in the order of the list, and the numbers of the grades add up to the
number of associations.  A set that keeps positions answers alike, and never looks beyond its
list. -/
theorem additions_exact
    (history : List Association) :
    let s := additions AssociationSet.add {} history
    let x := additions PositionSet.add {} history
    let accepted := firsts history
    (∀ a, a.ends ∈ history.map Association.ends →
      (s.add a = .error (.duplicate a) ∧ additions AssociationSet.add {} (history ++ [a]) = s) ∧
      x.add a = .error (.duplicate a) ∧ additions PositionSet.add {} (history ++ [a]) = x) ∧
    (∀ a, a.ends ∉ history.map Association.ends →
      s.add a = .ok (additions AssociationSet.add {} (history ++ [a])) ∧
      x.add a = .ok (additions PositionSet.add {} (history ++ [a]))) ∧
    (s.items = accepted ∧ x.items.toList = accepted) ∧
    (∀ d u, (∀ a, s.lookup? d u = some a ↔ a ∈ accepted ∧ a.definition = d ∧ a.use = u) ∧
      x.lookup? d u = .ok (s.lookup? d u)) ∧
    (∀ d, s.ofDef d = accepted.filter (·.definition = d) ∧ x.fromDef d = .ok (s.ofDef d)) ∧
    (∀ u, s.ofUse u = accepted.filter (·.use = u) ∧ x.toUse u = .ok (s.ofUse u)) ∧
    (∀ c, x.counts c = s.count c) ∧
    s.count .nonInferrable + s.count .conditional + s.count .definite = s.items.length := by
  intro s x accepted
  have hs : s.items = accepted := AssociationSet.collects_add.additions rfl history
  have hx : x.InStep accepted :=
    PositionSet.collects_add.additions PositionSet.inStep_empty history
  have hends : (accepted.map Association.ends).Nodup := nodup_ends_firsts history
  have hlookup : ∀ d u, s.lookup? d u = (⟨accepted, []⟩ : AssociationSet).lookup? d u := by
    intro d u
    rw [AssociationSet.lookup?, hs]
    rfl
  refine ⟨fun a ha => ⟨AssociationSet.collects_add.add_of_mem rfl ha,
      PositionSet.collects_add.add_of_mem PositionSet.inStep_empty ha⟩,
    fun a ha => ⟨AssociationSet.collects_add.add_of_not_mem rfl ha,
      PositionSet.collects_add.add_of_not_mem PositionSet.inStep_empty ha⟩,
    ⟨hs, by rw [hx.items]⟩, fun d u => ⟨fun a => ?_, ?_⟩, fun d => ⟨?_, ?_⟩, fun u => ⟨?_, ?_⟩,
    fun c => ?_, s.sum_count⟩
  · rw [hlookup, AssociationSet.lookup?_eq_some_iff hends, Association.ends, Prod.mk.injEq]
  · rw [hlookup, hx.lookup?_eq_ok hends]
  · rw [AssociationSet.ofDef, hs]
  · rw [PositionSet.fromDef, hx.ofDef, hx.collect_positionsOf, AssociationSet.ofDef, hs]
  · rw [AssociationSet.ofUse, hs]
  · rw [PositionSet.toUse, hx.ofUse, hx.collect_positionsOf, AssociationSet.ofUse, hs]
  · rw [hx.counts_eq, AssociationSet.count, hs]

end DefUse
