import DefUse.Proofs.Association.Build
import DefUse.Proofs.Program.Less

/-!
# Every run ends with a sorted set

**Method.** The five checks of the construction guard books that different stages wrote.  A local
use that a definition reaches is a use of its procedure, and is passed on if it leads out of the
procedure; what kills a definition is a definition itself; no two associations have the same ends.
The keys of the ends order the associations, so that sorting orders them strictly.

**Results.** `analyzeProgram_never_fails`: the analysis of a checked program gives a set, every
check succeeds, and the set is listed strictly by definition and then by use.
-/

namespace DefUse

namespace Association

variable {a b : Association}

/-- The components of the ends of an association in the order of comparison. -/
def key (a : Association) :
    ((Int ×ₗ Int) ×ₗ (Nat ×ₗ String ×ₗ String ×ₗ Bool) ×ₗ Bool) ×ₗ
      (Int ×ₗ Int) ×ₗ Nat ×ₗ Int ×ₗ (Nat ×ₗ String ×ₗ String ×ₗ Bool) :=
  toLex (a.definition.key, a.use.key)

theorem less_iff
    (a b : Association) :
    a.less b = true ↔ a.key < b.key :=
  lexicographic_iff Def.key_injective (Def.less_iff _ _) (Use.less_iff _ _)

theorem ends_eq_of_key_eq
    (h : a.key = b.key) :
    a.ends = b.ends := by
  simp only [key, EmbeddingLike.apply_eq_iff_eq, Prod.mk.injEq] at h
  rw [ends, ends, Def.key_injective h.1, Use.key_injective h.2]

theorem nodup_keys
    {items : List Association}
    (h : (items.map ends).Nodup) :
    (items.map key).Nodup := by
  rw [List.Nodup, List.pairwise_map] at h ⊢
  exact h.imp fun hne hkey => hne (ends_eq_of_key_eq hkey)

/-- One association is listed before another one. -/
def Before (a b : Association) : Prop :=
  a.definition.less b.definition = true ∨
    a.definition = b.definition ∧ a.use.less b.use = true

theorem before_of_less
    (h : a.less b = true) :
    a.Before b := by
  unfold less at h
  split at h
  · exact Or.inl h
  · rename_i hsame
    exact Or.inr ⟨not_not.mp hsame, h⟩

end Association

section Listed

variable {prog : Program} {oracle : Oracle} {settings : Settings} {items : List Association}

@[simp] theorem cleared_ends
    (a : Association) :
    (cleared items a).ends = a.ends := by
  rw [cleared_eq]
  rfl

theorem cleared_less
    (a b : Association) :
    (cleared items a).less (cleared items b) = a.less b := by
  rw [@cleared_eq items a, @cleared_eq items b]
  rfl

theorem listed_pairwise :
    (prog.listed oracle settings).Pairwise fun a b => a.less b = true := by
  refine sortBy_pairwise Association.less_iff (Association.nodup_keys ?_)
  have hends := @nodup_ends_listed prog oracle settings
  exact ((sortBy_perm _).map Association.ends).nodup_iff.mp hends

theorem clearPredicates_pairwise
    (h : items.Pairwise fun a b => a.less b = true) :
    (clearPredicates items).Pairwise Association.Before := by
  rw [clearPredicates_eq, List.pairwise_map]
  refine h.imp ?_
  intro a b hab
  exact Association.before_of_less (by rwa [cleared_less])

theorem nodup_ends_clearPredicates
    (h : (items.map Association.ends).Nodup) :
    ((clearPredicates items).map Association.ends).Nodup := by
  rw [clearPredicates_eq, List.map_map]
  simpa [Function.comp_def] using h

end Listed

/-- The local uses of an association: there are some, they belong to the procedure of the
definition, and they are passed on if the use lies in another one. -/
structure Association.WellLinked (prog : Program) (formalsAsDefs : Bool) (a : Association) :
    Prop where
  reached : a.localUses ≠ []
  own : ∀ w ∈ a.localUses, w.site.proc = a.definition.site.proc
  passed : a.use.site.proc ≠ a.definition.site.proc →
    ∀ w ∈ a.localUses, ∃ x, prog.IsPassedTo formalsAsDefs w x

theorem Association.LocalFacts.wellLinked
    {prog : Program} {oracle : Oracle} {settings : Settings} {a : Association}
    (h : a.LocalFacts prog oracle settings)
    (hprog : prog.Finalized) :
    a.WellLinked prog settings.formalsAsDefs := by
  have hd := h.isLocalDef
  refine ⟨?_, ?_, ?_⟩
  · rw [h.localUses]
    exact Reached.witnesses_ne_nil ((Program.mem_uses_iff_chain hprog hd).mpr h.chain)
  · intro w hw
    rw [h.localUses] at hw
    exact ((Program.mem_witnesses_iff hprog hd).mp hw).1.proc
  · intro hproc w hw
    rw [h.localUses] at hw
    obtain ⟨hreached, ⟨huse, -⟩ | ⟨x, hpassed, -⟩⟩ := (Program.mem_witnesses_iff hprog hd).mp hw
    · rw [huse] at hproc
      exact absurd hreached.proc hproc
    · exact ⟨x, hpassed⟩

/-- The analysis of a checked program never fails, and lists its associations strictly. -/
theorem analyzeProgram_never_fails
    (prog : Program) (oracle : Oracle) (settings : Settings)
    (hprog : prog.Finalized) :
    (∀ r ∈ (prepare prog oracle settings).1.reached, ∀ k ∈ r.killers,
      ∃ hit, (prepare prog oracle settings).1.reachedBy? k = some hit) ∧
    ∃ set events, analyzeProgram prog oracle settings = .ok (set, events) ∧
      (∀ a ∈ set.items, a.heap = false → a.WellLinked prog settings.formalsAsDefs) ∧
      (set.items.map Association.ends).Nodup ∧
      set.items.Pairwise Association.Before := by
  constructor
  · intro r hr k hk
    obtain ⟨d, hd, rfl⟩ := Program.mem_reached_iff.mp hr
    have hlocal := Program.isLocalDef_of_mem_killers hprog hd hk
    exact ⟨_, Program.reachedBy?_eq hlocal⟩
  · obtain ⟨events, hrun⟩ := @analyzeProgram_eq prog oracle settings hprog
    refine ⟨_, events, hrun, ?_, ?_, ?_⟩
    · intro a ha hheap
      exact (localFacts_of_mem hprog ha hheap).wellLinked hprog
    · exact nodup_ends_clearPredicates nodup_ends_listed
    · exact clearPredicates_pairwise listed_pairwise

/-- A procedure that calls itself, with arguments and uses that are listed twice, formals of all
kinds, and a node that nothing leads to. -/
def tangled : Program where
  procs := #[
    { name := "f"
      params := [.ofLocal "f" "p", .zero, .ofField "T" "a"]
      nodes := #[
        { label := "entry", succs := [2] },
        { label := "exit", preds := [2] },
        { label := "p = f(p, p, p) + g(p)", defs := [.ofLocal "f" "p", .ofLocal "f" "p"],
          uses := [.ofLocal "f" "p", .ofLocal "f" "p"], succs := [1, 2], preds := [0, 2],
          calls := [⟨"f", [.ofLocal "f" "p", .ofLocal "f" "p", .ofLocal "f" "p"]⟩,
            ⟨"g", [.ofLocal "f" "p"]⟩] },
        { label := "p = T.a", defs := [.ofLocal "f" "p", .ofField "T" "a"],
          uses := [.ofField "T" "a"] }] }]
  callGraph := ⟨#[[0]], #[[0]]⟩

/-- The set of the tangled program has associations of both kinds, and is listed strictly. -/
theorem analyzeProgram_never_fails_tangled :
    tangled.Finalized ∧
      ∃ set events, analyzeProgram tangled .null {} = .ok (set, events) ∧
        set.items.map Association.heap = [false, true] ∧
        set.items.Pairwise Association.Before := by
  have hprog : tangled.Finalized := by decide +kernel
  refine ⟨hprog, ?_⟩
  obtain ⟨-, set, events, hrun, -, -, hlisted⟩ :=
    analyzeProgram_never_fails tangled .null {} hprog
  have hkinds : ((analyzeProgram tangled .null {}).map fun r =>
      decide (r.1.items.map Association.heap = [false, true])) = .ok true := by
    decide +kernel
  rw [hrun] at hkinds
  exact ⟨set, events, hrun, by simpa [Except.map] using hkinds, hlisted⟩

end DefUse
