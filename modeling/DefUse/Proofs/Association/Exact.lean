import DefUse.Proofs.Association.Build

/-!
# Exactness of the associations of local variables

**Results.** `analyzeProgram_associates_iff_chain`: whatever the oracle and the settings, the
analysis of a checked program associates a definition and a use of local variables exactly if a
chain of walks leads from the one to the other.
-/

namespace DefUse

/-- The definitions and uses of local variables that are associated are those at the ends of
chains. -/
theorem analyzeProgram_associates_iff_chain
    (prog : Program) (oracle : Oracle) (settings : Settings)
    (hprog : prog.Finalized) :
    ∃ set events, analyzeProgram prog oracle settings = .ok (set, events) ∧
      ∀ d u, (∃ a ∈ set.items, a.heap = false ∧ a.definition = d ∧ a.use = u) ↔
        prog.IsLocalDef settings.formalsAsDefs d ∧
          prog.Chain settings.formalsAsDefs d.site d.var u := by
  obtain ⟨events, hrun⟩ := @analyzeProgram_eq prog oracle settings hprog
  refine ⟨_, events, hrun, ?_⟩
  intro d u
  constructor
  · rintro ⟨a, ha, hheap, rfl, rfl⟩
    have hfacts := localFacts_of_mem hprog ha hheap
    exact ⟨hfacts.isLocalDef, hfacts.chain⟩
  · rintro ⟨hd, hchain⟩
    obtain ⟨a, ha, hheap, rfl, rfl⟩ :=
      @exists_listed_of_chain prog oracle settings hprog d u hd hchain
    refine ⟨cleared (prog.listed oracle settings) a, List.mem_map_of_mem ha, ?_⟩
    rw [cleared_eq]
    exact ⟨hheap, rfl, rfl⟩

/-- A variable is set in a loop, and read by a branch and behind a formal that is passed on. -/
def passedOn : Program where
  procs := #[
    { name := "main"
      nodes := #[
        { label := "entry", succs := [2] },
        { label := "exit", preds := [3] },
        { label := "x = g()", defs := [.ofLocal "main" "x"], succs := [3], preds := [0, 3] },
        { label := "if x && f(x)", uses := [.ofLocal "main" "x"], predicate := true,
          succs := [1, 2], preds := [2], calls := [⟨"f", [.ofLocal "main" "x"]⟩] }] },
    { name := "f"
      params := [.ofLocal "f" "p"]
      nodes := #[
        { label := "entry", succs := [2] },
        { label := "exit", preds := [2] },
        { label := "return p || f(p)", uses := [.ofLocal "f" "p"], succs := [1], preds := [0],
          calls := [⟨"f", [.ofLocal "f" "p"]⟩] }] }]
  callGraph := ⟨#[[1], [1]], #[[], [0, 1]]⟩

/-- The definition reaches the use behind the formal by a chain with one argument. -/
theorem analyzeProgram_associates_iff_chain_passedOn :
    passedOn.Finalized ∧
      passedOn.Chain false ⟨0, 2⟩ (.ofLocal "main" "x")
        (.computation ⟨1, 2⟩ (.ofLocal "f" "p")) := by
  have hprog : passedOn.Finalized := by decide +kernel
  refine ⟨hprog, ?_⟩
  obtain ⟨set, events, hrun, hiff⟩ := analyzeProgram_associates_iff_chain passedOn .null {} hprog
  have hlisted : ((analyzeProgram passedOn .null {}).map fun r => r.1.items.any fun a =>
      !a.heap && a.definition = ⟨⟨0, 2⟩, .ofLocal "main" "x", false⟩ &&
        a.use = .computation ⟨1, 2⟩ (.ofLocal "f" "p")) = .ok true := by
    decide +kernel
  rw [hrun] at hlisted
  have hany := Except.ok.inj hlisted
  rw [List.any_eq_true] at hany
  obtain ⟨a, ha, hends⟩ := hany
  simp only [Bool.and_eq_true, Bool.not_eq_true', decide_eq_true_eq] at hends
  exact ((hiff _ _).mp ⟨a, ha, hends.1.1, hends.1.2, hends.2⟩).2

end DefUse
