/-!
# Iteration to a fixed point

The analyses repeat a round until it changes nothing.  The number of rounds is bounded by a
number that the caller knows from the size of its problem.

**Results.** `stabilize` repeats a step; if the steps from a state come to rest within the bound,
its result is a fixed point (`stabilize_fixed`), and it keeps every invariant of the step
(`stabilize_invariant`).
-/

namespace DefUse

/-- Repeats a step until it changes nothing, at most `bound` times. -/
def stabilize {σ : Type} [DecidableEq σ] (step : σ → σ) : Nat → σ → σ
  | 0, s => s
  | bound + 1, s =>
    let t := step s
    if t = s then s else stabilize step bound t

/-- Repeats a step until it has nothing left to do, at most `bound` times. -/
def runSteps {σ : Type} (step : σ → Option σ) : Nat → σ → σ
  | 0, s => s
  | bound + 1, s =>
    match step s with
    | none => s
    | some t => runSteps step bound t

section Laws

variable {σ : Type}

theorem stabilize_invariant
    [DecidableEq σ] {step : σ → σ} {P : σ → Prop}
    (hstep : ∀ s, P s → P (step s)) :
    ∀ (bound : Nat) (s : σ), P s → P (stabilize step bound s)
  | 0, _, hs => hs
  | bound + 1, s, hs => by
      unfold stabilize
      simp only
      split
      · exact hs
      · exact stabilize_invariant hstep bound (step s) (hstep s hs)

/-- A measure that every change lowers bounds the number of rounds. -/
theorem stabilize_fixed
    [DecidableEq σ] {step : σ → σ} {P : σ → Prop} {room : σ → Nat}
    (hstep : ∀ s, P s → P (step s))
    (hroom : ∀ s, P s → step s ≠ s → room (step s) < room s) :
    ∀ (bound : Nat) (s : σ), P s → room s < bound →
      step (stabilize step bound s) = stabilize step bound s
  | 0, _, _, h => absurd h (Nat.not_lt_zero _)
  | bound + 1, s, hs, h => by
      unfold stabilize
      simp only
      split
      · assumption
      · rename_i hne
        have := hroom s hs hne
        exact stabilize_fixed hstep hroom bound (step s) (hstep s hs) (by omega)

theorem runSteps_invariant
    {step : σ → Option σ} {P : σ → Prop}
    (hstep : ∀ s t, P s → step s = some t → P t) :
    ∀ (bound : Nat) (s : σ), P s → P (runSteps step bound s)
  | 0, _, hs => hs
  | bound + 1, s, hs => by
      unfold runSteps
      split
      · exact hs
      · rename_i t ht
        exact runSteps_invariant hstep bound t (hstep s t hs ht)

/-- A measure that every step lowers bounds the number of steps. -/
theorem runSteps_done
    {step : σ → Option σ} {P : σ → Prop} {room : σ → Nat}
    (hstep : ∀ s t, P s → step s = some t → P t)
    (hroom : ∀ s t, P s → step s = some t → room t < room s) :
    ∀ (bound : Nat) (s : σ), P s → room s < bound →
      step (runSteps step bound s) = none
  | 0, _, _, h => absurd h (Nat.not_lt_zero _)
  | bound + 1, s, hs, h => by
      unfold runSteps
      split
      · assumption
      · rename_i t ht
        have := hroom s t hs ht
        exact runSteps_done hstep hroom bound t (hstep s t hs ht) (by omega)

end Laws

end DefUse
