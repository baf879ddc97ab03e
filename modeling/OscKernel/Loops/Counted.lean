import OscKernel.Loops.Iterate

/-!
# Loops with a number of rounds

How often a loop goes on before it stops, and the rule for loops that count a measure down
to zero.
-/

namespace OscKernel.Loops

universe u v

variable {σ : Type u} {ρ : Type v}

/-- The loop goes on exactly `n` times and then stops with the result. -/
def EndsAfter (round : σ → Round σ ρ) (n : Nat) (state : σ) (result : ρ) : Prop :=
  iterate round n state = none ∧ iterate round (n + 1) state = some result

variable {round : σ → Round σ ρ} {state next : σ} {result other : ρ} {n k : Nat}

theorem EndsAfter.of_stop (step : round state = .stop result) : EndsAfter round 0 state result := by
  constructor
  · rfl
  · rw [iterate, step]

theorem EndsAfter.of_next (step : round state = .next next)
    (ends : EndsAfter round n next result) : EndsAfter round (n + 1) state result := by
  constructor
  · rw [iterate, step]
    exact ends.1
  · rw [iterate, step]
    exact ends.2

/-- A loop that has stopped has gone on fewer times. -/
theorem EndsAfter.le (ends : EndsAfter round n state result)
    (otherEnds : EndsAfter round k state other) : n ≤ k := by
  by_contra later
  have stopped := iterate_mono otherEnds.2 (n - (k + 1))
  rw [Nat.add_sub_cancel' (Nat.lt_of_not_le later), ends.1] at stopped
  cases stopped

/-- The number of rounds is determined. -/
theorem EndsAfter.unique (ends : EndsAfter round n state result)
    (otherEnds : EndsAfter round k state other) : n = k :=
  Nat.le_antisymm (ends.le otherEnds) (otherEnds.le ends)

/-- A loop that takes one from a measure in each round, and stops at zero, goes on as often as
the measure says. -/
theorem endsAfter_of_measure (measure : σ → Nat)
    (stops : ∀ state, measure state = 0 → round state = .stop result)
    (goes : ∀ state n, measure state = n + 1 →
      ∃ next, round state = .next next ∧ measure next = n) (state : σ) :
    EndsAfter round (measure state) state result := by
  induction size : measure state generalizing state with
  | zero => exact EndsAfter.of_stop (stops state size)
  | succ n ih =>
      obtain ⟨next, step, smaller⟩ := goes state n size
      exact EndsAfter.of_next step (ih next smaller)

end OscKernel.Loops
