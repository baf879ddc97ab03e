import Mathlib.Order.Basic

/-!
# Loops that may not terminate

A `while (1)` loop is a round function that either goes on with a new state or stops
with a result.  `iterate` runs it with a fuel bound, `Ends` says that it stops for some
amount of fuel, and `ends_of_invariant` is the rule of total correctness: an invariant
and a decreasing measure.
-/

namespace OscKernel.Loops

universe u v

variable {σ : Type u} {ρ : Type v}

/-- Outcome of one round of a loop. -/
inductive Round (σ : Type u) (ρ : Type v) where
  | next (state : σ)
  | stop (result : ρ)
  deriving Repr

/-- Run a loop for at most `fuel` rounds. -/
def iterate (round : σ → Round σ ρ) : Nat → σ → Option ρ
  | 0, _ => none
  | fuel + 1, state =>
      match round state with
      | .next state => iterate round fuel state
      | .stop result => some result

/-- The loop stops with `result`. -/
def Ends (round : σ → Round σ ρ) (state : σ) (result : ρ) : Prop :=
  ∃ fuel, iterate round fuel state = some result

variable {round : σ → Round σ ρ} {state next : σ} {result other : ρ}

theorem iterate_mono {fuel : Nat} (ended : iterate round fuel state = some result) (more : Nat) :
    iterate round (fuel + more) state = some result := by
  induction fuel generalizing state with
  | zero => simp [iterate] at ended
  | succ fuel ih =>
      rw [Nat.succ_add, iterate]
      rw [iterate] at ended
      cases step : round state with
      | next state' =>
          rw [step] at ended
          exact ih ended
      | stop result' =>
          rw [step] at ended
          exact ended

/-- A loop has at most one result. -/
theorem Ends.unique (ends : Ends round state result) (otherEnds : Ends round state other) :
    result = other := by
  obtain ⟨fuel, ended⟩ := ends
  obtain ⟨otherFuel, otherEnded⟩ := otherEnds
  have left := iterate_mono ended otherFuel
  have right := iterate_mono otherEnded fuel
  rw [Nat.add_comm otherFuel fuel, left] at right
  exact Option.some.inj right

theorem Ends.of_stop (step : round state = .stop result) : Ends round state result :=
  ⟨1, by rw [iterate, step]⟩

theorem Ends.stop_iff (step : round state = .stop result) :
    Ends round state other ↔ other = result := by
  constructor
  · intro ends
    exact ends.unique (Ends.of_stop step)
  · rintro rfl
    exact Ends.of_stop step

theorem Ends.of_next (step : round state = .next next) (ends : Ends round next result) :
    Ends round state result := by
  obtain ⟨fuel, ended⟩ := ends
  refine ⟨fuel + 1, ?_⟩
  rw [iterate, step]
  exact ended

theorem Ends.next_iff (step : round state = .next next) :
    Ends round state result ↔ Ends round next result := by
  constructor
  · intro ends
    obtain ⟨fuel, ended⟩ := ends
    cases fuel with
    | zero => simp [iterate] at ended
    | succ fuel =>
        rw [iterate, step] at ended
        exact ⟨fuel, ended⟩
  · exact Ends.of_next step

/-- Total correctness: if every round from a state of the invariant either stops with a
good result or keeps the invariant and decreases the measure, the loop stops with a good
result once there is more fuel than the measure. -/
theorem iterate_of_invariant {invariant : σ → Prop} (good : ρ → Prop) (measure : σ → Nat)
    (step : ∀ state, invariant state →
      (∃ result, round state = .stop result ∧ good result) ∨
      ∃ next, round state = .next next ∧ invariant next ∧ measure next < measure state)
    (start : invariant state) :
    ∃ result, (∀ fuel, measure state < fuel → iterate round fuel state = some result) ∧
      good result := by
  -- Strong induction on the measure.
  induction size : measure state using Nat.strongRecOn generalizing state with
  | ind size ih =>
      rcases step state start with ⟨result, stops, isGood⟩ | ⟨next, goes, kept, smaller⟩
      · refine ⟨result, ?_, isGood⟩
        intro fuel enough
        obtain ⟨fuel, rfl⟩ := Nat.exists_eq_add_one_of_ne_zero (Nat.ne_zero_of_lt enough)
        rw [iterate, stops]
      · obtain ⟨result, ended, isGood⟩ := ih (measure next) (size ▸ smaller) kept rfl
        refine ⟨result, ?_, isGood⟩
        intro fuel enough
        obtain ⟨fuel, rfl⟩ := Nat.exists_eq_add_one_of_ne_zero (Nat.ne_zero_of_lt enough)
        rw [iterate, goes]
        exact ended fuel (by omega)

/-- The rule for loops that are to stop for some amount of fuel. -/
theorem ends_of_invariant {invariant : σ → Prop} (good : ρ → Prop) (measure : σ → Nat)
    (step : ∀ state, invariant state →
      (∃ result, round state = .stop result ∧ good result) ∨
      ∃ next, round state = .next next ∧ invariant next ∧ measure next < measure state)
    (start : invariant state) : ∃ result, Ends round state result ∧ good result := by
  obtain ⟨result, ended, isGood⟩ := iterate_of_invariant good measure step start
  exact ⟨result, ⟨_, ended _ (Nat.lt_succ_self _)⟩, isGood⟩

end OscKernel.Loops
