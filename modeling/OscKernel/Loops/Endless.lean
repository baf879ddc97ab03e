import Mathlib.Logic.Relation
import Mathlib.Order.Filter.AtTopBot.Basic
import OscKernel.Loops.Iterate

/-!
# Loops that never end

What a loop reaches from a state, and what that says about its end: a measure that every round
decreases makes it end, and a property that every round keeps makes it go on.  A loop that never
stops has an infinite run.
-/

namespace OscKernel.Loops

open Relation

universe u v

variable {σ : Type u} {ρ : Type v} {round : σ → Round σ ρ} {state next : σ}

/-- One round goes on from a state to the next. -/
def Leads (round : σ → Round σ ρ) (state next : σ) : Prop := round state = .next next

/-- An invariant of single rounds holds in all states that are reached. -/
theorem invariant_of_reached {invariant : σ → Prop}
    (step : ∀ state next, Leads round state next → invariant state → invariant next)
    (reached : ReflTransGen (Leads round) state next) (start : invariant state) :
    invariant next := by
  induction reached with
  | refl => exact start
  | tail _ leads ih => exact step _ _ leads ih

/-- A loop ends if every round from a state that it reaches decreases a measure. -/
theorem ends_of_decreasing (measure : σ → Nat)
    (smaller : ∀ reached next, ReflTransGen (Leads round) state reached →
      Leads round reached next → measure next < measure reached) :
    ∃ result, Ends round state result := by
  have step : ∀ reached, ReflTransGen (Leads round) state reached →
      (∃ result, round reached = .stop result ∧ True) ∨
      ∃ next, round reached = .next next ∧ ReflTransGen (Leads round) state next ∧
        measure next < measure reached := by
    intro reached isReached
    cases stepped : round reached with
    | next next => exact .inr ⟨next, rfl, isReached.tail stepped, smaller _ _ isReached stepped⟩
    | stop result => exact .inl ⟨result, rfl, trivial⟩
  obtain ⟨result, ends, _⟩ := ends_of_invariant (fun _ => True) measure step .refl
  exact ⟨result, ends⟩

/-- A rank that every round raises is higher in all later states. -/
theorem lt_of_reached_later {later : σ} (rank : σ → Nat)
    (higher : ∀ reached next, ReflTransGen (Leads round) state reached →
      Leads round reached next → rank reached < rank next)
    (reached : ReflTransGen (Leads round) state next) (goesOn : TransGen (Leads round) next later) :
    rank next < rank later := by
  induction goesOn with
  | single leads => exact higher _ _ reached leads
  | tail before leads ih =>
      exact ih.trans (higher _ _ (reached.trans before.to_reflTransGen) leads)

/-- A loop ends if every round raises a rank that is bounded. -/
theorem ends_of_increasing (rank : σ → Nat) (limit : Nat) (bounded : ∀ state, rank state < limit)
    (higher : ∀ reached next, ReflTransGen (Leads round) state reached →
      Leads round reached next → rank reached < rank next) :
    ∃ result, Ends round state result := by
  apply ends_of_decreasing fun state => limit - rank state
  intro reached next isReached leads
  have rises := higher reached next isReached leads
  have below := bounded next
  omega

/-- A loop does not end where every round goes on and stays. -/
theorem not_ends_of_stays {stays : σ → Prop}
    (step : ∀ state, stays state → ∃ next, Leads round state next ∧ stays next)
    (start : stays state) : ¬ ∃ result, Ends round state result := by
  rintro ⟨result, fuel, ended⟩
  induction fuel generalizing state with
  | zero => cases ended
  | succ fuel ih =>
      obtain ⟨next, leads, kept⟩ := step state start
      rw [iterate, leads] at ended
      exact ih kept ended

theorem not_ends_of_self (leads : Leads round state state) :
    ¬ ∃ result, Ends round state result := by
  have stays : ∀ other, other = state → ∃ next, Leads round other next ∧ next = state := by
    rintro other rfl
    exact ⟨other, leads, rfl⟩
  exact not_ends_of_stays stays rfl

/-- A loop has the result that it has from a state that it reaches. -/
theorem Ends.iff_of_reached {result : ρ} (reached : ReflTransGen (Leads round) state next) :
    Ends round state result ↔ Ends round next result := by
  induction reached with
  | refl => rfl
  | tail _ leads ih => exact ih.trans (Ends.next_iff leads)

/-- A loop that ends has its result for any larger amount of fuel. -/
theorem Ends.eventually {result : ρ} (ends : Ends round state result) :
    ∀ᶠ fuel in Filter.atTop, iterate round fuel state = some result := by
  obtain ⟨least, ended⟩ := ends
  filter_upwards [Filter.eventually_ge_atTop least] with fuel enough
  have more := iterate_mono ended (fuel - least)
  rwa [Nat.add_sub_cancel' enough] at more

/-- A loop that ends stops in a state that it reaches. -/
theorem Ends.exists_last {result : ρ} (ends : Ends round state result) :
    ∃ last, ReflTransGen (Leads round) state last ∧ round last = .stop result := by
  obtain ⟨fuel, ended⟩ := ends
  induction fuel generalizing state with
  | zero => cases ended
  | succ fuel ih =>
      rw [iterate] at ended
      cases step : round state with
      | next next =>
          rw [step] at ended
          obtain ⟨last, reached, stops⟩ := ih ended
          exact ⟨last, .head step reached, stops⟩
      | stop other =>
          rw [step] at ended
          cases ended
          exact ⟨state, .refl, step⟩

/-- Two loops whose rounds agree on what the first one reaches end alike. -/
theorem Ends.congr {other : σ → Round σ ρ} {result : ρ} (ends : Ends round state result)
    (agree : ∀ reached, ReflTransGen (Leads round) state reached → other reached = round reached) :
    Ends other state result := by
  obtain ⟨fuel, ended⟩ := ends
  induction fuel generalizing state with
  | zero => cases ended
  | succ fuel ih =>
      rw [iterate] at ended
      have same := agree state .refl
      cases step : round state with
      | next next =>
          rw [step] at ended same
          exact Ends.of_next same (ih (fun reached later => agree reached (.head step later)) ended)
      | stop last =>
          rw [step] at ended same
          cases ended
          exact Ends.of_stop same

/-! ## Infinite runs -/

/-- A loop that does not end goes on for ever. -/
theorem exists_run (endless : ¬ ∃ result, Ends round state result) :
    ∃ run : Nat → σ, run 0 = state ∧ ∀ i, Leads round (run i) (run (i + 1)) := by
  have goes : ∀ state : {state // ¬ ∃ result, Ends round state result},
      ∃ next : {state // ¬ ∃ result, Ends round state result}, Leads round state next := by
    intro state
    cases step : round state.1 with
    | stop result => exact absurd ⟨result, Ends.of_stop step⟩ state.2
    | next next =>
        have still : ¬ ∃ result, Ends round next result := by
          rintro ⟨result, ends⟩
          exact state.2 ⟨result, Ends.of_next step ends⟩
        exact ⟨⟨next, still⟩, step⟩
  choose follow leads using goes
  refine ⟨fun i => (follow^[i] ⟨state, endless⟩).1, rfl, fun i => ?_⟩
  dsimp only
  rw [Function.iterate_succ_apply']
  exact leads _

end OscKernel.Loops
