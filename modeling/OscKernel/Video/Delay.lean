import Mathlib.Algebra.Group.Nat.Defs
import OscKernel.Loops.Counted
import OscKernel.Loops.Endless

/-!
# The delay loop (`ex52/main.c`)

`usleep` compares its counter with `TIME_FREQ*usec/100` in every round.  The product of an `int`
and an `unsigned int` keeps 32 bits, so some rounds are lost each time that it passes `2 ^ 32`.
-/

namespace OscKernel.Video

open Loops Relation

/-- `TIME_FREQ` -/
def timeFreq : BitVec 32 := 10000000

/-- `TIME_FREQ*usec/100`, an `unsigned int` -/
def usleepBound (usec : BitVec 32) : BitVec 32 := timeFreq * usec / 100

/-- A round of the loop of `usleep`.  The `int` is converted for the comparison. -/
def usleepRound (usec i : BitVec 32) : Round (BitVec 32) (BitVec 32) :=
  if i < usleepBound usec then .next (i + 1) else .stop usec

/-- `usleep` goes round its loop `n` times and returns. -/
def Usleeps (usec : BitVec 32) (n : Nat) : Prop := EndsAfter (usleepRound usec) n 0 usec

/-- How often the product of a delay passes `2 ^ 32`. -/
def wraps (usec : BitVec 32) : Nat := 10000000 * usec.toNat / 2 ^ 32

/-- The rounds that are lost with them, of 100000 for a microsecond. -/
def lostRounds (usec : BitVec 32) : Nat := (2 ^ 32 * wraps usec + 99) / 100

variable {u v i usec : BitVec 32} {n : Nat}

theorem usleepBound_toNat (usec : BitVec 32) :
    (usleepBound usec).toNat = 10000000 * usec.toNat % 2 ^ 32 / 100 := by
  rw [usleepBound, BitVec.toNat_udiv, BitVec.toNat_mul]
  rfl

theorem usleepBound_lt (usec : BitVec 32) : (usleepBound usec).toNat < 2 ^ 31 := by
  rw [usleepBound_toNat]
  omega

/-- The rounds that are left. -/
theorem usleepBound_add_lostRounds (usec : BitVec 32) :
    (usleepBound usec).toNat + lostRounds usec = 100000 * usec.toNat := by
  rw [usleepBound_toNat, lostRounds, wraps]
  omega

theorem toNat_add_one {i limit : BitVec 32} (below : i < limit) :
    (i + 1).toNat = i.toNat + 1 := by
  have values : i.toNat < limit.toNat := below
  have bound := limit.isLt
  have one : (1 : BitVec 32).toNat = 1 := rfl
  rw [BitVec.toNat_add]
  omega

/-- The counter stays an `int`. -/
theorem usleep_counter_lt (reached : ReflTransGen (Leads (usleepRound usec)) 0 i) :
    i.toNat < 2 ^ 31 := by
  have bound := usleepBound_lt usec
  induction reached with
  | refl => decide
  | tail _ leads ih =>
      rw [Leads, usleepRound] at leads
      split at leads
      · rename_i below
        cases leads
        have values := BitVec.lt_def.mp below
        rw [toNat_add_one below]
        omega
      · cases leads

/-- The loop ends, after as many rounds as its bound says. -/
theorem usleeps_bound (usec : BitVec 32) : Usleeps usec (usleepBound usec).toNat := by
  have count : EndsAfter (usleepRound usec) ((usleepBound usec).toNat - (0 : BitVec 32).toNat)
      0 usec := by
    refine endsAfter_of_measure (fun i : BitVec 32 => (usleepBound usec).toNat - i.toNat) ?_ ?_ 0
    · intro i (none : (usleepBound usec).toNat - i.toNat = 0)
      have above : ¬ i < usleepBound usec := by
        rw [BitVec.lt_def]
        omega
      rw [usleepRound, if_neg above]
    · intro i n (more : (usleepBound usec).toNat - i.toNat = n + 1)
      have below : i < usleepBound usec := by
        rw [BitVec.lt_def]
        omega
      refine ⟨i + 1, by rw [usleepRound, if_pos below], ?_⟩
      show (usleepBound usec).toNat - (i + 1).toNat = n
      rw [toNat_add_one below]
      omega
  exact count

theorem usleeps_iff : Usleeps usec n ↔ n = (usleepBound usec).toNat := by
  constructor
  · intro sleeps
    exact sleeps.unique (usleeps_bound usec)
  · rintro rfl
    exact usleeps_bound usec

/-- A longer delay waits at least as long if it loses no more rounds than it asks for. -/
theorem usleep_le_iff {u v : BitVec 32} (order : u ≤ v) :
    (∃ m n, Usleeps u m ∧ Usleeps v n ∧ m ≤ n) ↔
      lostRounds v ≤ lostRounds u + 100000 * (v.toNat - u.toNat) := by
  have values : u.toNat ≤ v.toNat := order
  have first := usleepBound_add_lostRounds u
  have second := usleepBound_add_lostRounds v
  constructor
  · rintro ⟨m, n, shorter, longer, le⟩
    rw [usleeps_iff.mp shorter, usleeps_iff.mp longer] at le
    omega
  · intro less
    exact ⟨_, _, usleeps_bound u, usleeps_bound v, by omega⟩

/-- Half of a frame of the animation waits less than the frame. -/
theorem usleep_le_frame : ∃ m n, Usleeps 25000 m ∧ Usleeps 50000 n ∧ m ≤ n :=
  (usleep_le_iff (by decide)).mpr (by decide +kernel)

/-- The first wrap: 430 microseconds wait less than 429. -/
theorem usleep_wrapped :
    (429 : BitVec 32) ≤ 430 ∧ ¬ ∃ m n, Usleeps 429 m ∧ Usleeps 430 n ∧ m ≤ n := by
  have first : (usleepBound 429).toNat = 42900000 := by
    rw [usleepBound_toNat]
    decide
  have second : (usleepBound 430).toNat = 50327 := by
    rw [usleepBound_toNat]
    decide
  refine ⟨by decide, ?_⟩
  rintro ⟨m, n, shorter, longer, le⟩
  rw [usleeps_iff.mp shorter, usleeps_iff.mp longer, first, second] at le
  omega

/-- Delays with the same number of wraps are in order. -/
theorem usleepBound_le_of_wraps_eq (order : u ≤ v) (same : wraps u = wraps v) :
    (usleepBound u).toNat ≤ (usleepBound v).toNat := by
  have values : u.toNat ≤ v.toNat := order
  have first := usleepBound_add_lostRounds u
  have second := usleepBound_add_lostRounds v
  rw [lostRounds, same, ← lostRounds] at first
  omega

/-- A microsecond more waits less exactly if the product wraps once more. -/
theorem usleepBound_succ_lt_iff (last : u.toNat + 1 = v.toNat) :
    (usleepBound v).toNat < (usleepBound u).toNat ↔ wraps u < wraps v := by
  have first := usleepBound_add_lostRounds u
  have second := usleepBound_add_lostRounds v
  rw [lostRounds] at first second
  omega

end OscKernel.Video
