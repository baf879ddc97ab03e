import Mathlib.Data.BitVec
import OscKernel.Paging.MapCalls

/-!
# The calls of `map_pages` (`ex62/main.c`)

Which calls of `pagewalk` the loop of `map_pages` makes.  The loop is stated for any
`pagewalk`; with one that records its arguments it leaves the list of calls.  Nothing is
assumed of the addresses, so sums wrap as in the source.
-/

namespace OscKernel.Paging

open Loops

/-- The arguments of a call of `pagewalk`. -/
structure WalkCall where
  va : BitVec 64
  pa : BitVec 64
  prot : BitVec 64
  deriving DecidableEq, Repr

section Loop

variable {σ ε : Type}

/-- One round of `map_pages` with any `pagewalk`. -/
def mapPagesRound (pagewalk : WalkCall → σ → Except ε σ) (va size pa prot : BitVec 64)
    (s : BitVec 32 × σ) : Round (BitVec 32 × σ) (Except ε σ) :=
  let i := s.1.signExtend 64
  if i.toNat < size.toNat then
    match pagewalk ⟨va + i, pa + i, prot⟩ s.2 with
    | .ok t => .next (s.1 + 0x1000, t)
    | .error fault => .stop (.error fault)
  else .stop (.ok s.2)

/-- Calls one after another; a fault ends them. -/
def makeCalls (pagewalk : WalkCall → σ → Except ε σ) : List WalkCall → σ → Except ε σ
  | [], s => .ok s
  | call :: rest, s =>
      match pagewalk call s with
      | .ok s => makeCalls pagewalk rest s
      | .error fault => .error fault

end Loop

/-- The loop with the `pagewalk` of the kernel. -/
theorem mapRound_eq (pgd va size pa prot : BitVec 64) :
    mapRound pgd va size pa prot =
      mapPagesRound (fun call => pagewalk pgd call.va call.pa call.prot) va size pa prot := by
  funext s
  rw [mapRound, mapPagesRound]
  split
  · cases pagewalk pgd (va + s.1.signExtend 64) (pa + s.1.signExtend 64) prot s.2 with
    | ok k => rfl
    | error fault => rfl
  · rfl

/-- A `pagewalk` that records its arguments. -/
def recordCall (call : WalkCall) (log : List WalkCall) : Except Empty (List WalkCall) :=
  .ok (log ++ [call])

/-- Pages of a range of `size` bytes, rounded up. -/
def pageCount (size : BitVec 64) : Nat := (size.toNat + 0xfff) / 0x1000

/-- The call for page `k` of a range. -/
def rangeCall (va pa prot : BitVec 64) (k : Nat) : WalkCall :=
  ⟨va + BitVec.ofNat 64 (k * 0x1000), pa + BitVec.ofNat 64 (k * 0x1000), prot⟩

/-- One call for each page of a range, in order. -/
def rangeCalls (va size pa prot : BitVec 64) : List WalkCall :=
  (List.range (pageCount size)).map (rangeCall va pa prot)

theorem length_rangeCalls (va size pa prot : BitVec 64) :
    (rangeCalls va size pa prot).length = pageCount size := by
  rw [rangeCalls, List.length_map, List.length_range]

section Recorded

variable {va size pa prot : BitVec 64} {i : BitVec 32} {log : List WalkCall}

theorem recorded_round (below : (i.signExtend 64).toNat < size.toNat) :
    mapPagesRound recordCall va size pa prot (i, log) =
      .next (i + 0x1000, log ++ [⟨va + i.signExtend 64, pa + i.signExtend 64, prot⟩]) := by
  rw [mapPagesRound, if_pos below]
  rfl

theorem recorded_stop (past : ¬ (i.signExtend 64).toNat < size.toNat) :
    mapPagesRound recordCall va size pa prot (i, log) = .stop (.ok log) := by
  rw [mapPagesRound, if_neg past]

/-- The calls that are recorded stay recorded. -/
theorem prefix_of_recorded {result : List WalkCall}
    (ends : Ends (mapPagesRound recordCall va size pa prot) (i, log) (.ok result)) :
    log <+: result := by
  obtain ⟨fuel, ended⟩ := ends
  induction fuel generalizing i log with
  | zero => cases ended
  | succ fuel ih =>
      rw [iterate] at ended
      by_cases below : (i.signExtend 64).toNat < size.toNat
      · rw [recorded_round below] at ended
        exact (List.prefix_append log _).trans (ih ended)
      · rw [recorded_stop below] at ended
        cases ended
        exact List.prefix_rfl

/-- The recorded calls are those that the loop makes with any `pagewalk`. -/
theorem ends_of_recorded {σ ε : Type} {pagewalk : WalkCall → σ → Except ε σ} {s : σ}
    {calls : List WalkCall}
    (ends : Ends (mapPagesRound recordCall va size pa prot) (i, log) (.ok (log ++ calls))) :
    Ends (mapPagesRound pagewalk va size pa prot) (i, s) (makeCalls pagewalk calls s) := by
  obtain ⟨fuel, ended⟩ := ends
  induction fuel generalizing i log calls s with
  | zero => cases ended
  | succ fuel ih =>
      rw [iterate] at ended
      by_cases below : (i.signExtend 64).toNat < size.toNat
      · rw [recorded_round below] at ended
        dsimp only at ended
        obtain ⟨rest, more⟩ := prefix_of_recorded ⟨fuel, ended⟩
        rw [List.append_assoc, List.append_cancel_left_eq] at more
        rw [← more] at ended ⊢
        rw [List.singleton_append, makeCalls]
        cases walked : pagewalk ⟨va + i.signExtend 64, pa + i.signExtend 64, prot⟩ s with
        | ok t =>
            rw [← List.append_assoc] at ended
            apply Ends.of_next _ (ih ended)
            rw [mapPagesRound, if_pos below]
            dsimp only
            rw [walked]
        | error fault =>
            apply Ends.of_stop
            rw [mapPagesRound, if_pos below]
            dsimp only
            rw [walked]
      · rw [recorded_stop below] at ended
        have none : calls = [] := by simpa using ended
        rw [none, makeCalls]
        apply Ends.of_stop
        rw [mapPagesRound, if_neg below]

end Recorded

section Range

variable {va size pa prot : BitVec 64} {result : List WalkCall}

/-- The loop reaches page `j` as long as its counter does not turn negative. -/
theorem recorded_from_page {j : Nat} (small : j ≤ 2 ^ 19) (reached : j ≤ pageCount size) :
    Ends (mapPagesRound recordCall va size pa prot) (0, []) (.ok result) ↔
      Ends (mapPagesRound recordCall va size pa prot)
        (BitVec.ofNat 32 (j * 0x1000), (List.range j).map (rangeCall va pa prot))
        (.ok result) := by
  induction j with
  | zero => exact Iff.rfl
  | succ j ih =>
      have counter := signExtend_counter (j := j) (by omega)
      have inside : j * 0x1000 < size.toNat := by
        rw [pageCount] at reached
        omega
      have below : ((BitVec.ofNat 32 (j * 0x1000)).signExtend 64).toNat < size.toNat := by
        rw [counter, BitVec.toNat_ofNat]
        exact Nat.lt_of_le_of_lt (Nat.mod_le _ _) inside
      have stride : BitVec.ofNat 32 (j * 0x1000) + 0x1000 =
          BitVec.ofNat 32 ((j + 1) * 0x1000) := by
        rw [Nat.succ_mul, BitVec.ofNat_add]
        rfl
      rw [ih (by omega) (by omega), Ends.next_iff (recorded_round below), stride, counter,
        List.range_succ, List.map_append]
      rfl

/-- The calls of a range whose counter stays an `int`. -/
theorem recorded_of_small (small : size.toNat ≤ 2 ^ 31) :
    Ends (mapPagesRound recordCall va size pa prot) (0, [])
      (.ok (rangeCalls va size pa prot)) := by
  have few : pageCount size ≤ 2 ^ 19 := by
    rw [pageCount]
    omega
  rw [recorded_from_page few (Nat.le_refl _)]
  apply Ends.of_stop (recorded_stop _)
  by_cases last : pageCount size = 2 ^ 19
  · rw [last, signExtend_wrapped]
    omega
  · rw [signExtend_counter (by omega), BitVec.toNat_ofNat]
    rw [pageCount] at *
    omega

/-- A longer range ends after the pages that an `int` counts, or goes on elsewhere. -/
theorem recorded_of_large (large : 2 ^ 31 < size.toNat)
    (ends : Ends (mapPagesRound recordCall va size pa prot) (0, []) (.ok result)) :
    result = (List.range (2 ^ 19)).map (rangeCall va pa prot) ∨
      result[2 ^ 19]? = some ⟨va - 2 ^ 31, pa - 2 ^ 31, prot⟩ := by
  have many : 2 ^ 19 ≤ pageCount size := by
    rw [pageCount]
    omega
  rw [recorded_from_page (Nat.le_refl _) many] at ends
  by_cases below : ((BitVec.ofNat 32 (2 ^ 19 * 0x1000)).signExtend 64).toNat < size.toNat
  · right
    rw [Ends.next_iff (recorded_round below)] at ends
    obtain ⟨rest, more⟩ := prefix_of_recorded ends
    have length : ((List.range (2 ^ 19)).map (rangeCall va pa prot)).length = 2 ^ 19 := by
      rw [List.length_map, List.length_range]
    have next : (BitVec.ofNat 32 (2 ^ 19 * 0x1000)).signExtend 64 = - (2 ^ 31 : BitVec 64) := by
      decide
    rw [← more, List.append_assoc, List.getElem?_append_right (Nat.le_of_eq length), length,
      Nat.sub_self, List.singleton_append, List.getElem?_cons_zero, next, BitVec.sub_eq_add_neg,
      BitVec.sub_eq_add_neg]
  · left
    rw [Ends.stop_iff (recorded_stop below)] at ends
    exact Except.ok.inj ends

/-- A longer range is not covered. -/
theorem not_recorded_of_large (large : 2 ^ 31 < size.toNat) :
    ¬ Ends (mapPagesRound recordCall va size pa prot) (0, [])
      (.ok (rangeCalls va size pa prot)) := by
  intro ends
  have many : 2 ^ 19 < pageCount size := by
    rw [pageCount]
    omega
  rcases recorded_of_large large ends with short | elsewhere
  · have lengths := congrArg List.length short
    rw [length_rangeCalls, List.length_map, List.length_range] at lengths
    omega
  · rw [rangeCalls, List.getElem?_map, List.getElem?_range many] at elsewhere
    have addresses := congrArg WalkCall.va (Option.some.inj elsewhere)
    have forward : va + BitVec.ofNat 64 (2 ^ 19 * 0x1000) = va - 2 ^ 31 := addresses
    rw [BitVec.sub_eq_add_neg, BitVec.add_right_inj] at forward
    exact absurd forward (by decide)

end Range

/-- `map_pages` walks for every page of the range once and in order, and returns, exactly
for the sizes that its counter can count. -/
theorem mapPages_covers_iff (va size pa prot : BitVec 64) :
    Ends (mapPagesRound recordCall va size pa prot) (0, [])
      (.ok (rangeCalls va size pa prot)) ↔ size.toNat ≤ 2 ^ 31 := by
  constructor
  · intro ends
    by_contra large
    exact not_recorded_of_large (by omega) ends
  · exact recorded_of_small

/-- A range with one page more than the counter can count is not covered. -/
theorem mapPages_cut_short :
    ¬ Ends (mapPagesRound recordCall 0 0x80001000 0 protKernel) (0, [])
      (.ok (rangeCalls 0 0x80001000 0 protKernel)) :=
  not_recorded_of_large (by decide)

/-- The kernel's loop makes these calls, as far as `pagewalk` does not fault. -/
theorem mapPages_ends_calls {va size pa prot : BitVec 64} (small : size.toNat ≤ 2 ^ 31)
    (pgd : BitVec 64) (k : Kernel) :
    Ends (mapRound pgd va size pa prot) (0, k)
      (makeCalls (fun call => pagewalk pgd call.va call.pa call.prot)
        (rangeCalls va size pa prot) k) := by
  rw [mapRound_eq]
  exact ends_of_recorded (recorded_of_small small)

end OscKernel.Paging
