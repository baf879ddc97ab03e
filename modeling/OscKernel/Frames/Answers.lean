import OscKernel.Frames.BuddyTiling

/-!
# Answers of the buddy allocator

What `alloc_pages` and `free_pages` answer in a state that calls of the two can reach.
`alloc_pages` finds a block whenever there is one, a free of a page that is not a live head
changes nothing, and an order that does not exist is rejected as long as it is not negative
as an `int`.
-/

namespace OscKernel.Frames

open Blocks Block

/-! ## Orders that do not exist -/

/-- From an index above `MAX_ORDER` the scan has no list to look at. -/
theorem allocLoop_above {i : Int} (above : maxOrder < i) (order : BitVec 32) (m : Memory) :
    allocLoop order i m = .ok (none, m) := by
  rw [allocLoop, if_neg (by omega)]

/-- A negative index is outside `free_area`. -/
theorem allocLoop_negative {i : Int} (negative : i < 0) (order : BitVec 32) (m : Memory) :
    allocLoop order i m = .error .outOfBounds := by
  rw [allocLoop, if_pos (by omega), if_pos negative]

theorem allocPages_above {order : BitVec 32} (large : maxOrder < order.toNat)
    (signed : order.toNat < 2 ^ 31) (m : Memory) : allocPages order m = .ok (none, m) := by
  have same : order.toInt = order.toNat := BitVec.toInt_eq_toNat_of_lt (by omega)
  apply allocLoop_above
  rw [same]
  exact_mod_cast large

theorem allocPages_negative {order : BitVec 32} (large : 2 ^ 31 ≤ order.toNat) (m : Memory) :
    allocPages order m = .error .outOfBounds := by
  apply allocLoop_negative
  rw [BitVec.toInt_eq_toNat_cond, if_neg (by omega)]
  have bound := order.isLt
  omega

/-! ## Reachable states -/

namespace System

/-- The states that calls reach from the start, whatever orders and pages they are made with,
as long as none of them faults. -/
def Reachable (s : System) : Prop := ∃ calls, start.run calls = .ok s

variable {s next : System}

/-- A call that does not fault keeps the invariant, even with an order that does not exist. -/
theorem Inv.step_ok (inv : s.Inv) {call : Call} (stepped : s.step call = .ok next) :
    next.Inv := by
  by_cases valid : call.Valid
  · obtain ⟨other, otherStepped, kept⟩ := inv.step call valid
    cases otherStepped.symm.trans stepped
    exact kept
  · cases call with
    | alloc order =>
        have large : maxOrder < order.toNat := not_le.mp valid
        rw [System.step] at stepped
        by_cases signed : order.toNat < 2 ^ 31
        · rw [allocPages_above large signed] at stepped
          cases stepped
          exact inv
        · rw [allocPages_negative (not_lt.mp signed)] at stepped
          cases stepped
    | free page =>
        have outside : numPages ≤ page := not_lt.mp valid
        rw [System.step, freePages, if_pos outside] at stepped
        cases stepped

theorem Inv.run_ok (inv : s.Inv) {calls : List Call} (runs : s.run calls = .ok next) :
    next.Inv := by
  induction calls generalizing s with
  | nil =>
      cases runs
      exact inv
  | cons call calls ih =>
      rw [System.run] at runs
      cases stepped : s.step call with
      | error fault =>
          rw [stepped] at runs
          cases runs
      | ok middle =>
          rw [stepped] at runs
          exact ih (inv.step_ok stepped) runs

theorem Reachable.inv (reachable : s.Reachable) : s.Inv := by
  obtain ⟨calls, runs⟩ := reachable
  exact start_inv.run_ok runs

theorem start_reachable : start.Reachable := ⟨[], rfl⟩

theorem negative_order_faults : ¬ ∀ s : System, s.Reachable → ∀ order : BitVec 32,
    maxOrder < order.toNat → allocPages order s.memory = .ok (none, s.memory) := by
  intro rejects
  have rejected := rejects start start_reachable 0x80000000 (by decide)
  rw [allocPages_negative (by decide)] at rejected
  cases rejected

/-- `alloc_pages` rejects an order above `MAX_ORDER`, with no access outside `free_area` and no
change of the state, exactly when the order is below `2 ^ 31`. -/
theorem impossible_order_rejected_iff (s : System) (order : BitVec 32)
    (large : maxOrder < order.toNat) :
    allocPages order s.memory = .ok (none, s.memory) ↔ order.toNat < 2 ^ 31 := by
  constructor
  · intro rejected
    by_contra notSigned
    rw [allocPages_negative (not_lt.mp notSigned)] at rejected
    cases rejected
  · exact fun signed => allocPages_above large signed s.memory

theorem impossible_order_rejected_eleven : maxOrder < (11 : BitVec 32).toNat ∧
    (allocPages 11 start.memory = .ok (none, start.memory) ↔ (11 : BitVec 32).toNat < 2 ^ 31) :=
  ⟨by decide, impossible_order_rejected_iff start 11 (by decide)⟩

/-! ## Frees of other pages -/

/-- A free of a page that is not the head of a live block, or of `NULL`, changes nothing. -/
theorem bad_free_harmless (reachable : s.Reachable) (page : Option Nat)
    (inMap : ∀ index ∈ page, index < numPages)
    (notHead : ∀ index ∈ page, index ∉ s.live.map Prod.fst) :
    freePages page s.memory = .ok s.memory := by
  cases page with
  | none => rfl
  | some index =>
      have inside : ¬ numPages ≤ index := not_le.mpr (inMap index rfl)
      have idle := reachable.inv.others index (notHead index rfl)
      rw [freePages, if_neg inside, if_pos idle]

theorem bad_free_harmless_start : start.Reachable ∧
    freePages (some 1) start.memory = .ok start.memory :=
  ⟨start_reachable, bad_free_harmless start_reachable (some 1) (by decide) (by simp [start])⟩

/-! ## Completeness of `alloc_pages` -/

/-- An aligned run of `2 ^ order` frames of `frames` from `page` on. -/
def FreeRun (frames : Set Nat) (order page : Nat) : Prop :=
  2 ^ order ∣ page ∧ ∀ frame, page ≤ frame → frame < page + 2 ^ order → frame ∈ frames

/-- The frames of the run. -/
def runFrames (order page : Nat) : Set Nat := {frame | page ≤ frame ∧ frame < page + 2 ^ order}

theorem frames_eq_runFrames (block : Block) : block.frames = runFrames block.order block.base := by
  ext frame
  exact mem_iff_range

theorem freeRun_iff {frames : Set Nat} {order page : Nat} (small : order ≤ maxOrder) :
    FreeRun frames order page ↔
      ∃ block ∈ within maxOrder frames, block.order = order ∧ block.base = page := by
  constructor
  · intro run
    have start := base_containing_of_dvd run.1
    refine ⟨containing order page, ⟨small, fun frame member => ?_⟩, rfl, start⟩
    rw [mem_iff_range, start] at member
    exact run.2 frame member.1 member.2
  · intro exists_block
    obtain ⟨block, available, rfl, rfl⟩ := exists_block
    exact ⟨block.aligned, fun frame lower upper =>
      available.2 frame (mem_iff_range.mpr ⟨lower, upper⟩)⟩

theorem Inv.listedFrames_eq (inv : s.Inv) : listedFrames s.memory = allFrames \ s.liveFrames := by
  rw [← inv.freeFrames_eq]
  exact listedFrames_of_lists inv.owns.lists

/-- In a reachable state the lists hold the frames outside the live blocks.  `alloc_pages` on
an existing order returns `NULL` exactly when no aligned run of `2 ^ order` frames is free, and
then changes nothing; otherwise it returns the first page of such a run and takes the frames of
the run, and no others, from the lists. -/
theorem alloc_complete (reachable : s.Reachable) (order : BitVec 32)
    (small : order.toNat ≤ maxOrder) :
    listedFrames s.memory = allFrames \ s.liveFrames ∧
    ∃ result memory, allocPages order s.memory = .ok (result, memory) ∧
      (result = none ↔ ¬ ∃ page, FreeRun (listedFrames s.memory) order.toNat page) ∧
      (result = none → memory = s.memory) ∧
      ∀ page, result = some page → FreeRun (listedFrames s.memory) order.toNat page ∧
        listedFrames memory = listedFrames s.memory \ runFrames order.toNat page := by
  have inv := reachable.inv
  have listed : listedFrames s.memory = freeFrames s.live := listedFrames_of_lists inv.owns.lists
  refine ⟨inv.listedFrames_eq, ?_⟩
  rw [listed]
  rcases allocPages_spec inv.owns (fun _ free => free.1) order small with ⟨runs, full⟩ | found
  · refine ⟨none, s.memory, runs, ?_, fun _ => rfl, by simp⟩
    simp only [true_iff]
    intro exists_run
    obtain ⟨page, run⟩ := exists_run
    obtain ⟨block, available, orders, _⟩ := (freeRun_iff small).mp run
    exact (full block available).ne orders
  · obtain ⟨block, memory, orders, runs, allocated⟩ := found
    have run : FreeRun (freeFrames s.live) order.toNat block.base :=
      (freeRun_iff small).mpr ⟨block, allocated.available, orders, rfl⟩
    refine ⟨some block.base, memory, runs, ?_, by simp, ?_⟩
    · simp only [reduceCtorEq, false_iff, not_not]
      exact ⟨block.base, run⟩
    · intro page equal
      cases equal
      refine ⟨run, ?_⟩
      rw [listedFrames_of_lists allocated.owns.lists, frames_eq_runFrames, orders]

theorem alloc_complete_start : listedFrames start.memory = allFrames \ start.liveFrames ∧
    ∃ result memory, allocPages 3 start.memory = .ok (result, memory) ∧
      (result = none ↔ ¬ ∃ page, FreeRun (listedFrames start.memory) 3 page) ∧
      (result = none → memory = start.memory) ∧
      ∀ page, result = some page → FreeRun (listedFrames start.memory) 3 page ∧
        listedFrames memory = listedFrames start.memory \ runFrames 3 page :=
  alloc_complete start_reachable 3 (by decide)

end System

end OscKernel.Frames
