import OscKernel.Frames.ReserveExact

/-!
# What a reservation takes from the start state

For every base and size, also those that no caller means, `memory_reserve` on the start state
reserves exactly the frames between the two page numbers it computes, cut off at the end of the
memory.  The numbers are truncated to 32 bits and the last address of the range may wrap, so
these frames need not meet the range.
-/

namespace OscKernel.Frames

open Blocks Block Loops

/-- Frames that are on no list and belong to a page with a count. -/
def reservedFrames (m : Memory) : Set Nat :=
  {frame | frame ∉ listedFrames m ∧ ∃ page, (m.memMap page).refcount ≠ 0 ∧
    page ≤ frame ∧ frame < page + 2 ^ (m.memMap page).order}

/-- The range from `base` on has an address in the frame. -/
def RangeMeets (base size : BitVec 64) (frame : Nat) : Prop :=
  ∃ addr, base.toNat ≤ addr ∧ addr < base.toNat + size.toNat ∧ addr / pageSize = frame

/-- The call ends with the memory `m`, by returning or by the exit after `Not found!`. -/
def Settles (base size : BitVec 64) (m : Memory) : Prop :=
  Reserves base size mmInit (.returned m) ∨ Reserves base size mmInit (.notFound m)

section Loop

variable {first last bound : Nat} {m : Memory} {marks : Set Block}

/-- The pages carved out of the start state are the reserved ones. -/
theorem Carving.reservedFrames_eq
    (carving : Carving (fun _ => true) mmInit first bound
      (within maxOrder (allFrames \ Set.Ico first bound)) marks m) :
    reservedFrames m = Set.Ico first bound := by
  have lists := carving.lists
  rw [FreeLists.restrict_true] at lists
  have range : ∀ mark ∈ marks, ∀ frame, frame ∈ mark ↔
      mark.base ≤ frame ∧ frame < mark.base + 2 ^ (m.memMap mark.base).order := by
    intro mark member frame
    rw [(carving.marked mark member).2]
    exact mem_iff_range
  ext frame
  rw [Set.mem_Ico, ← carving.covered frame]
  constructor
  · intro reserved
    obtain ⟨_, page, used, bounds⟩ := reserved
    have marked : ∃ mark ∈ marks, mark.base = page := by
      by_contra none
      apply used
      rw [carving.unmarked page fun mark member same => none ⟨mark, member, same⟩]
      exact mmInit_refcount page
    obtain ⟨mark, member, rfl⟩ := marked
    exact ⟨mark, member, (range mark member frame).mpr bounds⟩
  · intro exists_mark
    obtain ⟨mark, member, inMark⟩ := exists_mark
    constructor
    · rw [listedFrames_of_lists lists]
      exact fun owned => owned.2 ((carving.covered frame).mp ⟨mark, member, inMark⟩)
    · refine ⟨mark.base, ?_, (range mark member frame).mp inMark⟩
      rw [(carving.marked mark member).2]
      exact Nat.one_ne_zero

/-- Without a count nothing is reserved. -/
theorem reservedFrames_of_idle (idle : ∀ page, (m.memMap page).refcount = 0) :
    reservedFrames m = ∅ := by
  ext frame
  constructor
  · intro reserved
    obtain ⟨_, page, used, _⟩ := reserved
    exact absurd (idle page) used
  · exact fun none => absurd none (Set.notMem_empty frame)

/-- The pages from `first` to `bound` can be requested from the start state. -/
theorem mmInit_request (inRange : bound ≤ numPages) (limit : bound ≤ last + 1)
    (stop : bound = last + 1 ∨ 2 ^ maxOrder ∣ bound) :
    Request (fun _ => true) allFrames first last bound where
  kept _ _ := rfl
  inRange := subset_rfl
  whole frame _ below := allFrames_whole frame (lt_of_lt_of_le below inRange)
  limit := limit
  stop := stop

theorem mmInit_loopInv (request : Request (fun _ => true) allFrames first last bound)
    (ordered : first ≤ last) (reaches : first ≤ bound) :
    LoopInv (fun _ => true) mmInit allFrames first last bound ⟨mmInit, first, maxOrder⟩ := by
  apply LoopInv.start request _ _ ordered reaches
  · rw [FreeLists.restrict_true]
    exact mmInit_owns.lists
  · exact fun block top => congrArg Page.order (mmInit_owns.heads block top)

/-- A range inside the memory is reserved, and the call returns. -/
theorem settles_inside (ordered : first ≤ last) (inRange : last < numPages) :
    ∃ m, Ends (reserveRound last) ⟨mmInit, first, maxOrder⟩ (.returned m) ∧
      reservedFrames m = Set.Ico first (last + 1) := by
  have request : Request (fun _ => true) allFrames first last (last + 1) :=
    mmInit_request inRange le_rfl (.inl rfl)
  obtain ⟨m, ends, marks, carving⟩ :=
    reserve_complete request (mmInit_loopInv request ordered (by omega))
  exact ⟨m, ends, carving.reservedFrames_eq⟩

/-- A range that reaches over the end of the memory is reserved up to the end, and then the
call exits. -/
theorem settles_across (start : first < numPages) (beyond : numPages ≤ last) :
    ∃ m, Ends (reserveRound last) ⟨mmInit, first, maxOrder⟩ (.notFound m) ∧
      reservedFrames m = Set.Ico first numPages := by
  have request : Request (fun _ => true) allFrames first last numPages :=
    mmInit_request le_rfl (by omega) (.inr (by decide))
  have outside : numPages ∉ allFrames := Nat.lt_irrefl numPages
  obtain ⟨m, ends, marks, carving⟩ :=
    reserve_stuck request (mmInit_loopInv request (by omega) start.le) beyond outside
      (mem_containing maxOrder numPages)
  exact ⟨m, ends, carving.reservedFrames_eq⟩

/-- A range that starts outside the memory is not found at all. -/
theorem reserveRound_outside (outside : numPages ≤ first) :
    reserveRound last ⟨mmInit, first, maxOrder⟩ =
      .stop (if first > last then .returned mmInit else .notFound mmInit) := by
  have absent : headPfn ⟨mmInit, first, maxOrder⟩ ∉ mmInit.freeArea maxOrder := by
    rw [mmInit_filled.listed, headPfn]
    intro listed
    have below := listed.1
    simp only [numPages, maxOrder, Nat.one_shiftLeft] at *
    omega
  rw [reserveRound, searchList, if_neg absent]
  by_cases wrong : first > last
  · simp [wrong]
  · simp [wrong]

/-- A range that ends before it starts costs at most a split. -/
theorem reserveRound_empty (start : first < numPages) (empty : last < first) :
    ∃ m, reserveRound last ⟨mmInit, first, maxOrder⟩ = .stop (.returned m) ∧
      reservedFrames m = ∅ := by
  have request : Request (fun _ => true) allFrames first first (first + 1) :=
    mmInit_request start le_rfl (.inl rfl)
  have inv := mmInit_loopInv request le_rfl (Nat.le_succ first)
  have listed := inv.head_listed (Nat.lt_succ_self first)
  obtain ⟨next, splits, same, nextInv, _⟩ := inv.split request (Nat.lt_succ_self first) rfl
  have head : headPfn ⟨mmInit, first, maxOrder⟩ = first - first % 2 ^ maxOrder := by
    rw [headPfn, Nat.one_shiftLeft]
  have inside : first % 2 ^ maxOrder < 2 ^ maxOrder := Nat.mod_lt first (Nat.two_pow_pos maxOrder)
  have block : first % 2 ^ maxOrder ≤ first := Nat.mod_le _ _
  have lastEq : lastPfn ⟨mmInit, first, maxOrder⟩ = first - first % 2 ^ maxOrder +
      2 ^ maxOrder - 1 := by
    rw [lastPfn, head, Nat.one_shiftLeft]
    apply Nat.mod_eq_of_lt
    simp only [numPages, maxOrder] at *
    omega
  have notFull : ¬ (headPfn ⟨mmInit, first, maxOrder⟩ = first ∧
      last ≥ lastPfn ⟨mmInit, first, maxOrder⟩) := by omega
  have partly : headPfn ⟨mmInit, first, maxOrder⟩ < first ∨
      last < lastPfn ⟨mmInit, first, maxOrder⟩ := by omega
  refine ⟨next.memory, ?_, ?_⟩
  · rw [reserveRound, searchList, if_pos listed, if_neg notFull, if_pos partly, splits]
    have wrong : next.startPfn > last := same ▸ empty
    simp only [wrong, if_true]
  · obtain ⟨marks, carving⟩ := nextInv.carving
    apply reservedFrames_of_idle
    intro page
    rw [carving.unmarked page ?_]
    · exact mmInit_refcount page
    · -- Nothing lies between `first` and `first`, so there is no mark.
      intro mark member
      have range := (carving.covered mark.base).mp ⟨mark, member, mark.base_mem⟩
      have nothing : ¬ (first ≤ mark.base ∧ mark.base < next.startPfn) := by
        rw [same]
        exact fun both => Nat.not_lt.mpr both.1 both.2
      exact absurd range nothing

end Loop

section Calls

variable {base size : BitVec 64} {m other : Memory}

/-- A call settles in one memory only. -/
theorem Settles.unique (settles : Settles base size m) (otherSettles : Settles base size other) :
    m = other := by
  rcases settles with returned | notFound
  · rcases otherSettles with otherReturned | otherNotFound
    · exact Outcome.returned.inj (Ends.unique returned otherReturned)
    · exact absurd (Ends.unique returned otherNotFound) (by simp)
  · rcases otherSettles with otherReturned | otherNotFound
    · exact absurd (Ends.unique notFound otherReturned) (by simp)
    · exact Outcome.notFound.inj (Ends.unique notFound otherNotFound)

/-- Every call settles, and reserves the frames between its truncated page numbers. -/
theorem reserve_settles (base size : BitVec 64) :
    ∃ m, Settles base size m ∧ ∀ frame, frame ∈ reservedFrames m ↔
      frame < numPages ∧ startPfn base ≤ frame ∧ frame ≤ endPfn base size := by
  by_cases start : startPfn base < numPages
  · by_cases ordered : startPfn base ≤ endPfn base size
    · by_cases inRange : endPfn base size < numPages
      · obtain ⟨m, ends, reserved⟩ := settles_inside ordered inRange
        refine ⟨m, .inl ends, fun frame => ?_⟩
        rw [reserved, Set.mem_Ico]
        omega
      · obtain ⟨m, ends, reserved⟩ := settles_across start (Nat.not_lt.mp inRange)
        refine ⟨m, .inr ends, fun frame => ?_⟩
        rw [reserved, Set.mem_Ico]
        omega
    · obtain ⟨m, stops, reserved⟩ := reserveRound_empty start (Nat.not_le.mp ordered)
      refine ⟨m, .inl (Ends.of_stop stops), fun frame => ?_⟩
      rw [reserved, Set.mem_empty_iff_false, false_iff]
      omega
  · have stops := @reserveRound_outside (startPfn base) (endPfn base size) (Nat.not_lt.mp start)
    have nothing := reservedFrames_of_idle mmInit_refcount
    refine ⟨mmInit, ?_, fun frame => ?_⟩
    · by_cases wrong : startPfn base > endPfn base size
      · rw [if_pos wrong] at stops
        exact .inl (Ends.of_stop stops)
      · rw [if_neg wrong] at stops
        exact .inr (Ends.of_stop stops)
    · rw [nothing, Set.mem_empty_iff_false, false_iff]
      omega

theorem startPfn_eq_of_lt (small : base.toNat < 2 ^ 44) :
    startPfn base = base.toNat / pageSize := by
  apply Nat.mod_eq_of_lt
  apply Nat.div_lt_of_lt_mul
  exact small

theorem endPfn_le (base : BitVec 64) (nonempty : 1 ≤ size.toNat) :
    endPfn base size ≤ (base.toNat + size.toNat - 1) / pageSize := by
  apply (Nat.mod_le _ _).trans
  apply Nat.div_le_div_right
  rw [BitVec.toNat_sub, BitVec.toNat_add, show (1 : BitVec 64).toNat = 1 from rfl]
  omega

/-- The frames between the truncated page numbers all meet the range exactly when there are none
or the range is not empty and starts below `2 ^ 44`. -/
theorem all_meet_iff (base size : BitVec 64) :
    (∀ frame, frame < numPages ∧ startPfn base ≤ frame ∧ frame ≤ endPfn base size →
      RangeMeets base size frame) ↔
    (1 ≤ size.toNat ∧ base.toNat < 2 ^ 44) ∨ numPages ≤ startPfn base ∨
      endPfn base size < startPfn base := by
  constructor
  · intro all
    by_cases some : startPfn base < numPages ∧ startPfn base ≤ endPfn base size
    · left
      obtain ⟨nonempty, above, _⟩ :=
        exists_addr_iff.mp (all (startPfn base) ⟨some.1, le_rfl, some.2⟩)
      refine ⟨nonempty, ?_⟩
      have small : base.toNat / pageSize < 2 ^ 32 :=
        lt_of_le_of_lt above (Nat.mod_lt _ (by decide))
      rw [show pageSize = 4096 from rfl] at small
      omega
    · right
      omega
  · intro condition frame between
    rcases condition with ⟨nonempty, small⟩ | empty
    · apply exists_addr_iff.mpr
      rw [← startPfn_eq_of_lt small]
      exact ⟨nonempty, between.2.1, between.2.2.trans (endPfn_le base nonempty)⟩
    · omega

/-- For every base and size `memory_reserve` settles, and reserves only frames that the range
meets exactly when the range is not empty and starts below `2 ^ 44`, or its first page number,
truncated to 32 bits, is beyond the memory, or that of its last address is smaller still. -/
theorem no_over_reservation_iff (base size : BitVec 64) :
    (∃ m, Settles base size m) ∧ ∀ m, Settles base size m →
      ((∀ frame ∈ reservedFrames m, RangeMeets base size frame) ↔
        (1 ≤ size.toNat ∧ base.toNat < 2 ^ 44) ∨ numPages ≤ base.toNat / 2 ^ 12 % 2 ^ 32 ∨
          (base + size - 1).toNat / 2 ^ 12 % 2 ^ 32 < base.toNat / 2 ^ 12 % 2 ^ 32) := by
  obtain ⟨settled, settles, reserved⟩ := reserve_settles base size
  refine ⟨⟨settled, settles⟩, fun m other => ?_⟩
  rw [other.unique settles]
  exact (forall_congr' fun frame => imp_congr_left (reserved frame)).trans (all_meet_iff base size)

theorem no_over_reservation_first_page : (∃ m, Settles 0 0x1000 m) ∧ ∀ m, Settles 0 0x1000 m →
    ((∀ frame ∈ reservedFrames m, RangeMeets 0 0x1000 frame) ↔
      (1 ≤ (0x1000 : BitVec 64).toNat ∧ (0 : BitVec 64).toNat < 2 ^ 44) ∨
        numPages ≤ (0 : BitVec 64).toNat / 2 ^ 12 % 2 ^ 32 ∨
        (0 + 0x1000 - 1 : BitVec 64).toNat / 2 ^ 12 % 2 ^ 32 <
          (0 : BitVec 64).toNat / 2 ^ 12 % 2 ^ 32) :=
  no_over_reservation_iff 0 0x1000

/-- An empty range in the middle of a page reserves the page. -/
theorem empty_range_reserves_page : ¬ ∀ base size : BitVec 64, ∀ m, Settles base size m →
    ∀ frame ∈ reservedFrames m, RangeMeets base size frame := by
  intro only
  obtain ⟨m, settles, reserved⟩ := reserve_settles 0x1800 0
  have meets := only _ _ m settles 1 ((reserved 1).mpr (by decide))
  exact absurd (exists_addr_iff.mp meets).1 (by decide)

end Calls

end OscKernel.Frames
