import OscKernel.Frames.ReserveLoop

/-!
# Exact reservation

`memory_reserve` on a state in which the regions it meets are whole: it returns, it
reserves exactly the pages of the range, the lists hold the maximal blocks of the rest of
these regions, and everything else is untouched.
-/

namespace OscKernel.Frames

open Blocks Block Loops

/-- The pages of the blocks of order `MAX_ORDER` that meet the pages from `first` to
`last`. -/
def touched (first last page : Nat) : Bool :=
  decide (first / 2 ^ maxOrder ≤ page / 2 ^ maxOrder ∧
    page / 2 ^ maxOrder ≤ last / 2 ^ maxOrder)

theorem touched_iff {first last page : Nat} : touched first last page = true ↔
    first / 2 ^ maxOrder ≤ page / 2 ^ maxOrder ∧ page / 2 ^ maxOrder ≤ last / 2 ^ maxOrder :=
  decide_eq_true_iff

/-- The block of order `MAX_ORDER` at `head` is present whole: it is on its list, once,
and none of its pages is on a list otherwise. -/
structure RegionWhole (m : Memory) (head : Nat) : Prop where
  page : m.memMap head = ⟨maxOrder, 0⟩
  listed : ∀ order ≤ maxOrder, ∀ page ∈ containing maxOrder head,
    (m.freeArea order).count page = if order = maxOrder ∧ page = head then 1 else 0

/-- The blocks that are left free in the touched regions: the maximal aligned blocks of
order at most `MAX_ORDER` disjoint from the range. -/
def restOfRegions (first last : Nat) : Set Block :=
  tops (within maxOrder {frame | touched first last frame = true ∧
    ¬ (first ≤ frame ∧ frame ≤ last)})

/-- The effect of reserving the pages from `first` to `last` as the blocks `marks`. -/
structure ExactlyReserved (first last : Nat) (m m' : Memory) (marks : Set Block) : Prop where
  tiles : ∀ frame, first ≤ frame ∧ frame ≤ last → ∃! block, block ∈ marks ∧ frame ∈ block
  inside : ∀ block ∈ marks, ∀ frame ∈ block, first ≤ frame ∧ frame ≤ last
  heads : ∀ block ∈ marks, m'.memMap block.base = ⟨block.order, 1⟩
  unmarked : ∀ page, (∀ block ∈ marks, block.base ≠ page) →
    (m'.memMap page).refcount = (m.memMap page).refcount
  listed : ∀ block ∈ restOfRegions first last,
    (m'.freeArea block.order).count block.base = 1 ∧
      (m'.memMap block.base).order = block.order
  nothingElse : ∀ order ≤ maxOrder, ∀ page ∈ m'.freeArea order, touched first last page = true →
    ∃ block ∈ restOfRegions first last, block.order = order ∧ block.base = page
  outside : ∀ page, touched first last page = false → m'.memMap page = m.memMap page
  elsewhere : ∀ order, (m'.freeArea order).filter (fun page => !touched first last page) =
    (m.freeArea order).filter (fun page => !touched first last page)

section Regions

variable {m : Memory} {first last : Nat}

theorem containing_maxOrder_touched {page frame : Nat} (isTouched : touched first last page = true)
    (member : frame ∈ containing maxOrder page) : touched first last frame = true := by
  have same : frame / 2 ^ maxOrder = page / 2 ^ maxOrder := member
  rw [touched_iff] at isTouched ⊢
  rwa [same]

theorem touched_lt (limit : last < numPages) {page : Nat}
    (isTouched : touched first last page = true) : page < numPages := by
  have region := (touched_iff.mp isTouched).2
  simp only [numPages, maxOrder] at *
  omega

/-- A touched page lies in a region that meets the range. -/
theorem exists_mem_range_of_touched (ordered : first ≤ last) {page : Nat}
    (isTouched : touched first last page = true) :
    ∃ frame ∈ containing maxOrder page, first ≤ frame ∧ frame ≤ last := by
  have region := touched_iff.mp isTouched
  by_cases below : page / 2 ^ maxOrder = first / 2 ^ maxOrder
  · exact ⟨first, below.symm, le_rfl, ordered⟩
  · -- The region starts after `first`.
    have start : (containing maxOrder page).base ∈ containing maxOrder page := base_mem _
    refine ⟨(containing maxOrder page).base, start, ?_, ?_⟩
    · rw [base_containing]
      simp only [maxOrder] at *
      omega
    · rw [base_containing]
      simp only [maxOrder] at *
      omega

/-- The request for a range whose regions are all touched. -/
theorem touched_request (first : Nat) (limit : last < numPages) :
    Request (touched first last) {frame | touched first last frame = true} first last
      (last + 1) where
  kept _ owned := owned
  inRange _ owned := touched_lt limit owned
  whole frame above below other member := by
    apply containing_maxOrder_touched _ member
    rw [touched_iff]
    exact ⟨Nat.div_le_div_right above, Nat.div_le_div_right (Nat.lt_succ_iff.mp below)⟩
  limit := le_rfl
  stop := .inl rfl

/-- Whole regions are represented by the restricted lists. -/
theorem represents_of_whole (ordered : first ≤ last)
    (whole : ∀ block : Block, block.order = maxOrder →
      (∃ frame ∈ block, first ≤ frame ∧ frame ≤ last) → RegionWhole m block.base) :
    Represents maxOrder (m.freeArea.restrict (touched first last))
      (tops (within maxOrder {frame | touched first last frame = true})) ∧
    ∀ block ∈ tops (within maxOrder {frame | touched first last frame = true}),
      (m.memMap block.base).order = block.order := by
  have regions : ∀ frame ∈ {frame | touched first last frame = true},
      ∀ other ∈ containing maxOrder frame, other ∈ {frame | touched first last frame = true} :=
    fun _ owned _ member => containing_maxOrder_touched owned member
  have region : ∀ page, touched first last page = true →
      RegionWhole m (containing maxOrder page).base :=
    fun page isTouched => whole _ rfl (exists_mem_range_of_touched ordered isTouched)
  have count : ∀ order ≤ maxOrder, ∀ page, touched first last page = true →
      (m.freeArea order).count page =
        if order = maxOrder ∧ page = (containing maxOrder page).base then 1 else 0 := by
    intro order small page isTouched
    apply (region page isTouched).listed order small
    show page / 2 ^ maxOrder = (containing maxOrder page).base / 2 ^ maxOrder
    have start : (containing maxOrder page).base ∈ containing maxOrder page := base_mem _
    exact start.symm
  constructor
  · constructor
    · intro order small
      rw [List.nodup_iff_count_le_one]
      intro page
      by_cases isTouched : touched first last page = true
      · rw [FreeLists.restrict, List.count_filter isTouched, count order small page isTouched]
        split <;> omega
      · rw [List.count_eq_zero_of_not_mem]
        · exact Nat.zero_le _
        · exact fun member => isTouched ((FreeLists.mem_restrict _).mp member).2
    · intro order small page member
      obtain ⟨listed, isTouched⟩ := (FreeLists.mem_restrict _).mp member
      have positive := List.count_pos_iff.mpr listed
      rw [count order small page isTouched] at positive
      split at positive
      next both =>
        rw [both.1, both.2]
        exact Block.aligned _
      next => omega
    · intro block small
      rw [mem_tops_within_of_whole regions, FreeLists.mem_restrict]
      constructor
      · intro both
        have positive := List.count_pos_iff.mpr both.1
        rw [count block.order small block.base both.2] at positive
        split at positive
        next equal => exact ⟨equal.1, both.2⟩
        next => omega
      · intro both
        refine ⟨List.count_pos_iff.mp ?_, both.2⟩
        have same : block.base = (containing maxOrder block.base).base := by
          rw [← both.1, containing_eq_of_mem block.base_mem]
        rw [count block.order small block.base both.2, if_pos ⟨both.1, same⟩]
        exact Nat.one_pos
  · intro block top
    obtain ⟨orders, owned⟩ := (mem_tops_within_of_whole regions).mp top
    have head := (region block.base owned).page
    rw [← orders, containing_eq_of_mem block.base_mem] at head
    rw [head]

/-- The end of the loop, read as the effect of the reservation. -/
theorem Carving.exactly {m' : Memory} {marks : Set Block}
    (carving : Carving (touched first last) m first (last + 1)
      (within maxOrder ({frame | touched first last frame = true} \ Set.Ico first (last + 1)))
      marks m') : ExactlyReserved first last m m' marks := by
  have rest : tops (within maxOrder
      ({frame | touched first last frame = true} \ Set.Ico first (last + 1))) =
      restOfRegions first last := by
    rw [restOfRegions]
    congr 2
    ext frame
    simp only [Set.mem_sdiff, Set.mem_Ico, Set.mem_ofPred_eq, Nat.lt_succ_iff]
  have lists := carving.lists
  have orders := carving.orders
  rw [rest] at lists orders
  have bounds : ∀ block ∈ restOfRegions first last, block.order ≤ maxOrder ∧
      touched first last block.base = true :=
    fun block top => ⟨top.prop.1, (top.prop.2 _ block.base_mem).1⟩
  constructor
  · intro frame range
    obtain ⟨block, member, inBlock⟩ :=
      (carving.covered frame).mpr ⟨range.1, Nat.lt_succ_of_le range.2⟩
    refine ⟨block, ⟨member, inBlock⟩, fun other both => ?_⟩
    by_contra different
    exact carving.apart other both.1 block member different frame both.2 inBlock
  · intro block member frame inBlock
    have range := (carving.covered frame).mp ⟨block, member, inBlock⟩
    exact ⟨range.1, Nat.le_of_lt_succ range.2⟩
  · exact fun block member => (carving.marked block member).2
  · exact carving.unmarked
  · intro block top
    refine ⟨?_, orders block top⟩
    have small := (bounds block top).1
    have listed := (lists.mem_iff block small).mpr top
    have once := List.count_eq_one_of_mem (lists.nodup block.order small) listed
    rwa [FreeLists.restrict, List.count_filter (bounds block top).2] at once
  · intro order small page listed isTouched
    obtain ⟨top, base⟩ :=
      lists.containing_mem small ((FreeLists.mem_restrict _).mpr ⟨listed, isTouched⟩)
    exact ⟨_, top, rfl, base⟩
  · exact carving.outside
  · exact fun order => congrFun carving.elsewhere order

end Regions

/-! ## Addresses -/

/-- Last address of a range that ends inside the memory. -/
theorem end_toNat {base size : BitVec 64} (nonempty : 1 ≤ size.toNat)
    (inRange : base.toNat + size.toNat ≤ numPages * pageSize) :
    (base + size - 1).toNat = base.toNat + size.toNat - 1 := by
  have pages : numPages * pageSize < 2 ^ 64 := by decide
  rw [BitVec.toNat_sub, BitVec.toNat_add, show (1 : BitVec 64).toNat = 1 from rfl]
  omega

/-- A page frame number fits an `int`. -/
theorem page_lt {addr : Nat} (inRange : addr < numPages * pageSize) :
    addr / pageSize < numPages :=
  Nat.div_lt_of_lt_mul (Nat.mul_comm numPages pageSize ▸ inRange)

/-- The frames that a range of addresses meets. -/
theorem exists_addr_iff {first size frame : Nat} :
    (∃ addr, first ≤ addr ∧ addr < first + size ∧ addr / pageSize = frame) ↔
      1 ≤ size ∧ first / pageSize ≤ frame ∧ frame ≤ (first + size - 1) / pageSize := by
  constructor
  · intro meets
    obtain ⟨addr, above, below, rfl⟩ := meets
    exact ⟨by omega, Nat.div_le_div_right above, Nat.div_le_div_right (by omega)⟩
  · intro member
    obtain ⟨nonempty, lower, upper⟩ := member
    by_cases atStart : first / pageSize = frame
    · exact ⟨first, le_rfl, by omega, atStart⟩
    · refine ⟨frame * pageSize, ?_, ?_, Nat.mul_div_cancel _ (by decide)⟩
      · rw [show pageSize = 4096 from rfl] at *
        omega
      · rw [show pageSize = 4096 from rfl] at *
        omega

theorem numPages_lt : numPages < 2 ^ 32 := by decide

theorem startPfn_eq {base : BitVec 64} (inRange : base.toNat < numPages * pageSize) :
    startPfn base = base.toNat / pageSize := by
  rw [startPfn]
  exact Nat.mod_eq_of_lt ((page_lt inRange).trans numPages_lt)

theorem endPfn_eq {base size : BitVec 64} (nonempty : 1 ≤ size.toNat)
    (inRange : base.toNat + size.toNat ≤ numPages * pageSize) :
    endPfn base size = (base.toNat + size.toNat - 1) / pageSize := by
  rw [endPfn, end_toNat nonempty inRange]
  exact Nat.mod_eq_of_lt ((page_lt (by omega)).trans numPages_lt)

/-- On whole regions `memory_reserve` returns and reserves exactly the pages that its
range meets. -/
theorem memory_reserve_exact (m : Memory) (base size : BitVec 64) (nonempty : 1 ≤ size.toNat)
    (inRange : base.toNat + size.toNat ≤ numPages * pageSize)
    (whole : ∀ block : Block, block.order = maxOrder →
      (∃ frame ∈ block, base.toNat / pageSize ≤ frame ∧
        frame ≤ (base.toNat + size.toNat - 1) / pageSize) → RegionWhole m block.base) :
    ∃ m' marks, Reserves base size m (.returned m') ∧
      ExactlyReserved (base.toNat / pageSize) ((base.toNat + size.toNat - 1) / pageSize)
        m m' marks := by
  have limit : (base.toNat + size.toNat - 1) / pageSize < numPages := page_lt (by omega)
  have ordered : base.toNat / pageSize ≤ (base.toNat + size.toNat - 1) / pageSize :=
    Nat.div_le_div_right (by omega)
  have request := touched_request (base.toNat / pageSize) limit
  obtain ⟨lists, orders⟩ := represents_of_whole ordered whole
  have inv := LoopInv.start request lists orders ordered (by omega)
  obtain ⟨m', ends, marks, carving⟩ := reserve_complete request inv
  refine ⟨m', marks, ?_, carving.exactly⟩
  rw [← startPfn_eq (by omega), ← endPfn_eq nonempty inRange] at ends
  exact ends

/-- In the start state every region is whole. -/
theorem mmInit_regionWhole (block : Block) (orders : block.order = maxOrder)
    (inRange : block.base < numPages) : RegionWhole mmInit block.base := by
  have aligned : 2 ^ maxOrder ∣ block.base := orders ▸ block.aligned
  refine ⟨mmInit_filled.heads _ inRange aligned, fun order small page member => ?_⟩
  by_cases same : order = maxOrder
  · subst same
    by_cases head : page = block.base
    · subst head
      rw [if_pos ⟨rfl, rfl⟩]
      exact List.count_eq_one_of_mem mmInit_filled.nodup
        ((mmInit_filled.listed _).mpr ⟨inRange, aligned⟩)
    · rw [if_neg (fun both => head both.2)]
      apply List.count_eq_zero_of_not_mem
      intro listed
      have divides := ((mmInit_filled.listed page).mp listed).2
      have region : page / 2 ^ maxOrder = block.base / 2 ^ maxOrder := member
      simp only [maxOrder] at *
      omega
  · rw [mmInit_filled.others order same, if_neg (fun both => same both.1)]
    rfl

/-- The call `memory_reserve(0, 0x82a69510)` of `mm_init`. -/
theorem memory_reserve_exact_mm_init : ∃ m' marks,
    Reserves 0 0x82a69510 mmInit (.returned m') ∧
      ExactlyReserved 0 0x82a69 mmInit m' marks :=
  memory_reserve_exact mmInit 0 0x82a69510 (by decide) (by decide)
    (fun block orders meets => by
      apply mmInit_regionWhole block orders
      obtain ⟨frame, member, _, below⟩ := meets
      have start := (mem_iff_range.mp member).1
      have limit : (0x82a69510 - 1) / pageSize < numPages := by decide
      exact lt_of_le_of_lt (start.trans below) limit)

end OscKernel.Frames
