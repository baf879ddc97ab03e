import Mathlib.Data.List.Nodup
import OscKernel.Blocks.FreeLists

/-!
# Page frames and free lists

The data of the two page-frame programs, `ex31/main.cpp` and `ex32/main.cpp`, which
declare the same `struct page`, `mem_map`, `free_area` and `get_buddy` and start from
the same state.  A `struct page*` is modelled by its index in `mem_map`.  Reads
outside `mem_map` or `free_area` are undefined behaviour in C++ and are modelled as
faults, so a run that does not fault stays in bounds.
-/

namespace OscKernel.Frames

open Blocks Block

/-- `NUM_PAGES` -/
def numPages : Nat := 0x280000

/-- `MAX_ORDER` -/
def maxOrder : Nat := 10

/-- `struct page` -/
@[ext] structure Page where
  order : Nat := 0
  refcount : Nat := 0
  deriving DecidableEq, Repr

/-- The globals `mem_map` and `free_area`. -/
structure Memory where
  memMap : Nat → Page
  freeArea : FreeLists

/-- Undefined behaviour of the C++ programs. -/
inductive Fault where
  /-- an index outside `mem_map` or `free_area` -/
  | outOfBounds
  /-- `front()` of an empty list -/
  | emptyList
  deriving DecidableEq, Repr

/-- `get_buddy` -/
def getBuddy (page order : Nat) : Except Fault Nat :=
  let index := page ^^^ (1 <<< order)
  if index < numPages then .ok index else .error .outOfBounds

namespace Memory

variable (m : Memory) (page order count : Nat)

/-- `page->order = order` -/
def setOrder : Memory :=
  { m with memMap := Function.update m.memMap page { m.memMap page with order } }

/-- `page->refcount = count` -/
def setRefcount : Memory :=
  { m with memMap := Function.update m.memMap page { m.memMap page with refcount := count } }

/-- `free_area[order].push_front(page)` -/
def pushFront : Memory := { m with freeArea := m.freeArea.pushFront order page }

/-- `free_area[order].push_back(page)` -/
def pushBack : Memory :=
  { m with freeArea := Function.update m.freeArea order (m.freeArea order ++ [page]) }

/-- `free_area[order].pop_front()` -/
def popFront : Memory := { m with freeArea := m.freeArea.popFront order }

/-- `free_area[order].remove(page)` -/
def removePage : Memory := { m with freeArea := m.freeArea.remove order page }

@[simp] theorem setOrder_freeArea : (m.setOrder page order).freeArea = m.freeArea := rfl
@[simp] theorem setRefcount_freeArea : (m.setRefcount page count).freeArea = m.freeArea := rfl
@[simp] theorem pushFront_memMap : (m.pushFront page order).memMap = m.memMap := rfl
@[simp] theorem popFront_memMap : (m.popFront order).memMap = m.memMap := rfl
@[simp] theorem removePage_memMap : (m.removePage page order).memMap = m.memMap := rfl
@[simp] theorem pushFront_freeArea :
    (m.pushFront page order).freeArea = m.freeArea.pushFront order page := rfl
@[simp] theorem popFront_freeArea : (m.popFront order).freeArea = m.freeArea.popFront order := rfl
@[simp] theorem removePage_freeArea :
    (m.removePage page order).freeArea = m.freeArea.remove order page := rfl

@[simp] theorem setOrder_same :
    (m.setOrder page order).memMap page = { m.memMap page with order } := by
  simp [setOrder]

@[simp] theorem setRefcount_same :
    (m.setRefcount page count).memMap page = { m.memMap page with refcount := count } := by
  simp [setRefcount]

variable {page} {other : Nat}

@[simp] theorem setOrder_other (different : other ≠ page) :
    (m.setOrder page order).memMap other = m.memMap other := by
  simp [setOrder, different]

@[simp] theorem setRefcount_other (different : other ≠ page) :
    (m.setRefcount page count).memMap other = m.memMap other := by
  simp [setRefcount, different]

end Memory

/-! ## The start state -/

/-- The `for (size_t i = 0; i < NUM_PAGES; i += (1 << MAX_ORDER))` loop of `main`
(`ex31`) and `mm_init` (`ex32`). -/
def initLoop (i : Nat) (m : Memory) : Memory :=
  if i < numPages then
    initLoop (i + 1 <<< maxOrder) ((m.setOrder i maxOrder).pushBack i maxOrder)
  else m
termination_by numPages - i
decreasing_by
  simp only [maxOrder]
  omega

/-- All blocks free at `MAX_ORDER`. -/
def mmInit : Memory := initLoop 0 { memMap := fun _ => {}, freeArea := fun _ => [] }

/-- What the first rounds of `initLoop` have built when the counter is `i`. -/
structure Filled (i : Nat) (m : Memory) : Prop where
  counter : 2 ^ maxOrder ∣ i
  nodup : (m.freeArea maxOrder).Nodup
  listed : ∀ page, page ∈ m.freeArea maxOrder ↔ page < i ∧ 2 ^ maxOrder ∣ page
  others : ∀ order, order ≠ maxOrder → m.freeArea order = []
  heads : ∀ page, page < i → 2 ^ maxOrder ∣ page → m.memMap page = ⟨maxOrder, 0⟩
  blank : ∀ page, ¬ (page < i ∧ 2 ^ maxOrder ∣ page) → m.memMap page = ⟨0, 0⟩

/-- One round of the loop. -/
theorem Filled.step {i : Nat} {m : Memory} (filled : Filled i m) :
    Filled (i + 1 <<< maxOrder) ((m.setOrder i maxOrder).pushBack i maxOrder) := by
  have stride : 1 <<< maxOrder = 2 ^ maxOrder := by decide
  have multiple := filled.counter
  have next : ∀ page, page < i + 2 ^ maxOrder ∧ 2 ^ maxOrder ∣ page ↔
      (page < i ∧ 2 ^ maxOrder ∣ page) ∨ page = i := by
    simp only [maxOrder] at multiple ⊢
    intro page
    omega
  rw [stride]
  constructor
  · exact Nat.dvd_add multiple (dvd_refl _)
  · simp only [Memory.pushBack, Function.update_self, Memory.setOrder_freeArea]
    apply List.Nodup.append filled.nodup (List.nodup_singleton i)
    intro page member single
    rw [List.mem_singleton] at single
    have below := ((filled.listed page).mp member).1
    omega
  · intro page
    rw [next, ← filled.listed page]
    simp [Memory.pushBack]
  · intro order different
    simp [Memory.pushBack, different, filled.others order different]
  · intro page below divides
    rcases (next page).mp ⟨below, divides⟩ with old | rfl
    · have different : page ≠ i := by omega
      simpa [Memory.pushBack, different] using filled.heads page old.1 old.2
    · simp [Memory.pushBack, filled.blank page (by omega)]
  · intro page fresh
    rw [next, not_or] at fresh
    simpa [Memory.pushBack, fresh.2] using filled.blank page fresh.1

theorem initLoop_filled {i : Nat} {m : Memory} (filled : Filled i m) (small : i ≤ numPages) :
    Filled numPages (initLoop i m) := by
  induction i, m using initLoop.induct with
  | case1 i m below ih =>
      rw [initLoop, if_pos below]
      apply ih filled.step
      have multiple := filled.counter
      simp only [maxOrder, numPages] at *
      omega
  | case2 i m reached =>
      rw [initLoop, if_neg reached]
      have exact : i = numPages := by omega
      exact exact ▸ filled

theorem mmInit_filled : Filled numPages mmInit := by
  apply initLoop_filled
  · constructor <;> simp
  · exact Nat.zero_le _

/-! ## Blocks of frames -/

/-- All frames of the machine. -/
def allFrames : Set Nat := {frame | frame < numPages}

/-- The frames form whole blocks of order `MAX_ORDER`. -/
theorem allFrames_whole : ∀ frame ∈ allFrames,
    ∀ other ∈ containing maxOrder frame, other ∈ allFrames := by
  intro frame inRange other member
  have same : other / 2 ^ maxOrder = frame / 2 ^ maxOrder := member
  simp only [allFrames, Set.mem_ofPred_eq, numPages, maxOrder] at *
  omega

theorem buddy_base_lt {block : Block} (small : block.order < maxOrder)
    (inRange : block.base < numPages) : block.buddy.base < numPages := by
  have around : block.buddy.base ∈ containing maxOrder block.base := by
    apply le_of_mem_of_order_le (block.le_parent _ block.base_mem) (mem_containing _ _)
    · exact small
    · exact block.buddy_le_parent _ block.buddy.base_mem
  exact allFrames_whole _ inRange _ around

/-- `get_buddy` computes the first frame of the buddy. -/
theorem getBuddy_base {block : Block} (small : block.order < maxOrder)
    (inRange : block.base < numPages) :
    getBuddy block.base block.order = .ok block.buddy.base := by
  have bound := buddy_base_lt small inRange
  rw [buddy_base] at bound ⊢
  simp [getBuddy, Nat.shiftLeft_eq, bound]

/-- The lists hold the maximal blocks made of the frames of `frames`, and the page of
each such block says so. -/
structure Owns (m : Memory) (frames : Set Nat) : Prop where
  lists : Represents maxOrder m.freeArea (tops (within maxOrder frames))
  heads : ∀ block ∈ tops (within maxOrder frames), m.memMap block.base = ⟨block.order, 0⟩

theorem mmInit_owns : Owns mmInit allFrames where
  lists :=
    { nodup := by
        intro order small
        by_cases same : order = maxOrder
        · exact same ▸ mmInit_filled.nodup
        · simp [mmInit_filled.others order same]
      aligned := by
        intro order small page member
        by_cases same : order = maxOrder
        · subst same
          exact ((mmInit_filled.listed page).mp member).2
        · simp [mmInit_filled.others order same] at member
      mem_iff := by
        intro block small
        rw [mem_tops_within_of_whole allFrames_whole]
        by_cases same : block.order = maxOrder
        · have aligned : 2 ^ maxOrder ∣ block.base := same ▸ block.aligned
          rw [same, mmInit_filled.listed]
          simp [aligned, allFrames]
        · simp [mmInit_filled.others block.order same, same] }
  heads := by
    intro block top
    obtain ⟨same, inRange⟩ := (mem_tops_within_of_whole allFrames_whole).mp top
    rw [same]
    exact mmInit_filled.heads _ inRange (same ▸ block.aligned)

/-- The frames of the blocks on the lists `free_area[0]` to `free_area[MAX_ORDER]`. -/
def listedFrames (m : Memory) : Set Nat :=
  {frame | ∃ order ≤ maxOrder, ∃ page ∈ m.freeArea order, page ≤ frame ∧ frame < page + 2 ^ order}

/-- Lists of maximal blocks list exactly the frames that the blocks are made of. -/
theorem listedFrames_of_lists {m : Memory} {frames : Set Nat}
    (lists : Represents maxOrder m.freeArea (tops (within maxOrder frames))) :
    listedFrames m = frames := by
  ext frame
  constructor
  · intro listed
    obtain ⟨order, small, page, member, range⟩ := listed
    obtain ⟨top, base⟩ := lists.containing_mem small member
    apply top.prop.2
    rwa [mem_iff_range, base]
  · intro owned
    obtain ⟨block, ⟨top, inBlock⟩, _⟩ := existsUnique_top_of_mem maxOrder owned
    have small := top.prop.1
    exact ⟨block.order, small, block.base, (lists.mem_iff block small).mpr top,
      mem_iff_range.mp inBlock⟩

theorem mmInit_refcount (page : Nat) : (mmInit.memMap page).refcount = 0 := by
  by_cases head : page < numPages ∧ 2 ^ maxOrder ∣ page
  · rw [mmInit_filled.heads page head.1 head.2]
  · rw [mmInit_filled.blank page head]

end OscKernel.Frames
