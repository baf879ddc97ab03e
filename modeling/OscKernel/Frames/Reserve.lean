import OscKernel.Frames.Memory
import OscKernel.Loops.Iterate

/-!
# Reserving memory (`ex32/main.cpp`)

`memory_reserve` as the program computes it.  Page numbers are `unsigned int`, addresses
are 64-bit, and all results of their arithmetic are reduced accordingly.  The calls of
`exit` and the accesses outside `free_area` end the run with an outcome of their own.
-/

namespace OscKernel.Frames

open Loops

/-- `PAGE_SIZE` -/
def pageSize : Nat := 1 <<< 12

/-- How a call of `memory_reserve` ends. -/
inductive Outcome where
  | returned (m : Memory)
  /-- the exit after `Not found!` -/
  | notFound (m : Memory)
  /-- the exit after `ERROR ORDER` -/
  | errorOrder (m : Memory)
  | fault (why : Fault)

/-- The local variables of the main loop, with the memory. -/
structure Reserving where
  memory : Memory
  startPfn : Nat
  order : Nat

/-- The loop that finds the new order from `offset`, entered with the order and `base`;
`none` is the `ERROR ORDER` exit. -/
def findOrder (offset : Nat) : Nat → Nat → Option Nat
  | 0, base => if offset = base + 1 <<< 0 then some 0 else none
  | order + 1, base =>
      if offset = base + 1 <<< (order + 1) then some (order + 1)
      else if offset > base + 1 <<< (order + 1) then
        findOrder offset order (base + 1 <<< (order + 1))
      else findOrder offset order base

/-- `page_order_head_pfn` -/
def headPfn (state : Reserving) : Nat :=
  state.startPfn - state.startPfn % (1 <<< state.order)

/-- `page_order_head_pfn + (1 << order) - 1` -/
def lastPfn (state : Reserving) : Nat :=
  (headPfn state + 1 <<< state.order - 1) % 2 ^ 32

/-- The `full overlap` branch. -/
def takeBlock (endPfn : Nat) (state : Reserving) : Except Outcome Reserving :=
  let curPage := headPfn state
  let m := state.memory.setRefcount curPage 1
  let m := m.setOrder curPage state.order
  let m := m.removePage curPage state.order
  let startPfn := (headPfn state + 1 <<< state.order) % 2 ^ 32
  if startPfn > endPfn then .ok ⟨m, startPfn, state.order⟩
  else
    let offset := startPfn % (1 <<< maxOrder)
    if offset ≠ 0 then
      match findOrder offset (maxOrder - 1) 0 with
      | none => .error (.errorOrder m)
      | some order => .ok ⟨m, startPfn, order⟩
    else .ok ⟨m, startPfn, maxOrder⟩

/-- The `partial overlap` branch. -/
def splitBlock (state : Reserving) : Except Outcome Reserving :=
  let curPage := headPfn state
  let m := state.memory.removePage curPage state.order
  match state.order with
  -- `free_area[-1]`
  | 0 => .error (.fault .outOfBounds)
  | order + 1 =>
      let m := m.setOrder curPage order
      match getBuddy curPage order with
      | .error why => .error (.fault why)
      | .ok buddyPage =>
          let m := m.setOrder buddyPage order
          let m := m.pushFront buddyPage order
          let m := m.pushFront curPage order
          .ok ⟨m, state.startPfn, order⟩

/-- The search of the list of the current order, with the flag `found`. -/
def searchList (endPfn : Nat) (state : Reserving) : Except Outcome (Reserving × Bool) :=
  if headPfn state ∈ state.memory.freeArea state.order then
    if headPfn state = state.startPfn ∧ endPfn ≥ lastPfn state then
      match takeBlock endPfn state with
      | .error outcome => .error outcome
      | .ok next => .ok (next, true)
    else if headPfn state < state.startPfn ∨ endPfn < lastPfn state then
      match splitBlock state with
      | .error outcome => .error outcome
      | .ok next => .ok (next, true)
    else .ok (state, true)
  else .ok (state, false)

/-- One round of the main loop. -/
def reserveRound (endPfn : Nat) (state : Reserving) : Round Reserving Outcome :=
  match searchList endPfn state with
  | .error outcome => .stop outcome
  | .ok (next, found) =>
      if next.startPfn > endPfn then .stop (.returned next.memory)
      else if found then .next next
      else .stop (.notFound next.memory)

/-- `start_pfn` of a request -/
def startPfn (base : BitVec 64) : Nat := base.toNat / pageSize % 2 ^ 32

/-- `end_pfn` of a request, the last page of the range -/
def endPfn (base size : BitVec 64) : Nat := (base + size - 1).toNat / pageSize % 2 ^ 32

/-- `memory_reserve`, for at most `fuel` rounds of its main loop. -/
def memoryReserve (fuel : Nat) (base size : BitVec 64) (m : Memory) : Option Outcome :=
  iterate (reserveRound (endPfn base size)) fuel ⟨m, startPfn base, maxOrder⟩

/-- `memory_reserve` ends with `outcome`. -/
def Reserves (base size : BitVec 64) (m : Memory) (outcome : Outcome) : Prop :=
  ∃ fuel, memoryReserve fuel base size m = some outcome

/-! ## The order search -/

/-- From a multiple `base` of the next power below `offset`, the search finds the lowest
bit of `offset`. -/
theorem findOrder_spec (offset order base : Nat) (multiple : 2 ^ (order + 1) ∣ base)
    (above : base < offset) (below : offset < base + 2 ^ (order + 1)) :
    ∃ found ≤ order, findOrder offset order base = some found ∧
      2 ^ found ∣ offset ∧ ¬ 2 ^ (found + 1) ∣ offset := by
  induction order generalizing base with
  | zero =>
      have exact : offset = base + 1 := by omega
      refine ⟨0, le_rfl, by simp [findOrder, exact], by simp, ?_⟩
      rw [exact]
      omega
  | succ order ih =>
      have shift : 1 <<< (order + 1) = 2 ^ (order + 1) := Nat.one_shiftLeft _
      have double : 2 ^ (order + 1 + 1) = 2 ^ (order + 1) * 2 := Nat.pow_succ _ _
      have half : 2 ^ (order + 1) ∣ base := (Nat.pow_dvd_pow 2 (by omega)).trans multiple
      rw [findOrder, shift]
      by_cases hit : offset = base + 2 ^ (order + 1)
      · refine ⟨order + 1, le_rfl, if_pos hit, ?_, ?_⟩
        · rw [hit]
          exact Nat.dvd_add half (dvd_refl _)
        · intro divides
          have rest := (Nat.dvd_add_right multiple).mp (hit ▸ divides)
          have positive : 0 < 2 ^ (order + 1) := Nat.two_pow_pos _
          have tooLarge := Nat.le_of_dvd positive rest
          omega
      · rw [if_neg hit]
        by_cases upper : offset > base + 2 ^ (order + 1)
        · rw [if_pos upper]
          obtain ⟨found, small, result⟩ :=
            ih (base + 2 ^ (order + 1)) (Nat.dvd_add half (dvd_refl _)) upper (by omega)
          exact ⟨found, small.trans (Nat.le_succ _), result⟩
        · rw [if_neg upper]
          obtain ⟨found, small, result⟩ := ih base half above (by omega)
          exact ⟨found, small.trans (Nat.le_succ _), result⟩

end OscKernel.Frames
