import OscKernel.Frames.Memory

/-!
# The buddy allocator (`ex31/main.cpp`)

`alloc_pages` and `free_pages` as the program computes them, and runs of the two over
the start state.  `alloc_pages` compares its unsigned order with signed loop counters,
so the order is a 32-bit value and the scan index an `Int`.
-/

namespace OscKernel.Frames

/-- The `while (tmp_i > order)` loop of `alloc_pages`, entered with `tmp_i = level`. -/
def splitLoop (order : Nat) : Nat → Memory → Except Fault Memory
  | 0, m => .ok m
  | level + 1, m =>
      if level + 1 > order then
        match m.freeArea (level + 1) with
        | [] => .error .emptyList
        | tmpPages :: _ =>
            let m := m.popFront (level + 1)
            match getBuddy tmpPages level with
            | .error fault => .error fault
            | .ok buddyPage =>
                let m := m.setOrder buddyPage level
                let m := m.setRefcount buddyPage 0
                let m := m.pushFront buddyPage level
                let m := m.pushFront tmpPages level
                splitLoop order level m
      else .ok m

theorem toNat_succ_lt {i bound : Int} (within : i ≤ bound) :
    (bound + 1 - (i + 1)).toNat < (bound + 1 - i).toNat := by
  omega

/-- The `for (int i = order; i <= MAX_ORDER; i++)` loop of `alloc_pages`. -/
def allocLoop (order : BitVec 32) (i : Int) (m : Memory) :
    Except Fault (Option Nat × Memory) :=
  if i ≤ maxOrder then
    -- `free_area[i]` with a negative `i` is outside the vector.
    if i < 0 then .error .outOfBounds
    else if (m.freeArea i.toNat).length > 0 then
      match splitLoop order.toNat i.toNat m with
      | .error fault => .error fault
      | .ok m =>
          match m.freeArea order.toNat with
          | [] => .error .emptyList
          | allocedPages :: _ =>
              let m := m.setOrder allocedPages order.toNat
              let m := m.setRefcount allocedPages 1
              let m := m.popFront order.toNat
              .ok (some allocedPages, m)
    else allocLoop order (i + 1) m
  else .ok (none, m)
termination_by (maxOrder + 1 - i).toNat
decreasing_by exact toNat_succ_lt ‹_›

/-- `alloc_pages`; `none` is `NULL`. -/
def allocPages (order : BitVec 32) (m : Memory) : Except Fault (Option Nat × Memory) :=
  allocLoop order order.toInt m

/-- The last statement of `free_pages`, `free_area[page->order].push_front(page)`. -/
def mountPage (page : Nat) (m : Memory) : Except Fault Memory :=
  if (m.memMap page).order ≤ maxOrder then .ok (m.pushFront page (m.memMap page).order)
  else .error .outOfBounds

/-- `if ((unsigned long)page > (unsigned long)buddy_page) page = buddy_page;` -/
def lowerPage (page buddyPage : Nat) : Nat := if page > buddyPage then buddyPage else page

theorem lowerPage_cases (page buddyPage : Nat) :
    lowerPage page buddyPage = buddyPage ∨ lowerPage page buddyPage = page := by
  unfold lowerPage
  split
  · exact .inl rfl
  · exact .inr rfl

/-- The `while (page->order < MAX_ORDER)` loop of `free_pages` and the statement after
it. -/
def mergeLoop (page : Nat) (m : Memory) : Except Fault Memory :=
  if (m.memMap page).order < maxOrder then
    match getBuddy page (m.memMap page).order with
    | .error fault => .error fault
    | .ok buddyPage =>
        if (m.memMap buddyPage).order ≠ (m.memMap page).order ∨
            (m.memMap buddyPage).refcount ≠ 0 then
          mountPage page m
        else
          let removed := m.removePage buddyPage (m.memMap page).order
          let lower := lowerPage page buddyPage
          mergeLoop lower (removed.setOrder lower ((removed.memMap lower).order + 1))
  else mountPage page m
termination_by maxOrder - (m.memMap page).order
decreasing_by
  rename_i below agree
  simp only [not_or, not_not] at agree
  have lowerOrder : (m.memMap (lowerPage page buddyPage)).order = (m.memMap page).order := by
    rcases lowerPage_cases page buddyPage with equal | equal
    · rw [equal, agree.1]
    · rw [equal]
  simp only [Memory.setOrder_same, Memory.removePage_memMap, lowerOrder]
  omega

/-- `free_pages`; `none` is `NULL`. -/
def freePages (page : Option Nat) (m : Memory) : Except Fault Memory :=
  match page with
  | none => .ok m
  | some page =>
      if numPages ≤ page then .error .outOfBounds
      else if (m.memMap page).refcount = 0 then .ok m
      else mergeLoop page (m.setRefcount page 0)

/-! ## Runs -/

/-- The memory together with the live blocks, each with its first page and the order it
was requested with, in the order of allocation from the latest. -/
structure System where
  memory : Memory
  live : List (Nat × Nat)

/-- A call of one of the two functions. -/
inductive Call where
  | alloc (order : BitVec 32)
  | free (page : Nat)
  deriving Repr

/-- Orders that exist, and pages inside `mem_map`. -/
def Call.Valid : Call → Prop
  | .alloc order => order.toNat ≤ maxOrder
  | .free page => page < numPages

namespace System

/-- `main` before its first allocation. -/
def start : System := ⟨mmInit, []⟩

/-- One call.  A block is live from the `alloc_pages` that returns it to the
`free_pages` on its head. -/
def step (s : System) : Call → Except Fault System
  | .alloc order =>
      match allocPages order s.memory with
      | .error fault => .error fault
      | .ok (none, memory) => .ok ⟨memory, s.live⟩
      | .ok (some page, memory) => .ok ⟨memory, (page, order.toNat) :: s.live⟩
  | .free page =>
      match freePages (some page) s.memory with
      | .error fault => .error fault
      | .ok memory => .ok ⟨memory, s.live.filter fun block => block.1 ≠ page⟩

/-- Calls one after another. -/
def run (s : System) : List Call → Except Fault System
  | [] => .ok s
  | call :: calls =>
      match s.step call with
      | .error fault => .error fault
      | .ok next => next.run calls

end System

end OscKernel.Frames
