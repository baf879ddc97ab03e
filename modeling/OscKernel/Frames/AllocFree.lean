import OscKernel.Frames.Answers

/-!
# Freeing what was just allocated

`free_pages` undoes `alloc_pages` step by step.  Every round of the split loop leaves the two
halves of a block alone on a list that was empty, so the merge loop finds them there and goes
on to exactly the block that the split loop started from.  It stops there because that block
was maximal.
-/

namespace OscKernel.Frames

open Blocks Block

/-- The memory `merged` is `m` with the block taken from the front of its list and idle, up to
the pages inside the block. -/
structure Taken (block : Block) (m merged : Memory) : Prop where
  lists : merged.freeArea = m.freeArea.popFront block.order
  head : merged.memMap block.base = ⟨block.order, 0⟩
  outside : ∀ page, page ∉ block → merged.memMap page = m.memMap page

variable {cursor half : Block} {m merged : Memory} {order : Nat} {rest : List Nat}

/-- Taking the block of the requested order and clearing its count again. -/
theorem taken_front (block : Block) (m : Memory) :
    Taken block m ((takeFront block.base block.order m).setRefcount block.base 0) where
  lists := rfl
  head := by simp [takeFront]
  outside page away := by
    have different : page ≠ block.base := fun equal => away (equal ▸ block.base_mem)
    simp [takeFront, different]

/-- One round of the merge loop undoes one round of the split loop. -/
theorem Taken.merge (starts : half.parent.base = half.base) (empty : m.freeArea half.order = [])
    (taken : Taken half (splitRound half.base half.buddy.base half.order m) merged) :
    Taken half.parent m (mergeRound half.buddy.base half.parent.base half.order merged) := by
  constructor
  · have pushed : merged.freeArea half.order = [half.buddy.base] := by
      simp [taken.lists, splitRound, empty]
    funext level
    simp only [mergeRound, Memory.setOrder_freeArea, Memory.removePage_freeArea]
    by_cases same : level = half.order
    · rw [same, FreeLists.remove_same, pushed,
        FreeLists.popFront_other _ (by simp : half.order ≠ half.parent.order), empty]
      simp
    · rw [FreeLists.remove_other _ _ same, taken.lists, FreeLists.popFront_other _ same]
      simp [splitRound, same]
  · rw [mergeRound, Memory.setOrder_same, Memory.removePage_memMap, starts, taken.head,
      parent_order]
  · intro page away
    rw [mem_parent, not_or] at away
    have notLower : page ≠ half.parent.base :=
      fun equal => away.1 (equal.trans starts ▸ half.base_mem)
    have notBuddy : page ≠ half.buddy.base := fun equal => away.2 (equal ▸ half.buddy.base_mem)
    rw [mergeRound, Memory.setOrder_other _ _ notLower, Memory.removePage_memMap,
      taken.outside page away.1]
    simp [splitRound, notBuddy]

/-- The fields of the buddy's page after a round of the split loop. -/
theorem Taken.buddy
    (taken : Taken half (splitRound half.base half.buddy.base half.order m) merged) :
    merged.memMap half.buddy.base = ⟨half.order, 0⟩ := by
  have away : half.buddy.base ∉ half :=
    fun member => half.apart_buddy _ member half.buddy.base_mem
  rw [taken.outside _ away]
  simp [splitRound]

/-- The whole split loop, undone.  After the allocation of the block of the requested order that
starts at `base`, the merge loop from `base` gets to the block that was split. -/
theorem splitLoop_undone {base level : Nat} (aligned : 2 ^ level ∣ base) (inRange : base < numPages)
    (small : level ≤ maxOrder) (requested : order ≤ level)
    (front : m.freeArea level = base :: rest)
    (empty : ∀ lower, order ≤ lower → lower < level → m.freeArea lower = []) :
    ∃ m' rest' merged, splitLoop order level m = .ok m' ∧ m'.freeArea order = base :: rest' ∧
      Taken (containing level base) m merged ∧
      mergeLoop base ((takeFront base order m').setRefcount base 0) = mergeLoop base merged := by
  -- Induction on the rounds between the requested order and the level of the block.
  induction requested using Nat.leRec generalizing m rest with
  | refl =>
      have taken := taken_front (containing order base) m
      rw [base_containing_of_dvd aligned] at taken
      exact ⟨m, rest, _, splitLoop_done order m, front, taken, rfl⟩
  | @le_succ_of_le level requested ih =>
      have halfAligned : 2 ^ level ∣ base := (Nat.pow_dvd_pow 2 (Nat.le_succ level)).trans aligned
      have halfBase := base_containing_of_dvd halfAligned
      have parentBase : (containing level base).parent.base = base := by
        rw [parent_containing]
        exact base_containing_of_dvd aligned
      let half := containing level base
      have below : half.order < maxOrder := small
      have halfRange : half.base < numPages := halfBase.symm ▸ inRange
      have none : m.freeArea level = [] := empty level requested (Nat.lt_succ_self level)
      have splits : splitLoop order (level + 1) m =
          splitLoop order level (splitRound half.base half.buddy.base level m) :=
        splitLoop_split requested below halfRange (front.trans (by rw [halfBase]))
      have front' : (splitRound half.base half.buddy.base level m).freeArea level =
          base :: [half.buddy.base] := by
        simp [splitRound, none, half, halfBase]
      have empty' : ∀ lower, order ≤ lower → lower < level →
          (splitRound half.base half.buddy.base level m).freeArea lower = [] := by
        intro lower above below
        have upper : lower ≠ level + 1 := by omega
        simpa [splitRound, below.ne, upper] using empty lower above (by omega)
      obtain ⟨m', rest', merged, runs, final, taken, merges⟩ :=
        ih halfAligned (le_of_lt small) front' empty'
      have next := Taken.merge (parentBase.trans halfBase.symm) none taken
      have joined := mergeLoop_merge below halfRange taken.head
        (congrArg Page.order taken.buddy) (congrArg Page.refcount taken.buddy)
      rw [halfBase, parentBase] at joined
      refine ⟨m', rest', _, splits.trans runs, final, ?_, merges.trans joined⟩
      rw [parentBase, parent_containing] at next
      exact next

/-! ## The whole calls -/

/-- What a successful scan has done: it stopped at the first list that is not empty, split the
block at its front and took the front of the requested list. -/
theorem allocLoop_first {order : BitVec 32} {i page : Nat} {memory : Memory}
    (runs : allocLoop order i m = .ok (some page, memory)) :
    ∃ level m' rest, i ≤ level ∧ level ≤ maxOrder ∧ m.freeArea level ≠ [] ∧
      (∀ lower, i ≤ lower → lower < level → m.freeArea lower = []) ∧
      splitLoop order.toNat level m = .ok m' ∧ m'.freeArea order.toNat = page :: rest ∧
      memory = takeFront page order.toNat m' := by
  -- Induction on the number of lists that are left to look at.
  induction left : maxOrder + 1 - i generalizing i with
  | zero =>
      rw [allocLoop_above (by omega)] at runs
      cases runs
  | succ left ih =>
      rw [allocLoop, if_pos (by omega), if_neg (by omega), Int.toNat_natCast] at runs
      by_cases empty : m.freeArea i = []
      · rw [if_neg (by simp [empty])] at runs
        obtain ⟨level, m', rest, above, found⟩ :=
          ih (i := i + 1) (by exact_mod_cast runs) (by omega)
        obtain ⟨small, full, lowers, splits, front, taken⟩ := found
        refine ⟨level, m', rest, by omega, small, full, fun lower from_ below => ?_, splits, front,
          taken⟩
        by_cases first : lower = i
        · rw [first, empty]
        · exact lowers lower (by omega) below
      · rw [if_pos (List.length_pos_iff.mpr empty)] at runs
        cases splits : splitLoop order.toNat i m with
        | error fault => simp [splits] at runs
        | ok m' =>
            rw [splits] at runs
            cases front : m'.freeArea order.toNat with
            | nil => simp [front] at runs
            | cons first rest =>
                simp only [front, Except.ok.injEq, Prod.mk.injEq, Option.some.injEq] at runs
                obtain ⟨rfl, rfl⟩ := runs
                exact ⟨i, m', rest, le_rfl, by omega, empty, by omega, splits, front, rfl⟩

namespace System

variable {s : System}

/-- At a maximal free block the test of the merge loop fails. -/
theorem Inv.buddy_differs (inv : s.Inv)
    (top : cursor ∈ tops (within maxOrder (freeFrames s.live))) (room : cursor.order < maxOrder) :
    ¬ ((s.memory.memMap cursor.buddy.base).order = cursor.order ∧
      (s.memory.memMap cursor.buddy.base).refcount = 0) := by
  intro fields
  have notAround : ∀ block ∈ within maxOrder (freeFrames s.live), ¬ cursor.parent ≤ block :=
    fun block member above => (cursor.lt_parent.trans_le above).not_ge
      (top.2 member (cursor.le_parent.trans above))
  have available : cursor.buddy ∈ within maxOrder (freeFrames s.live) := by
    apply buddy_available_of_fields (fun block member _ => inv.owns.heads block member) notAround
      _ fields.1 fields.2
    intro notFree
    have inRange : cursor.buddy.base ∈ allFrames :=
      buddy_base_lt room (top.prop.2 _ cursor.base_mem).1
    obtain ⟨entry, live, inBlock⟩ := exists_live inRange notFree
    refine ⟨blockOf entry, inBlock, ?_, fun above => ?_⟩
    · rw [inv.aligned entry live, inv.heads entry live]
      exact Nat.one_ne_zero
    · have inCursor := top.prop.2 _ cursor.base_mem
      exact inCursor.2 entry live (above _ (cursor.le_parent _ cursor.base_mem))
  apply notAround cursor.parent _ le_rfl
  refine ⟨room, fun frame member => ?_⟩
  rcases mem_parent.mp member with inCursor | inBuddy
  · exact top.prop.2 frame inCursor
  · exact available.2 frame inBuddy

/-- Putting a page back where it was taken from. -/
theorem pushFront_popFront {lists : FreeLists} {level base : Nat}
    (front : lists level = base :: rest) :
    (lists.popFront level).pushFront level base = lists := by
  funext other
  by_cases same : other = level
  · rw [same, FreeLists.pushFront_same, FreeLists.popFront_same, front, List.tail_cons]
  · rw [FreeLists.pushFront_other _ _ same, FreeLists.popFront_other _ same]

/-- The allocation and the free, on the memory. -/
theorem Inv.free_allocated (inv : s.Inv) {order : BitVec 32} (small : order.toNat ≤ maxOrder)
    {page : Nat} {memory : Memory}
    (allocated : allocPages order s.memory = .ok (some page, memory)) :
    page ∈ freeFrames s.live ∧
      ∃ final, freePages (some page) memory = .ok final ∧ final.freeArea = s.memory.freeArea := by
  rw [allocPages, order_toInt small] at allocated
  obtain ⟨level, m', rest, above, levelSmall, full, lowers, splits, front, rfl⟩ :=
    allocLoop_first allocated
  cases list : s.memory.freeArea level with
  | nil => exact absurd list full
  | cons base others =>
      obtain ⟨top, start⟩ :=
        inv.owns.lists.containing_mem levelSmall (list ▸ List.mem_cons_self)
      have free : base ∈ freeFrames s.live := top.prop.2 base (mem_containing level base)
      have aligned : 2 ^ level ∣ base :=
        inv.owns.lists.aligned level levelSmall base (list ▸ List.mem_cons_self)
      obtain ⟨_, _, merged, splits', front', taken, merges⟩ :=
        splitLoop_undone aligned free.1 levelSmall above list lowers
      cases splits.symm.trans splits'
      cases front.symm.trans front'
      refine ⟨free, merged.pushFront page level, ?_, ?_⟩
      · have stopped : level = maxOrder ∨
            ¬ ((merged.memMap (containing level page).buddy.base).order = level ∧
              (merged.memMap (containing level page).buddy.base).refcount = 0) := by
          by_cases last : level = maxOrder
          · exact .inl last
          · right
            have away : (containing level page).buddy.base ∉ containing level page :=
              fun member => apart_buddy _ _ member (base_mem _)
            rw [taken.outside _ away]
            exact inv.buddy_differs top (lt_of_le_of_ne levelSmall last)
        have mounted := mergeLoop_mount levelSmall (start.symm ▸ free.1) taken.head stopped
        rw [start] at mounted
        have used : ((takeFront page order.toNat m').memMap page).refcount = 1 := by
          simp [takeFront]
        rw [freePages, if_neg (not_le.mpr free.1), if_neg (by rw [used]; exact Nat.one_ne_zero),
          merges]
        exact mounted
      · rw [Memory.pushFront_freeArea, taken.lists]
        exact pushFront_popFront list

/-- In a reachable state, freeing what `alloc_pages` has just returned brings back all free
lists, with the order of their elements, and the live blocks. -/
theorem alloc_free_identity (reachable : s.Reachable) {order : BitVec 32}
    (small : order.toNat ≤ maxOrder) {page : Nat} {memory : Memory}
    (allocated : allocPages order s.memory = .ok (some page, memory)) :
    ∃ final, s.run [.alloc order, .free page] = .ok final ∧
      final.memory.freeArea = s.memory.freeArea ∧ final.live = s.live := by
  have inv := reachable.inv
  obtain ⟨free, final, freed, lists⟩ := inv.free_allocated small allocated
  refine ⟨⟨final, s.live⟩, ?_, lists, rfl⟩
  have others : s.live.filter (fun block => block.1 ≠ page) = s.live := by
    apply List.filter_eq_self.mpr
    intro entry live
    apply decide_eq_true
    intro equal
    apply free.2 entry live
    rw [← equal, ← inv.aligned entry live]
    exact base_mem _
  rw [run, step, allocated]
  simp only [run, step, freed]
  rw [List.filter_cons_of_neg (by simp), others]

/-- The start state has a free block of order 3. -/
theorem start_alloc_three : ∃ page memory, allocPages 3 start.memory = .ok (some page, memory) := by
  rcases allocPages_spec start_inv.owns (fun _ free => free.1) 3 (by decide) with
    ⟨_, full⟩ | ⟨block, memory, _, runs, _⟩
  · have free : containing 3 0 ∈ within maxOrder (freeFrames start.live) := by
      refine ⟨by decide, fun frame member => ⟨?_, by simp [start]⟩⟩
      have same : frame / 2 ^ 3 = 0 / 2 ^ 3 := member
      change frame < numPages
      rw [numPages]
      omega
    exact absurd (full _ free) (by decide)
  · exact ⟨block.base, memory, runs⟩

theorem alloc_free_identity_start : ∃ page memory final,
    allocPages 3 start.memory = .ok (some page, memory) ∧
    start.run [.alloc 3, .free page] = .ok final ∧
    final.memory.freeArea = start.memory.freeArea ∧ final.live = start.live := by
  obtain ⟨page, memory, allocated⟩ := start_alloc_three
  obtain ⟨final, restored⟩ := alloc_free_identity start_reachable (by decide) allocated
  exact ⟨page, memory, final, allocated, restored⟩

end System

end OscKernel.Frames
