import OscKernel.Frames.AllocPages

/-!
# What `free_pages` does to the free blocks

The merge loop climbs from the freed block through its ancestors as long as the buddy
is a free block.  It decides that from the fields of the buddy's first page, which may
be left over from an older block; `merge_test` shows that they cannot mislead it.
-/

namespace OscKernel.Frames

open Blocks Block

/-- Every frame outside `frames` lies in a block outside `frames` whose first page is
in use. -/
def Held (m : Memory) (frames : Set Nat) : Prop :=
  ∀ frame ∈ allFrames, frame ∉ frames →
    ∃ block : Block, frame ∈ block ∧ (m.memMap block.base).refcount ≠ 0 ∧
      ∀ other ∈ block, other ∉ frames

theorem Held.congr {m m' : Memory} {frames : Set Nat} (held : Held m frames)
    (same : ∀ page, (m'.memMap page).refcount = (m.memMap page).refcount) : Held m' frames := by
  intro frame inRange away
  obtain ⟨block, member, used, apart⟩ := held frame inRange away
  exact ⟨block, member, (same block.base).symm ▸ used, apart⟩

/-- The state of the merge loop at the block `cursor` around the freed block: `cursor`
is available but not yet listed. -/
structure Merging (frames : Set Nat) (freed cursor : Block) (m : Memory) : Prop where
  inside : freed ≤ cursor
  small : cursor.order ≤ maxOrder
  covered : ∀ frame ∈ cursor, frame ∈ frames ∪ freed.frames
  lists : Represents maxOrder m.freeArea
    (tops (within maxOrder frames ∪ Set.Iic cursor) \ {cursor})
  heads : ∀ block ∈ tops (within maxOrder frames ∪ Set.Iic cursor) \ {cursor},
    m.memMap block.base = ⟨block.order, 0⟩
  head : m.memMap cursor.base = ⟨cursor.order, 0⟩

section Merge

variable {frames : Set Nat} {freed cursor : Block} {m : Memory}

/-- No available block reaches around the freed one. -/
theorem not_le_of_mem_within (away : ∀ frame ∈ freed, frame ∉ frames) (inside : freed ≤ cursor) :
    ∀ block ∈ within maxOrder frames, ¬ cursor ≤ block :=
  fun _ member above =>
    away _ freed.base_mem (member.2 _ ((inside.trans above) _ freed.base_mem))

theorem cursor_mem_tops (away : ∀ frame ∈ freed, frame ∉ frames) (inside : freed ≤ cursor) :
    cursor ∈ tops (within maxOrder frames ∪ Set.Iic cursor) := by
  refine ⟨.inr Set.self_mem_Iic, fun outer member above => ?_⟩
  rcases member with member | below
  · exact absurd above (not_le_of_mem_within away inside outer member)
  · exact below

/-- A maximal available block that is not inside the cursor is maximal beside it. -/
theorem mem_tops_beside {block : Block} (top : block ∈ tops (within maxOrder frames))
    (notBelow : ¬ block ≤ cursor) :
    block ∈ tops (within maxOrder frames ∪ Set.Iic cursor) := by
  refine ⟨.inl top.prop, fun outer member above => ?_⟩
  rcases member with member | outerBelow
  · exact top.2 member above
  · exact absurd (above.trans outerBelow) notBelow

/-- Fields that agree are not left over from an older block: where no available block reaches
around the parent of the cursor, and the buddy's first page is available or held by a block that
does not reach around it either, they mean that the buddy is available as a whole. -/
theorem buddy_available_of_fields
    (listed : ∀ block ∈ tops (within maxOrder frames), cursor.buddy.base ∈ block →
      m.memMap block.base = ⟨block.order, 0⟩)
    (notAround : ∀ block ∈ within maxOrder frames, ¬ cursor.parent ≤ block)
    (held : cursor.buddy.base ∉ frames → ∃ block : Block, cursor.buddy.base ∈ block ∧
      (m.memMap block.base).refcount ≠ 0 ∧ ¬ cursor.parent ≤ block)
    (order : (m.memMap cursor.buddy.base).order = cursor.order)
    (refcount : (m.memMap cursor.buddy.base).refcount = 0) :
    cursor.buddy ∈ within maxOrder frames := by
  have reaches : ∀ block : Block, cursor.buddy < block → cursor.parent ≤ block := by
    intro block around
    have above := parent_le_of_lt around
    rwa [parent_buddy] at above
  by_cases owned : cursor.buddy.base ∈ frames
  · obtain ⟨top, ⟨isTop, member⟩, _⟩ := existsUnique_top_of_mem maxOrder owned
    have fieldsTop := listed top isTop member
    rcases comparable_of_mem member cursor.buddy.base_mem with below | above
    · rw [base_eq_of_le_of_mem below member] at fieldsTop
      have orders : top.order = cursor.order := by rw [← order, fieldsTop]
      have same : top = cursor.buddy := eq_of_le_of_order_le below orders.ge
      exact same ▸ isTop.prop
    · by_cases same : cursor.buddy = top
      · exact same ▸ isTop.prop
      · exact absurd (reaches top (lt_of_le_of_ne above same)) (notAround top isTop.prop)
  · -- The frame is in use, so either its block starts here or it reaches around.
    obtain ⟨block, member, used, away⟩ := held owned
    rcases comparable_of_mem member cursor.buddy.base_mem with below | above
    · rw [base_eq_of_le_of_mem below member] at used
      exact absurd refcount used
    · by_cases same : cursor.buddy = block
      · subst same
        exact absurd refcount used
      · exact absurd (reaches block (lt_of_le_of_ne above same)) away

/-- The test of the merge loop on the fields of the buddy's first page succeeds exactly
when the buddy is available as a whole. -/
theorem merge_test (away : ∀ frame ∈ freed, frame ∉ frames) (state : Merging frames freed cursor m)
    (held : Held m (frames ∪ freed.frames)) (inRange : cursor.buddy.base < numPages) :
    ((m.memMap cursor.buddy.base).order = cursor.order ∧
      (m.memMap cursor.buddy.base).refcount = 0) ↔ cursor.buddy ∈ within maxOrder frames := by
  -- A block around the parent contains the freed block.
  have reaches : ∀ block : Block, cursor.parent ≤ block → freed.base ∈ block :=
    fun block above =>
      (state.inside.trans (cursor.le_parent.trans above)) _ freed.base_mem
  have notAround : ∀ block ∈ within maxOrder frames, ¬ cursor.parent ≤ block :=
    fun block member above => away _ freed.base_mem (member.2 _ (reaches block above))
  have notFreed : cursor.buddy.base ∉ freed := fun member =>
    cursor.apart_buddy _ (state.inside _ member) cursor.buddy.base_mem
  have listed : ∀ block ∈ tops (within maxOrder frames), cursor.buddy.base ∈ block →
      m.memMap block.base = ⟨block.order, 0⟩ := by
    intro block top member
    have notBelow : ¬ block ≤ cursor :=
      fun below => cursor.apart_buddy _ (below _ member) cursor.buddy.base_mem
    apply state.heads
    refine ⟨mem_tops_beside top notBelow, ?_⟩
    intro equal
    exact notBelow (Set.mem_singleton_iff.mp equal).le
  constructor
  · intro fields
    apply buddy_available_of_fields listed notAround _ fields.1 fields.2
    intro notOwned
    obtain ⟨block, member, used, apart⟩ := held cursor.buddy.base inRange
      (fun either => either.elim notOwned notFreed)
    exact ⟨block, member, used, fun above => apart _ (reaches block above) (.inr freed.base_mem)⟩
  · intro available
    have top : cursor.buddy ∈ tops (within maxOrder frames) := by
      refine ⟨available, fun outer member above => ?_⟩
      by_contra notBelow
      have around := parent_le_of_lt (lt_of_le_not_ge above notBelow)
      rw [parent_buddy] at around
      exact notAround outer member around
    have fields := listed cursor.buddy top cursor.buddy.base_mem
    rw [fields]
    exact ⟨rfl, rfl⟩

/-- The body of the merge loop. -/
def mergeRound (buddyPage lower order : Nat) (m : Memory) : Memory :=
  (m.removePage buddyPage order).setOrder lower ((m.memMap lower).order + 1)

theorem lowerPage_base (block : Block) :
    lowerPage block.base block.buddy.base = block.parent.base := by
  rw [parent_base, lowerPage]

/-- Where the fields of the buddy's page agree, the merge loop goes on with the parent. -/
theorem mergeLoop_merge (below : cursor.order < maxOrder) (inRange : cursor.base < numPages)
    (head : m.memMap cursor.base = ⟨cursor.order, 0⟩)
    (order : (m.memMap cursor.buddy.base).order = cursor.order)
    (refcount : (m.memMap cursor.buddy.base).refcount = 0) :
    mergeLoop cursor.base m = mergeLoop cursor.parent.base
      (mergeRound cursor.buddy.base cursor.parent.base cursor.order m) := by
  have unfolded := mergeLoop.eq_1 cursor.base m
  rw [head, if_pos below, getBuddy_base below inRange] at unfolded
  simp only [order, refcount, ne_eq, not_true_eq_false, or_self, if_false, lowerPage_base]
    at unfolded
  exact unfolded

/-- Where they do not, or at `MAX_ORDER`, the block is put on its list. -/
theorem mergeLoop_mount (small : cursor.order ≤ maxOrder) (inRange : cursor.base < numPages)
    (head : m.memMap cursor.base = ⟨cursor.order, 0⟩)
    (stopped : cursor.order = maxOrder ∨ ¬ ((m.memMap cursor.buddy.base).order = cursor.order ∧
      (m.memMap cursor.buddy.base).refcount = 0)) :
    mergeLoop cursor.base m = .ok (m.pushFront cursor.base cursor.order) := by
  have mounted : mountPage cursor.base m = .ok (m.pushFront cursor.base cursor.order) := by
    simp [mountPage, head, small]
  have unfolded := mergeLoop.eq_1 cursor.base m
  rw [head, mounted] at unfolded
  rcases stopped with full | differs
  · rwa [if_neg full.not_lt] at unfolded
  · by_cases below : cursor.order < maxOrder
    · rw [if_pos below, getBuddy_base below inRange] at unfolded
      rw [not_and_or] at differs
      simp only [ne_eq, differs, if_true] at unfolded
      exact unfolded
    · rwa [if_neg below] at unfolded

/-- One round of the merge loop. -/
theorem Merging.round (away : ∀ frame ∈ freed, frame ∉ frames)
    (state : Merging frames freed cursor m) (room : cursor.order < maxOrder)
    (available : cursor.buddy ∈ within maxOrder frames) :
    Merging frames freed cursor.parent
      (mergeRound cursor.buddy.base cursor.parent.base cursor.order m) := by
  have outside := not_le_of_mem_within away state.inside
  have merged := tops_merge (within_lower maxOrder frames) outside available
  have cursorTop := cursor_mem_tops away state.inside
  have buddyTop : cursor.buddy ∈ tops (within maxOrder frames ∪ Set.Iic cursor) := by
    refine ⟨.inl available, fun outer member above => ?_⟩
    by_contra notBelow
    have around := parent_le_of_lt (lt_of_le_not_ge above notBelow)
    rw [parent_buddy] at around
    rcases member with member | below
    · exact outside outer member (cursor.le_parent.trans around)
    · exact cursor.lt_parent.not_ge (around.trans below)
  have remaining : tops (within maxOrder frames ∪ Set.Iic cursor.parent) \ {cursor.parent} =
      (tops (within maxOrder frames ∪ Set.Iic cursor) \ {cursor}) \ {cursor.buddy} := by
    rw [merged, sdiff_sdiff_left]
    rfl
  have lowerCases : cursor.parent.base = cursor.buddy.base ∨ cursor.parent.base = cursor.base := by
    rw [← lowerPage_base]
    exact lowerPage_cases _ _
  have lowerHead : m.memMap cursor.parent.base = ⟨cursor.order, 0⟩ := by
    rcases lowerCases with equal | equal
    · rw [equal]
      exact state.heads cursor.buddy ⟨buddyTop, cursor.buddy_ne⟩
    · rw [equal]
      exact state.head
  constructor
  · exact state.inside.trans cursor.le_parent
  · exact room
  · intro frame member
    rcases mem_parent.mp member with inCursor | inBuddy
    · exact state.covered frame inCursor
    · exact .inl (available.2 frame inBuddy)
  · rw [remaining]
    exact state.lists.remove cursor.buddy
  · intro block member
    rw [remaining] at member
    have different : block.base ≠ cursor.parent.base := by
      intro same
      rcases lowerCases with equal | equal
      · exact tops_apart member.1.1 buddyTop member.2 _ block.base_mem
          (same.trans equal ▸ cursor.buddy.base_mem)
      · exact tops_apart member.1.1 cursorTop member.1.2 _ block.base_mem
          (same.trans equal ▸ cursor.base_mem)
    simpa [mergeRound, different] using state.heads block member.1
  · simp [mergeRound, lowerHead]

/-- The last statement of `free_pages`: the cursor is listed as a free block. -/
theorem Merging.mount (away : ∀ frame ∈ freed, frame ∉ frames)
    (state : Merging frames freed cursor m)
    (stopped : cursor.order = maxOrder ∨ cursor.buddy ∉ within maxOrder frames) :
    Owns (m.pushFront cursor.base cursor.order) (frames ∪ freed.frames) := by
  have top := cursor_mem_tops away state.inside
  have family : tops (within maxOrder (frames ∪ freed.frames)) =
      insert cursor (tops (within maxOrder frames ∪ Set.Iic cursor) \ {cursor}) := by
    rw [within_union_eq state.small state.inside state.covered stopped,
      Set.insert_sdiff_self_of_mem top]
  constructor
  · rw [family]
    exact state.lists.pushFront cursor (fun member => member.2 rfl)
  · intro block member
    rw [family] at member
    rcases member with equal | member
    · exact equal ▸ state.head
    · exact state.heads block member

/-- The effect of `free_pages` on the pages: only pages of the freed frames and of
`frames` change, and the reference count of the freed head drops to 0. -/
structure Released (freed : Block) (frames : Set Nat) (m m' : Memory) : Prop where
  owns : Owns m' (frames ∪ freed.frames)
  outside : ∀ page, page ∉ frames ∪ freed.frames → m'.memMap page = m.memMap page
  refcount : ∀ page, (m'.memMap page).refcount = (m.memMap page).refcount

/-- The whole merge loop. -/
theorem mergeLoop_spec (away : ∀ frame ∈ freed, frame ∉ frames)
    (bounded : frames ∪ freed.frames ⊆ allFrames) (state : Merging frames freed cursor m)
    (held : Held m (frames ∪ freed.frames)) :
    ∃ m', mergeLoop cursor.base m = .ok m' ∧ Released freed frames m m' := by
  -- Induction on the number of levels above the cursor.
  have inRange : cursor.base < numPages := bounded (state.covered _ cursor.base_mem)
  induction room : maxOrder - cursor.order generalizing cursor m with
  | zero =>
      have full : cursor.order = maxOrder := le_antisymm state.small (by omega)
      exact ⟨_, mergeLoop_mount state.small inRange state.head (.inl full),
        state.mount away (.inl full), fun _ _ => rfl, fun _ => rfl⟩
  | succ room ih =>
      have below : cursor.order < maxOrder := by omega
      have test := merge_test away state held (buddy_base_lt below inRange)
      by_cases available : cursor.buddy ∈ within maxOrder frames
      · have fields := test.mpr available
        have next := state.round away below available
        have sameCount : ∀ page,
            ((mergeRound cursor.buddy.base cursor.parent.base cursor.order m).memMap
              page).refcount = (m.memMap page).refcount := by
          intro page
          by_cases same : page = cursor.parent.base
          · subst same
            simp [mergeRound]
          · simp [mergeRound, same]
        obtain ⟨m', runs, released⟩ := ih next (held.congr sameCount)
          (bounded (next.covered _ cursor.parent.base_mem)) (by simp only [parent_order]; omega)
        have merges := mergeLoop_merge below inRange state.head fields.1 fields.2
        refine ⟨m', merges.trans runs, released.owns, ?_, ?_⟩
        · intro page outside
          have different : page ≠ cursor.parent.base := by
            intro equal
            have member : page ∈ cursor.parent := equal ▸ cursor.parent.base_mem
            exact outside (next.covered page member)
          rw [released.outside page outside]
          simp [mergeRound, different]
        · intro page
          rw [released.refcount page, sameCount page]
      · have stops := mergeLoop_mount state.small inRange state.head
          (.inr fun fields => available (test.mp fields))
        exact ⟨_, stops, state.mount away (.inr available), fun _ _ => rfl, fun _ => rfl⟩

end Merge

/-- `free_pages` on the head of a block in use. -/
theorem freePages_spec {frames : Set Nat} {freed : Block} {m : Memory} (owns : Owns m frames)
    (away : ∀ frame ∈ freed, frame ∉ frames) (bounded : frames ∪ freed.frames ⊆ allFrames)
    (small : freed.order ≤ maxOrder) (head : m.memMap freed.base = ⟨freed.order, 1⟩)
    (held : Held m (frames ∪ freed.frames)) :
    ∃ m', freePages (some freed.base) m = .ok m' ∧
      Released freed frames (m.setRefcount freed.base 0) m' := by
  have inRange : freed.base < numPages := bounded (.inr freed.base_mem)
  have apart : ∀ block ∈ within maxOrder frames, block.Apart freed :=
    fun block member frame inBlock inFreed => away frame inFreed (member.2 frame inBlock)
  have notListed : freed ∉ tops (within maxOrder frames) :=
    fun top => away _ freed.base_mem (top.prop.2 _ freed.base_mem)
  have remaining : tops (within maxOrder frames ∪ Set.Iic freed) \ {freed} =
      tops (within maxOrder frames) := by
    rw [tops_union_Iic apart, Set.insert_sdiff_self_of_notMem notListed]
  have state : Merging frames freed freed (m.setRefcount freed.base 0) := by
    constructor
    · exact le_rfl
    · exact small
    · exact fun frame member => .inr member
    · rw [remaining]
      exact owns.lists
    · intro block member
      rw [remaining] at member
      have different : block.base ≠ freed.base := fun same =>
        apart block member.prop _ block.base_mem (same ▸ freed.base_mem)
      rw [Memory.setRefcount_other _ _ different]
      exact owns.heads block member
    · simp [head]
  have held' : Held (m.setRefcount freed.base 0) (frames ∪ freed.frames) := by
    intro frame inside outside
    obtain ⟨block, member, used, notOwned⟩ := held frame inside outside
    have different : block.base ≠ freed.base := fun same =>
      notOwned _ block.base_mem (.inr (same ▸ freed.base_mem))
    exact ⟨block, member, by rwa [Memory.setRefcount_other _ _ different], notOwned⟩
  obtain ⟨m', runs, released⟩ := mergeLoop_spec away bounded state held'
  refine ⟨m', ?_, released⟩
  rw [freePages, if_neg (by omega), head, if_neg Nat.one_ne_zero]
  exact runs

end OscKernel.Frames
