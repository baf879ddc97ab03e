import OscKernel.Blocks.Aligned

/-!
# Maximal blocks of a family

A buddy system keeps, for the frames it owns, exactly the maximal aligned blocks.
Splitting a block, taking one away and merging two buddies are therefore operations
on a family of blocks closed under inclusion, and this module says what each does to
the maximal members of the family.
-/

namespace OscKernel.Blocks

open Block

/-- The maximal blocks of a family. -/
def tops (family : Set Block) : Set Block := {block | Maximal (· ∈ family) block}

variable {family : Set Block} {block other : Block}

theorem eq_of_mem_tops_of_le (top : block ∈ tops family) (member : other ∈ family)
    (inside : block ≤ other) : block = other :=
  top.eq_of_le member inside

/-- A frame lies in at most one maximal block. -/
theorem tops_eq_of_mem (top : block ∈ tops family) (otherTop : other ∈ tops family)
    {frame : Nat} (member : frame ∈ block) (otherMember : frame ∈ other) : block = other := by
  rcases comparable_of_mem member otherMember with inside | inside
  · exact eq_of_mem_tops_of_le top otherTop.prop inside
  · exact (eq_of_mem_tops_of_le otherTop top.prop inside).symm

theorem tops_apart (top : block ∈ tops family) (otherTop : other ∈ tops family)
    (different : block ≠ other) : block.Apart other :=
  fun _ member otherMember => different (tops_eq_of_mem top otherTop member otherMember)

/-- Where orders are bounded, every block of the family lies in a maximal one. -/
theorem exists_top_of_mem {bound : Nat} (bounded : ∀ other ∈ family, other.order ≤ bound)
    (member : block ∈ family) : ∃ top ∈ tops family, block ≤ top := by
  -- Induction on the room left above the block's order.
  induction room : bound - block.order using Nat.strong_induction_on generalizing block with
  | _ room ih =>
    by_cases top : block ∈ tops family
    · exact ⟨block, top, le_rfl⟩
    · have larger : ∃ outer ∈ family, block < outer := by
        by_contra none
        refine top ⟨member, fun outer outerMember inside => ?_⟩
        by_contra notBelow
        exact none ⟨outer, outerMember, lt_of_le_not_ge inside notBelow⟩
      obtain ⟨outer, outerMember, inside⟩ := larger
      have orders := order_lt_of_lt inside
      have limit := bounded outer outerMember
      obtain ⟨found, foundTop, above⟩ := ih (bound - outer.order) (by omega) outerMember rfl
      exact ⟨found, foundTop, inside.le.trans above⟩

theorem tops_of_subset {smaller : Set Block} (subset : smaller ⊆ family)
    (top : block ∈ tops family) (member : block ∈ smaller) : block ∈ tops smaller :=
  ⟨member, fun _ otherMember inside => top.2 (subset otherMember) inside⟩

/-- Replacing a maximal block by its two halves. -/
theorem tops_split (lower : IsLowerSet family) (top : block.parent ∈ tops family) :
    tops (family \ {block.parent}) = (tops family \ {block.parent}) ∪ {block, block.buddy} := by
  have halfTop : ∀ half, half ≤ block.parent → half.order = block.order →
      half.parent = block.parent → half ∈ tops (family \ {block.parent}) := by
    intro half inside orders sameParent
    have proper : half ≠ block.parent := fun equal => by
      have := congrArg Block.order equal
      simp [orders] at this
    refine ⟨⟨lower inside top.prop, proper⟩, fun outer outerMember above => ?_⟩
    by_contra notBelow
    have around := parent_le_of_lt (lt_of_le_not_ge above notBelow)
    rw [sameParent] at around
    exact outerMember.2 (eq_of_mem_tops_of_le top outerMember.1 around).symm
  ext other
  simp only [Set.mem_union, Set.mem_sdiff, Set.mem_singleton_iff, Set.mem_insert_iff]
  constructor
  · intro otherTop
    by_cases inside : other < block.parent
    · right
      rcases le_or_le_buddy_of_lt_parent inside with below | below
      · exact .inl (eq_of_mem_tops_of_le otherTop
          (halfTop block block.le_parent rfl rfl).prop below)
      · exact .inr (eq_of_mem_tops_of_le otherTop
          (halfTop block.buddy block.buddy_le_parent rfl block.parent_buddy).prop below)
    · left
      refine ⟨⟨otherTop.prop.1, fun outer outerMember above => ?_⟩, otherTop.prop.2⟩
      by_cases isParent : outer = block.parent
      · subst isParent
        exact (eq_of_le_of_not_lt above inside).ge
      · exact otherTop.2 ⟨outerMember, isParent⟩ above
  · rintro (⟨otherTop, different⟩ | rfl | rfl)
    · exact tops_of_subset Set.sdiff_subset otherTop ⟨otherTop.prop, different⟩
    · exact halfTop other other.le_parent rfl rfl
    · exact halfTop block.buddy block.buddy_le_parent rfl block.parent_buddy

/-- Taking away a maximal block together with everything inside it. -/
theorem tops_sdiff_Iic (top : block ∈ tops family) :
    tops (family \ Set.Iic block) = tops family \ {block} := by
  ext other
  simp only [Set.mem_sdiff, Set.mem_singleton_iff]
  constructor
  · intro otherTop
    have outside : ¬ other ≤ block := otherTop.prop.2
    refine ⟨⟨otherTop.prop.1, fun outer outerMember above => ?_⟩, fun equal => outside equal.le⟩
    exact otherTop.2 ⟨outerMember, fun below => outside (above.trans below)⟩ above
  · rintro ⟨otherTop, different⟩
    refine tops_of_subset Set.sdiff_subset otherTop ⟨otherTop.prop, fun below => ?_⟩
    exact different (eq_of_mem_tops_of_le otherTop top.prop below)

theorem sdiff_Ioi_of_top (top : block ∈ tops family) : family \ Set.Ioi block = family := by
  apply sdiff_eq_left.mpr
  apply Set.disjoint_left.mpr
  intro outer member around
  have inside : block < outer := Set.mem_Ioi.mp around
  exact inside.ne (eq_of_mem_tops_of_le top member inside.le)

/-- A block is maximal once the blocks around it are given up. -/
theorem mem_tops_sdiff_Ioi (member : block ∈ family) : block ∈ tops (family \ Set.Ioi block) := by
  refine ⟨⟨member, fun inside => lt_irrefl block (Set.mem_Ioi.mp inside)⟩, ?_⟩
  intro outer outerMember above
  by_contra notBelow
  exact outerMember.2 (Set.mem_Ioi.mpr (lt_of_le_not_ge above notBelow))

theorem sdiff_Ioi_lower (lower : IsLowerSet family) (block : Block) :
    IsLowerSet (family \ Set.Ioi block) := by
  intro outer inner inside member
  refine ⟨lower inside member.1, fun around => member.2 ?_⟩
  exact Set.mem_Ioi.mpr (lt_of_lt_of_le (Set.mem_Ioi.mp around) inside)

/-- Giving up the parent as well leaves the blocks that are not around the half. -/
theorem sdiff_Ioi_parent (family : Set Block) (half : Block) :
    (family \ Set.Ioi half.parent) \ {half.parent} = family \ Set.Ioi half := by
  ext other
  simp only [Set.mem_sdiff, Set.mem_Ioi, Set.mem_singleton_iff]
  constructor
  · intro kept
    refine ⟨kept.1.1, fun around => ?_⟩
    rcases (parent_le_of_lt around).lt_or_eq with larger | equal
    · exact kept.1.2 larger
    · exact kept.2 equal.symm
  · intro kept
    refine ⟨⟨kept.1, fun around => kept.2 (half.lt_parent.trans around)⟩, fun equal => ?_⟩
    exact kept.2 (equal ▸ half.lt_parent)

/-- Adding a block apart from the whole family. -/
theorem tops_union_Iic (apart : ∀ member ∈ family, member.Apart block) :
    tops (family ∪ Set.Iic block) = insert block (tops family) := by
  ext other
  simp only [Set.mem_insert_iff]
  constructor
  · intro otherTop
    rcases otherTop.prop with member | below
    · exact .inr (tops_of_subset Set.subset_union_left otherTop member)
    · exact .inl (eq_of_mem_tops_of_le otherTop (.inr Set.self_mem_Iic) below)
  · rintro (rfl | otherTop)
    · refine ⟨.inr Set.self_mem_Iic, fun outer outerMember above => ?_⟩
      rcases outerMember with member | below
      · exact absurd above (apart outer member).symm.not_le
      · exact below
    · refine ⟨.inl otherTop.prop, fun outer outerMember above => ?_⟩
      rcases outerMember with member | below
      · exact otherTop.2 member above
      · exact absurd (above.trans below) (apart other otherTop.prop).not_le

/-- Merging a block outside the family with its buddy inside the family. -/
theorem tops_merge (lower : IsLowerSet family) (outside : ∀ member ∈ family, ¬ block ≤ member)
    (buddyMember : block.buddy ∈ family) :
    tops (family ∪ Set.Iic block.parent) \ {block.parent} =
      tops (family ∪ Set.Iic block) \ {block, block.buddy} := by
  have unsplit : (family ∪ Set.Iic block.parent) \ {block.parent} = family ∪ Set.Iic block := by
    ext other
    simp only [Set.mem_sdiff, Set.mem_union, Set.mem_Iic, Set.mem_singleton_iff]
    constructor
    · rintro ⟨member | below, different⟩
      · exact .inl member
      · rcases le_or_le_buddy_of_lt_parent (lt_of_le_of_ne below different) with inside | inside
        · exact .inr inside
        · exact .inl (lower inside buddyMember)
    · rintro (member | below)
      · exact ⟨.inl member, fun equal => outside other member (equal ▸ block.le_parent)⟩
      · exact ⟨.inr (below.trans block.le_parent),
          fun equal => (lt_parent block).not_ge (equal ▸ below)⟩
  have parentTop : block.parent ∈ tops (family ∪ Set.Iic block.parent) := by
    refine ⟨.inr Set.self_mem_Iic, fun outer outerMember above => ?_⟩
    rcases outerMember with member | below
    · exact absurd (block.le_parent.trans above) (outside outer member)
    · exact below
  have closed : IsLowerSet (family ∪ Set.Iic block.parent) := lower.union (isLowerSet_Iic _)
  have halves := tops_split closed parentTop
  rw [unsplit] at halves
  have notTop : ∀ half, half < block.parent → half ∉ tops (family ∪ Set.Iic block.parent) :=
    fun half inside top => inside.ne (eq_of_mem_tops_of_le top parentTop.prop inside.le)
  have buddyBelow : block.buddy < block.parent := by
    rw [← block.parent_buddy]
    exact block.buddy.lt_parent
  rw [halves]
  ext other
  simp only [Set.mem_sdiff, Set.mem_union, Set.mem_singleton_iff, Set.mem_insert_iff]
  constructor
  · rintro ⟨top, different⟩
    refine ⟨.inl ⟨top, different⟩, ?_⟩
    rintro (rfl | rfl)
    · exact notTop _ (lt_parent _) top
    · exact notTop _ buddyBelow top
  · rintro ⟨found | half, neither⟩
    · exact found
    · exact absurd half neither

/-! ## Blocks inside a set of frames -/

/-- The blocks of order at most `bound` made only of frames of `frames`. -/
def within (bound : Nat) (frames : Set Nat) : Set Block :=
  {block | block.order ≤ bound ∧ ∀ frame ∈ block, frame ∈ frames}

variable {bound : Nat} {frames taken : Set Nat}

theorem within_lower (bound : Nat) (frames : Set Nat) : IsLowerSet (within bound frames) :=
  fun _ _ inside member =>
    ⟨(order_le_of_le inside).trans member.1,
      fun frame inInner => member.2 frame (inside frame inInner)⟩

theorem mem_frames_of_mem_tops_within (top : block ∈ tops (within bound frames)) {frame : Nat}
    (member : frame ∈ block) : frame ∈ frames := top.prop.2 frame member

theorem containing_zero_mem_within (bound : Nat) {frame : Nat} (owned : frame ∈ frames) :
    containing 0 frame ∈ within bound frames := by
  refine ⟨Nat.zero_le _, fun other member => ?_⟩
  have same : other / 2 ^ 0 = frame / 2 ^ 0 := member
  rw [pow_zero, Nat.div_one, Nat.div_one] at same
  exact same ▸ owned

/-- The maximal blocks inside a set of frames tile it. -/
theorem existsUnique_top_of_mem (bound : Nat) {frame : Nat} (owned : frame ∈ frames) :
    ∃! block, block ∈ tops (within bound frames) ∧ frame ∈ block := by
  obtain ⟨top, isTop, above⟩ := exists_top_of_mem (fun _ member => member.1)
    (containing_zero_mem_within bound owned)
  refine ⟨top, ⟨isTop, above frame (mem_containing 0 frame)⟩, ?_⟩
  rintro other ⟨otherTop, member⟩
  exact tops_eq_of_mem otherTop isTop member (above frame (mem_containing 0 frame))

/-- If the frames consist of whole blocks of the largest order, these are the maximal
blocks. -/
theorem mem_tops_within_of_whole
    (whole : ∀ frame ∈ frames, ∀ other ∈ containing bound frame, other ∈ frames) :
    block ∈ tops (within bound frames) ↔ block.order = bound ∧ block.base ∈ frames := by
  constructor
  · intro top
    have owned : block.base ∈ frames := mem_frames_of_mem_tops_within top block.base_mem
    have around : containing bound block.base ∈ within bound frames :=
      ⟨le_rfl, whole _ owned⟩
    have inside : block ≤ containing bound block.base :=
      le_of_mem_of_order_le block.base_mem (mem_containing _ _) top.prop.1
    have equal := eq_of_mem_tops_of_le top around inside
    exact ⟨congrArg Block.order equal, owned⟩
  · rintro ⟨rfl, owned⟩
    have same := containing_eq_of_mem block.base_mem
    have owns := whole _ owned
    rw [same] at owns
    refine ⟨⟨le_rfl, owns⟩, fun outer outerMember inside => ?_⟩
    exact (eq_of_le_of_order_le inside outerMember.1).ge

/-- Giving up the blocks around a block and then the blocks inside it. -/
theorem within_sdiff_eq (bound : Nat) (frames : Set Nat) (block : Block) :
    (within bound frames \ Set.Ioi block) \ Set.Iic block =
      within bound (frames \ block.frames) := by
  ext other
  constructor
  · intro member
    obtain ⟨⟨inside, notAround⟩, notInside⟩ := member
    refine ⟨inside.1, fun frame inOther => ⟨inside.2 frame inOther, fun inBlock => ?_⟩⟩
    rcases comparable_of_mem inOther inBlock with below | above
    · exact notInside below
    · exact notAround (lt_of_le_of_ne above fun equal => notInside equal.ge)
  · intro member
    refine ⟨⟨⟨member.1, fun frame inOther => (member.2 frame inOther).1⟩, ?_⟩, ?_⟩
    · intro around
      have inside : block ≤ other := le_of_lt (Set.mem_Ioi.mp around)
      exact (member.2 _ (inside _ block.base_mem)).2 block.base_mem
    · intro below
      exact (member.2 _ other.base_mem).2 (below _ other.base_mem)

/-- Once the buddy of `block` is not available, giving back `freed` makes available
exactly the blocks inside `block`. -/
theorem within_union_eq {freed : Block} (small : block.order ≤ bound) (inside : freed ≤ block)
    (covered : ∀ frame ∈ block, frame ∈ frames ∨ frame ∈ freed)
    (stopped : block.order = bound ∨ block.buddy ∉ within bound frames) :
    within bound (frames ∪ freed.frames) = within bound frames ∪ Set.Iic block := by
  ext other
  constructor
  · rintro ⟨otherSmall, otherCovered⟩
    by_cases apart : other.Apart freed
    · exact .inl ⟨otherSmall, fun frame member =>
        (otherCovered frame member).resolve_right (apart frame member)⟩
    · right
      rcases apart_or_comparable other block with away | below | above
      · exact absurd (away.symm.mono inside).symm apart
      · exact below
      · by_contra notBelow
        have around := parent_le_of_lt (lt_of_le_not_ge above notBelow)
        have larger := order_lt_of_lt (lt_of_le_not_ge above notBelow)
        rcases stopped with full | unavailable
        · omega
        · refine unavailable ⟨small, fun frame member => ?_⟩
          refine (otherCovered frame (around _ (block.buddy_le_parent _ member))).resolve_right ?_
          exact fun inFreed => block.apart_buddy frame (inside _ inFreed) member
  · rintro (⟨otherSmall, otherCovered⟩ | below)
    · exact ⟨otherSmall, fun frame member => .inl (otherCovered frame member)⟩
    · exact ⟨(order_le_of_le below).trans small, fun frame member => covered frame (below _ member)⟩

end OscKernel.Blocks
