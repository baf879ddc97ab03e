import OscKernel.Frames.Reserve

/-!
# The main loop of `memory_reserve`

The loop carves the pages from `first` on out of the free blocks.  At every round the
lists hold the maximal blocks that avoid the pages reserved so far and do not reach
around the cursor, the block of the current order at `start_pfn`.  A partial overlap
gives up the cursor's block for its halves, a full overlap takes it away, and the order
found next makes the following cursor maximal again.
-/

namespace OscKernel.Frames

open Blocks Block Loops

/-- The memory in the middle of a reservation that began in `m₀`, with the pages from
`first` to `next` reserved as the blocks `marks`.  The lists are described for the pages
that satisfy `keep` only. -/
structure Carving (keep : Nat → Bool) (m₀ : Memory) (first next : Nat)
    (family marks : Set Block) (m : Memory) : Prop where
  lists : Represents maxOrder (m.freeArea.restrict keep) (tops family)
  orders : ∀ block ∈ tops family, (m.memMap block.base).order = block.order
  covered : ∀ frame, (∃ block ∈ marks, frame ∈ block) ↔ first ≤ frame ∧ frame < next
  apart : ∀ block ∈ marks, ∀ other ∈ marks, block ≠ other → block.Apart other
  marked : ∀ block ∈ marks, block.order ≤ maxOrder ∧ m.memMap block.base = ⟨block.order, 1⟩
  unmarked : ∀ page, (∀ block ∈ marks, block.base ≠ page) →
    (m.memMap page).refcount = (m₀.memMap page).refcount
  outside : ∀ page, keep page = false → m.memMap page = m₀.memMap page
  elsewhere : m.freeArea.restrict (fun page => !keep page) =
    m₀.freeArea.restrict (fun page => !keep page)

/-- The memory effect of a partial overlap. -/
def splitPages (curPage buddyPage order : Nat) (m : Memory) : Memory :=
  ((((m.removePage curPage (order + 1)).setOrder curPage order).setOrder
    buddyPage order).pushFront buddyPage order).pushFront curPage order

/-- The memory effect of a full overlap. -/
def takePage (curPage order : Nat) (m : Memory) : Memory :=
  ((m.setRefcount curPage 1).setOrder curPage order).removePage curPage order

section Carving

variable {keep : Nat → Bool} {m₀ m : Memory} {first next : Nat} {family marks : Set Block}

/-- The pages of the family are kept and not reserved. -/
def Avoids (keep : Nat → Bool) (first next : Nat) (family : Set Block) : Prop :=
  ∀ block ∈ family, ∀ frame ∈ block, keep frame = true ∧ ¬ (first ≤ frame ∧ frame < next)

theorem Carving.mark_not_free (carving : Carving keep m₀ first next family marks m)
    (avoids : Avoids keep first next family) {block mark : Block} (member : block ∈ family)
    (markMember : mark ∈ marks) : mark.base ∉ block := by
  intro inBlock
  exact (avoids block member _ inBlock).2
    ((carving.covered mark.base).mp ⟨mark, markMember, mark.base_mem⟩)

/-- Giving up a maximal block for its halves. -/
theorem Carving.split (carving : Carving keep m₀ first next family marks m) {half : Block}
    (lower : IsLowerSet family) (avoids : Avoids keep first next family)
    (top : half.parent ∈ tops family) (bases : half.parent.base = half.base) :
    Carving keep m₀ first next (family \ {half.parent}) marks
      (splitPages half.base half.buddy.base half.order m) := by
  have member : half.parent ∈ family := top.prop
  have inParent : half.base ∈ half.parent := half.le_parent _ half.base_mem
  have buddyInParent : half.buddy.base ∈ half.parent := half.buddy_le_parent _ half.buddy.base_mem
  have kept := (avoids _ member _ inParent).1
  have buddyKept := (avoids _ member _ buddyInParent).1
  have notTop : ∀ inner, inner < half.parent → inner ∉ tops family :=
    fun inner inside innerTop => inside.ne (eq_of_mem_tops_of_le innerTop member inside.le)
  have buddyBelow : half.buddy < half.parent := by
    rw [← half.parent_buddy]
    exact half.buddy.lt_parent
  have halves := tops_split lower top
  have buddyDifferent : half.base ≠ half.buddy.base := fun same =>
    half.apart_buddy _ half.base_mem (same ▸ half.buddy.base_mem)
  -- Pages other than the two first pages are not written.
  have unwritten : ∀ page, page ≠ half.base → page ≠ half.buddy.base →
      (splitPages half.base half.buddy.base half.order m).memMap page = m.memMap page := by
    intro page notHalf notBuddy
    simp [splitPages, notHalf, notBuddy]
  constructor
  · rw [halves]
    simp only [splitPages, Memory.pushFront_freeArea, Memory.setOrder_freeArea,
      Memory.removePage_freeArea, FreeLists.restrict_pushFront _ _ kept,
      FreeLists.restrict_pushFront _ _ buddyKept, FreeLists.restrict_remove]
    have split := carving.lists.split (notTop _ half.lt_parent) (notTop _ buddyBelow)
    rw [bases] at split
    exact split
  · intro block blockTop
    rw [halves] at blockTop
    rcases blockTop with ⟨old, different⟩ | equal | equal
    · have away := tops_apart old top different
      rw [unwritten]
      · exact carving.orders block old
      · exact fun same => away _ block.base_mem (same ▸ inParent)
      · exact fun same => away _ block.base_mem (same ▸ buddyInParent)
    · subst equal
      simp [splitPages, buddyDifferent]
    · rw [Set.mem_singleton_iff] at equal
      subst equal
      simp [splitPages]
  · exact carving.covered
  · exact carving.apart
  · intro block blockMember
    have notInParent := carving.mark_not_free avoids member blockMember
    rw [unwritten]
    · exact carving.marked block blockMember
    · exact fun same => notInParent (same ▸ inParent)
    · exact fun same => notInParent (same ▸ buddyInParent)
  · intro page notMark
    rw [← carving.unmarked page notMark]
    by_cases sameBuddy : page = half.buddy.base
    · subst sameBuddy
      simp [splitPages, buddyDifferent.symm]
    · by_cases same : page = half.base
      · subst same
        simp [splitPages, sameBuddy]
      · rw [unwritten page same sameBuddy]
  · intro page dropped
    rw [← carving.outside page dropped]
    apply unwritten
    · exact fun same => Bool.noConfusion (dropped.symm.trans (same ▸ kept))
    · exact fun same => Bool.noConfusion (dropped.symm.trans (same ▸ buddyKept))
  · have dropped : (!keep half.base) = false := by rw [kept]; rfl
    have buddyDropped : (!keep half.buddy.base) = false := by rw [buddyKept]; rfl
    simp only [splitPages, Memory.pushFront_freeArea, Memory.setOrder_freeArea,
      Memory.removePage_freeArea]
    rw [FreeLists.restrict_pushFront_of_not _ _ dropped,
      FreeLists.restrict_pushFront_of_not _ _ buddyDropped,
      FreeLists.restrict_remove_of_not _ _ dropped]
    exact carving.elsewhere

/-- Taking away the maximal block at `next`. -/
theorem Carving.take (carving : Carving keep m₀ first next family marks m) {block : Block}
    (avoids : Avoids keep first next family) (top : block ∈ tops family)
    (small : block.order ≤ maxOrder) (start : block.base = next) (above : first ≤ next) :
    Carving keep m₀ first (next + 2 ^ block.order) (family \ Set.Iic block) (insert block marks)
      (takePage block.base block.order m) := by
  have member : block ∈ family := top.prop
  have kept := (avoids _ member _ block.base_mem).1
  have unwritten : ∀ page, page ≠ block.base →
      (takePage block.base block.order m).memMap page = m.memMap page := by
    intro page different
    simp [takePage, different]
  have fresh : ∀ mark ∈ marks, mark.Apart block := by
    intro mark markMember frame inMark inBlock
    exact (avoids _ member _ inBlock).2 ((carving.covered frame).mp ⟨mark, markMember, inMark⟩)
  constructor
  · rw [tops_sdiff_Iic top]
    simp only [takePage, Memory.removePage_freeArea, Memory.setOrder_freeArea,
      Memory.setRefcount_freeArea, FreeLists.restrict_remove]
    exact carving.lists.remove block
  · intro other otherTop
    rw [tops_sdiff_Iic top] at otherTop
    have away := tops_apart otherTop.1 top otherTop.2
    rw [unwritten]
    · exact carving.orders other otherTop.1
    · exact fun same => away _ other.base_mem (same ▸ block.base_mem)
  · intro frame
    have range : frame ∈ block ↔ next ≤ frame ∧ frame < next + 2 ^ block.order := by
      rw [mem_iff_range, start]
    have old := carving.covered frame
    have positive : 0 < 2 ^ block.order := Nat.two_pow_pos _
    constructor
    · intro exists_mark
      obtain ⟨mark, markMember, inMark⟩ := exists_mark
      rcases markMember with equal | markMember
      · have bounds := range.mp (equal ▸ inMark)
        omega
      · have bounds := old.mp ⟨mark, markMember, inMark⟩
        omega
    · intro bounds
      by_cases reserved : frame < next
      · obtain ⟨mark, markMember, inMark⟩ := old.mpr ⟨bounds.1, reserved⟩
        exact ⟨mark, .inr markMember, inMark⟩
      · exact ⟨block, .inl rfl, range.mpr ⟨by omega, bounds.2⟩⟩
  · intro mark markMember other otherMember different
    rcases markMember with equal | markMember
    · rcases otherMember with otherEqual | otherMember
      · exact absurd (equal.trans otherEqual.symm) different
      · exact equal ▸ (fresh other otherMember).symm
    · rcases otherMember with otherEqual | otherMember
      · exact otherEqual ▸ fresh mark markMember
      · exact carving.apart mark markMember other otherMember different
  · intro mark markMember
    rcases markMember with equal | markMember
    · subst equal
      exact ⟨small, by simp [takePage]⟩
    · rw [unwritten]
      · exact carving.marked mark markMember
      · exact fun same => fresh mark markMember _ mark.base_mem (same ▸ block.base_mem)
  · intro page notMark
    have notBlock : page ≠ block.base := (notMark block (.inl rfl)).symm
    rw [unwritten page notBlock]
    exact carving.unmarked page fun mark markMember => notMark mark (.inr markMember)
  · intro page dropped
    rw [unwritten]
    · exact carving.outside page dropped
    · exact fun same => Bool.noConfusion (dropped.symm.trans (same ▸ kept))
  · have dropped : (!keep block.base) = false := by rw [kept]; rfl
    simp only [takePage, Memory.removePage_freeArea, Memory.setOrder_freeArea,
      Memory.setRefcount_freeArea]
    rw [FreeLists.restrict_remove_of_not _ _ dropped]
    exact carving.elsewhere

end Carving

/-! ## One round -/

/-- A reservation of the pages from `first` to `last`, of which the loop is followed up
to `bound`: up to there the regions of order `MAX_ORDER` that the pages meet consist of
frames of `frames`, which are available at the start. -/
structure Request (keep : Nat → Bool) (frames : Set Nat) (first last bound : Nat) : Prop where
  kept : ∀ frame ∈ frames, keep frame = true
  inRange : frames ⊆ allFrames
  whole : ∀ frame, first ≤ frame → frame < bound → (containing maxOrder frame).frames ⊆ frames
  limit : bound ≤ last + 1
  stop : bound = last + 1 ∨ 2 ^ maxOrder ∣ bound

/-- The blocks available at a round of the loop. -/
def available (frames : Set Nat) (first : Nat) (state : Reserving) : Set Block :=
  within maxOrder (frames \ Set.Ico first state.startPfn) \
    Set.Ioi (containing state.order state.startPfn)

/-- The invariant of the main loop. -/
structure LoopInv (keep : Nat → Bool) (m₀ : Memory) (frames : Set Nat) (first last bound : Nat)
    (state : Reserving) : Prop where
  lower : first ≤ state.startPfn
  upper : state.startPfn ≤ bound
  unfinished : state.startPfn ≤ last
  small : state.order ≤ maxOrder
  cursor : state.startPfn < bound → containing state.order state.startPfn ∈
    within maxOrder (frames \ Set.Ico first state.startPfn)
  reached : state.startPfn = bound → state.order = maxOrder
  carving : ∃ marks, Carving keep m₀ first state.startPfn (available frames first state) marks
    state.memory

/-- Pages left below the bound, and splits left for the current one. -/
def reserveMeasure (bound : Nat) (state : Reserving) : Nat :=
  (bound - state.startPfn) * (maxOrder + 1) + state.order

section Round

variable {keep : Nat → Bool} {m₀ : Memory} {frames : Set Nat} {first last bound : Nat}
variable {state : Reserving}

theorem headPfn_eq (state : Reserving) :
    headPfn state = (containing state.order state.startPfn).base := by
  rw [headPfn, Nat.one_shiftLeft, base_containing]

theorem available_avoids (request : Request keep frames first last bound) :
    Avoids keep first state.startPfn (available frames first state) := by
  intro block member frame inBlock
  have owned := member.1.2 frame inBlock
  exact ⟨request.kept frame owned.1, owned.2⟩

theorem available_lower : IsLowerSet (available frames first state) :=
  sdiff_Ioi_lower (within_lower _ _) _

/-- No block reaches around one of order `MAX_ORDER`. -/
theorem available_of_maxOrder (frames : Set Nat) (page : Nat) :
    within maxOrder frames \ Set.Ioi (containing maxOrder page) = within maxOrder frames := by
  apply sdiff_eq_left.mpr
  apply Set.disjoint_left.mpr
  intro block member around
  have larger := order_lt_of_lt (Set.mem_Ioi.mp around)
  exact Nat.not_lt.mpr member.1 larger

/-- The cursor's block is listed. -/
theorem LoopInv.head_listed (inv : LoopInv keep m₀ frames first last bound state)
    (below : state.startPfn < bound) : headPfn state ∈ state.memory.freeArea state.order := by
  obtain ⟨marks, carving⟩ := inv.carving
  have top := mem_tops_sdiff_Ioi (inv.cursor below)
  have listed := (carving.lists.mem_iff _ inv.small).mpr top
  rw [← headPfn_eq] at listed
  exact ((FreeLists.mem_restrict _).mp listed).1

/-- A partial overlap: the cursor moves to the half that holds `start_pfn`. -/
theorem LoopInv.split (request : Request keep frames first last bound)
    (inv : LoopInv keep m₀ frames first last bound state) (below : state.startPfn < bound)
    {order : Nat} (orderEq : state.order = order + 1) :
    ∃ next, splitBlock state = .ok next ∧ next.startPfn = state.startPfn ∧
      LoopInv keep m₀ frames first last bound next ∧
      reserveMeasure bound next < reserveMeasure bound state := by
  obtain ⟨marks, carving⟩ := inv.carving
  have cursorMember := inv.cursor below
  have small := inv.small
  -- `half` is the lower half, the cursor's half is `half` or its buddy.
  let half := containing order (headPfn state)
  let cursorHalf := containing order state.startPfn
  have cursorParent : cursorHalf.parent = containing state.order state.startPfn := by
    rw [parent_containing, orderEq]
  have aligned : 2 ^ order ∣ headPfn state := by
    rw [headPfn_eq]
    exact (Nat.pow_dvd_pow 2 (by rw [containing_order]; omega)).trans (Block.aligned _)
  have halfBase : half.base = headPfn state := base_containing_of_dvd aligned
  have halfParent : half.parent = containing state.order state.startPfn := by
    have around := containing_eq_of_mem (base_mem (containing state.order state.startPfn))
    rw [parent_containing, ← orderEq, headPfn_eq]
    exact around
  have top : half.parent ∈ tops (available frames first state) :=
    halfParent ▸ mem_tops_sdiff_Ioi cursorMember
  have inRange : headPfn state < numPages := by
    apply request.inRange
    rw [headPfn_eq]
    exact (cursorMember.2 _ (base_mem _)).1
  have buddyIndex : getBuddy (headPfn state) order = .ok half.buddy.base := by
    have index : getBuddy half.base half.order = .ok half.buddy.base :=
      getBuddy_base (by change order < maxOrder; omega) (halfBase ▸ inRange)
    rwa [halfBase] at index
  have runs : splitBlock state =
      .ok ⟨splitPages half.base half.buddy.base order state.memory, state.startPfn, order⟩ := by
    obtain ⟨memory, start, stateOrder⟩ := state
    subst orderEq
    simp only [splitBlock, buddyIndex, halfBase, splitPages]
  refine ⟨_, runs, rfl, ?_, ?_⟩
  · constructor
    · exact inv.lower
    · exact inv.upper
    · exact inv.unfinished
    · change order ≤ maxOrder
      omega
    · intro _
      apply within_lower _ _ _ cursorMember
      rw [← cursorParent]
      exact cursorHalf.le_parent
    · exact fun reached => absurd reached (ne_of_lt below)
    · refine ⟨marks, ?_⟩
      have split := carving.split available_lower (available_avoids request) top
        (halfParent ▸ (headPfn_eq state).symm.trans halfBase.symm)
      have family : available frames first state \ {half.parent} = available frames first
          ⟨splitPages half.base half.buddy.base order state.memory, state.startPfn, order⟩ := by
        rw [halfParent, available, ← cursorParent]
        exact sdiff_Ioi_parent _ cursorHalf
      rw [family] at split
      exact split
  · change (bound - state.startPfn) * (maxOrder + 1) + order <
      (bound - state.startPfn) * (maxOrder + 1) + state.order
    omega

/-- The order found after a full overlap: the lowest bit of the page number within its
region. -/
theorem newOrder_spec (page : Nat) :
    ∃ order ≤ maxOrder, 2 ^ order ∣ page ∧ (order = maxOrder ∨ ¬ 2 ^ (order + 1) ∣ page) ∧
      (page % (1 <<< maxOrder) = 0 → order = maxOrder) ∧
      (page % (1 <<< maxOrder) ≠ 0 →
        findOrder (page % (1 <<< maxOrder)) (maxOrder - 1) 0 = some order) := by
  have shift : 1 <<< maxOrder = 2 ^ maxOrder := Nat.one_shiftLeft _
  rw [shift]
  by_cases whole : page % 2 ^ maxOrder = 0
  · exact ⟨maxOrder, le_rfl, Nat.dvd_of_mod_eq_zero whole, .inl rfl, fun _ => rfl,
      fun different => absurd whole different⟩
  · have positive : 0 < 2 ^ maxOrder := Nat.two_pow_pos _
    obtain ⟨order, small, found, divides, notDivides⟩ :=
      findOrder_spec (page % 2 ^ maxOrder) (maxOrder - 1) 0 (dvd_zero _) (by omega)
        (by rw [Nat.zero_add]; exact Nat.mod_lt _ positive)
    have room : order + 1 ≤ maxOrder := by
      simp only [maxOrder] at small ⊢
      omega
    have transfer : ∀ other ≤ maxOrder, (2 ^ other ∣ page % 2 ^ maxOrder ↔ 2 ^ other ∣ page) :=
      fun other le => Nat.dvd_mod_iff (Nat.pow_dvd_pow 2 le)
    refine ⟨order, by omega, (transfer order (by omega)).mp divides, .inr ?_,
      fun zero => absurd zero whole, fun _ => found⟩
    exact fun divides' => notDivides ((transfer (order + 1) room).mpr divides')

/-- A block around the block at `page` of the order of its lowest bit contains the page
before. -/
theorem pred_mem_of_lt {page order : Nat} {block : Block} (positive : 0 < page)
    (lowest : ¬ 2 ^ (order + 1) ∣ page) (around : containing order page < block) :
    page - 1 ∈ block := by
  apply parent_le_of_lt around
  rw [parent_containing]
  change (page - 1) / 2 ^ (order + 1) = page / 2 ^ (order + 1)
  obtain ⟨pred, rfl⟩ := Nat.exists_eq_add_of_lt positive
  rw [Nat.zero_add] at lowest ⊢
  exact (Nat.succ_div_of_not_dvd lowest).symm

/-- The result of a full overlap that does not finish the request. -/
theorem takeBlock_eq {after order : Nat}
    (afterEq : (headPfn state + 1 <<< state.order) % 2 ^ 32 = after)
    (wholeCase : after % (1 <<< maxOrder) = 0 → order = maxOrder)
    (partCase : after % (1 <<< maxOrder) ≠ 0 →
      findOrder (after % (1 <<< maxOrder)) (maxOrder - 1) 0 = some order) :
    takeBlock last state = .ok ⟨takePage (headPfn state) state.order state.memory, after,
      if after > last then state.order else order⟩ := by
  rw [takeBlock, afterEq]
  by_cases finished : after > last
  · rw [if_pos finished, if_pos finished]
    rfl
  · rw [if_neg finished, if_neg finished]
    by_cases whole : after % (1 <<< maxOrder) = 0
    · simp only [whole, ne_eq, not_true_eq_false, if_false, wholeCase whole]
      rfl
    · simp only [ne_eq, whole, not_false_eq_true, if_true, partCase whole]
      rfl

/-- A block that starts inside the bound does not reach over it. -/
theorem Request.end_le_bound (request : Request keep frames first last bound) {block : Block}
    (small : block.order ≤ maxOrder) (below : block.base < bound)
    (fits : block.base + 2 ^ block.order ≤ last + 1) : block.base + 2 ^ block.order ≤ bound := by
  rcases request.stop with equal | multiple
  · exact equal ▸ fits
  · obtain ⟨index, boundEq⟩ := (Nat.pow_dvd_pow 2 small).trans multiple
    rw [boundEq, Nat.mul_comm] at below ⊢
    have smaller : block.index < index := Nat.lt_of_mul_lt_mul_right below
    have step := Nat.mul_le_mul_right (2 ^ block.order) smaller
    rwa [Nat.succ_mul] at step

/-- No block around the one of the lowest bit of a page avoids the page before. -/
theorem not_around {page order : Nat} {block : Block} (above : first < page)
    (lowest : order = maxOrder ∨ ¬ 2 ^ (order + 1) ∣ page)
    (member : block ∈ within maxOrder (frames \ Set.Ico first page)) :
    ¬ containing order page < block := by
  intro around
  rcases lowest with full | lowest
  · have larger := order_lt_of_lt around
    have bounded := member.1
    rw [containing_order] at larger
    omega
  · have before := pred_mem_of_lt (by omega) lowest around
    exact (member.2 _ before).2 (Set.mem_Ico.mpr ⟨by omega, by omega⟩)

/-- The invariant at the page behind a reserved block, with the order found for it. -/
theorem Request.next_inv (request : Request keep frames first last bound) {m : Memory}
    {after order : Nat} {marks : Set Block} (above : first < after) (afterBound : after ≤ bound)
    (unfinished : after ≤ last) (small : order ≤ maxOrder) (divides : 2 ^ order ∣ after)
    (lowest : order = maxOrder ∨ ¬ 2 ^ (order + 1) ∣ after)
    (wholeCase : after % (1 <<< maxOrder) = 0 → order = maxOrder)
    (carving : Carving keep m₀ first after (within maxOrder (frames \ Set.Ico first after))
      marks m) :
    LoopInv keep m₀ frames first last bound ⟨m, after, order⟩ := by
  have base : (containing order after).base = after := base_containing_of_dvd divides
  constructor
  · exact above.le
  · exact afterBound
  · exact unfinished
  · exact small
  · intro afterBelow
    refine ⟨small, fun frame member => ⟨?_, fun reserved => ?_⟩⟩
    · apply request.whole after (by omega) afterBelow
      exact containing_mono small after frame member
    · have bounds := (mem_iff_range.mp member).1
      rw [base] at bounds
      exact absurd reserved.2 (Nat.not_lt.mpr bounds)
  · intro equal
    have reached : after = bound := equal
    apply wholeCase
    rcases request.stop with stop | multiple
    · omega
    · rw [Nat.one_shiftLeft, reached]
      exact Nat.mod_eq_zero_of_dvd multiple
  · refine ⟨marks, ?_⟩
    have same : available frames first ⟨m, after, order⟩ =
        within maxOrder (frames \ Set.Ico first after) := by
      rw [available]
      apply sdiff_eq_left.mpr
      apply Set.disjoint_left.mpr
      exact fun block member around => not_around above lowest member (Set.mem_Ioi.mp around)
    rw [same]
    exact carving

/-- A full overlap: the cursor's block is reserved, and the loop either is done or goes
on at the next page with the cursor's block again maximal. -/
theorem LoopInv.take (request : Request keep frames first last bound)
    (inv : LoopInv keep m₀ frames first last bound state) (below : state.startPfn < bound)
    (aligned : headPfn state = state.startPfn)
    (fits : state.startPfn + 2 ^ state.order ≤ last + 1) :
    ∃ next, takeBlock last state = .ok next ∧
      ((next.startPfn = last + 1 ∧ bound = last + 1 ∧ ∃ marks, Carving keep m₀ first bound
          (within maxOrder (frames \ Set.Ico first bound)) marks next.memory) ∨
        (LoopInv keep m₀ frames first last bound next ∧
          reserveMeasure bound next < reserveMeasure bound state)) := by
  obtain ⟨marks, carving⟩ := inv.carving
  have cursorMember := inv.cursor below
  have lower := inv.lower
  have positive : 0 < 2 ^ state.order := Nat.two_pow_pos _
  -- `after` is the page after the block, which cannot pass the bound.
  obtain ⟨after, afterDef⟩ : ∃ after, after = state.startPfn + 2 ^ state.order := ⟨_, rfl⟩
  have start : (containing state.order state.startPfn).base = state.startPfn :=
    (headPfn_eq state).symm.trans aligned
  have range : ∀ frame, frame ∈ containing state.order state.startPfn ↔
      state.startPfn ≤ frame ∧ frame < after := by
    intro frame
    rw [mem_iff_range, start, containing_order, afterDef]
  have afterBound : after ≤ bound := by
    have limit := request.end_le_bound inv.small (start.symm ▸ below) (start.symm ▸ fits)
    rwa [start, containing_order, ← afterDef] at limit
  have afterSmall : after ≤ numPages := by
    have lastMember := (range (after - 1)).mpr ⟨by omega, by omega⟩
    have inRange : after - 1 < numPages := request.inRange (cursorMember.2 _ lastMember).1
    omega
  have afterEq : (headPfn state + 1 <<< state.order) % 2 ^ 32 = after := by
    rw [aligned, Nat.one_shiftLeft, ← afterDef]
    apply Nat.mod_eq_of_lt
    have pages : numPages < 2 ^ 32 := by decide
    omega
  obtain ⟨order, small, divides, lowest, wholeCase, partCase⟩ := newOrder_spec after
  have taken := carving.take (available_avoids request) (mem_tops_sdiff_Ioi cursorMember)
    inv.small start lower
  have family : available frames first state \ Set.Iic (containing state.order state.startPfn) =
      within maxOrder (frames \ Set.Ico first after) := by
    rw [available, within_sdiff_eq, sdiff_sdiff_left]
    congr 2
    ext frame
    simp only [Set.sup_eq_union, Set.mem_union, Set.mem_Ico, mem_frames, range]
    omega
  rw [family, containing_order, ← afterDef, ← headPfn_eq] at taken
  refine ⟨_, takeBlock_eq afterEq wholeCase partCase, ?_⟩
  by_cases finished : after > last
  · left
    have limit := request.limit
    have equal : after = bound := by omega
    rw [equal] at taken
    exact ⟨by change after = last + 1; omega, by omega, insert _ marks, taken⟩
  · right
    rw [if_neg finished]
    constructor
    · exact request.next_inv (by omega) afterBound (Nat.le_of_not_gt finished) small divides lowest
        wholeCase taken
    · change (bound - after) * (maxOrder + 1) + order <
        (bound - state.startPfn) * (maxOrder + 1) + state.order
      have fewer : (bound - after + 1) * (maxOrder + 1) ≤
          (bound - state.startPfn) * (maxOrder + 1) :=
        Nat.mul_le_mul_right _ (by omega)
      rw [Nat.succ_mul] at fewer
      omega

/-- One round: either the request is finished, or the invariant is kept and the measure
decreases. -/
theorem LoopInv.round (request : Request keep frames first last bound)
    (inv : LoopInv keep m₀ frames first last bound state) (below : state.startPfn < bound) :
    (∃ m, reserveRound last state = .stop (.returned m) ∧ bound = last + 1 ∧
      ∃ marks, Carving keep m₀ first bound
        (within maxOrder (frames \ Set.Ico first bound)) marks m) ∨
    ∃ next, reserveRound last state = .next next ∧
      LoopInv keep m₀ frames first last bound next ∧
      reserveMeasure bound next < reserveMeasure bound state := by
  have listed := inv.head_listed below
  have unfinished := inv.unfinished
  have positive : 0 < 2 ^ state.order := Nat.two_pow_pos _
  have headLe : headPfn state ≤ state.startPfn := Nat.sub_le _ _
  have lastEq : lastPfn state = headPfn state + 2 ^ state.order - 1 := by
    rw [lastPfn, Nat.one_shiftLeft]
    apply Nat.mod_eq_of_lt
    have lastMember : headPfn state + 2 ^ state.order - 1 ∈
        containing state.order state.startPfn := by
      rw [mem_iff_range, containing_order, ← headPfn_eq]
      omega
    have inRange : _ < numPages := request.inRange ((inv.cursor below).2 _ lastMember).1
    have pages : numPages < 2 ^ 32 := by decide
    omega
  by_cases full : headPfn state = state.startPfn ∧ last ≥ lastPfn state
  · have fits : state.startPfn + 2 ^ state.order ≤ last + 1 := by omega
    obtain ⟨next, runs, result⟩ := inv.take request below full.1 fits
    have searched : searchList last state = .ok (next, true) := by
      rw [searchList, if_pos listed, if_pos full, runs]
    rcases result with ⟨finished, stop, carved⟩ | ⟨nextInv, smaller⟩
    · left
      refine ⟨next.memory, ?_, stop, carved⟩
      simp only [reserveRound, searched]
      rw [if_pos (by omega)]
    · right
      refine ⟨next, ?_, nextInv, smaller⟩
      have nextUnfinished := nextInv.unfinished
      simp only [reserveRound, searched]
      rw [if_neg (by omega), if_true]
  · -- The block overlaps partially, so it has more than one page.
    have partly : headPfn state < state.startPfn ∨ last < lastPfn state := by omega
    cases orderEq : state.order with
    | zero =>
        have single : headPfn state = state.startPfn := by
          rw [headPfn, orderEq, Nat.one_shiftLeft, pow_zero, Nat.mod_one, Nat.sub_zero]
        rw [orderEq, pow_zero] at lastEq
        omega
    | succ order =>
        obtain ⟨next, runs, same, nextInv, smaller⟩ := inv.split request below orderEq
        right
        refine ⟨next, ?_, nextInv, smaller⟩
        have searched : searchList last state = .ok (next, true) := by
          rw [searchList, if_pos listed, if_neg full, if_pos partly, runs]
        simp only [reserveRound, searched]
        rw [if_neg (by omega), if_true]

end Round

/-! ## The whole loop -/

section Loop

variable {keep : Nat → Bool} {m₀ : Memory} {frames : Set Nat} {first last bound : Nat}

/-- The invariant holds when the loop is entered. -/
theorem LoopInv.start (request : Request keep frames first last bound)
    (lists : Represents maxOrder (m₀.freeArea.restrict keep) (tops (within maxOrder frames)))
    (orders : ∀ block ∈ tops (within maxOrder frames), (m₀.memMap block.base).order = block.order)
    (nonempty : first ≤ last) (reaches : first ≤ bound) :
    LoopInv keep m₀ frames first last bound ⟨m₀, first, maxOrder⟩ := by
  have family : available frames first ⟨m₀, first, maxOrder⟩ = within maxOrder frames := by
    rw [available, Set.Ico_self, Set.sdiff_empty]
    exact available_of_maxOrder frames first
  constructor
  · exact le_rfl
  · exact reaches
  · exact nonempty
  · exact le_rfl
  · intro below
    rw [Set.Ico_self, Set.sdiff_empty]
    exact ⟨le_rfl, request.whole first le_rfl below⟩
  · exact fun _ => rfl
  · refine ⟨∅, ?_⟩
    rw [family]
    constructor
    · exact lists
    · exact orders
    · intro frame
      constructor
      · intro exists_mark
        obtain ⟨_, member, _⟩ := exists_mark
        exact absurd member (Set.notMem_empty _)
      · intro bounds
        exact absurd bounds.2 (Nat.not_lt.mpr bounds.1)
    · exact fun _ member => absurd member (Set.notMem_empty _)
    · exact fun _ member => absurd member (Set.notMem_empty _)
    · exact fun _ _ => rfl
    · exact fun _ _ => rfl
    · rfl

/-- If the whole range is available, the loop returns with exactly that range carved
out. -/
theorem reserve_complete {state : Reserving}
    (request : Request keep frames first last (last + 1))
    (inv : LoopInv keep m₀ frames first last (last + 1) state) :
    ∃ m, Ends (reserveRound last) state (.returned m) ∧
      ∃ marks, Carving keep m₀ first (last + 1)
        (within maxOrder (frames \ Set.Ico first (last + 1))) marks m := by
  obtain ⟨outcome, ends, m, isReturned, carved⟩ :=
    ends_of_invariant
      (fun outcome => ∃ m, outcome = Outcome.returned m ∧ ∃ marks,
        Carving keep m₀ first (last + 1)
          (within maxOrder (frames \ Set.Ico first (last + 1))) marks m)
      (reserveMeasure (last + 1)) (fun state inv => by
        have below : state.startPfn < last + 1 := Nat.lt_succ_of_le inv.unfinished
        rcases inv.round request below with ⟨m, stops, _, carved⟩ | goes
        · exact .inl ⟨_, stops, m, rfl, carved⟩
        · exact .inr goes) inv
  exact ⟨m, isReturned ▸ ends, carved⟩

/-- The block around a page of no listed block is on no list. -/
theorem head_not_listed {lists : FreeLists} {family : Set Block} (state : Reserving)
    (rep : Represents maxOrder lists (tops family)) (small : state.order ≤ maxOrder) {page : Nat}
    (absent : ∀ block ∈ family, page ∉ block)
    (inCursor : page ∈ containing state.order state.startPfn) :
    headPfn state ∉ lists state.order := by
  intro listed
  obtain ⟨top, _⟩ := rep.containing_mem small listed
  apply absent _ top.prop
  rw [headPfn_eq]
  have around := containing_eq_of_mem (base_mem (containing state.order state.startPfn))
  rw [containing_order] at around
  rwa [around]

theorem reserveRound_notFound {state : Reserving} (unfinished : state.startPfn ≤ last)
    (absent : headPfn state ∉ state.memory.freeArea state.order) :
    reserveRound last state = .stop (.notFound state.memory) := by
  rw [reserveRound, searchList, if_neg absent]
  simp only [Bool.false_eq_true, if_false]
  rw [if_neg (Nat.not_lt.mpr unfinished)]

/-- If the range is available up to a region with a page that is not, the loop ends there at
`Not found`, with exactly the pages before the region carved out. -/
theorem reserve_stuck {state : Reserving}
    (request : Request (fun _ => true) frames first last bound)
    (inv : LoopInv (fun _ => true) m₀ frames first last bound state) (inRange : bound ≤ last)
    {page : Nat} (absent : page ∉ frames) (same : page ∈ containing maxOrder bound) :
    ∃ m, Ends (reserveRound last) state (.notFound m) ∧
      ∃ marks, Carving (fun _ => true) m₀ first bound
        (within maxOrder (frames \ Set.Ico first bound)) marks m := by
  obtain ⟨outcome, ends, m, isNotFound, carved⟩ :=
    ends_of_invariant
      (fun outcome => ∃ m, outcome = Outcome.notFound m ∧ ∃ marks,
        Carving (fun _ => true) m₀ first bound
          (within maxOrder (frames \ Set.Ico first bound)) marks m)
      (reserveMeasure bound) (fun state inv => by
        by_cases below : state.startPfn < bound
        · rcases inv.round request below with ⟨_, _, finished, _⟩ | goes
          · omega
          · exact .inr goes
        · -- The cursor has reached the region.
          have reached : state.startPfn = bound := Nat.le_antisymm inv.upper (Nat.not_lt.mp below)
          have order := inv.reached reached
          obtain ⟨marks, carving⟩ := inv.carving
          have lists := carving.lists
          rw [FreeLists.restrict_true] at lists
          have notListed := head_not_listed state lists inv.small
            (fun block inFamily inBlock => absent (inFamily.1.2 page inBlock).1)
            (by rwa [order, reached])
          have family : available frames first state =
              within maxOrder (frames \ Set.Ico first bound) := by
            rw [available, reached, order]
            exact available_of_maxOrder _ bound
          rw [family, reached] at carving
          exact .inl ⟨_, reserveRound_notFound inv.unfinished notListed, _, rfl, marks, carving⟩)
      inv
  exact ⟨m, isNotFound ▸ ends, carved⟩

end Loop

end OscKernel.Frames
