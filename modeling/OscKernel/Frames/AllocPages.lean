import OscKernel.Frames.Buddy

/-!
# What `alloc_pages` does to the free blocks

The split loop pops a block and pushes its halves, once per level, until the block of
the requested order is at the front of its list.  In terms of the family of available
blocks each round gives up one block, the parent of the next cursor.  The order field
of the cursor's page is stale in between and is written at the end.
-/

namespace OscKernel.Frames

open Blocks Block

/-- The state of the split loop with the cursor's block at the front of its list: the
lists hold the maximal blocks of `family`, and all pages but the cursor's say so. -/
structure Splitting (family : Set Block) (cursor : Block) (m : Memory) : Prop where
  lower : IsLowerSet family
  top : cursor ∈ tops family
  front : ∃ rest, m.freeArea cursor.order = cursor.base :: rest
  lists : Represents maxOrder m.freeArea (tops family)
  heads : ∀ block ∈ tops family, block ≠ cursor → m.memMap block.base = ⟨block.order, 0⟩

/-- What a call may do to the pages: outside `block` nothing changes, and a reference
count that is 0 stays 0 except on the pages of `marked`. -/
structure Touches (block : Block) (marked : Set Nat) (m m' : Memory) : Prop where
  outside : ∀ page, page ∉ block → m'.memMap page = m.memMap page
  idle : ∀ page, page ∉ marked → (m.memMap page).refcount = 0 → (m'.memMap page).refcount = 0

/-- The body of the split loop. -/
def splitRound (tmpPages buddyPage level : Nat) (m : Memory) : Memory :=
  ((((m.popFront (level + 1)).setOrder buddyPage level).setRefcount buddyPage 0).pushFront
    buddyPage level).pushFront tmpPages level

/-- One round of the split loop, on the halves of the cursor. -/
theorem Splitting.round {family : Set Block} {half : Block} {m : Memory}
    (state : Splitting family half.parent m) (small : half.order < maxOrder) :
    Splitting (family \ {half.parent}) half
      (splitRound half.base half.buddy.base half.order m) := by
  have notTop : ∀ inner, inner < half.parent → inner ∉ tops family :=
    fun inner inside top => inside.ne (eq_of_mem_tops_of_le top state.top.prop inside.le)
  have buddyBelow : half.buddy < half.parent := by
    rw [← half.parent_buddy]
    exact half.buddy.lt_parent
  have popped : m.freeArea.popFront (half.order + 1) =
      m.freeArea.remove half.parent.order half.parent.base := by
    obtain ⟨rest, front⟩ := state.front
    exact FreeLists.popFront_eq_remove _ _ front (state.lists.nodup _ small)
  have family' := tops_split state.lower state.top
  constructor
  · intro outer inner inside member
    refine ⟨state.lower inside member.1, fun equal => ?_⟩
    rw [Set.mem_singleton_iff] at equal
    subst equal
    exact member.2 (eq_of_mem_tops_of_le state.top member.1 inside).symm
  · rw [family']
    exact .inr (.inl rfl)
  · simp [splitRound]
  · rw [family', splitRound]
    simp only [Memory.pushFront_freeArea, Memory.setRefcount_freeArea, Memory.setOrder_freeArea,
      Memory.popFront_freeArea, popped]
    exact state.lists.split (notTop _ half.lt_parent) (notTop _ buddyBelow)
  · intro block top different
    rw [family'] at top
    simp only [splitRound, Memory.pushFront_memMap]
    rcases top with ⟨top, notParent⟩ | equal | equal
    · have away : block.base ≠ half.buddy.base := fun same =>
        tops_apart top state.top notParent _ block.base_mem
          (same ▸ half.buddy_le_parent _ half.buddy.base_mem)
      rw [Memory.setRefcount_other _ _ away, Memory.setOrder_other _ _ away]
      exact state.heads block top notParent
    · exact absurd equal different
    · rw [Set.mem_singleton_iff] at equal
      subst equal
      simp

/-- Above the requested order the split loop does one round on the block at the front. -/
theorem splitLoop_split {order : Nat} {half : Block} {m : Memory} {rest : List Nat}
    (requested : order ≤ half.order) (small : half.order < maxOrder)
    (inRange : half.base < numPages) (front : m.freeArea (half.order + 1) = half.base :: rest) :
    splitLoop order (half.order + 1) m =
      splitLoop order half.order (splitRound half.base half.buddy.base half.order m) := by
  rw [splitLoop, if_pos (by omega), front]
  simp only [getBuddy_base small inRange, splitRound]

/-- At the requested order the split loop ends. -/
theorem splitLoop_done (order : Nat) (m : Memory) : splitLoop order order m = .ok m := by
  cases order with
  | zero => rfl
  | succ level => rw [splitLoop, if_neg (Nat.lt_irrefl _)]

theorem splitRound_touches {half : Block} (m : Memory) (outer : Block)
    (inside : half.buddy ≤ outer) :
    Touches outer ∅ m (splitRound half.base half.buddy.base half.order m) := by
  have buddyInside : half.buddy.base ∈ outer := inside _ half.buddy.base_mem
  constructor
  · intro page away
    have different : page ≠ half.buddy.base := fun equal => away (equal ▸ buddyInside)
    simp [splitRound, different]
  · intro page _ idle
    by_cases same : page = half.buddy.base
    · subst same
      simp [splitRound]
    · simpa [splitRound, same] using idle

theorem Touches.trans {outer : Block} {m m' m'' : Memory}
    {marked marked' : Set Nat} (first : Touches outer marked m m')
    (second : Touches outer marked' m' m'') : Touches outer (marked ∪ marked') m m'' where
  outside page away := (second.outside page away).trans (first.outside page away)
  idle page unmarked idle :=
    second.idle page (fun member => unmarked (.inr member))
      (first.idle page (fun member => unmarked (.inl member)) idle)

theorem Touches.mono {inner outer : Block} {marked marked' : Set Nat} {m m' : Memory}
    (touches : Touches inner marked m m') (inside : inner ≤ outer) (subset : marked ⊆ marked') :
    Touches outer marked' m m' where
  outside page away := touches.outside page fun member => away (inside page member)
  idle page unmarked idle := touches.idle page (fun member => unmarked (subset member)) idle

/-- The whole split loop: the block of the requested order at the cursor's first page
ends up at the front of its list, and the blocks around it are given up. -/
theorem splitLoop_spec {family : Set Block} {order : Nat} {cursor : Block} {m : Memory}
    (state : Splitting family cursor m) (small : cursor.order ≤ maxOrder)
    (inRange : cursor.base < numPages) (requested : order ≤ cursor.order) :
    ∃ m', splitLoop order cursor.order m = .ok m' ∧
      (containing order cursor.base).base = cursor.base ∧
      Splitting (family \ Set.Ioi (containing order cursor.base))
        (containing order cursor.base) m' ∧
      Touches cursor ∅ m m' := by
  have start : (containing order cursor.base).base = cursor.base :=
    base_containing_of_dvd ((Nat.pow_dvd_pow 2 requested).trans cursor.aligned)
  -- Induction on the level of the cursor.
  induction levelEq : cursor.order generalizing family cursor m with
  | zero =>
      have same : containing order cursor.base = cursor := by
        have zero : order = cursor.order := by omega
        rw [zero, containing_eq_of_mem cursor.base_mem]
      rw [same, sdiff_Ioi_of_top state.top]
      exact ⟨m, rfl, rfl, state, fun _ _ => rfl, fun _ _ idle => idle⟩
  | succ level ih =>
      by_cases reached : order = level + 1
      · have same : containing order cursor.base = cursor := by
          rw [reached, ← levelEq, containing_eq_of_mem cursor.base_mem]
        rw [same, sdiff_Ioi_of_top state.top]
        refine ⟨m, ?_, rfl, state, fun _ _ => rfl, fun _ _ idle => idle⟩
        rw [reached]
        exact splitLoop_done (level + 1) m
      · -- The cursor is the parent of the half that starts where it starts.
        let half := containing level cursor.base
        have halfParent : half.parent = cursor := by
          rw [parent_containing, ← levelEq, containing_eq_of_mem cursor.base_mem]
        have halfBase : half.base = cursor.base :=
          base_containing_of_dvd ((Nat.pow_dvd_pow 2 (by omega)).trans cursor.aligned)
        have halfSmall : half.order < maxOrder := by
          change level < maxOrder
          omega
        have runs : splitLoop order (level + 1) m =
            splitLoop order level (splitRound half.base half.buddy.base level m) := by
          obtain ⟨rest, front⟩ := state.front
          rw [levelEq, ← halfBase] at front
          exact splitLoop_split (by change order ≤ level; omega) halfSmall (halfBase ▸ inRange)
            front
        have touched := splitRound_touches m cursor (halfParent ▸ half.buddy_le_parent)
        rw [← halfParent] at state
        have next := state.round halfSmall
        obtain ⟨m', runs', _, final, touched'⟩ := ih next (le_of_lt halfSmall)
          (halfBase ▸ inRange) (by change order ≤ level; omega) (halfBase.symm ▸ start) rfl
        rw [halfBase] at final
        have given : (family \ {half.parent}) \ Set.Ioi (containing order cursor.base) =
            family \ Set.Ioi (containing order cursor.base) := by
          have around : half.parent ∈ Set.Ioi (containing order cursor.base) := by
            rw [halfParent, Set.mem_Ioi]
            apply lt_of_le_of_ne
            · exact le_of_mem_of_order_le (mem_containing _ _) cursor.base_mem requested
            · intro equal
              have orders : order = cursor.order := congrArg Block.order equal
              omega
          rw [sdiff_sdiff_left, sup_eq_right.mpr (Set.singleton_subset_iff.mpr around)]
        refine ⟨m', runs.trans runs', start, given ▸ final, ?_⟩
        have whole := touched.trans (touched'.mono (halfParent ▸ half.le_parent) subset_rfl)
        rwa [Set.union_empty] at whole

/-! ## The whole call -/

/-- Outcome of a successful allocation of `block` from the frames `frames`. -/
structure Allocated (frames : Set Nat) (block : Block) (m m' : Memory) : Prop where
  available : block ∈ within maxOrder frames
  owns : Owns m' (frames \ block.frames)
  head : m'.memMap block.base = ⟨block.order, 1⟩
  outside : ∀ page, page ∉ frames → m'.memMap page = m.memMap page
  idle : ∀ page, page ≠ block.base →
    (m.memMap page).refcount = 0 → (m'.memMap page).refcount = 0

/-- The statements of `alloc_pages` after the split loop. -/
def takeFront (page order : Nat) (m : Memory) : Memory :=
  ((m.setOrder page order).setRefcount page 1).popFront order

theorem takeFront_owns {frames : Set Nat} {block : Block} {m : Memory}
    (state : Splitting (within maxOrder frames \ Set.Ioi block) block m)
    (small : block.order ≤ maxOrder) :
    Owns (takeFront block.base block.order m) (frames \ block.frames) := by
  obtain ⟨rest, front⟩ := state.front
  have popped := FreeLists.popFront_eq_remove _ _ front (state.lists.nodup _ small)
  have left : tops (within maxOrder (frames \ block.frames)) =
      tops (within maxOrder frames \ Set.Ioi block) \ {block} := by
    rw [← within_sdiff_eq, tops_sdiff_Iic state.top]
  constructor
  · rw [left]
    simp only [takeFront, Memory.popFront_freeArea, Memory.setRefcount_freeArea,
      Memory.setOrder_freeArea, popped]
    exact state.lists.remove block
  · intro other top
    rw [left] at top
    have different : other.base ≠ block.base := fun same =>
      tops_apart top.1 state.top top.2 _ other.base_mem (same ▸ block.base_mem)
    simp only [takeFront, Memory.popFront_memMap]
    rw [Memory.setRefcount_other _ _ different, Memory.setOrder_other _ _ different]
    exact state.heads other top.1 top.2

/-- From a listed block of order `i` the rest of the call allocates the block of the
requested order at its first page. -/
theorem alloc_from_front {frames : Set Nat} (order : Nat) {cursor : Block} {m : Memory}
    {rest : List Nat} (owns : Owns m frames) (bounded : frames ⊆ allFrames)
    (small : cursor.order ≤ maxOrder) (requested : order ≤ cursor.order)
    (front : m.freeArea cursor.order = cursor.base :: rest) :
    ∃ m', splitLoop order cursor.order m = .ok m' ∧
      (∃ rest', m'.freeArea order = cursor.base :: rest') ∧
      (containing order cursor.base).base = cursor.base ∧
      Allocated frames (containing order cursor.base) m (takeFront cursor.base order m') := by
  have top : cursor ∈ tops (within maxOrder frames) :=
    (owns.lists.mem_iff cursor small).mp (front ▸ List.mem_cons_self)
  have state : Splitting (within maxOrder frames) cursor m :=
    { lower := within_lower _ _
      top := top
      front := ⟨rest, front⟩
      lists := owns.lists
      heads := fun block member _ => owns.heads block member }
  obtain ⟨m', runs, start, final, touched⟩ :=
    splitLoop_spec state small (bounded (top.prop.2 _ cursor.base_mem)) requested
  have inside : containing order cursor.base ≤ cursor :=
    le_of_mem_of_order_le (mem_containing _ _) cursor.base_mem requested
  have front' := final.front
  rw [start, containing_order] at front'
  have ownsLeft := takeFront_owns final (requested.trans small)
  rw [start, containing_order] at ownsLeft
  refine ⟨m', runs, front', start, ?_⟩
  constructor
  · exact within_lower _ _ inside top.prop
  · exact ownsLeft
  · simp [takeFront, start]
  · intro page away
    have notInside : page ∉ cursor := fun member => away (top.prop.2 page member)
    have different : page ≠ cursor.base := fun equal => notInside (equal ▸ cursor.base_mem)
    simpa [takeFront, different] using touched.outside page notInside
  · intro page different idle
    rw [start] at different
    simpa [takeFront, different] using touched.idle page (Set.notMem_empty page) idle

/-- The scan over the lists: it allocates from the first non-empty one, and finds none
only if no block of the order it started from is available. -/
theorem allocLoop_spec {frames : Set Nat} {m : Memory} (owns : Owns m frames)
    (bounded : frames ⊆ allFrames) (order : BitVec 32) (i : Nat) (above : order.toNat ≤ i) :
    (allocLoop order i m = .ok (none, m) ∧
      ∀ block ∈ within maxOrder frames, block.order < i) ∨
    ∃ block m', block.order = order.toNat ∧ allocLoop order i m = .ok (some block.base, m') ∧
      Allocated frames block m m' := by
  -- Induction on the number of lists that are left to look at.
  induction left : maxOrder + 1 - i generalizing i with
  | zero =>
      left
      constructor
      · rw [allocLoop, if_neg (by omega)]
      · intro block member
        have small := member.1
        omega
  | succ left ih =>
      have small : i ≤ maxOrder := by omega
      have unfolded := allocLoop.eq_1 order i m
      rw [if_pos (by omega), if_neg (by omega), Int.toNat_natCast] at unfolded
      cases list : m.freeArea i with
      | nil =>
          rw [list, if_neg (by simp)] at unfolded
          rcases ih (i + 1) (by omega) (by omega) with ⟨runs, none⟩ | found
          · left
            refine ⟨unfolded.trans (by exact_mod_cast runs), ?_⟩
            intro block member
            obtain ⟨top, isTop, inside⟩ := exists_top_of_mem (fun _ inner => inner.1) member
            have orders := order_le_of_le inside
            have limit := none top isTop.prop
            have notHere : top.order ≠ i := by
              intro equal
              have listed := (owns.lists.mem_iff top isTop.prop.1).mpr isTop
              rw [equal, list] at listed
              exact List.not_mem_nil listed
            omega
          · right
            obtain ⟨block, m', orders, runs, allocated⟩ := found
            exact ⟨block, m', orders, unfolded.trans (by exact_mod_cast runs), allocated⟩
      | cons page rest =>
          right
          rw [list, if_pos (by simp)] at unfolded
          obtain ⟨_, start⟩ := owns.lists.containing_mem small (list ▸ List.mem_cons_self)
          have front : m.freeArea (containing i page).order =
              (containing i page).base :: rest := by
            rw [start]
            exact list
          obtain ⟨m', runs, ⟨rest', front'⟩, base, allocated⟩ :=
            alloc_from_front order.toNat owns bounded small above front
          refine ⟨_, _, rfl, ?_, allocated⟩
          rw [containing_order] at runs
          rw [unfolded, runs, base]
          simp only [front', takeFront]

/-- The copy of an existing order into an `int` is the order. -/
theorem order_toInt {order : BitVec 32} (small : order.toNat ≤ maxOrder) :
    order.toInt = order.toNat := by
  apply BitVec.toInt_eq_toNat_of_lt
  simp only [maxOrder] at small
  omega

/-- `alloc_pages` on an existing order never faults.  It returns `NULL` only when no
block of the order is available, and then changes nothing. -/
theorem allocPages_spec {frames : Set Nat} {m : Memory} (owns : Owns m frames)
    (bounded : frames ⊆ allFrames) (order : BitVec 32) (small : order.toNat ≤ maxOrder) :
    (allocPages order m = .ok (none, m) ∧
      ∀ block ∈ within maxOrder frames, block.order < order.toNat) ∨
    ∃ block m', block.order = order.toNat ∧ allocPages order m = .ok (some block.base, m') ∧
      Allocated frames block m m' := by
  rw [allocPages, order_toInt small]
  exact allocLoop_spec owns bounded order order.toNat le_rfl

end OscKernel.Frames
