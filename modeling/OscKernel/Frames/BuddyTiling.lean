import OscKernel.Frames.BuddyRuns

/-!
# Tiling and canonical form

Two consequences of the invariant of runs.  Free and live blocks together tile the
frames exactly, and the free lists are a function of the set of free frames.
-/

namespace OscKernel.Frames

open Blocks Block

namespace System

/-- All blocks, with their first page and order: those on the lists `free_area[0]` to
`free_area[MAX_ORDER]` and the live ones. -/
def blocks (s : System) : List (Nat × Nat) :=
  (List.range (maxOrder + 1)).flatMap
    (fun order => (s.memory.freeArea order).map fun page => (page, order)) ++ s.live

/-- The free and live blocks tile the frames, and the pages of their heads agree. -/
structure Tiled (s : System) : Prop where
  tiles : ∀ frame < numPages,
    ∃! entry, entry ∈ s.blocks ∧ entry.1 ≤ frame ∧ frame < entry.1 + 2 ^ entry.2
  inRange : ∀ entry ∈ s.blocks, entry.1 + 2 ^ entry.2 ≤ numPages
  aligned : ∀ entry ∈ s.blocks, 2 ^ entry.2 ∣ entry.1
  nodup : (s.blocks.map Prod.fst).Nodup
  freeHeads : ∀ order ≤ maxOrder, ∀ page ∈ s.memory.freeArea order,
    s.memory.memMap page = ⟨order, 0⟩
  liveHeads : ∀ entry ∈ s.live, s.memory.memMap entry.1 = ⟨entry.2, 1⟩
  others : ∀ page < numPages, (s.memory.memMap page).refcount = 1 →
    page ∈ s.live.map Prod.fst

theorem mem_blocks {s : System} {entry : Nat × Nat} :
    entry ∈ s.blocks ↔
      (entry.2 ≤ maxOrder ∧ entry.1 ∈ s.memory.freeArea entry.2) ∨ entry ∈ s.live := by
  obtain ⟨page, order⟩ := entry
  simp only [blocks, List.mem_append, List.mem_flatMap, List.mem_range, List.mem_map,
    Prod.mk.injEq]
  apply or_congr_left
  constructor
  · intro listed
    obtain ⟨other, small, first, member, rfl, rfl⟩ := listed
    exact ⟨Nat.lt_succ_iff.mp small, member⟩
  · intro listed
    exact ⟨order, Nat.lt_succ_iff.mpr listed.1, page, listed.2, rfl, rfl⟩

section Invariant

variable {s : System} (inv : s.Inv)

include inv

theorem Inv.top_of_listed (entry : Nat × Nat) (small : entry.2 ≤ maxOrder)
    (listed : entry.1 ∈ s.memory.freeArea entry.2) :
    blockOf entry ∈ tops (within maxOrder (freeFrames s.live)) ∧
      (blockOf entry).base = entry.1 :=
  inv.owns.lists.containing_mem small listed

theorem Inv.blocks_base {entry : Nat × Nat} (member : entry ∈ s.blocks) :
    (blockOf entry).base = entry.1 := by
  rcases mem_blocks.mp member with ⟨small, listed⟩ | live
  · exact (inv.top_of_listed entry small listed).2
  · exact inv.aligned entry live

theorem Inv.blocks_inRange {entry : Nat × Nat} (member : entry ∈ s.blocks) :
    (blockOf entry).frames ⊆ allFrames := by
  rcases mem_blocks.mp member with ⟨small, listed⟩ | live
  · exact fun frame inBlock => ((inv.top_of_listed entry small listed).1.prop.2 frame inBlock).1
  · exact inv.inRange entry live

/-- Two different blocks share no frame. -/
theorem Inv.blocks_apart {entry other : Nat × Nat} (member : entry ∈ s.blocks)
    (otherMember : other ∈ s.blocks) (different : entry ≠ other) :
    (blockOf entry).Apart (blockOf other) := by
  have base := inv.blocks_base member
  have otherBase := inv.blocks_base otherMember
  rcases mem_blocks.mp member with ⟨small, listed⟩ | live
  · have top := (inv.top_of_listed entry small listed).1
    rcases mem_blocks.mp otherMember with ⟨otherSmall, otherListed⟩ | otherLive
    · apply tops_apart top (inv.top_of_listed other otherSmall otherListed).1
      intro same
      apply different
      ext
      · rw [← base, ← otherBase, same]
      · exact congrArg Block.order same
    · exact fun frame inBlock => (top.prop.2 frame inBlock).2 other otherLive
  · rcases mem_blocks.mp otherMember with ⟨otherSmall, otherListed⟩ | otherLive
    · have top := (inv.top_of_listed other otherSmall otherListed).1
      exact fun frame inBlock inOther => (top.prop.2 frame inOther).2 entry live inBlock
    · exact inv.apart entry live other otherLive different

theorem Inv.mem_blockOf {entry : Nat × Nat} (member : entry ∈ s.blocks) {frame : Nat} :
    frame ∈ blockOf entry ↔ entry.1 ≤ frame ∧ frame < entry.1 + 2 ^ entry.2 := by
  rw [mem_iff_range, inv.blocks_base member, blockOf_order]

theorem Inv.blocks_nodup : s.blocks.Nodup := by
  rw [blocks, List.nodup_append, List.nodup_flatMap]
  refine ⟨⟨?_, ?_⟩, inv.nodup, ?_⟩
  · intro order member
    apply List.Nodup.map
    · exact fun left right equal => (Prod.mk.inj equal).1
    · exact inv.owns.lists.nodup order (Nat.lt_succ_iff.mp (List.mem_range.mp member))
  · -- Entries of two lists differ in the order.
    apply List.Pairwise.imp _ List.nodup_range
    intro order other different
    apply List.disjoint_left.mpr
    intro entry member otherMember
    obtain ⟨page, _, rfl⟩ := List.mem_map.mp member
    obtain ⟨_, _, equal⟩ := List.mem_map.mp otherMember
    exact different (Prod.mk.inj equal).2.symm
  · intro entry listed other live equal
    subst equal
    obtain ⟨order, small, member⟩ := List.mem_flatMap.mp listed
    obtain ⟨page, onList, rfl⟩ := List.mem_map.mp member
    obtain ⟨top, base⟩ :=
      inv.top_of_listed (page, order) (Nat.lt_succ_iff.mp (List.mem_range.mp small))
        onList
    exact (top.prop.2 _ (base_mem _)).2 _ live (base_mem _)

/-- The invariant implies the exact tiling. -/
theorem Inv.tiled : s.Tiled where
  tiles := by
    intro frame inRange
    have exists_entry : ∃ entry ∈ s.blocks, frame ∈ blockOf entry := by
      by_cases free : frame ∈ freeFrames s.live
      · obtain ⟨top, ⟨isTop, member⟩, _⟩ := existsUnique_top_of_mem maxOrder free
        refine ⟨(top.base, top.order), mem_blocks.mpr (.inl ⟨isTop.prop.1, ?_⟩), ?_⟩
        · exact (inv.owns.lists.mem_iff top isTop.prop.1).mpr isTop
        · change frame ∈ containing top.order top.base
          rwa [containing_eq_of_mem top.base_mem]
      · obtain ⟨entry, live, inBlock⟩ := exists_live inRange free
        exact ⟨entry, mem_blocks.mpr (.inr live), inBlock⟩
    obtain ⟨entry, member, inBlock⟩ := exists_entry
    refine ⟨entry, ⟨member, (inv.mem_blockOf member).mp inBlock⟩, ?_⟩
    intro other both
    by_contra different
    have inOther := (inv.mem_blockOf both.1).mpr both.2
    exact inv.blocks_apart both.1 member different frame inOther inBlock
  inRange := by
    intro entry member
    have positive : 0 < 2 ^ entry.2 := Nat.two_pow_pos _
    have last : entry.1 + 2 ^ entry.2 - 1 ∈ blockOf entry :=
      (inv.mem_blockOf member).mpr ⟨by omega, by omega⟩
    have bound : entry.1 + 2 ^ entry.2 - 1 < numPages := inv.blocks_inRange member last
    omega
  aligned := by
    intro entry member
    rw [← inv.blocks_base member]
    exact (blockOf entry).aligned
  nodup := by
    apply inv.blocks_nodup.map_on
    intro entry member other otherMember same
    by_contra different
    apply inv.blocks_apart member otherMember different _ (blockOf entry).base_mem
    rw [inv.blocks_base member, same, ← inv.blocks_base otherMember]
    exact base_mem _
  freeHeads := by
    intro order small page member
    obtain ⟨top, base⟩ := inv.top_of_listed (page, order) small member
    have head := inv.owns.heads _ top
    rwa [base] at head
  liveHeads := inv.heads
  others := by
    intro page _ used
    by_contra notHead
    have idle := inv.others page notHead
    omega

end Invariant

/-- Every sequence of allocations of existing orders and of frees of arbitrary pages
runs without a fault, and leaves the free and live blocks in an exact tiling. -/
theorem run_tiled (calls : List Call) (valid : ∀ call ∈ calls, call.Valid) :
    ∃ s, start.run calls = .ok s ∧ s.Tiled := by
  obtain ⟨s, runs, inv⟩ := start_inv.run valid
  exact ⟨s, runs, inv.tiled⟩

/-- The calls of the test in `main`, with a second free of one head. -/
theorem run_tiled_main : ∃ s, start.run [.alloc 1, .alloc 1, .alloc 1, .free 0, .free 2, .free 0,
    .free 4] = .ok s ∧ s.Tiled :=
  run_tiled _ (by simp [Call.Valid, maxOrder, numPages])

/-! ## Canonical free lists -/

/-- Frames in live blocks. -/
def liveFrames (s : System) : Set Nat :=
  {frame | ∃ entry ∈ s.live, entry.1 ≤ frame ∧ frame < entry.1 + 2 ^ entry.2}

/-- The blocks that the lists should hold: the maximal aligned blocks of order at most
`MAX_ORDER` made only of frames outside the live blocks. -/
def maximalFree (s : System) : Set Block :=
  tops (within maxOrder (allFrames \ s.liveFrames))

theorem Inv.freeFrames_eq {s : System} (inv : s.Inv) :
    freeFrames s.live = allFrames \ s.liveFrames := by
  ext frame
  have same : ∀ entry ∈ s.live, (frame ∈ blockOf entry ↔
      entry.1 ≤ frame ∧ frame < entry.1 + 2 ^ entry.2) :=
    fun entry live => inv.mem_blockOf (mem_blocks.mpr (.inr live))
  constructor
  · intro free
    refine ⟨free.1, fun taken => ?_⟩
    obtain ⟨entry, live, range⟩ := taken
    exact free.2 entry live ((same entry live).mpr range)
  · intro free
    exact ⟨free.1, fun entry live inBlock => free.2 ⟨entry, live, (same entry live).mp inBlock⟩⟩

/-- Each list holds exactly the maximal free blocks of its order. -/
theorem Inv.mem_freeArea_iff {s : System} (inv : s.Inv) {order : Nat} (small : order ≤ maxOrder)
    (page : Nat) : page ∈ s.memory.freeArea order ↔
      ∃ block ∈ s.maximalFree, block.order = order ∧ block.base = page := by
  rw [maximalFree, ← inv.freeFrames_eq]
  constructor
  · intro member
    obtain ⟨top, base⟩ := inv.owns.lists.containing_mem small member
    exact ⟨_, top, rfl, base⟩
  · intro exists_block
    obtain ⟨block, top, rfl, rfl⟩ := exists_block
    exact (inv.owns.lists.mem_iff block small).mpr top

/-- Freeing heads one after another removes exactly their entries. -/
theorem Inv.run_frees {s : System} (inv : s.Inv) {pages : List Nat}
    (inRange : ∀ page ∈ pages, page < numPages) :
    ∃ final, s.run (pages.map .free) = .ok final ∧ final.Inv ∧
      final.live = s.live.filter fun entry => entry.1 ∉ pages := by
  induction pages generalizing s with
  | nil => exact ⟨s, rfl, inv, by simp⟩
  | cons page pages ih =>
      obtain ⟨next, stepped, nextInv⟩ := inv.step (.free page)
        (inRange page List.mem_cons_self)
      have live : next.live = s.live.filter fun entry => entry.1 ≠ page := by
        simp only [System.step] at stepped
        cases runs : freePages (some page) s.memory with
        | error fault => simp [runs] at stepped
        | ok memory =>
            rw [runs] at stepped
            cases stepped
            rfl
      obtain ⟨final, runs, finalInv, rest⟩ :=
        ih nextInv fun other member => inRange other (List.mem_cons_of_mem _ member)
      refine ⟨final, ?_, finalInv, ?_⟩
      · rw [List.map_cons, System.run, stepped]
        exact runs
      · rw [rest, live, List.filter_filter]
        congr 1
        funext entry
        simp [Bool.and_comm]

/-- Two runs that end with the same live frames end with the same free lists, as sets;
the lists hold the maximal free blocks.  Freeing all live blocks, in any order, brings
back the lists of the start state. -/
theorem free_lists_canonical (calls others : List Call) (valid : ∀ call ∈ calls, call.Valid)
    (othersValid : ∀ call ∈ others, call.Valid) :
    ∃ s other, start.run calls = .ok s ∧ start.run others = .ok other ∧
      (∀ order ≤ maxOrder, ∀ page, page ∈ s.memory.freeArea order ↔
        ∃ block ∈ s.maximalFree, block.order = order ∧ block.base = page) ∧
      (s.liveFrames = other.liveFrames → ∀ order ≤ maxOrder, ∀ page,
        page ∈ s.memory.freeArea order ↔ page ∈ other.memory.freeArea order) ∧
      ∀ heads : List Nat, heads.Perm (s.live.map Prod.fst) →
        ∃ final, s.run (heads.map .free) = .ok final ∧ final.live = [] ∧
          ∀ order ≤ maxOrder, ∀ page,
            page ∈ final.memory.freeArea order ↔ page ∈ mmInit.freeArea order := by
  obtain ⟨s, runs, inv⟩ := start_inv.run valid
  obtain ⟨other, othersRun, otherInv⟩ := start_inv.run othersValid
  refine ⟨s, other, runs, othersRun, fun order small => inv.mem_freeArea_iff small, ?_, ?_⟩
  · intro same order small page
    rw [inv.mem_freeArea_iff small, otherInv.mem_freeArea_iff small, maximalFree, maximalFree, same]
  · intro heads perm
    have inRange : ∀ page ∈ heads, page < numPages := by
      intro page member
      obtain ⟨entry, live, rfl⟩ := List.mem_map.mp (perm.mem_iff.mp member)
      rw [← inv.aligned entry live]
      exact inv.inRange entry live (base_mem _)
    obtain ⟨final, finalRuns, finalInv, finalLive⟩ := inv.run_frees inRange
    have empty : final.live = [] := by
      rw [finalLive, List.filter_eq_nil_iff]
      intro entry live
      have listed : entry.1 ∈ heads := perm.mem_iff.mpr (List.mem_map_of_mem live)
      simp [listed]
    refine ⟨final, finalRuns, empty, fun order small page => ?_⟩
    have startMem := start_inv.mem_freeArea_iff small page
    have nothingLive : final.liveFrames = start.liveFrames := by
      simp [liveFrames, empty, start]
    rw [finalInv.mem_freeArea_iff small, maximalFree, nothingLive]
    exact startMem.symm

/-- The test of `main` against a run that never allocates. -/
theorem free_lists_canonical_main :
    ∃ s other, start.run [.alloc 1, .alloc 1, .free 0, .free 2] = .ok s ∧
      start.run [] = .ok other ∧
      (∀ order ≤ maxOrder, ∀ page, page ∈ s.memory.freeArea order ↔
        ∃ block ∈ s.maximalFree, block.order = order ∧ block.base = page) ∧
      (s.liveFrames = other.liveFrames → ∀ order ≤ maxOrder, ∀ page,
        page ∈ s.memory.freeArea order ↔ page ∈ other.memory.freeArea order) ∧
      ∀ heads : List Nat, heads.Perm (s.live.map Prod.fst) →
        ∃ final, s.run (heads.map .free) = .ok final ∧ final.live = [] ∧
          ∀ order ≤ maxOrder, ∀ page,
            page ∈ final.memory.freeArea order ↔ page ∈ mmInit.freeArea order :=
  free_lists_canonical _ _ (by simp [Call.Valid, maxOrder, numPages]) (by simp)

end System

end OscKernel.Frames
