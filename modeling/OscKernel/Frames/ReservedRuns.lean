import Mathlib.Data.Finset.Prod
import Mathlib.Data.Finset.Range
import Mathlib.Data.Set.Finite.Basic
import OscKernel.Frames.BuddyRuns
import OscKernel.Frames.ReserveCompose

/-!
# Reserved memory in the buddy allocator

The two programs share their representation, so `alloc_pages` and `free_pages` may run on the
memory that `memory_reserve` leaves.  Reserved blocks look to them like allocated ones that
nobody frees: the invariant of runs holds with the reserved blocks among the live ones.
-/

namespace OscKernel.Frames

open Blocks Block

/-- The range has an address in the frame. -/
def Reservation.Meets (r : Reservation) (frame : Nat) : Prop :=
  ∃ addr, r.base.toNat ≤ addr ∧ addr < r.base.toNat + r.size.toNat ∧ addr / pageSize = frame

theorem Reservation.meets_iff {r : Reservation} {frame : Nat} :
    r.Meets frame ↔ frame ∈ r.pages :=
  exists_addr_iff.trans (and_iff_right r.nonempty)

/-- Calls of the allocator on a memory, with all blocks that `alloc_pages` has returned.  Such a
block may be freed, even again. -/
inductive Used (m : Memory) : List (Nat × Nat) → System → Prop where
  | start : Used m [] ⟨m, []⟩
  | alloc {returned : List (Nat × Nat)} {s : System} {order : BitVec 32} {page : Nat}
      {memory : Memory} : Used m returned s → order.toNat ≤ maxOrder →
      allocPages order s.memory = .ok (some page, memory) →
      Used m ((page, order.toNat) :: returned) ⟨memory, (page, order.toNat) :: s.live⟩
  | full {returned : List (Nat × Nat)} {s : System} {order : BitVec 32} {memory : Memory} :
      Used m returned s → order.toNat ≤ maxOrder →
      allocPages order s.memory = .ok (none, memory) → Used m returned ⟨memory, s.live⟩
  | free {returned : List (Nat × Nat)} {s : System} {entry : Nat × Nat} {memory : Memory} :
      Used m returned s → entry ∈ returned → freePages (some entry.1) s.memory = .ok memory →
      Used m returned ⟨memory, s.live.filter fun block => block.1 ≠ entry.1⟩

/-- A block that starts at its first page contains it. -/
theorem mem_blockOf {entry : Nat × Nat} (start : (blockOf entry).base = entry.1) :
    entry.1 ∈ blockOf entry := by
  have first := (blockOf entry).base_mem
  rwa [start] at first

/-- Its frames are those from the first page on. -/
theorem mem_blockOf_iff {entry : Nat × Nat} (start : (blockOf entry).base = entry.1)
    {frame : Nat} :
    frame ∈ blockOf entry ↔ entry.1 ≤ frame ∧ frame < entry.1 + 2 ^ entry.2 := by
  rw [mem_iff_range, start, blockOf_order]

namespace System

variable {m memory : Memory} {live held returned : List (Nat × Nat)} {s : System}

/-- The system in which the blocks of `held` are live as well. -/
def withHeld (held : List (Nat × Nat)) (s : System) : System := ⟨s.memory, s.live ++ held⟩

theorem Inv.alloc_held (inv : (s.withHeld held).Inv) {order : BitVec 32} {page : Nat}
    (small : order.toNat ≤ maxOrder) (runs : allocPages order s.memory = .ok (some page, memory)) :
    Inv (withHeld held ⟨memory, (page, order.toNat) :: s.live⟩) := by
  obtain ⟨next, stepped, kept⟩ := inv.step (.alloc order) small
  have step : (s.withHeld held).step (.alloc order) =
      .ok ⟨memory, (page, order.toNat) :: (s.live ++ held)⟩ := by
    rw [System.step, show (s.withHeld held).memory = s.memory from rfl, runs]
    rfl
  cases step.symm.trans stepped
  exact kept

theorem Inv.full_held (inv : (s.withHeld held).Inv) {order : BitVec 32}
    (small : order.toNat ≤ maxOrder) (runs : allocPages order s.memory = .ok (none, memory)) :
    Inv (withHeld held ⟨memory, s.live⟩) := by
  obtain ⟨next, stepped, kept⟩ := inv.step (.alloc order) small
  have step : (s.withHeld held).step (.alloc order) = .ok ⟨memory, s.live ++ held⟩ := by
    rw [System.step, show (s.withHeld held).memory = s.memory from rfl, runs]
    rfl
  cases step.symm.trans stepped
  exact kept

/-- The held blocks stay where no held head is freed. -/
theorem Inv.free_held (inv : (s.withHeld held).Inv) {page : Nat} (inRange : page < numPages)
    (other : ∀ entry ∈ held, entry.1 ≠ page)
    (runs : freePages (some page) s.memory = .ok memory) :
    Inv (withHeld held ⟨memory, s.live.filter fun block => block.1 ≠ page⟩) := by
  obtain ⟨next, stepped, kept⟩ := inv.step (.free page) inRange
  have all : held.filter (fun block => block.1 ≠ page) = held := by
    apply List.filter_eq_self.mpr
    intro entry member
    exact decide_eq_true (other entry member)
  have step : (s.withHeld held).step (.free page) =
      .ok ⟨memory, (s.live.filter fun block => block.1 ≠ page) ++ held⟩ := by
    rw [System.step, show (s.withHeld held).memory = s.memory from rfl, runs]
    dsimp only
    rw [show (s.withHeld held).live = s.live ++ held from rfl, List.filter_append, all]
  cases step.symm.trans stepped
  exact kept

/-- The allocator has not touched the reserved frames: the reserved blocks are held, and no
block that was returned has a frame of theirs. -/
structure Guarded (held returned : List (Nat × Nat)) (s : System) : Prop where
  inv : (s.withHeld held).Inv
  inRange : ∀ entry ∈ returned, entry.1 < numPages
  own : ∀ entry ∈ returned, (blockOf entry).base = entry.1
  apart : ∀ entry ∈ returned, ∀ other ∈ held, (blockOf entry).Apart (blockOf other)

/-- A new block is live, so it is apart from the held ones. -/
theorem Guarded.alloc (guarded : Guarded held returned s) {order : BitVec 32} {page : Nat}
    (small : order.toNat ≤ maxOrder) (runs : allocPages order s.memory = .ok (some page, memory)) :
    Guarded held ((page, order.toNat) :: returned)
      ⟨memory, (page, order.toNat) :: s.live⟩ := by
  have inv := guarded.inv.alloc_held small runs
  have fresh : (page, order.toNat) ∈
      (withHeld held ⟨memory, (page, order.toNat) :: s.live⟩).live := List.mem_cons_self ..
  have own : (blockOf (page, order.toNat)).base = page := inv.aligned _ fresh
  have first : page ∈ blockOf (page, order.toNat) := mem_blockOf own
  constructor
  · exact inv
  · exact List.forall_mem_cons.mpr ⟨inv.inRange _ fresh first, guarded.inRange⟩
  · exact List.forall_mem_cons.mpr ⟨own, guarded.own⟩
  · refine List.forall_mem_cons.mpr ⟨fun other member => ?_, guarded.apart⟩
    have live : other ∈ (withHeld held ⟨memory, (page, order.toNat) :: s.live⟩).live :=
      List.mem_append_right _ member
    apply inv.apart _ fresh _ live
    -- Nodup separates the new block from the held ones.
    intro equal
    have nodup := List.nodup_cons.mp inv.nodup
    apply nodup.1
    rw [equal]
    exact List.mem_append_right _ member

theorem Guarded.free (guarded : Guarded held returned s) {entry : Nat × Nat}
    (member : entry ∈ returned) (runs : freePages (some entry.1) s.memory = .ok memory) :
    Guarded held returned ⟨memory, s.live.filter fun block => block.1 ≠ entry.1⟩ := by
  refine ⟨?_, guarded.inRange, guarded.own, guarded.apart⟩
  apply guarded.inv.free_held (guarded.inRange entry member) _ runs
  intro other heldMember same
  have base := mem_blockOf (guarded.inv.aligned other (List.mem_append_right _ heldMember))
  rw [same] at base
  exact guarded.apart entry member other heldMember _ (mem_blockOf (guarded.own entry member)) base

theorem Guarded.used (start : Guarded held [] ⟨m, []⟩) (used : Used m returned s) :
    Guarded held returned s := by
  induction used with
  | start => exact start
  | alloc _ small runs ih => exact ih.alloc small runs
  | full _ small runs ih =>
      exact ⟨ih.inv.full_held small runs, ih.inRange, ih.own, ih.apart⟩
  | free _ member runs ih => exact ih.free member runs

/-- The frames of free blocks are those of no live block. -/
theorem Guarded.free_frame (guarded : Guarded held returned s) {order page frame : Nat}
    (small : order ≤ maxOrder) (listed : page ∈ s.memory.freeArea order)
    (inside : page ≤ frame ∧ frame < page + 2 ^ order) : ∀ other ∈ held, frame ∉ blockOf other := by
  obtain ⟨top, start⟩ := guarded.inv.owns.lists.containing_mem small listed
  have own : (blockOf (page, order)).base = page := start
  have free := mem_frames_of_mem_tops_within top ((mem_blockOf_iff own).mpr inside)
  exact fun other member => free.2 other (List.mem_append_right _ member)

/-- No call faults. -/
theorem Guarded.progress (guarded : Guarded held returned s) :
    (∀ order : BitVec 32, order.toNat ≤ maxOrder →
      ∃ result, allocPages order s.memory = .ok result) ∧
      ∀ entry ∈ returned, ∃ memory, freePages (some entry.1) s.memory = .ok memory := by
  constructor
  · intro order small
    obtain ⟨next, stepped, _⟩ := guarded.inv.step (.alloc order) small
    have same : (s.withHeld held).memory = s.memory := rfl
    rw [System.step, same] at stepped
    cases runs : allocPages order s.memory with
    | error fault =>
        rw [runs] at stepped
        cases stepped
    | ok result => exact ⟨result, rfl⟩
  · intro entry member
    obtain ⟨next, stepped, _⟩ := guarded.inv.step (.free entry.1) (guarded.inRange entry member)
    have same : (s.withHeld held).memory = s.memory := rfl
    rw [System.step, same] at stepped
    cases runs : freePages (some entry.1) s.memory with
    | error fault =>
        rw [runs] at stepped
        cases stepped
    | ok memory => exact ⟨memory, rfl⟩

end System

/-! ## The reserved memory -/

section Reserved

variable {r : Reservation} {m' : Memory} {marks : Set Block}

/-- The reserved blocks as a list. -/
theorem exists_held (carving : Carving (fun _ => true) mmInit r.first (r.last + 1)
    (within maxOrder (allFrames \ (∅ ∪ r.pages))) marks m') :
    ∃ held : List (Nat × Nat), held.Nodup ∧
      ∀ entry, entry ∈ held ↔ blockOf entry ∈ marks ∧ (blockOf entry).base = entry.1 := by
  have finite : {entry | blockOf entry ∈ marks ∧ (blockOf entry).base = entry.1}.Finite := by
    apply Set.Finite.subset (Finset.finite_toSet
      (Finset.range (r.last + 1) ×ˢ Finset.range (maxOrder + 1)))
    intro entry both
    have covered := (carving.covered entry.1).mp ⟨blockOf entry, both.1, mem_blockOf both.2⟩
    rw [Finset.mem_coe, Finset.mem_product, Finset.mem_range, Finset.mem_range]
    exact ⟨covered.2, Nat.lt_succ_of_le (carving.marked _ both.1).1⟩
  refine ⟨finite.toFinset.toList, Finset.nodup_toList _, fun entry => ?_⟩
  rw [Finset.mem_toList, Set.Finite.mem_toFinset, Set.mem_ofPred_eq]

/-- Every reserved block is on the list. -/
theorem mem_held {held : List (Nat × Nat)}
    (listed : ∀ entry, entry ∈ held ↔ blockOf entry ∈ marks ∧ (blockOf entry).base = entry.1)
    {block : Block} (member : block ∈ marks) : (block.base, block.order) ∈ held := by
  have same : blockOf (block.base, block.order) = block := containing_eq_of_mem block.base_mem
  rw [listed, same]
  exact ⟨member, rfl⟩

/-- The reserved blocks cover the pages of the range. -/
theorem held_covers {held : List (Nat × Nat)}
    (carving : Carving (fun _ => true) mmInit r.first (r.last + 1)
      (within maxOrder (allFrames \ (∅ ∪ r.pages))) marks m')
    (listed : ∀ entry, entry ∈ held ↔ blockOf entry ∈ marks ∧ (blockOf entry).base = entry.1)
    (frame : Nat) : frame ∈ r.pages ↔ ∃ entry ∈ held, frame ∈ blockOf entry := by
  have range : frame ∈ r.pages ↔ r.first ≤ frame ∧ frame < r.last + 1 :=
    and_congr_right fun _ => Nat.lt_succ_iff.symm
  rw [range, ← carving.covered frame]
  constructor
  · intro covered
    obtain ⟨block, member, inside⟩ := covered
    refine ⟨_, mem_held listed member, ?_⟩
    rwa [show blockOf (block.base, block.order) = block from
      containing_eq_of_mem block.base_mem]
  · intro covered
    obtain ⟨entry, member, inside⟩ := covered
    exact ⟨blockOf entry, ((listed entry).mp member).1, inside⟩

theorem freeFrames_held {held : List (Nat × Nat)}
    (covers : ∀ frame, frame ∈ r.pages ↔ ∃ entry ∈ held, frame ∈ blockOf entry) :
    freeFrames held = allFrames \ (∅ ∪ r.pages) := by
  ext frame
  rw [Set.empty_union]
  apply and_congr_right
  intro _
  rw [covers frame]
  constructor
  · intro free covered
    obtain ⟨entry, member, inside⟩ := covered
    exact free entry member inside
  · intro uncovered entry member inside
    exact uncovered ⟨entry, member, inside⟩

/-- The memory that the reservation leaves owns the rest of the frames. -/
theorem reserved_owns (carving : Carving (fun _ => true) mmInit r.first (r.last + 1)
    (within maxOrder (allFrames \ (∅ ∪ r.pages))) marks m') :
    Owns m' (allFrames \ (∅ ∪ r.pages)) := by
  have lists := carving.lists
  rw [FreeLists.restrict_true] at lists
  refine ⟨lists, fun block top => ?_⟩
  have free := (top.prop.2 _ block.base_mem).2
  have idle : (m'.memMap block.base).refcount = 0 := by
    rw [carving.unmarked, mmInit_refcount]
    intro mark member same
    have covered := (carving.covered mark.base).mp ⟨mark, member, mark.base_mem⟩
    rw [same] at covered
    exact free (.inr ⟨covered.1, Nat.le_of_lt_succ covered.2⟩)
  ext
  · exact carving.orders block top
  · exact idle

theorem reserved_guarded {held : List (Nat × Nat)}
    (carving : Carving (fun _ => true) mmInit r.first (r.last + 1)
      (within maxOrder (allFrames \ (∅ ∪ r.pages))) marks m') (nodup : held.Nodup)
    (listed : ∀ entry, entry ∈ held ↔ blockOf entry ∈ marks ∧ (blockOf entry).base = entry.1) :
    System.Guarded held [] ⟨m', []⟩ := by
  have covers := held_covers carving listed
  refine ⟨?_, by simp, by simp, by simp⟩
  constructor
  · exact fun entry member => ((listed entry).mp member).2
  · exact fun entry member => (carving.marked _ ((listed entry).mp member).1).1
  · intro entry member frame inside
    have page := (covers frame).mpr ⟨entry, member, inside⟩
    exact lt_of_le_of_lt page.2 r.last_lt
  · exact nodup
  · intro entry member other otherMember different
    obtain ⟨mark, base⟩ := (listed entry).mp member
    obtain ⟨otherMark, otherBase⟩ := (listed other).mp otherMember
    apply carving.apart _ mark _ otherMark
    intro same
    apply different
    have orders : entry.2 = other.2 := congrArg Block.order same
    have bases : entry.1 = other.1 := by rw [← base, ← otherBase, same]
    exact Prod.ext bases orders
  · have owns := reserved_owns carving
    rw [← freeFrames_held covers] at owns
    exact owns
  · intro entry member
    obtain ⟨mark, base⟩ := (listed entry).mp member
    have marked := (carving.marked _ mark).2
    rw [base] at marked
    exact marked
  · intro page notHead
    have idle : (m'.memMap page).refcount = 0 := by
      rw [carving.unmarked, mmInit_refcount]
      intro mark member same
      exact notHead (List.mem_map.mpr ⟨_, mem_held listed member, same⟩)
    exact idle

end Reserved

/-- What holds of a run of the allocator after a reservation: no block that `alloc_pages` has
returned and no free block has a reserved frame, and no further call faults. -/
structure Untouched (r : Reservation) (returned : List (Nat × Nat)) (s : System) : Prop where
  allocated : ∀ entry ∈ returned, ∀ frame, r.Meets frame →
    ¬ (entry.1 ≤ frame ∧ frame < entry.1 + 2 ^ entry.2)
  free : ∀ order ≤ maxOrder, ∀ page ∈ s.memory.freeArea order, ∀ frame, r.Meets frame →
    ¬ (page ≤ frame ∧ frame < page + 2 ^ order)
  allocRuns : ∀ order : BitVec 32, order.toNat ≤ maxOrder →
    ∃ result, allocPages order s.memory = .ok result
  freeRuns : ∀ entry ∈ returned, ∃ memory, freePages (some entry.1) s.memory = .ok memory

/-- Every in-range reservation returns, and whatever is allocated and freed afterwards, no block
that `alloc_pages` returns or `free_pages` builds has a reserved frame. -/
theorem reserved_never_allocated (r : Reservation) :
    ∃ m', Reserves r.base r.size mmInit (.returned m') ∧
      ∀ returned s, Used m' returned s → Untouched r returned s := by
  obtain ⟨m', marks, reserves, carving⟩ :=
    mmInit_canonical.reserve_marks r fun _ member => absurd member (Set.notMem_empty _)
  obtain ⟨held, nodup, listed⟩ := exists_held carving
  have covers := held_covers carving listed
  refine ⟨m', reserves, fun returned s used => ?_⟩
  have guarded := (reserved_guarded carving nodup listed).used used
  obtain ⟨allocRuns, freeRuns⟩ := guarded.progress
  constructor
  · intro entry member frame meets range
    obtain ⟨other, otherHeld, inside⟩ := (covers frame).mp (Reservation.meets_iff.mp meets)
    have own := (mem_blockOf_iff (guarded.own entry member)).mpr range
    exact guarded.apart entry member other otherHeld frame own inside
  · intro order small page member frame meets range
    obtain ⟨other, otherHeld, inside⟩ := (covers frame).mp (Reservation.meets_iff.mp meets)
    exact guarded.free_frame small member range other otherHeld inside
  · exact allocRuns
  · exact freeRuns

end OscKernel.Frames
