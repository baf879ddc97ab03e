import Mathlib.Data.List.Perm.Basic
import OscKernel.Frames.FreePages

/-!
# Runs of the buddy allocator

The invariant of a run: the live blocks are disjoint and their heads are the only pages
in use, and the lists hold the maximal blocks made of the remaining frames.  Both the
exact tiling of the frames and the canonical form of the free lists follow from it.
-/

namespace OscKernel.Frames

open Blocks Block

/-- The block of a first page with an order. -/
def blockOf (entry : Nat × Nat) : Block := containing entry.2 entry.1

@[simp] theorem blockOf_order (entry : Nat × Nat) : (blockOf entry).order = entry.2 := rfl

/-- Frames in no live block. -/
def freeFrames (live : List (Nat × Nat)) : Set Nat :=
  {frame | frame ∈ allFrames ∧ ∀ entry ∈ live, frame ∉ blockOf entry}

/-- A frame of the memory that is not free is in a live block. -/
theorem exists_live {live : List (Nat × Nat)} {frame : Nat} (inside : frame ∈ allFrames)
    (notFree : frame ∉ freeFrames live) : ∃ entry ∈ live, frame ∈ blockOf entry := by
  by_contra none
  exact notFree ⟨inside, fun entry member inBlock => none ⟨entry, member, inBlock⟩⟩

namespace System

/-- The invariant of runs. -/
structure Inv (s : System) : Prop where
  aligned : ∀ entry ∈ s.live, (blockOf entry).base = entry.1
  small : ∀ entry ∈ s.live, entry.2 ≤ maxOrder
  inRange : ∀ entry ∈ s.live, (blockOf entry).frames ⊆ allFrames
  nodup : s.live.Nodup
  apart : ∀ entry ∈ s.live, ∀ other ∈ s.live, entry ≠ other →
    (blockOf entry).Apart (blockOf other)
  owns : Owns s.memory (freeFrames s.live)
  heads : ∀ entry ∈ s.live, s.memory.memMap entry.1 = ⟨entry.2, 1⟩
  others : ∀ page, page ∉ s.live.map Prod.fst → (s.memory.memMap page).refcount = 0

theorem start_inv : start.Inv where
  aligned := by simp [start]
  small := by simp [start]
  inRange := by simp [start]
  nodup := List.nodup_nil
  apart := by simp [start]
  owns := by
    have all : freeFrames [] = allFrames := by
      ext frame
      simp [freeFrames]
    change Owns mmInit (freeFrames [])
    rw [all]
    exact mmInit_owns
  heads := by simp [start]
  others := fun page _ => mmInit_refcount page

/-- A live block is determined by its first page. -/
theorem Inv.eq_of_fst_eq {s : System} (inv : s.Inv) {entry other : Nat × Nat}
    (member : entry ∈ s.live) (otherMember : other ∈ s.live) (same : entry.1 = other.1) :
    entry = other := by
  by_contra different
  have start := inv.aligned entry member
  have otherStart := inv.aligned other otherMember
  apply inv.apart entry member other otherMember different _ (blockOf entry).base_mem
  rw [start, same, ← otherStart]
  exact (blockOf other).base_mem

/-- Every frame that is neither free nor in a given set of frames of live blocks is held
by a live block. -/
theorem Inv.held {s : System} (inv : s.Inv) {freed : Nat × Nat} (member : freed ∈ s.live) :
    Held s.memory (freeFrames s.live ∪ (blockOf freed).frames) := by
  intro frame inside outside
  rw [Set.mem_union, not_or] at outside
  obtain ⟨notFree, notFreed⟩ := outside
  obtain ⟨entry, entryMember, inBlock⟩ := exists_live inside notFree
  have different : entry ≠ freed := fun equal => notFreed (equal ▸ inBlock)
  refine ⟨blockOf entry, inBlock, ?_, ?_⟩
  · rw [inv.aligned entry entryMember, inv.heads entry entryMember]
    exact Nat.one_ne_zero
  · intro other otherMember either
    rcases either with free | inFreed
    · exact free.2 entry entryMember otherMember
    · exact inv.apart entry entryMember freed member different other otherMember inFreed

/-- A successful `alloc_pages` keeps the invariant. -/
theorem Inv.alloc {s : System} (inv : s.Inv) {block : Block} {memory : Memory}
    (allocated : Allocated (freeFrames s.live) block s.memory memory) :
    Inv ⟨memory, (block.base, block.order) :: s.live⟩ := by
  have same : blockOf (block.base, block.order) = block := containing_eq_of_mem block.base_mem
  have free : ∀ frame ∈ block, frame ∈ freeFrames s.live := allocated.available.2
  have fresh : ∀ entry ∈ s.live, block.Apart (blockOf entry) :=
    fun entry member frame inBlock => (free frame inBlock).2 entry member
  have headNotFree : ∀ entry ∈ s.live, entry.1 ∉ freeFrames s.live := by
    intro entry member isFree
    apply isFree.2 entry member
    rw [← inv.aligned entry member]
    exact base_mem _
  constructor
  · exact List.forall_mem_cons.mpr ⟨congrArg base same, inv.aligned⟩
  · exact List.forall_mem_cons.mpr ⟨allocated.available.1, inv.small⟩
  · refine List.forall_mem_cons.mpr ⟨?_, inv.inRange⟩
    intro frame member
    rw [same] at member
    exact (free frame member).1
  · refine List.nodup_cons.mpr ⟨fun member => ?_, inv.nodup⟩
    have away := fresh _ member
    rw [same] at away
    exact away _ block.base_mem block.base_mem
  · intro entry member other otherMember different
    rw [List.mem_cons] at member otherMember
    rcases member with equal | member
    · rcases otherMember with otherEqual | otherMember
      · exact absurd (equal.trans otherEqual.symm) different
      · rw [equal, same]
        exact fresh other otherMember
    · rcases otherMember with otherEqual | otherMember
      · rw [otherEqual, same]
        exact (fresh entry member).symm
      · exact inv.apart entry member other otherMember different
  · have left : freeFrames ((block.base, block.order) :: s.live) =
        freeFrames s.live \ block.frames := by
      ext frame
      simp only [freeFrames, List.forall_mem_cons, same, Set.mem_sdiff, Set.mem_ofPred_eq,
        mem_frames]
      rw [and_assoc, and_comm (a := frame ∉ block)]
    rw [left]
    exact allocated.owns
  · refine List.forall_mem_cons.mpr ⟨allocated.head, fun entry member => ?_⟩
    rw [allocated.outside _ (headNotFree entry member)]
    exact inv.heads entry member
  · intro page notHead
    rw [List.map_cons, List.mem_cons, not_or] at notHead
    exact allocated.idle page notHead.1 (inv.others page notHead.2)

/-- `free_pages` on a live head keeps the invariant and ends the life of its block. -/
theorem Inv.free {s : System} (inv : s.Inv) {freed : Nat × Nat} (member : freed ∈ s.live)
    {memory : Memory} (released : Released (blockOf freed) (freeFrames s.live)
      (s.memory.setRefcount (blockOf freed).base 0) memory) :
    Inv ⟨memory, s.live.filter fun block => block.1 ≠ freed.1⟩ := by
  have start := inv.aligned freed member
  have kept : ∀ entry, entry ∈ s.live.filter (fun block => block.1 ≠ freed.1) ↔
      entry ∈ s.live ∧ entry ≠ freed := by
    intro entry
    rw [List.mem_filter, decide_eq_true_iff]
    constructor
    · exact fun both => ⟨both.1, fun equal => both.2 (equal ▸ rfl)⟩
    · exact fun both => ⟨both.1, fun same => both.2 (inv.eq_of_fst_eq both.1 member same)⟩
  rw [start] at released
  constructor
  · exact fun entry entryMember => inv.aligned entry ((kept entry).mp entryMember).1
  · exact fun entry entryMember => inv.small entry ((kept entry).mp entryMember).1
  · exact fun entry entryMember => inv.inRange entry ((kept entry).mp entryMember).1
  · exact inv.nodup.filter _
  · exact fun entry entryMember other otherMember =>
      inv.apart entry ((kept entry).mp entryMember).1 other ((kept other).mp otherMember).1
  · have joined : freeFrames (s.live.filter fun block => block.1 ≠ freed.1) =
        freeFrames s.live ∪ (blockOf freed).frames := by
      ext frame
      constructor
      · intro free
        by_cases inFreed : frame ∈ blockOf freed
        · exact .inr inFreed
        · left
          refine ⟨free.1, fun entry entryMember inBlock => ?_⟩
          by_cases same : entry = freed
          · exact inFreed (same ▸ inBlock)
          · exact free.2 entry ((kept entry).mpr ⟨entryMember, same⟩) inBlock
      · intro either
        rcases either with free | inFreed
        · exact ⟨free.1, fun entry entryMember => free.2 entry ((kept entry).mp entryMember).1⟩
        · refine ⟨inv.inRange freed member inFreed, fun entry entryMember inBlock => ?_⟩
          obtain ⟨old, different⟩ := (kept entry).mp entryMember
          exact inv.apart entry old freed member different frame inBlock inFreed
    rw [joined]
    exact released.owns
  · intro entry entryMember
    obtain ⟨old, different⟩ := (kept entry).mp entryMember
    have notFirst : entry.1 ≠ freed.1 := fun same =>
      different (inv.eq_of_fst_eq old member same)
    have headMember : entry.1 ∈ blockOf entry := by
      rw [← inv.aligned entry old]
      exact base_mem _
    have outside : entry.1 ∉ freeFrames s.live ∪ (blockOf freed).frames := by
      intro either
      rcases either with free | inFreed
      · exact free.2 entry old headMember
      · exact inv.apart entry old freed member different _ headMember inFreed
    rw [released.outside _ outside, Memory.setRefcount_other _ _ notFirst]
    exact inv.heads entry old
  · intro page notHead
    rw [released.refcount page]
    by_cases same : page = freed.1
    · subst same
      simp
    · rw [Memory.setRefcount_other _ _ same]
      apply inv.others
      intro head
      obtain ⟨entry, entryMember, equal⟩ := List.mem_map.mp head
      apply notHead
      refine List.mem_map.mpr ⟨entry, (kept entry).mpr ⟨entryMember, fun isFreed => ?_⟩, equal⟩
      exact same (equal ▸ isFreed ▸ rfl)

/-- A page whose count is not 0 is the head of a live block. -/
theorem Inv.mem_live_of_refcount {s : System} (inv : s.Inv) {page : Nat}
    (used : (s.memory.memMap page).refcount ≠ 0) : ∃ entry ∈ s.live, entry.1 = page := by
  by_contra none
  apply used
  apply inv.others
  intro head
  obtain ⟨entry, member, equal⟩ := List.mem_map.mp head
  exact none ⟨entry, member, equal⟩

/-- One call. -/
theorem Inv.step {s : System} (inv : s.Inv) (call : Call) (valid : call.Valid) :
    ∃ next, s.step call = .ok next ∧ next.Inv := by
  have bounded : freeFrames s.live ⊆ allFrames := fun _ free => free.1
  cases call with
  | alloc order =>
      rcases allocPages_spec inv.owns bounded order valid with ⟨runs, _⟩ | found
      · exact ⟨s, by simp only [System.step, runs], inv⟩
      · obtain ⟨block, memory, orders, runs, allocated⟩ := found
        refine ⟨⟨memory, (block.base, block.order) :: s.live⟩, ?_, inv.alloc allocated⟩
        simp only [System.step, runs, orders]
  | free page =>
      by_cases idle : (s.memory.memMap page).refcount = 0
      · have runs : freePages (some page) s.memory = .ok s.memory := by
          have inside : ¬ numPages ≤ page := Nat.not_le.mpr valid
          rw [freePages, if_neg inside, if_pos idle]
        have nothing : s.live.filter (fun block => block.1 ≠ page) = s.live := by
          apply List.filter_eq_self.mpr
          intro entry member
          apply decide_eq_true
          intro equal
          rw [← equal, inv.heads entry member] at idle
          exact Nat.one_ne_zero idle
        refine ⟨s, ?_, inv⟩
        simp only [System.step, runs, nothing]
      · obtain ⟨freed, member, equal⟩ := inv.mem_live_of_refcount idle
        subst equal
        have start := inv.aligned freed member
        have away : ∀ frame ∈ blockOf freed, frame ∉ freeFrames s.live :=
          fun frame inFreed free => free.2 freed member inFreed
        have joined := Set.union_subset bounded (inv.inRange freed member)
        have head : s.memory.memMap (blockOf freed).base = ⟨(blockOf freed).order, 1⟩ := by
          rw [start]
          exact inv.heads freed member
        obtain ⟨memory, runs, released⟩ := freePages_spec inv.owns away joined
          (inv.small freed member) head (inv.held member)
        rw [start] at runs
        exact ⟨_, by simp only [System.step, runs], inv.free member released⟩

/-- Any sequence of calls. -/
theorem Inv.run {s : System} (inv : s.Inv) {calls : List Call}
    (valid : ∀ call ∈ calls, call.Valid) : ∃ final, s.run calls = .ok final ∧ final.Inv := by
  induction calls generalizing s with
  | nil => exact ⟨s, rfl, inv⟩
  | cons call calls ih =>
      obtain ⟨next, stepped, nextInv⟩ := inv.step call (valid call List.mem_cons_self)
      obtain ⟨final, runs, finalInv⟩ :=
        ih nextInv fun other member => valid other (List.mem_cons_of_mem _ member)
      refine ⟨final, ?_, finalInv⟩
      rw [System.run, stepped]
      exact runs

end System

end OscKernel.Frames
