import OscKernel.Riscv.Footprint
import OscKernel.Threads.Scheduler

/-!
# The regions of the bump allocator (`utils.c` of `ex41`, `ex51` and `ex62`, `ex51/main.c`)

What `kmalloc` and `alloc_page` return in any order of calls, tasks with their stacks among it.
The counter is followed as a number that does not wrap around.
-/

namespace OscKernel.Threads

open Alloc Riscv

/-- The function that returned a pointer. -/
inductive Source where
  | kmalloc
  | allocPage
  deriving DecidableEq, Repr

/-- What its pointers are multiples of. -/
def Source.alignment : Source → Nat
  | kmalloc => 0x10
  | allocPage => 0x1000

/-- A region that was returned. -/
structure Region where
  source : Source
  base : BitVec 64
  size : Nat
  deriving DecidableEq

def Region.bytes (region : Region) : Set (BitVec 64) := bytesAt region.base region.size

/-- `STACK_SIZE` -/
def stackSize : BitVec 64 := 0x1000

/-- The calls that take memory; `kthread_create` takes a task and its stack. -/
inductive Call where
  | kmalloc (size : BitVec 64)
  | allocPage
  | kthreadCreate
  deriving DecidableEq, Repr

namespace Call

/-- The regions of a call, and the new value of `curr`. -/
def run : Call → BitVec 64 → List Region × BitVec 64
  | kmalloc size, curr =>
      let (p, curr) := Alloc.kmalloc curr size
      ([⟨.kmalloc, p, size.toNat⟩], curr)
  | allocPage, curr =>
      let (p, curr) := Alloc.allocPage curr
      ([⟨.allocPage, p, 0x1000⟩], curr)
  | kthreadCreate, curr =>
      let (task, curr) := Alloc.kmalloc curr taskSize
      let (stack, curr) := Alloc.allocPage curr
      ([⟨.kmalloc, task, taskSize.toNat⟩, ⟨.allocPage, stack, stackSize.toNat⟩], curr)

/-- Where the counter gets. -/
def top : Call → Nat → Nat
  | kmalloc size, n => roundUp 4 n + size.toNat
  | allocPage, n => roundUp 12 n + 0x1000
  | kthreadCreate, n => roundUp 12 (roundUp 4 n + 160) + 0x1000

end Call

/-- All regions of a sequence of calls. -/
def returned : List Call → BitVec 64 → List Region
  | [], _ => []
  | call :: rest, curr => (call.run curr).1 ++ returned rest (call.run curr).2

/-- Where the counter gets with a sequence of calls. -/
def top (calls : List Call) (n : Nat) : Nat := calls.foldl (fun n call => call.top n) n

/-- Aligned regions that lie one behind the other between two numbers. -/
inductive Rising : Nat → List Region → Nat → Prop where
  | nil {low high : Nat} (order : low ≤ high) : Rising low [] high
  | cons {low b high : Nat} {region : Region} {rest : List Region} (order : low ≤ b)
      (base : region.base = BitVec.ofNat 64 b) (aligned : region.source.alignment ∣ b)
      (later : Rising (b + region.size) rest high) : Rising low (region :: rest) high

namespace Rising

variable {low middle high : Nat} {regions more : List Region} {region : Region}

theorem le (rising : Rising low regions high) : low ≤ high := by
  induction rising with
  | nil order => exact order
  | cons order _ _ _ ih => omega

theorem append (rising : Rising low regions middle) (later : Rising middle more high) :
    Rising low (regions ++ more) high := by
  induction rising with
  | nil order =>
      cases later with
      | nil next => exact .nil (order.trans next)
      | cons next base aligned rest => exact .cons (order.trans next) base aligned rest
  | cons order base aligned _ ih => exact .cons order base aligned (ih later)

/-- Each region has its place. -/
theorem place (rising : Rising low regions high) (member : region ∈ regions) :
    ∃ b, region.base = BitVec.ofNat 64 b ∧ region.source.alignment ∣ b ∧ low ≤ b ∧
      b + region.size ≤ high := by
  induction rising with
  | nil => cases member
  | cons order base aligned later ih =>
      rcases List.mem_cons.mp member with rfl | inRest
      · exact ⟨_, base, aligned, order, later.le⟩
      · obtain ⟨b, otherBase, otherAligned, otherOrder, inside⟩ := ih inRest
        exact ⟨b, otherBase, otherAligned, by omega, inside⟩

end Rising

section Bytes

variable {low high : Nat} {x : BitVec 64} {regions : List Region} {region : Region}

theorem Rising.mem_bytes (rising : Rising low regions high) (fits : high ≤ 2 ^ 64)
    (member : region ∈ regions) (inside : x ∈ region.bytes) : low ≤ x.toNat ∧ x.toNat < high := by
  obtain ⟨b, base, -, order, ends⟩ := rising.place member
  rw [Region.bytes, base, mem_bytesAt_ofNat (by omega)] at inside
  omega

theorem Rising.pairwise_disjoint (rising : Rising low regions high) (fits : high ≤ 2 ^ 64) :
    regions.Pairwise fun region other => Disjoint region.bytes other.bytes := by
  induction rising with
  | nil => exact .nil
  | @cons low b high region rest order base aligned later ih =>
      refine List.pairwise_cons.mpr ⟨?_, ih fits⟩
      intro other member
      have ends := later.le
      rw [Set.disjoint_left]
      intro x inside otherInside
      rw [Region.bytes, base, mem_bytesAt_ofNat (by omega)] at inside
      have behind := later.mem_bytes fits member otherInside
      omega

theorem dvd_toNat_ofNat {d : Nat} (source : Source) (multiple : source.alignment ∣ d) :
    source.alignment ∣ (BitVec.ofNat 64 d).toNat := by
  rw [BitVec.toNat_ofNat]
  cases source with
  | kmalloc => exact (Nat.dvd_mod_iff (by decide)).mpr multiple
  | allocPage => exact (Nat.dvd_mod_iff (by decide)).mpr multiple

end Bytes

/-! ## Calls -/

/-- The regions of one call lie behind the counter, which moves to their end. -/
theorem Call.run_rising (call : Call) (n : Nat) :
    Rising n (call.run (BitVec.ofNat 64 n)).1 (call.top n) ∧
      (call.run (BitVec.ofNat 64 n)).2 = BitVec.ofNat 64 (call.top n) := by
  cases call with
  | kmalloc size =>
      rw [run, kmalloc_ofNat]
      exact ⟨.cons (le_roundUp 4 n) rfl (dvd_roundUp 4 n) (.nil (Nat.le_refl _)), rfl⟩
  | allocPage =>
      rw [run, allocPage_ofNat]
      exact ⟨.cons (le_roundUp 12 n) rfl (dvd_roundUp 12 n) (.nil (Nat.le_refl _)), rfl⟩
  | kthreadCreate =>
      have task : taskSize.toNat = 160 := rfl
      rw [run, kmalloc_ofNat, task]
      dsimp only
      rw [allocPage_ofNat]
      refine ⟨.cons (le_roundUp 4 n) rfl (dvd_roundUp 4 n) ?_, rfl⟩
      exact .cons (le_roundUp 12 _) rfl (dvd_roundUp 12 _) (.nil (Nat.le_refl _))

theorem returned_rising (calls : List Call) (n : Nat) :
    Rising n (returned calls (BitVec.ofNat 64 n)) (top calls n) := by
  induction calls generalizing n with
  | nil => exact .nil (Nat.le_refl n)
  | cons call rest ih =>
      obtain ⟨first, moved⟩ := call.run_rising n
      rw [returned, moved]
      exact first.append (ih (call.top n))

/-- `kthread_create` of the scheduler takes the same task and stack. -/
theorem kthreadCreate_run (s : Sched) :
    Call.kthreadCreate.run s.curr =
      ([⟨.kmalloc, (kthreadCreate s).1, taskSize.toNat⟩,
        ⟨.allocPage, (kthreadCreate s).2.stack (kthreadCreate s).1, stackSize.toNat⟩],
        (kthreadCreate s).2.curr) := by
  simp only [kthreadCreate, Function.update_self]
  rfl

/-- Regions are aligned, lie behind `_end` and do not overlap, and none with a byte is returned
again. -/
theorem returned_disjoint (calls : List Call) (start : BitVec 64)
    (fits : top calls start.toNat ≤ 2 ^ 64) :
    (∀ region ∈ returned calls start, region.source.alignment ∣ region.base.toNat ∧
      ∀ x ∈ region.bytes, start ≤ x) ∧
    (returned calls start).Pairwise (fun region other => Disjoint region.bytes other.bytes) ∧
    (returned calls start).Pairwise (fun region other => 0 < region.size →
      ¬ (other.base = region.base ∧ other.size = region.size)) := by
  have rising := returned_rising calls start.toNat
  rw [BitVec.ofNat_toNat, BitVec.setWidth_eq] at rising
  have disjoint := rising.pairwise_disjoint fits
  refine ⟨?_, disjoint, ?_⟩
  · intro region member
    obtain ⟨b, base, aligned, -, -⟩ := rising.place member
    constructor
    · rw [base]
      exact dvd_toNat_ofNat _ aligned
    · intro x inside
      exact (rising.mem_bytes fits member inside).1
  · refine disjoint.imp ?_
    rintro region other apart positive ⟨base, size⟩
    have first : region.base ∈ region.bytes := self_mem_bytesAt positive
    have again : region.base ∈ other.bytes := by
      rw [Region.bytes, base, size]
      exact first
    exact Set.disjoint_left.mp apart first again

/-- Two tasks and a page table. -/
theorem returned_disjoint_tasks :
    (returned [.kthreadCreate, .allocPage, .kthreadCreate] 0x80205000).Pairwise
      fun region other => Disjoint region.bytes other.bytes :=
  (returned_disjoint _ _ (by decide +kernel)).2.1

/-- The empty region of `kmalloc(0)` is returned twice. -/
theorem empty_region_again :
    top [.kmalloc 0, .kmalloc 0] (0x80205000 : BitVec 64).toNat ≤ 2 ^ 64 ∧
      returned [.kmalloc 0, .kmalloc 0] 0x80205000 =
        [⟨.kmalloc, 0x80205000, 0⟩, ⟨.kmalloc, 0x80205000, 0⟩] := by
  decide +kernel

end OscKernel.Threads
