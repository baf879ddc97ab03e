import OscKernel.Alloc.Bump
import OscKernel.Loops.Iterate
import OscKernel.Paging.KernelMapping

/-!
# Page tables of user programs (`ex62/main.c`)

`setup_vm` maps the physical memory at `PAGE_OFFSET` with pages of 1 GiB.  After it the
kernel reads and writes through that mapping only: every access of `pagewalk` goes through
`deref`, which is the translation that `setup_vm` installs, and an access outside it ends
with a fault.
-/

namespace OscKernel.Paging

open Alloc Loops Words

/-- `NUM_PAGES * PAGE_SIZE` -/
def memorySize : Nat := 0x280000 * 2 ^ 12

/-- `PTE_V` -/
def pteV : BitVec 64 := 1

/-- `phys_to_virt` -/
def physToVirt (x : Nat) : BitVec 64 := BitVec.ofNat 64 x + pageOffset

/-- `virt_to_phys` -/
def virtToPhys (va : BitVec 64) : BitVec 64 := va - pageOffset

/-- The physical address behind a pointer of the kernel. -/
def deref (va : BitVec 64) : Option Nat :=
  if (virtToPhys va).toNat < memorySize then some (virtToPhys va).toNat else none

/-- `memset(p, 0, 0x1000)` in physical memory. -/
def clearPage (m : PhysMem) (start : Nat) : PhysMem :=
  fun address => if start ≤ address ∧ address < start + 0x1000 then 0 else m address

/-- The loaded kernel: the physical address of `pgd`, the address `_end`, and the memory. -/
structure Boot where
  pgd : Nat
  endAddr : BitVec 64
  memory : PhysMem
  pgd_aligned : 2 ^ 12 ∣ pgd
  pgd_below : pgd + 2 ^ 12 ≤ (virtToPhys endAddr).toNat
  end_inside : (virtToPhys endAddr).toNat ≤ memorySize

namespace Boot

/-- `&pgd[i]` -/
def pgdSlot (boot : Boot) (i : Nat) : Nat := boot.pgd + 8 * i

/-- The first rounds of the loop of `setup_vm`. -/
def superPages (boot : Boot) : Nat → PhysMem → PhysMem
  | 0, m => m
  | i + 1, m => Function.update (superPages boot i m) (boot.pgdSlot (256 + i))
      ((BitVec.ofNat 64 i * 0x40000) <<< 10 ||| protKernel)

/-- The memory after `setup_vm`. -/
def setupVm (boot : Boot) : PhysMem :=
  boot.superPages (0x280000 / 0x40000) (clearPage boot.memory boot.pgd)

/-- The root page number that `setup_vm` writes to `satp`. -/
def root (boot : Boot) : Nat := boot.pgd / 2 ^ 12

end Boot

/-! ## `pagewalk` and `map_pages` -/

/-- The kernel while it maps pages: the memory, and `curr` of the allocator. -/
structure Kernel where
  mem : PhysMem
  curr : BitVec 64

/-- An access outside the mapping. -/
inductive Fault where
  | badAddress (va : BitVec 64)
  deriving DecidableEq, Repr

namespace Kernel

/-- `*va` -/
def load (k : Kernel) (va : BitVec 64) : Except Fault (BitVec 64) :=
  match deref va with
  | some address => .ok (k.mem address)
  | none => .error (.badAddress va)

/-- `*va = value` -/
def store (k : Kernel) (va value : BitVec 64) : Except Fault Kernel :=
  match deref va with
  | some address => .ok { k with mem := Function.update k.mem address value }
  | none => .error (.badAddress va)

/-- `memset(va, 0, 0x1000)` for the first address of a page. -/
def clear (k : Kernel) (va : BitVec 64) : Except Fault Kernel :=
  match deref va with
  | some address => .ok { k with mem := clearPage k.mem address }
  | none => .error (.badAddress va)

end Kernel

/-- One round of the loop over the levels, with the table found. -/
def nextTable (level : Nat) (vpn pageTable : BitVec 64) (k : Kernel) :
    Except Fault (BitVec 64 × Kernel) := do
  let idx := (vpn >>> (level * 9)) &&& 0x1ff
  let entry ← k.load (pageTable + 8 * idx)
  -- page table present
  if entry &&& pteV ≠ 0 then
    return ((entry >>> 10) <<< 12, k)
  -- go to next level
  else
    let nextPageTable := (allocPage k.curr).1
    let k : Kernel := { k with curr := (allocPage k.curr).2 }
    let k ← k.clear nextPageTable
    let k ← k.store (pageTable + 8 * idx) (makePte (virtToPhys nextPageTable) pteV)
    return (nextPageTable, k)

/-- `pagewalk`, with the address of `pgd`. -/
def pagewalk (pgd va pa prot : BitVec 64) (k : Kernel) : Except Fault Kernel := do
  let vpn := va >>> 12
  let (pageTable, k) ← nextTable 2 vpn pgd k
  let (pageTable, k) ← nextTable 1 vpn pageTable k
  let idx := vpn &&& 0x1ff
  k.store (pageTable + 8 * idx) (makePte pa prot)

/-- One round of `map_pages`; `i` is an `int`, compared with `size` as an `unsigned long`.
`PAGE_SIZE` is an `unsigned long` too, so the sum with it does not overflow, and wraps when it is
converted back to an `int`. -/
def mapRound (pgd va size pa prot : BitVec 64) (s : BitVec 32 × Kernel) :
    Round (BitVec 32 × Kernel) (Except Fault Kernel) :=
  let i := s.1.signExtend 64
  if i.toNat < size.toNat then
    match pagewalk pgd (va + i) (pa + i) prot s.2 with
    | .ok k => .next (s.1 + 0x1000, k)
    | .error fault => .stop (.error fault)
  else .stop (.ok s.2)

/-- `map_pages`, for at most `fuel` rounds of its loop. -/
def mapPages (fuel : Nat) (pgd va size pa prot : BitVec 64) (k : Kernel) :
    Option (Except Fault Kernel) :=
  iterate (mapRound pgd va size pa prot) fuel (0, k)

/-! ## The tables of `setup_vm` -/

namespace Boot

variable (boot : Boot)

theorem pgdSlot_inj {i j : Nat} : boot.pgdSlot i = boot.pgdSlot j ↔ i = j := by
  rw [pgdSlot, pgdSlot]
  omega

theorem root_slot (va : Nat) : slot boot.root 2 va = boot.pgdSlot (index 2 va) := by
  have aligned := boot.pgd_aligned
  rw [slot, pgdSlot, root]
  omega

theorem superPages_slot (m : PhysMem) (n i : Nat) : boot.superPages n m (boot.pgdSlot i) =
    if 256 ≤ i ∧ i < 256 + n then (BitVec.ofNat 64 (i - 256) * 0x40000) <<< 10 ||| protKernel
    else m (boot.pgdSlot i) := by
  induction n with
  | zero => rw [superPages, if_neg (by omega)]
  | succ n ih =>
      rw [superPages]
      by_cases last : i = 256 + n
      · subst last
        rw [Function.update_self, if_pos (by omega), Nat.add_sub_cancel_left]
      · rw [Function.update_of_ne (mt boot.pgdSlot_inj.mp last), ih]
        by_cases earlier : 256 ≤ i ∧ i < 256 + n
        · rw [if_pos earlier, if_pos (by omega)]
        · rw [if_neg earlier, if_neg (by omega)]

/-- `setup_vm` writes to the root table only. -/
theorem setupVm_outside {address : Nat}
    (outside : address < boot.pgd ∨ boot.pgd + 0x1000 ≤ address) :
    boot.setupVm address = boot.memory address := by
  have rounds : ∀ n ≤ 10, ∀ m, boot.superPages n m address = m address := by
    intro n
    induction n with
    | zero => exact fun _ _ => rfl
    | succ n ih =>
        intro few m
        have notSlot : address ≠ boot.pgdSlot (256 + n) := by
          rw [pgdSlot]
          omega
        rw [superPages, Function.update_of_ne notSlot, ih (by omega)]
  rw [setupVm, rounds _ (by decide), clearPage, if_neg (by omega)]

theorem setupVm_slot {i : Nat} (small : i < 512) : boot.setupVm (boot.pgdSlot i) =
    if 256 ≤ i ∧ i < 266 then (BitVec.ofNat 64 (i - 256) * 0x40000) <<< 10 ||| protKernel
    else 0 := by
  have cleared : clearPage boot.memory boot.pgd (boot.pgdSlot i) = 0 := by
    rw [clearPage, if_pos]
    rw [pgdSlot]
    omega
  rw [setupVm, superPages_slot, cleared]

/-- Entry `256 + i` maps the pages of the gigabyte `i`. -/
theorem decode_superPage {i : Nat} (small : i < 10) :
    decode ((BitVec.ofNat 64 i * 0x40000) <<< 10 ||| protKernel) =
      .page (i * 2 ^ 18) protKernel.toNat := by
  have entries : ∀ i : Fin 10, decode ((BitVec.ofNat 64 i * 0x40000) <<< 10 ||| protKernel) =
      .page (i * 2 ^ 18) protKernel.toNat := by decide
  exact entries ⟨i, small⟩

theorem walk_setupVm (va : Nat) : walk boot.setupVm 2 boot.root va =
    if 256 ≤ index 2 va ∧ index 2 va < 266 then
      some ⟨(index 2 va - 256) * 2 ^ 30 + va % 2 ^ 30, protKernel.toNat⟩
    else none := by
  have entry := boot.setupVm_slot (i := index 2 va) index_lt
  rw [← boot.root_slot] at entry
  by_cases mapped : 256 ≤ index 2 va ∧ index 2 va < 266
  · rw [if_pos mapped] at entry ⊢
    have page := decode_superPage (i := index 2 va - 256) (by omega)
    rw [← entry] at page
    have whole : 2 ^ (9 * 2) ∣ (index 2 va - 256) * 2 ^ 18 := Nat.dvd_mul_left _ _
    rw [walk_of_page page, leaf, if_pos whole, span]
    simp only [Option.some.injEq, Translation.mk.injEq, and_true]
    omega
  · rw [if_neg mapped] at entry ⊢
    exact walk_of_invalid (entry ▸ decode_zero)

/-- The pointers that the kernel can use are those of the higher half that `setup_vm`
maps, and they reach the address that the hardware finds. -/
theorem translate_setupVm (va : BitVec 64) : translate boot.setupVm boot.root va =
    (deref va).map fun address => ⟨address, protKernel.toNat⟩ := by
  have bound := va.isLt
  have offset : (virtToPhys va).toNat = (va.toNat + 2 ^ 38) % 2 ^ 64 := by
    rw [virtToPhys, BitVec.toNat_sub, show pageOffset.toNat = 2 ^ 64 - 2 ^ 38 from rfl]
    omega
  have rootIndex : index 2 va.toNat = va.toNat / 2 ^ 30 % 512 := rfl
  rw [translate, deref, memorySize]
  by_cases half : Lower va ∨ Higher va
  · rw [if_pos half, walk_setupVm]
    rw [Lower, Higher] at half
    by_cases inside : (virtToPhys va).toNat < 0x280000 * 2 ^ 12
    · rw [if_pos inside, if_pos (by omega)]
      simp only [Option.map_some, Option.some.injEq, Translation.mk.injEq, and_true]
      omega
    · rw [if_neg inside, if_neg (by omega)]
      rfl
  · rw [if_neg half]
    rw [Lower, Higher] at half
    rw [if_neg (by omega)]
    rfl

/-- The mapping is exact: it reaches from `PAGE_OFFSET` over the whole memory and nothing
else, every address as `virt_to_phys` says, and `phys_to_virt` finds every address. -/
theorem setup_vm_exact :
    (∀ va, (translate boot.setupVm boot.root va).isSome ↔
      pageOffset.toNat ≤ va.toNat ∧ va.toNat < pageOffset.toNat + memorySize) ∧
    (∀ va t, translate boot.setupVm boot.root va = some t → t.pa = (virtToPhys va).toNat) ∧
    ∀ x < memorySize, translate boot.setupVm boot.root (physToVirt x) =
      some ⟨x, protKernel.toNat⟩ := by
  have offset : pageOffset.toNat = 2 ^ 64 - 2 ^ 38 := rfl
  refine ⟨?_, ?_, ?_⟩
  · intro va
    have bound := va.isLt
    rw [translate_setupVm, Option.isSome_map, deref]
    by_cases inside : (virtToPhys va).toNat < memorySize
    · rw [if_pos inside]
      rw [virtToPhys, BitVec.toNat_sub] at inside
      rw [memorySize] at *
      simp only [Option.isSome_some, true_iff]
      omega
    · rw [if_neg inside]
      rw [virtToPhys, BitVec.toNat_sub] at inside
      rw [memorySize] at *
      simp only [Option.isSome_none, Bool.false_eq_true, false_iff]
      omega
  · intro va t translated
    rw [translate_setupVm, Option.map_eq_some_iff] at translated
    obtain ⟨address, reached, rfl⟩ := translated
    rw [deref] at reached
    split at reached
    · exact (Option.some.inj reached).symm
    · cases reached
  · intro x inside
    have address : (virtToPhys (physToVirt x)).toNat = x := by
      rw [virtToPhys, physToVirt, BitVec.add_sub_cancel, BitVec.toNat_ofNat]
      rw [memorySize] at inside
      omega
    rw [translate_setupVm, deref, address, if_pos inside]
    rfl

end Boot

end OscKernel.Paging
