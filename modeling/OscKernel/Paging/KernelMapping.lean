import OscKernel.Paging.Walk
import OscKernel.Words.Masks

/-!
# The kernel mapping (`ex61/main.c`)

`setup_vm` runs with address translation off and fills the root table `pgd` and three of
the tables `pmd`: one for the identity mapping, one for the mapping in the higher half,
one for the UART.  The loop writes all 512 entries of the first two tables, starting at
the entry of the load address; entries after the last one wrap around to the first.
-/

namespace OscKernel.Paging

open Words

/-- `PAGE_OFFSET` -/
def pageOffset : BitVec 64 := 0xffffffc000000000

/-- `PMD_SIZE` -/
def pmdSize : BitVec 64 := (1 : BitVec 64) <<< 21

/-- `ENTRIES_PER_TABLE` -/
def entriesPerTable : Nat := 512

/-- `PROT_KERNEL`: all of V, R, W, X, G, A and D. -/
def protKernel : BitVec 64 := 0xef

/-- `PROT_NON_LEAF`: V and G. -/
def protNonLeaf : BitVec 64 := 0x21

/-- `SUPER_L1` -/
def superL1 : BitVec 64 := (0xffffffffffffffff : BitVec 64) <<< 21

/-- `ID_MAP_idx` -/
def idMapIdx : Nat := 0

/-- `HH_MAP_idx` -/
def hhMapIdx : Nat := 1

/-- `UART_MAP_idx` -/
def uartMapIdx : Nat := 2

/-- The image at a load address: where `_start` and the page tables are in physical memory,
and the memory, in which the tables are zero. -/
structure Image where
  start : BitVec 64
  pgd : BitVec 64
  pmd : BitVec 64
  memory : PhysMem
  start_aligned : 2 ^ 21 ∣ start.toNat
  start_lower : 0x80000000 ≤ start.toNat
  start_upper : start.toNat < 0x100000000
  pgd_aligned : 2 ^ 12 ∣ pgd.toNat
  pmd_aligned : 2 ^ 12 ∣ pmd.toNat
  pgd_physical : pgd.toNat + 2 ^ 12 ≤ 2 ^ 56
  pmd_physical : pmd.toNat + 4 * 2 ^ 12 ≤ 2 ^ 56
  apart : pgd.toNat + 2 ^ 12 ≤ pmd.toNat ∨ pmd.toNat + 4 * 2 ^ 12 ≤ pgd.toNat
  pgd_blank : ∀ i < 512, memory (pgd.toNat + 8 * i) = 0
  pmd_blank : ∀ k < 4, ∀ i < 512, memory (pmd.toNat + 2 ^ 12 * k + 8 * i) = 0

namespace Image

/-- `&pgd[i]` -/
def pgdSlot (image : Image) (i : Nat) : Nat := image.pgd.toNat + 8 * i

/-- `&pmd[k][i]` -/
def pmdSlot (image : Image) (k i : Nat) : Nat := image.pmd.toNat + 2 ^ 12 * k + 8 * i

/-- `(unsigned long)&pmd[k]` -/
def pmdTable (image : Image) (k : Nat) : BitVec 64 := image.pmd + BitVec.ofNat 64 (2 ^ 12 * k)

/-- `(va >> PGD_SHIFT) & 0x1ff` -/
def pgdIndex (va : BitVec 64) : Nat := (va >>> 30 &&& 0x1ff).toNat

/-- `(va >> PMD_SHIFT) & 0x1ff` -/
def pmdIndex (va : BitVec 64) : Nat := (va >>> 21 &&& 0x1ff).toNat

/-- The memory and the two counters of the loop of `setup_vm`. -/
structure Filling where
  memory : PhysMem
  va : BitVec 64
  pa : BitVec 64

/-- One round of the loop. -/
def fillRound (image : Image) (s : Filling) : Filling :=
  let m := Function.update s.memory (image.pmdSlot hhMapIdx (pmdIndex s.va))
    (makePte s.pa protKernel)
  let m := Function.update m (image.pmdSlot idMapIdx (pmdIndex s.pa)) (makePte s.pa protKernel)
  ⟨m, s.va + pmdSize, s.pa + pmdSize⟩

/-- The loop, for a number of rounds. -/
def fill (image : Image) : Nat → Filling → Filling
  | 0, s => s
  | n + 1, s => fillRound image (fill image n s)

/-- The memory after `setup_vm`. -/
def setupVm (image : Image) : PhysMem :=
  let uartPhy : BitVec 64 := 0x0000000010000000
  let uartVir : BitVec 64 := 0xffffffc010000000
  let pa := image.start &&& superL1
  let va := pa + pageOffset
  -- high-half mapping
  let m := Function.update image.memory (image.pgdSlot (pgdIndex va))
    (makePte (image.pmdTable hhMapIdx) protNonLeaf)
  -- identity mapping
  let m := Function.update m (image.pgdSlot (pgdIndex pa))
    (makePte (image.pmdTable idMapIdx) protNonLeaf)
  let m := (image.fill entriesPerTable ⟨m, va, pa⟩).memory
  -- uart mapping
  let m := Function.update m (image.pgdSlot (pgdIndex uartVir))
    (makePte (image.pmdTable uartMapIdx) protNonLeaf)
  Function.update m (image.pmdSlot uartMapIdx (pmdIndex uartVir))
    (makePte (uartPhy &&& superL1) protKernel)

/-- The root page number that `setup_vm` writes to `satp`. -/
def root (image : Image) : Nat := image.pgd.toNat / 2 ^ 12

/-- Translation under the tables that `setup_vm` leaves. -/
def translates (image : Image) (va : BitVec 64) : Option Translation :=
  translate image.setupVm image.root va

/-! ## The counters -/

theorem toNat_and_index (x : BitVec 64) : (x &&& 0x1ff).toNat = x.toNat % 512 :=
  toNat_and_low (k := 9) (by decide)

theorem pgdIndex_eq (va : BitVec 64) : pgdIndex va = va.toNat / 2 ^ 30 % 512 := by
  rw [pgdIndex, toNat_and_index, BitVec.toNat_ushiftRight, Nat.shiftRight_eq_div_pow]

theorem pmdIndex_eq (va : BitVec 64) : pmdIndex va = va.toNat / 2 ^ 21 % 512 := by
  rw [pmdIndex, toNat_and_index, BitVec.toNat_ushiftRight, Nat.shiftRight_eq_div_pow]

section SetupVm

variable (image : Image)

/-- The load address is not changed by the mask. -/
theorem start_masked : image.start &&& superL1 = image.start := by
  have aligned := image.start_aligned
  have upper := image.start_upper
  apply BitVec.eq_of_toNat_eq
  rw [toNat_and_high (k := 21) (by decide)]
  omega

theorem toNat_add_pageOffset {pa : BitVec 64} (small : pa.toNat < 2 ^ 38) :
    (pa + pageOffset).toNat = 2 ^ 64 - 2 ^ 38 + pa.toNat := by
  rw [BitVec.toNat_add, show pageOffset.toNat = 2 ^ 64 - 2 ^ 38 from rfl]
  omega

theorem pmdSlot_inj {k k' i i' : Nat} (small : i < 512) (small' : i' < 512)
    (equal : image.pmdSlot k i = image.pmdSlot k' i') : k = k' ∧ i = i' := by
  rw [pmdSlot, pmdSlot] at equal
  omega

theorem pgdSlot_ne_pmdSlot {k i j : Nat} (table : k < 4) (small : i < 512) (small' : j < 512) :
    image.pgdSlot j ≠ image.pmdSlot k i := by
  have apart := image.apart
  rw [pgdSlot, pmdSlot]
  omega

/-! ## The loop -/

/-- The state of the loop after `n` rounds from a memory `m`. -/
structure Filled (m : PhysMem) (n : Nat) (s : Filling) : Prop where
  pa : s.pa.toNat = image.start.toNat + n * 2 ^ 21
  va : s.va.toNat = 2 ^ 64 - 2 ^ 38 + s.pa.toNat
  entries : ∀ k < 2, ∀ j < n, s.memory (image.pmdSlot k ((image.start.toNat / 2 ^ 21 + j) % 512)) =
    makePte (BitVec.ofNat 64 (image.start.toNat + j * 2 ^ 21)) protKernel
  others : ∀ address, (∀ k < 2, ∀ i < 512, address ≠ image.pmdSlot k i) →
    s.memory address = m address

variable {image} {m : PhysMem} {n : Nat} {s : Filling}

theorem Filled.index (filled : Filled image m n s) :
    pmdIndex s.pa = (image.start.toNat / 2 ^ 21 + n) % 512 ∧
      pmdIndex s.va = (image.start.toNat / 2 ^ 21 + n) % 512 := by
  have pa := filled.pa
  have va := filled.va
  rw [pmdIndex_eq, pmdIndex_eq]
  constructor
  · omega
  · omega

theorem Filled.round (filled : Filled image m n s) (more : n < 512) :
    Filled image m (n + 1) (fillRound image s) := by
  have upper := image.start_upper
  have pa := filled.pa
  have va := filled.va
  have stride : pmdSize.toNat = 2 ^ 21 := rfl
  obtain ⟨paIndex, vaIndex⟩ := filled.index
  have paNext : (s.pa + pmdSize).toNat = image.start.toNat + (n + 1) * 2 ^ 21 := by
    rw [BitVec.toNat_add, stride]
    omega
  have entry : s.pa = BitVec.ofNat 64 (image.start.toNat + n * 2 ^ 21) := by
    rw [← filled.pa, BitVec.ofNat_toNat, BitVec.setWidth_eq]
  constructor
  · exact paNext
  · show (s.va + pmdSize).toNat = 2 ^ 64 - 2 ^ 38 + (s.pa + pmdSize).toNat
    rw [paNext, BitVec.toNat_add, stride]
    omega
  · intro k table j below
    simp only [fillRound, paIndex, vaIndex]
    by_cases last : j = n
    · subst last
      rw [← entry]
      by_cases identity : k = idMapIdx
      · rw [identity, Function.update_self]
      · have higher : k = hhMapIdx := by
          simp only [idMapIdx, hhMapIdx] at *
          omega
        rw [higher, Function.update_of_ne, Function.update_self]
        intro equal
        have tables := (image.pmdSlot_inj (Nat.mod_lt _ (by decide)) (Nat.mod_lt _ (by decide))
          equal).1
        exact absurd tables (by decide)
    · -- Fewer than 512 rounds write different entries.
      have other : ∀ k', image.pmdSlot k ((image.start.toNat / 2 ^ 21 + j) % 512) ≠
          image.pmdSlot k' ((image.start.toNat / 2 ^ 21 + n) % 512) := by
        intro k' equal
        have indices := (image.pmdSlot_inj (Nat.mod_lt _ (by decide)) (Nat.mod_lt _ (by decide))
          equal).2
        omega
      rw [Function.update_of_ne (other _), Function.update_of_ne (other _)]
      exact filled.entries k table j (by omega)
  · intro address away
    have first := away idMapIdx (by decide) _
      (Nat.mod_lt (image.start.toNat / 2 ^ 21 + n) (show 512 > 0 by decide))
    have second := away hhMapIdx (by decide) _
      (Nat.mod_lt (image.start.toNat / 2 ^ 21 + n) (show 512 > 0 by decide))
    simp only [fillRound, paIndex, vaIndex]
    rw [Function.update_of_ne first, Function.update_of_ne second]
    exact filled.others address away

variable (image)

theorem fill_filled (m : PhysMem) (enough : n ≤ 512) :
    Filled image m n (image.fill n ⟨m, image.start + pageOffset, image.start⟩) := by
  have upper := image.start_upper
  induction n with
  | zero =>
      constructor
      · show image.start.toNat = image.start.toNat + 0 * 2 ^ 21
        omega
      · exact toNat_add_pageOffset (by omega)
      · intro k table j below
        omega
      · exact fun _ _ => rfl
  | succ n ih => exact (ih (by omega)).round (by omega)

/-! ## The tables -/

/-- Index of the root entry of the identity mapping. -/
def gib (image : Image) : Nat := image.start.toNat / 2 ^ 30

/-- The physical address that entry `i` of the two filled tables maps. -/
def mappedPa (image : Image) (i : Nat) : Nat :=
  image.start.toNat + (i + 512 - image.start.toNat / 2 ^ 21 % 512) % 512 * 2 ^ 21

theorem gib_bounds : image.gib = 2 ∨ image.gib = 3 := by
  have lower := image.start_lower
  have upper := image.start_upper
  rw [gib]
  omega

theorem pgdIndex_start : pgdIndex image.start = image.gib := by
  have bounds := image.gib_bounds
  rw [pgdIndex_eq]
  rw [gib] at *
  omega

theorem pgdIndex_high : pgdIndex (image.start + pageOffset) = 256 + image.gib := by
  have upper := image.start_upper
  rw [pgdIndex_eq, toNat_add_pageOffset (by omega), gib]
  omega

theorem setupVm_eq : image.setupVm =
    Function.update
      (Function.update
        (image.fill 512
          ⟨Function.update
            (Function.update image.memory (image.pgdSlot (256 + image.gib))
              (makePte (image.pmdTable hhMapIdx) protNonLeaf))
            (image.pgdSlot image.gib) (makePte (image.pmdTable idMapIdx) protNonLeaf),
            image.start + pageOffset, image.start⟩).memory
        (image.pgdSlot 256) (makePte (image.pmdTable uartMapIdx) protNonLeaf))
      (image.pmdSlot uartMapIdx 128) (makePte 0x10000000 protKernel) := by
  have root : pgdIndex 0xffffffc010000000 = 256 := by decide
  have entry : pmdIndex 0xffffffc010000000 = 128 := by decide
  have address : (0x0000000010000000 : BitVec 64) &&& superL1 = 0x10000000 := by decide
  simp only [setupVm, start_masked, pgdIndex_start, pgdIndex_high, root, entry, address,
    entriesPerTable]

theorem setupVm_pgd {i : Nat} (small : i < 512) : image.setupVm (image.pgdSlot i) =
    if i = 256 then makePte (image.pmdTable uartMapIdx) protNonLeaf
    else if i = image.gib then makePte (image.pmdTable idMapIdx) protNonLeaf
    else if i = 256 + image.gib then makePte (image.pmdTable hhMapIdx) protNonLeaf
    else 0 := by
  have slots : ∀ j, image.pgdSlot i = image.pgdSlot j ↔ i = j := by
    intro j
    rw [pgdSlot, pgdSlot]
    omega
  have away : image.pgdSlot i ≠ image.pmdSlot uartMapIdx 128 :=
    image.pgdSlot_ne_pmdSlot (by decide) (by decide) small
  rw [setupVm_eq, Function.update_of_ne away]
  simp only [Function.update_apply, slots]
  rw [(image.fill_filled _ (Nat.le_refl _)).others _ fun k table j below =>
    image.pgdSlot_ne_pmdSlot (by omega) below small]
  simp only [Function.update_apply, slots]
  rw [show image.memory (image.pgdSlot i) = 0 from image.pgd_blank i small]

theorem setupVm_uart {i : Nat} (small : i < 512) : image.setupVm (image.pmdSlot uartMapIdx i) =
    if i = 128 then makePte 0x10000000 protKernel else 0 := by
  have slots : image.pmdSlot uartMapIdx i = image.pmdSlot uartMapIdx 128 ↔ i = 128 := by
    rw [pmdSlot, pmdSlot]
    omega
  have away : ∀ j < 512, image.pmdSlot uartMapIdx i ≠ image.pgdSlot j := fun j below =>
    (image.pgdSlot_ne_pmdSlot (by decide) small below).symm
  have bounds := image.gib_bounds
  rw [setupVm_eq]
  simp only [Function.update_apply _ (image.pmdSlot uartMapIdx 128), slots]
  rw [Function.update_of_ne (away _ (by decide))]
  rw [(image.fill_filled _ (Nat.le_refl _)).others _ fun k table j below equal => by
    have tables := (image.pmdSlot_inj small below equal).1
    simp only [uartMapIdx] at tables
    omega]
  rw [Function.update_of_ne (away _ (by omega)), Function.update_of_ne (away _ (by omega))]
  rw [show image.memory (image.pmdSlot uartMapIdx i) = 0 from
    image.pmd_blank uartMapIdx (by decide) i small]

theorem setupVm_pmd {k i : Nat} (table : k < 2) (small : i < 512) :
    image.setupVm (image.pmdSlot k i) =
      makePte (BitVec.ofNat 64 (image.mappedPa i)) protKernel := by
  have notUart : image.pmdSlot k i ≠ image.pmdSlot uartMapIdx 128 := by
    intro equal
    have tables := (image.pmdSlot_inj small (by decide) equal).1
    simp only [uartMapIdx] at tables
    omega
  have notRoot : image.pmdSlot k i ≠ image.pgdSlot 256 :=
    (image.pgdSlot_ne_pmdSlot (by omega) small (by decide)).symm
  have round : (i + 512 - image.start.toNat / 2 ^ 21 % 512) % 512 < 512 :=
    Nat.mod_lt _ (by decide)
  have entry : (image.start.toNat / 2 ^ 21 +
      (i + 512 - image.start.toNat / 2 ^ 21 % 512) % 512) % 512 = i := by
    omega
  have filled := (image.fill_filled (Function.update
    (Function.update image.memory (image.pgdSlot (256 + image.gib))
      (makePte (image.pmdTable hhMapIdx) protNonLeaf))
    (image.pgdSlot image.gib) (makePte (image.pmdTable idMapIdx) protNonLeaf))
    (Nat.le_refl _)).entries k table _ round
  rw [entry] at filled
  rw [setupVm_eq, Function.update_of_ne notUart, Function.update_of_ne notRoot, filled]
  rfl

/-! ## Translation -/

theorem decode_table {k : Nat} (table : k < 4) :
    decode (makePte (image.pmdTable k) protNonLeaf) =
      .table (image.pmd.toNat / 2 ^ 12 + k) := by
  have physical := image.pmd_physical
  have address : (image.pmdTable k).toNat = image.pmd.toNat + 2 ^ 12 * k := by
    rw [pmdTable, BitVec.toNat_add, BitVec.toNat_ofNat]
    omega
  rw [decode_makePte (by omega) (by decide), address,
    show kind protNonLeaf.toNat = .table by decide]
  simp only [Entry.table.injEq]
  omega

/-- Pages of 2 MiB are mapped with the flags of the kernel. -/
theorem leaf_of_page {pa : BitVec 64} (physical : pa.toNat < 2 ^ 56) (aligned : 2 ^ 21 ∣ pa.toNat)
    {m : PhysMem} {ppn va : Nat} (entry : m (slot ppn 1 va) = makePte pa protKernel) :
    walk m 1 ppn va = some ⟨pa.toNat + va % 2 ^ 21, protKernel.toNat⟩ := by
  have read : decode (m (slot ppn 1 va)) = .page (pa.toNat / 2 ^ 12) protKernel.toNat := by
    rw [entry, decode_makePte physical (by decide), show kind protKernel.toNat = .page by decide]
  have start : 2 ^ (9 * 1) ∣ pa.toNat / 2 ^ 12 := by omega
  rw [walk_of_page read, leaf, if_pos start, span]
  simp only [Option.some.injEq, Translation.mk.injEq, and_true]
  omega

theorem mappedPa_aligned (i : Nat) : 2 ^ 21 ∣ image.mappedPa i :=
  Nat.dvd_add image.start_aligned (Nat.dvd_mul_left _ _)

theorem mappedPa_lt (i : Nat) : image.mappedPa i < 2 ^ 33 := by
  have upper := image.start_upper
  have round : (i + 512 - image.start.toNat / 2 ^ 21 % 512) % 512 < 512 :=
    Nat.mod_lt _ (by decide)
  rw [mappedPa]
  omega

theorem root_slot (va : Nat) : slot image.root 2 va = image.pgdSlot (index 2 va) := by
  have aligned := image.pgd_aligned
  rw [slot, pgdSlot, root]
  omega

theorem pmd_slot (k va : Nat) :
    slot (image.pmd.toNat / 2 ^ 12 + k) 1 va = image.pmdSlot k (index 1 va) := by
  have aligned := image.pmd_aligned
  rw [slot, pmdSlot]
  omega

/-- The walk through the tables, by the root entry of the address. -/
theorem walk_setupVm (va : Nat) : walk image.setupVm 2 image.root va =
    if index 2 va = 256 then
      if index 1 va = 128 then some ⟨0x10000000 + va % 2 ^ 21, protKernel.toNat⟩ else none
    else if index 2 va = image.gib ∨ index 2 va = 256 + image.gib then
      some ⟨image.mappedPa (index 1 va) + va % 2 ^ 21, protKernel.toNat⟩
    else none := by
  have bounds := image.gib_bounds
  have rootEntry := image.setupVm_pgd (i := index 2 va) index_lt
  rw [← image.root_slot] at rootEntry
  -- The two filled tables map the same pages.
  have filled : ∀ k < 2, walk image.setupVm 1 (image.pmd.toNat / 2 ^ 12 + k) va =
      some ⟨image.mappedPa (index 1 va) + va % 2 ^ 21, protKernel.toNat⟩ := by
    intro k table
    have small := image.mappedPa_lt (index 1 va)
    have address : (BitVec.ofNat 64 (image.mappedPa (index 1 va))).toNat =
        image.mappedPa (index 1 va) := by
      rw [BitVec.toNat_ofNat]
      omega
    have entry := image.setupVm_pmd (i := index 1 va) table index_lt
    rw [← image.pmd_slot] at entry
    have page := leaf_of_page (by omega) (by rw [address]; exact image.mappedPa_aligned _) entry
    rwa [address] at page
  by_cases uart : index 2 va = 256
  · rw [if_pos uart] at rootEntry ⊢
    have table := image.decode_table (k := uartMapIdx) (by decide)
    rw [← rootEntry] at table
    rw [walk_of_table table]
    have entry := image.setupVm_uart (i := index 1 va) index_lt
    rw [← image.pmd_slot] at entry
    by_cases page : index 1 va = 128
    · rw [if_pos page] at entry ⊢
      exact leaf_of_page (by decide) (by decide) entry
    · rw [if_neg page] at entry ⊢
      exact walk_of_invalid (entry ▸ decode_zero)
  · rw [if_neg uart] at rootEntry ⊢
    by_cases identity : index 2 va = image.gib
    · rw [if_pos identity] at rootEntry
      have table := image.decode_table (k := idMapIdx) (by decide)
      rw [← rootEntry] at table
      rw [if_pos (.inl identity), walk_of_table table]
      exact filled idMapIdx (by decide)
    · rw [if_neg identity] at rootEntry
      by_cases higher : index 2 va = 256 + image.gib
      · rw [if_pos higher] at rootEntry
        have table := image.decode_table (k := hhMapIdx) (by decide)
        rw [← rootEntry] at table
        rw [if_pos (.inr higher), walk_of_table table]
        exact filled hhMapIdx (by decide)
      · rw [if_neg higher] at rootEntry
        rw [if_neg (not_or.mpr ⟨identity, higher⟩)]
        exact walk_of_invalid (rootEntry ▸ decode_zero)

/-! ## Soundness -/

/-- The lower half is mapped to itself, the higher half at `PAGE_OFFSET`. -/
def Sound : Prop :=
  ∀ va t, image.translates va = some t →
    (Lower va → t.pa = va.toNat) ∧ (Higher va → t.pa = (va - pageOffset).toNat)

theorem toNat_sub_pageOffset {va : BitVec 64} (higher : Higher va) :
    (va - pageOffset).toNat = va.toNat - (2 ^ 64 - 2 ^ 38) := by
  rw [Higher] at higher
  rw [BitVec.toNat_sub, show pageOffset.toNat = 2 ^ 64 - 2 ^ 38 from rfl]
  omega

/-- From a load address at a multiple of 1 GiB no entry wraps around. -/
theorem mappedPa_of_aligned (aligned : 2 ^ 30 ∣ image.start.toNat) {i : Nat} (small : i < 512) :
    image.mappedPa i = image.gib * 2 ^ 30 + i * 2 ^ 21 := by
  rw [mappedPa, gib]
  omega

/-- From another load address the first entry wraps around. -/
theorem mappedPa_zero (unaligned : ¬ 2 ^ 30 ∣ image.start.toNat) :
    image.mappedPa 0 = (image.gib + 1) * 2 ^ 30 := by
  have aligned := image.start_aligned
  rw [mappedPa, gib]
  omega

/-- The first address of the identity mapping translates. -/
theorem translates_gib : image.translates (BitVec.ofNat 64 (image.gib * 2 ^ 30)) =
    some ⟨image.mappedPa 0, protKernel.toNat⟩ := by
  have bounds := image.gib_bounds
  have address : (BitVec.ofNat 64 (image.gib * 2 ^ 30)).toNat = image.gib * 2 ^ 30 := by
    rw [BitVec.toNat_ofNat]
    omega
  have rootIndex : index 2 (image.gib * 2 ^ 30) = image.gib := by
    rw [index, span]
    omega
  have entry : index 1 (image.gib * 2 ^ 30) = 0 := by
    rw [index, span]
    omega
  have lower : Lower (BitVec.ofNat 64 (image.gib * 2 ^ 30)) := by
    rw [Lower, address]
    omega
  rw [translates, translate, if_pos (.inl lower), address, walk_setupVm, rootIndex, entry,
    if_neg (by omega), if_pos (.inl rfl)]
  simp only [Option.some.injEq, Translation.mk.injEq, and_true]
  omega

theorem sound_of_aligned (aligned : 2 ^ 30 ∣ image.start.toNat) : image.Sound := by
  intro va t translated
  have bounds := image.gib_bounds
  have small : index 1 va.toNat < 512 := index_lt
  have mapped := image.mappedPa_of_aligned aligned small
  rw [translates, translate] at translated
  split at translated
  next half =>
    rw [walk_setupVm] at translated
    have rootIndex : index 2 va.toNat = va.toNat / 2 ^ 30 % 512 := rfl
    have entry : index 1 va.toNat = va.toNat / 2 ^ 21 % 512 := rfl
    rw [mapped] at translated
    constructor
    · intro lower
      rw [Lower] at lower
      split at translated
      · omega
      · split at translated
        · have result := congrArg Translation.pa (Option.some.inj translated)
          simp only at result
          omega
        · cases translated
    · intro higher
      rw [toNat_sub_pageOffset higher]
      rw [Higher] at higher
      have bound := va.isLt
      split at translated
      · split at translated
        · have result := congrArg Translation.pa (Option.some.inj translated)
          simp only at result
          omega
        · cases translated
      · split at translated
        · have result := congrArg Translation.pa (Option.some.inj translated)
          simp only at result
          omega
        · cases translated
  next => cases translated

theorem aligned_of_sound (sound : image.Sound) : 2 ^ 30 ∣ image.start.toNat := by
  by_contra unaligned
  have bounds := image.gib_bounds
  have lower : Lower (BitVec.ofNat 64 (image.gib * 2 ^ 30)) := by
    rw [Lower, BitVec.toNat_ofNat]
    omega
  have same := (sound _ _ image.translates_gib).1 lower
  have wrapped := image.mappedPa_zero unaligned
  rw [BitVec.toNat_ofNat] at same
  simp only at same
  omega

/-- The mapping is sound exactly for the load addresses that are multiples of 1 GiB. -/
theorem setup_vm_sound_iff : image.Sound ↔ 2 ^ 30 ∣ image.start.toNat :=
  ⟨image.aligned_of_sound, image.sound_of_aligned⟩

end SetupVm

/-- The kernel at the load address of the linker script, with its tables behind the code. -/
def linked : Image where
  start := 0x80200000
  pgd := 0x80201000
  pmd := 0x80202000
  memory := fun _ => 0
  start_aligned := by decide
  start_lower := by decide
  start_upper := by decide
  pgd_aligned := by decide
  pmd_aligned := by decide
  pgd_physical := by decide
  pmd_physical := by decide
  apart := by decide
  pgd_blank := fun _ _ => rfl
  pmd_blank := fun _ _ _ _ => rfl

/-- The entries below the load address map the next gigabyte. -/
theorem linked_wraps :
    linked.translates 0x80000000 = some ⟨0xc0000000, protKernel.toNat⟩ ∧ ¬ linked.Sound := by
  have unaligned : ¬ 2 ^ 30 ∣ linked.start.toNat := by decide
  constructor
  · have translated := linked.translates_gib
    rw [linked.mappedPa_zero unaligned, show linked.gib = 2 by decide] at translated
    exact translated
  · exact fun sound => unaligned (linked.aligned_of_sound sound)

end Image

end OscKernel.Paging
