import OscKernel.Paging.KernelMapping

/-!
# The promised linear map and the identity map (`ex61/main.c`)

`LINEAR_MAP_GIB` promises four gigabytes from `0x80000000`, in both halves of the address
space.  The loop of `setup_vm` fills one table for each half and links it once, which is the
gigabyte of the load address.  `drop_identity_map` clears the lower half of the root table.
-/

namespace OscKernel.Paging

/-- Readable, writable and executable for the kernel. -/
def kernelRwx (flags : Nat) : Bool :=
  flags.testBit 1 && flags.testBit 2 && flags.testBit 3 && !flags.testBit 4

/-- First address of the linear map. -/
def linearBase : Nat := 0x80000000

/-- `LINEAR_MAP_GIB * PGD_SIZE` -/
def linearSize : Nat := 4 * 2 ^ 30

namespace Image

/-- A physical address is reachable at the identical virtual address and at the one plus
`PAGE_OFFSET`. -/
def Reachable (image : Image) (x : Nat) : Prop :=
  ∀ va ∈ [BitVec.ofNat 64 x, BitVec.ofNat 64 x + pageOffset],
    ∃ flags, image.translates va = some ⟨x, flags⟩ ∧ kernelRwx flags

/-- Every address of the promised linear map is reachable. -/
def LinearMapComplete (image : Image) : Prop :=
  ∀ x, linearBase ≤ x → x < linearBase + linearSize → image.Reachable x

section LinearMap

variable (image : Image) {x : Nat}

/-- Both halves translate an address of the linear map in the same way. -/
theorem translates_linear (low : linearBase ≤ x) (high : x < linearBase + linearSize)
    {va : BitVec 64} (member : va ∈ [BitVec.ofNat 64 x, BitVec.ofNat 64 x + pageOffset]) :
    image.translates va =
      if x / 2 ^ 30 = image.gib then
        some ⟨image.mappedPa (index 1 x) + x % 2 ^ 21, protKernel.toNat⟩
      else none := by
  have bounds := image.gib_bounds
  rw [linearBase] at low high
  rw [linearSize] at high
  have address : (BitVec.ofNat 64 x).toNat = x := by
    rw [BitVec.toNat_ofNat]
    omega
  simp only [List.mem_cons, List.not_mem_nil, or_false] at member
  rcases member with rfl | rfl
  · have lower : Lower (BitVec.ofNat 64 x) := by
      rw [Lower, address]
      omega
    have rootIndex : index 2 x = x / 2 ^ 30 := by
      rw [index, span]
      omega
    rw [translates, translate, if_pos (.inl lower), address, walk_setupVm, rootIndex,
      if_neg (by omega)]
    exact if_congr (by omega) rfl rfl
  · have offset : (BitVec.ofNat 64 x + pageOffset).toNat = 2 ^ 64 - 2 ^ 38 + x := by
      rw [toNat_add_pageOffset (by omega), address]
    have higher : Higher (BitVec.ofNat 64 x + pageOffset) := by
      rw [Higher, offset]
      omega
    have rootIndex : index 2 (2 ^ 64 - 2 ^ 38 + x) = 256 + x / 2 ^ 30 := by
      rw [index, span]
      omega
    have pageIndex : index 1 (2 ^ 64 - 2 ^ 38 + x) = index 1 x := by
      rw [index, index, span]
      omega
    have pageOffsetBits : (2 ^ 64 - 2 ^ 38 + x) % 2 ^ 21 = x % 2 ^ 21 := by omega
    rw [translates, translate, if_pos (.inr higher), offset, walk_setupVm, rootIndex, pageIndex,
      pageOffsetBits, if_neg (by omega)]
    exact if_congr (by omega) rfl rfl

/-- In the gigabyte of the load address the pages from it on map themselves. -/
theorem mappedPa_eq_iff (same : x / 2 ^ 30 = image.gib) :
    image.mappedPa (index 1 x) + x % 2 ^ 21 = x ↔ image.start.toNat ≤ x := by
  have aligned := image.start_aligned
  rw [gib] at same
  rw [mappedPa, index, span]
  omega

theorem reachable_iff (low : linearBase ≤ x) (high : x < linearBase + linearSize) :
    image.Reachable x ↔ x / 2 ^ 30 = image.gib ∧ image.start.toNat ≤ x := by
  constructor
  · intro reachable
    obtain ⟨flags, translated, -⟩ := reachable _ List.mem_cons_self
    rw [image.translates_linear low high List.mem_cons_self] at translated
    by_cases same : x / 2 ^ 30 = image.gib
    · rw [if_pos same] at translated
      exact ⟨same, (image.mappedPa_eq_iff same).mp
        (congrArg Translation.pa (Option.some.inj translated))⟩
    · rw [if_neg same] at translated
      cases translated
  · rintro ⟨same, above⟩ va member
    refine ⟨protKernel.toNat, ?_, by decide⟩
    rw [image.translates_linear low high member, if_pos same,
      (image.mappedPa_eq_iff same).mpr above]

/-- The last gigabyte of the promise is never mapped. -/
theorem not_reachable_last : ¬ image.Reachable 0x140000000 := by
  have bounds := image.gib_bounds
  rw [image.reachable_iff (by decide) (by decide)]
  rintro ⟨same, -⟩
  omega

end LinearMap

/-- The linear map is not complete for any load address: what is reachable is the gigabyte
of the load address, from there on. -/
theorem linearMap_incomplete (image : Image) :
    ¬ image.LinearMapComplete ∧
      ∀ x, linearBase ≤ x → x < linearBase + linearSize →
        (image.Reachable x ↔ x / 2 ^ 30 = image.start.toNat / 2 ^ 30 ∧ image.start.toNat ≤ x) := by
  constructor
  · intro complete
    exact image.not_reachable_last (complete _ (by decide) (by decide))
  · intro x low high
    exact image.reachable_iff low high

/-- Nothing above the first gigabyte is mapped for the load address of the linker script. -/
theorem linked_incomplete : ¬ linked.LinearMapComplete := by
  intro complete
  exact linked.not_reachable_last (complete _ (by decide) (by decide))

end Image

/-! ## Dropping the identity map -/

/-- The first rounds of the loop of `drop_identity_map`. -/
def clearEntries (pgd : Nat) : Nat → PhysMem → PhysMem
  | 0, m => m
  | i + 1, m => Function.update (clearEntries pgd i m) (pgd + 8 * i) 0

/-- The memory after `drop_identity_map`, with the root table at page `root`. -/
def dropIdentityMap (root : Nat) (m : PhysMem) : PhysMem :=
  clearEntries (root * 2 ^ 12) 0x100 m

/-- The entries that `drop_identity_map` clears. -/
def Dropped (root address : Nat) : Prop := ∃ i < 0x100, address = root * 2 ^ 12 + 8 * i

section Drop

variable {m : PhysMem} {root address : Nat}

theorem clearEntries_of_lt {pgd n i : Nat} (below : i < n) :
    clearEntries pgd n m (pgd + 8 * i) = 0 := by
  induction n with
  | zero => omega
  | succ n ih =>
      rw [clearEntries]
      by_cases last : i = n
      · rw [last, Function.update_self]
      · rw [Function.update_of_ne (by omega)]
        exact ih (by omega)

theorem clearEntries_of_ne {pgd n : Nat} (away : ∀ i < n, address ≠ pgd + 8 * i) :
    clearEntries pgd n m address = m address := by
  induction n with
  | zero => rfl
  | succ n ih =>
      rw [clearEntries, Function.update_of_ne (away n (Nat.lt_succ_self n))]
      exact ih fun i below => away i (Nat.lt_succ_of_lt below)

theorem decode_dropped (dropped : Dropped root address) :
    decode (dropIdentityMap root m address) = .invalid := by
  obtain ⟨i, below, rfl⟩ := dropped
  rw [dropIdentityMap, clearEntries_of_lt below]
  exact decode_zero

theorem dropIdentityMap_of_not (other : ¬ Dropped root address) :
    dropIdentityMap root m address = m address :=
  clearEntries_of_ne fun i below equal => other ⟨i, below, equal⟩

/-- The root entries of the lower half are those that are cleared. -/
theorem slot_dropped_iff (va : Nat) : Dropped root (slot root 2 va) ↔ index 2 va < 0x100 := by
  rw [slot]
  constructor
  · rintro ⟨i, below, equal⟩
    omega
  · exact fun below => ⟨index 2 va, below, rfl⟩

end Drop

namespace Image

variable (image : Image)

/-- The three tables that `setup_vm` links hold pages only. -/
theorem pmd_not_table {k i next : Nat} (table : k < 3) (small : i < 512) :
    decode (image.setupVm (image.pmdSlot k i)) ≠ .table next := by
  have page : kind protKernel.toNat = .page := by decide
  by_cases filled : k < 2
  · have bound := image.mappedPa_lt i
    have physical : (BitVec.ofNat 64 (image.mappedPa i)).toNat < 2 ^ 56 := by
      rw [BitVec.toNat_ofNat]
      omega
    rw [image.setupVm_pmd filled small, decode_makePte physical (by decide), page]
    rintro ⟨⟩
  · have uart : k = uartMapIdx := by
      rw [uartMapIdx]
      omega
    rw [uart, image.setupVm_uart small]
    split
    · rw [decode_makePte (by decide) (by decide), page]
      rintro ⟨⟩
    · rw [decode_zero]
      rintro ⟨⟩

/-- The walks after `setup_vm` read a root entry and at most one entry of a table. -/
theorem path_setupVm {va address : Nat} (member : address ∈ path image.setupVm 2 image.root va) :
    address = image.pgdSlot (index 2 va) ∨ ∃ k < 3, address = image.pmdSlot k (index 1 va) := by
  have rootEntry := image.setupVm_pgd (i := index 2 va) index_lt
  rw [← image.root_slot] at rootEntry ⊢
  have linked : ∀ k < 3, image.setupVm (slot image.root 2 va) =
      makePte (image.pmdTable k) protNonLeaf →
      address = slot image.root 2 va ∨ ∃ k < 3, address = image.pmdSlot k (index 1 va) := by
    intro k small entry
    have table := image.decode_table (k := k) (by omega)
    rw [← entry] at table
    have pages : ∀ next, decode (image.setupVm (slot (image.pmd.toNat / 2 ^ 12 + k) 1 va)) ≠
        .table next := by
      intro next
      rw [image.pmd_slot]
      exact image.pmd_not_table small index_lt
    rw [path_of_table table, path_of_not_table pages, image.pmd_slot] at member
    simp only [List.mem_cons, List.not_mem_nil, or_false] at member
    exact member.imp_right fun same => ⟨k, small, same⟩
  split at rootEntry
  · exact linked uartMapIdx (by decide) rootEntry
  · split at rootEntry
    · exact linked idMapIdx (by decide) rootEntry
    · split at rootEntry
      · exact linked hhMapIdx (by decide) rootEntry
      · have invalid : decode (image.setupVm (slot image.root 2 va)) = .invalid :=
          rootEntry ▸ decode_zero
        rw [path_of_invalid invalid, List.mem_singleton] at member
        exact .inl member

/-- No walk of the higher half after `setup_vm` reads a cleared entry. -/
theorem path_not_dropped {va : BitVec 64} (higher : Higher va) :
    ∀ address ∈ path image.setupVm 2 image.root va.toNat, ¬ Dropped image.root address := by
  intro address member dropped
  have bound := va.isLt
  have aligned := image.pgd_aligned
  have root : image.root * 2 ^ 12 = image.pgd.toNat := by
    rw [Image.root]
    omega
  rcases image.path_setupVm member with rfl | ⟨k, table, rfl⟩
  · rw [← image.root_slot, slot_dropped_iff] at dropped
    rw [Higher] at higher
    have rootIndex : index 2 va.toNat = va.toNat / 2 ^ 30 % 512 := rfl
    omega
  · obtain ⟨i, below, equal⟩ := dropped
    rw [root] at equal
    exact image.pgdSlot_ne_pmdSlot (by omega) index_lt (by omega) equal.symm

end Image

/-- `drop_identity_map` removes the lower half.  In the higher half it keeps the addresses
that faulted and those whose walk reads no entry of the lower half of the root table, which
is every address for the tables of `setup_vm`. -/
theorem drop_identity_map_exact :
    (∀ m root va, Lower va → translate (dropIdentityMap root m) root va = none) ∧
    (∀ m root va, Higher va →
      (translate (dropIdentityMap root m) root va = translate m root va ↔
        translate m root va = none ∨
          ∀ address ∈ path m 2 root va.toNat, ¬ Dropped root address)) ∧
    ∀ (image : Image) va, Higher va →
      translate (dropIdentityMap image.root image.setupVm) image.root va =
        image.translates va := by
  have exact : ∀ m root va, Higher va →
      (translate (dropIdentityMap root m) root va = translate m root va ↔
        translate m root va = none ∨
          ∀ address ∈ path m 2 root va.toNat, ¬ Dropped root address) := by
    intro m root va higher
    rw [translate, translate, if_pos (.inr higher), if_pos (.inr higher)]
    exact walk_cleared_eq_iff (fun _ => decode_dropped) (fun _ => dropIdentityMap_of_not)
  refine ⟨?_, exact, ?_⟩
  · intro m root va lower
    have rootEntry : Dropped root (slot root 2 va.toNat) := by
      rw [slot_dropped_iff, index, span]
      rw [Lower] at lower
      omega
    rw [translate, if_pos (.inl lower)]
    exact walk_of_invalid (decode_dropped rootEntry)
  · intro image va higher
    exact (exact image.setupVm image.root va higher).mpr (.inr (image.path_not_dropped higher))

/-- The linked kernel loses the identity map and keeps its own address and the UART. -/
theorem drop_identity_map_linked :
    translate (dropIdentityMap Image.linked.root Image.linked.setupVm) Image.linked.root
        0x80200000 = none ∧
      translate (dropIdentityMap Image.linked.root Image.linked.setupVm) Image.linked.root
        0xffffffc080200000 = Image.linked.translates 0xffffffc080200000 ∧
      translate (dropIdentityMap Image.linked.root Image.linked.setupVm) Image.linked.root
        0xffffffc010000000 = Image.linked.translates 0xffffffc010000000 := by
  obtain ⟨lower, -, higher⟩ := drop_identity_map_exact
  refine ⟨?_, ?_, ?_⟩
  · exact lower _ _ _ (by decide)
  · exact higher _ _ (by decide)
  · exact higher _ _ (by decide)

/-- A root table at page 1 whose last entry points to the table itself, and whose first entry
is a page. -/
def selfMapped : PhysMem := fun address =>
  if address = 0x1ff8 then makePte 0x1000 protNonLeaf
  else if address = 0x1000 then makePte 0 protKernel
  else 0

/-- An address of the higher half whose walk reads the table twice is lost. -/
theorem drop_self_mapped :
    Higher 0xffffffffc0000000 ∧
      translate selfMapped 1 0xffffffffc0000000 = some ⟨0, protKernel.toNat⟩ ∧
      translate (dropIdentityMap 1 selfMapped) 1 0xffffffffc0000000 = none := by
  refine ⟨by decide, by decide, ?_⟩
  rw [translate, if_pos (.inr (by decide))]
  apply walk_of_cleared (fun _ => decode_dropped) (fun _ => dropIdentityMap_of_not)
  exact ⟨0x1000, by decide, 0, by decide, rfl⟩

end OscKernel.Paging
