import OscKernel.Paging.PageWalk

/-!
# One call of `pagewalk`

A call for a page whose root entry is empty takes two pages for the missing tables and
maps the page.  A call that finds a root entry takes the physical address of the table for
a pointer, and its next access is outside the mapping of the kernel.
-/

namespace OscKernel.Paging

open Alloc Words

/-- A user page to map: page-aligned addresses and the flags of a page. -/
structure UserPage where
  va : BitVec 64
  pa : BitVec 64
  prot : BitVec 64
  va_aligned : 2 ^ 12 ∣ va.toNat
  va_user : va.toNat < 2 ^ 38
  pa_aligned : 2 ^ 12 ∣ pa.toNat
  pa_physical : pa.toNat < 2 ^ 56
  prot_small : prot.toNat < 2 ^ 10
  prot_page : kind prot.toNat = .page

/-- Index of the root entry of a user page. -/
def UserPage.gib (page : UserPage) : Nat := page.va.toNat / 2 ^ 30

section Pointers

variable {x : Nat} {idx : BitVec 64}

theorem memorySize_lt : memorySize < 2 ^ 34 := by decide
theorem toNat_physToVirt (inside : x < memorySize) :
    (virtToPhys (physToVirt x)).toNat = x := by
  have small := memorySize_lt
  rw [virtToPhys, physToVirt, BitVec.add_sub_cancel, BitVec.toNat_ofNat]
  omega
theorem deref_physToVirt (inside : x < memorySize) : deref (physToVirt x) = some x := by
  rw [deref, toNat_physToVirt inside, if_pos inside]
theorem physToVirt_virtToPhys (va : BitVec 64) : physToVirt (virtToPhys va).toNat = va := by
  rw [physToVirt, BitVec.ofNat_toNat, BitVec.setWidth_eq, virtToPhys, BitVec.sub_add_cancel]
/-- `&page_table[idx]` -/
theorem physToVirt_add :
    physToVirt x + 8 * idx = physToVirt (x + 8 * idx.toNat) := by
  have scaled : 8 * idx = BitVec.ofNat 64 (8 * idx.toNat) := by
    apply BitVec.eq_of_toNat_eq
    rw [BitVec.toNat_mul, BitVec.toNat_ofNat]
    rfl
  rw [physToVirt, physToVirt, scaled, BitVec.ofNat_add, BitVec.add_assoc, BitVec.add_assoc,
    BitVec.add_comm pageOffset]
theorem deref_entry (small : idx.toNat < 512) (inside : x + 0x1000 ≤ memorySize) :
    deref (physToVirt x + 8 * idx) = some (x + 8 * idx.toNat) := by
  rw [physToVirt_add]
  exact deref_physToVirt (by omega)
/-- A physical address of the memory is no pointer of the kernel. -/
theorem deref_physical (small : idx.toNat < 512) (inside : x < memorySize) :
    deref (BitVec.ofNat 64 x + 8 * idx) = none := by
  have bound := memorySize_lt
  have address : (virtToPhys (BitVec.ofNat 64 x + 8 * idx)).toNat =
      2 ^ 38 + (x + 8 * idx.toNat) := by
    rw [virtToPhys, BitVec.toNat_sub, BitVec.toNat_add, BitVec.toNat_mul, BitVec.toNat_ofNat,
      show pageOffset.toNat = 2 ^ 64 - 2 ^ 38 from rfl, show (8 : BitVec 64).toNat = 8 from rfl]
    omega
  rw [deref, address, if_neg (by omega)]

end Pointers

/-! ## Entries -/

/-- The entry that `pagewalk` writes for a table. -/
def tableEntry (x : Nat) : BitVec 64 := makePte (BitVec.ofNat 64 x) pteV

section Entries

variable {x : Nat}

theorem toNat_ofNat_inside (inside : x < memorySize) : (BitVec.ofNat 64 x).toNat = x := by
  have bound := memorySize_lt
  rw [BitVec.toNat_ofNat]
  omega

theorem tableEntry_toNat (inside : x < memorySize) :
    (tableEntry x).toNat = x / 2 ^ 12 * 2 ^ 10 + 1 := by
  have bound := memorySize_lt
  have address := toNat_ofNat_inside inside
  rw [tableEntry, makePte_toNat (by omega) (by decide), address, show pteV.toNat = 1 from rfl]

theorem decode_tableEntry (inside : x < memorySize) :
    decode (tableEntry x) = .table (x / 2 ^ 12) := by
  have bound := memorySize_lt
  have address := toNat_ofNat_inside inside
  rw [tableEntry, decode_makePte (by omega) (by decide), address,
    show kind pteV.toNat = .table by decide]

/-- The code takes the entry of a table as present. -/
theorem tableEntry_present (inside : x < memorySize) : tableEntry x &&& pteV ≠ 0 := by
  have value := tableEntry_toNat inside
  intro absent
  have bit : (tableEntry x &&& pteV).toNat = (tableEntry x).toNat % 2 ^ 1 :=
    toNat_and_low (by decide)
  rw [absent, value, show (0 : BitVec 64).toNat = 0 from rfl] at bit
  omega

/-- The code reads the physical address of the table back. -/
theorem tableEntry_address (aligned : 2 ^ 12 ∣ x) (inside : x < memorySize) :
    (tableEntry x >>> 10) <<< 12 = BitVec.ofNat 64 x := by
  have bound := memorySize_lt
  have value := tableEntry_toNat inside
  apply BitVec.eq_of_toNat_eq
  rw [BitVec.toNat_shiftLeft, BitVec.toNat_ushiftRight, value, BitVec.toNat_ofNat,
    Nat.shiftRight_eq_div_pow, Nat.shiftLeft_eq]
  omega

end Entries

/-! ## One level -/

section Level

variable {k : Kernel} {level table x : Nat} {vpn : BitVec 64}

/-- The index that the loop computes for a level. -/
def levelIndex (level : Nat) (vpn : BitVec 64) : Nat := ((vpn >>> (level * 9)) &&& 0x1ff).toNat

theorem levelIndex_lt : levelIndex level vpn < 512 := by
  rw [levelIndex, Image.toNat_and_index]
  exact Nat.mod_lt _ (by decide)

/-- The indices of the code are those of the hardware. -/
theorem levelIndex_eq (va : BitVec 64) :
    levelIndex level (va >>> 12) = index level va.toNat := by
  rw [levelIndex, Image.toNat_and_index, BitVec.toNat_ushiftRight,
    BitVec.toNat_ushiftRight, Nat.shiftRight_eq_div_pow, Nat.shiftRight_eq_div_pow,
    Nat.div_div_eq_div_mul, ← Nat.pow_add, index, span, Nat.mul_comm level 9]

/-- The next page of the allocator is at physical address `x`. -/
structure NextPage (k : Kernel) (x : Nat) : Prop where
  aligned : 2 ^ 12 ∣ x
  rounded : roundUp 12 k.curr.toNat = 2 ^ 64 - 2 ^ 38 + x

theorem physToVirt_toNat (inside : x ≤ memorySize) :
    (physToVirt x).toNat = 2 ^ 64 - 2 ^ 38 + x := by
  have bound := memorySize_lt
  rw [physToVirt, BitVec.toNat_add, BitVec.toNat_ofNat,
    show pageOffset.toNat = 2 ^ 64 - 2 ^ 38 from rfl]
  omega

theorem NextPage.pointer (next : NextPage k x) (inside : x + 0x1000 ≤ memorySize) :
    (allocPage k.curr).1 = physToVirt x := by
  have bound := memorySize_lt
  have rounded := next.rounded
  have above := le_roundUp 12 k.curr.toNat
  apply BitVec.eq_of_toNat_eq
  rw [allocPage_fst (by omega), physToVirt_toNat (by omega), rounded]

/-- The page after it is taken next. -/
theorem NextPage.next (next : NextPage k x) (inside : x + 0x1000 ≤ memorySize) (m : PhysMem) :
    NextPage ⟨m, (allocPage k.curr).2⟩ (x + 0x1000) := by
  have bound := memorySize_lt
  have rounded := next.rounded
  have aligned := next.aligned
  have above := le_roundUp 12 k.curr.toNat
  have curr : (allocPage k.curr).2.toNat = 2 ^ 64 - 2 ^ 38 + x + 0x1000 := by
    rw [allocPage_snd (by omega), rounded]
  constructor
  · omega
  · rw [curr, roundUp_of_dvd (by omega), Nat.add_assoc]

theorem load_entry (inside : table + 0x1000 ≤ memorySize) :
    k.load (physToVirt table + 8 * ((vpn >>> (level * 9)) &&& 0x1ff)) =
      .ok (k.mem (table + 8 * levelIndex level vpn)) := by
  have address : deref (physToVirt table + 8 * ((vpn >>> (level * 9)) &&& 0x1ff)) =
      some (table + 8 * levelIndex level vpn) := deref_entry levelIndex_lt inside
  rw [Kernel.load, address]

theorem store_entry (level : Nat) (vpn : BitVec 64) (inside : table + 0x1000 ≤ memorySize)
    (value : BitVec 64) :
    k.store (physToVirt table + 8 * ((vpn >>> (level * 9)) &&& 0x1ff)) value =
      .ok { k with mem := Function.update k.mem (table + 8 * levelIndex level vpn) value } := by
  have address : deref (physToVirt table + 8 * ((vpn >>> (level * 9)) &&& 0x1ff)) =
      some (table + 8 * levelIndex level vpn) := deref_entry levelIndex_lt inside
  rw [Kernel.store, address]

theorem clear_page (inside : x < memorySize) :
    k.clear (physToVirt x) = .ok { k with mem := clearPage k.mem x } := by
  rw [Kernel.clear, deref_physToVirt inside]

theorem ok_bind {ε α β : Type} (value : α) (next : α → Except ε β) :
    (Except.ok value >>= next) = next value := rfl

/-- An empty entry: the next page becomes a cleared table. -/
theorem nextTable_empty (inside : table + 0x1000 ≤ memorySize)
    (empty : k.mem (table + 8 * levelIndex level vpn) = 0) (next : NextPage k x)
    (nextInside : x + 0x1000 ≤ memorySize) :
    nextTable level vpn (physToVirt table) k = .ok (physToVirt x,
      { mem := Function.update (clearPage k.mem x) (table + 8 * levelIndex level vpn)
          (tableEntry x)
        curr := (allocPage k.curr).2 }) := by
  have absent : ¬ (0 : BitVec 64) &&& pteV ≠ 0 := by decide
  have address : virtToPhys (physToVirt x) = BitVec.ofNat 64 x := by
    rw [virtToPhys, physToVirt, BitVec.add_sub_cancel]
  rw [nextTable]
  rw [load_entry inside, empty]
  rw [ok_bind, if_neg absent]
  dsimp only
  rw [next.pointer nextInside, clear_page (by omega), ok_bind, store_entry level vpn inside,
    ok_bind, address]
  rfl

/-- A present entry: the physical address of the table is taken for a pointer. -/
theorem nextTable_present (inside : table + 0x1000 ≤ memorySize) (aligned : 2 ^ 12 ∣ x)
    (tableInside : x < memorySize)
    (present : k.mem (table + 8 * levelIndex level vpn) = tableEntry x) :
    nextTable level vpn (physToVirt table) k = .ok (BitVec.ofNat 64 x, k) := by
  rw [nextTable]
  rw [load_entry inside, present, ok_bind, if_pos (tableEntry_present tableInside),
    tableEntry_address aligned tableInside]
  rfl

/-- The access through such a pointer faults. -/
theorem nextTable_physical (level : Nat) (vpn : BitVec 64) (k : Kernel)
    (inside : x < memorySize) :
    ∃ fault, nextTable level vpn (BitVec.ofNat 64 x) k = .error fault := by
  refine ⟨.badAddress (BitVec.ofNat 64 x + 8 * ((vpn >>> (level * 9)) &&& 0x1ff)), ?_⟩
  have address : deref (BitVec.ofNat 64 x + 8 * ((vpn >>> (level * 9)) &&& 0x1ff)) = none :=
    deref_physical levelIndex_lt inside
  rw [nextTable]
  rw [Kernel.load, address]
  rfl

end Level

/-! ## The whole walk -/

/-- What a walk for a page with an empty root entry writes, with the pages at `x` for the
two tables. -/
structure Walked (pgd x : Nat) (page : UserPage) (m m' : PhysMem) : Prop where
  root : m' (pgd + 8 * page.gib) = tableEntry x
  middle : ∀ i < 512, m' (x + 8 * i) =
    if i = index 1 page.va.toNat then tableEntry (x + 0x1000) else 0
  last : ∀ i < 512, m' (x + 0x1000 + 8 * i) =
    if i = index 0 page.va.toNat then makePte page.pa page.prot else 0
  others : ∀ address, address ≠ pgd + 8 * page.gib → address < x ∨ x + 0x2000 ≤ address →
    m' address = m address

theorem UserPage.index_two (page : UserPage) : index 2 page.va.toNat = page.gib := by
  have user := page.va_user
  rw [UserPage.gib, index, span]
  omega

section Walk

variable {k : Kernel} {pgd x : Nat} (page : UserPage)

/-- `page_table[idx]` at level 0 -/
theorem store_leaf {table : Nat} (inside : table + 0x1000 ≤ memorySize) (value : BitVec 64) :
    k.store (physToVirt table + (8 : BitVec 64) * ((page.va >>> 12) &&& 0x1ff)) value =
      .ok { k with mem := Function.update k.mem (table + 8 * index 0 page.va.toNat) value } := by
  have stored := store_entry (k := k) 0 (page.va >>> 12) inside value
  rw [levelIndex_eq] at stored
  exact stored

theorem pagewalk_empty (below : pgd + 0x1000 ≤ x) (inside : x + 0x2000 ≤ memorySize)
    (empty : k.mem (pgd + 8 * page.gib) = 0) (next : NextPage k x) :
    ∃ k', pagewalk (physToVirt pgd) page.va page.pa page.prot k = .ok k' ∧
      NextPage k' (x + 0x2000) ∧ Walked pgd x page k.mem k'.mem := by
  have gib := page.index_two
  have small : page.gib < 512 := gib ▸ index_lt
  have middleSmall : index 1 page.va.toNat < 512 := index_lt
  have lastSmall : index 0 page.va.toNat < 512 := index_lt
  have rootIndex : levelIndex 2 (page.va >>> 12) = page.gib := by rw [levelIndex_eq, gib]
  have middleIndex : levelIndex 1 (page.va >>> 12) = index 1 page.va.toNat := levelIndex_eq _
  have first : nextTable 2 (page.va >>> 12) (physToVirt pgd) k = .ok (physToVirt x,
      ⟨Function.update (clearPage k.mem x) (pgd + 8 * page.gib) (tableEntry x),
        (allocPage k.curr).2⟩) := by
    have empty' : k.mem (pgd + 8 * levelIndex 2 (page.va >>> 12)) = 0 := by rwa [rootIndex]
    rw [nextTable_empty (by omega) empty' next (by omega), rootIndex]
  generalize memory₁ : Function.update (clearPage k.mem x) (pgd + 8 * page.gib) (tableEntry x) =
    m₁ at first
  have next₁ : NextPage ⟨m₁, (allocPage k.curr).2⟩ (x + 0x1000) := next.next (by omega) m₁
  generalize (allocPage k.curr).2 = curr₁ at first next₁
  have second : nextTable 1 (page.va >>> 12) (physToVirt x) ⟨m₁, curr₁⟩ =
      .ok (physToVirt (x + 0x1000),
        ⟨Function.update (clearPage m₁ (x + 0x1000)) (x + 8 * index 1 page.va.toNat)
          (tableEntry (x + 0x1000)), (allocPage curr₁).2⟩) := by
    have empty' : m₁ (x + 8 * levelIndex 1 (page.va >>> 12)) = 0 := by
      rw [middleIndex, ← memory₁, Function.update_of_ne (by omega), clearPage, if_pos (by omega)]
    rw [nextTable_empty (by omega) empty' next₁ (by omega), middleIndex]
  generalize memory₂ : Function.update (clearPage m₁ (x + 0x1000)) (x + 8 * index 1 page.va.toNat)
    (tableEntry (x + 0x1000)) = m₂ at second
  have next₂ : NextPage ⟨m₂, (allocPage curr₁).2⟩ (x + 0x1000 + 0x1000) :=
    next₁.next (by omega) m₂
  generalize (allocPage curr₁).2 = curr₂ at second next₂
  refine ⟨⟨Function.update m₂ (x + 0x1000 + 8 * index 0 page.va.toNat)
    (makePte page.pa page.prot), curr₂⟩, ?_, ⟨next₂.aligned, next₂.rounded⟩, ?_⟩
  · rw [pagewalk]
    dsimp only
    rw [first, ok_bind]
    dsimp only
    rw [second, ok_bind]
    dsimp only
    rw [store_leaf page (by omega)]
  · constructor
    · dsimp only
      rw [Function.update_of_ne (by omega), ← memory₂, Function.update_of_ne (by omega), clearPage,
        if_neg (by omega), ← memory₁, Function.update_self]
    · intro i below
      dsimp only
      rw [Function.update_of_ne (by omega), ← memory₂]
      by_cases same : i = index 1 page.va.toNat
      · rw [same, Function.update_self, if_pos rfl]
      · rw [Function.update_of_ne (by omega), if_neg same, clearPage, if_neg (by omega), ← memory₁,
          Function.update_of_ne (by omega), clearPage, if_pos (by omega)]
    · intro i below
      dsimp only
      by_cases same : i = index 0 page.va.toNat
      · rw [same, Function.update_self, if_pos rfl]
      · rw [Function.update_of_ne (by omega), if_neg same, ← memory₂,
          Function.update_of_ne (by omega), clearPage, if_pos (by omega)]
    · intro address notRoot away
      dsimp only
      rw [Function.update_of_ne (by omega), ← memory₂, Function.update_of_ne (by omega), clearPage,
        if_neg (by omega), ← memory₁, Function.update_of_ne notRoot, clearPage, if_neg (by omega)]

theorem pagewalk_present (inside : pgd + 0x1000 ≤ memorySize) {table : Nat}
    (aligned : 2 ^ 12 ∣ table) (tableInside : table < memorySize)
    (present : k.mem (pgd + 8 * page.gib) = tableEntry table) :
    ∃ fault, pagewalk (physToVirt pgd) page.va page.pa page.prot k = .error fault := by
  have rootIndex : levelIndex 2 (page.va >>> 12) = page.gib := by
    rw [levelIndex_eq, page.index_two]
  have entry : k.mem (pgd + 8 * levelIndex 2 (page.va >>> 12)) = tableEntry table := by
    rwa [rootIndex]
  have first := nextTable_present inside aligned tableInside entry
  obtain ⟨fault, second⟩ :=
    nextTable_physical 1 (page.va >>> 12) k tableInside
  refine ⟨fault, ?_⟩
  rw [pagewalk]
  dsimp only
  rw [first, ok_bind]
  dsimp only
  rw [second]
  rfl

end Walk

end OscKernel.Paging
