import Mathlib.Algebra.Group.Nat.Defs
import Mathlib.Logic.Function.Basic

/-!
# Page-table walks

The address translation of the RISC-V privileged architecture for any number of levels:
tables of 512 entries of eight bytes, pages of 4 KiB at level 0, and larger pages at the
levels above.  Physical memory is a map from the addresses of doublewords.
-/

namespace OscKernel.Paging

/-- Physical memory by doublewords. -/
abbrev PhysMem := Nat → BitVec 64

/-- What the low ten bits of an entry make it. -/
inductive Kind where
  | invalid
  | table
  | page
  deriving DecidableEq, Repr

/-- The kind of an entry with the given flags: V is bit 0, R, W and X are bits 1 to 3, U is
bit 4, A and D are bits 6 and 7. -/
def kind (flags : Nat) : Kind :=
  if !flags.testBit 0 then .invalid
  -- Writable and not readable is reserved.
  else if !flags.testBit 1 && flags.testBit 2 then .invalid
  else if flags.testBit 1 || flags.testBit 3 then .page
  -- U, A and D are reserved in an entry that points to a table.
  else if flags.testBit 4 || flags.testBit 6 || flags.testBit 7 then .invalid
  else .table

/-- A page-table entry as the hardware reads it. -/
inductive Entry where
  | invalid
  | table (ppn : Nat)
  | page (ppn flags : Nat)
  deriving DecidableEq, Repr

/-- Bits 10 to 53 are the page number, the bits above are reserved. -/
def decode (pte : BitVec 64) : Entry :=
  if 2 ^ 54 ≤ pte.toNat then .invalid
  else
    match kind (pte.toNat % 2 ^ 10) with
    | .invalid => .invalid
    | .table => .table (pte.toNat / 2 ^ 10)
    | .page => .page (pte.toNat / 2 ^ 10) (pte.toNat % 2 ^ 10)

/-- The result of a translation: the physical address, and the flags of the page. -/
structure Translation where
  pa : Nat
  flags : Nat
  deriving DecidableEq, Repr

/-- Bytes that one entry of a level maps. -/
def span (level : Nat) : Nat := 2 ^ (12 + 9 * level)

/-- Index of an address into a table of a level. -/
def index (level va : Nat) : Nat := va / span level % 512

/-- Address of the entry for `va` in the table at page `ppn`. -/
def slot (ppn level va : Nat) : Nat := ppn * 2 ^ 12 + 8 * index level va

/-- A page of a level starts at a multiple of its size. -/
def leaf (level ppn flags va : Nat) : Option Translation :=
  if 2 ^ (9 * level) ∣ ppn then some ⟨ppn * 2 ^ 12 + va % span level, flags⟩ else none

/-- The walk from the table at page `ppn`. -/
def walk (mem : PhysMem) : (level ppn va : Nat) → Option Translation
  | 0, ppn, va =>
      match decode (mem (slot ppn 0 va)) with
      | .page base flags => leaf 0 base flags va
      | _ => none
  | level + 1, ppn, va =>
      match decode (mem (slot ppn (level + 1) va)) with
      | .invalid => none
      | .table next => walk mem level next va
      | .page base flags => leaf (level + 1) base flags va

/-- The addresses that a walk reads. -/
def path (mem : PhysMem) : (level ppn va : Nat) → List Nat
  | 0, ppn, va => [slot ppn 0 va]
  | level + 1, ppn, va =>
      slot ppn (level + 1) va ::
        match decode (mem (slot ppn (level + 1) va)) with
        | .table next => path mem level next va
        | _ => []

/-- Virtual addresses of the lower and of the higher half. -/
def Lower (va : BitVec 64) : Prop := va.toNat < 2 ^ 38

def Higher (va : BitVec 64) : Prop := 2 ^ 64 - 2 ^ 38 ≤ va.toNat

instance : DecidablePred Lower := fun _ => inferInstanceAs (Decidable (_ < _))

instance : DecidablePred Higher := fun _ => inferInstanceAs (Decidable (_ ≤ _))

/-- The Sv39 translation with the root table at page `root`; other addresses fault. -/
def translate (mem : PhysMem) (root : Nat) (va : BitVec 64) : Option Translation :=
  if Lower va ∨ Higher va then walk mem 2 root va.toNat else none

section Walk

variable {mem : PhysMem} {level ppn va : Nat}

theorem walk_of_invalid (entry : decode (mem (slot ppn level va)) = .invalid) :
    walk mem level ppn va = none := by
  cases level with
  | zero => rw [walk, entry]
  | succ level => rw [walk, entry]

theorem walk_of_page {base flags : Nat}
    (entry : decode (mem (slot ppn level va)) = .page base flags) :
    walk mem level ppn va = leaf level base flags va := by
  cases level with
  | zero => rw [walk, entry]
  | succ level => rw [walk, entry]

theorem walk_of_table {next : Nat}
    (entry : decode (mem (slot ppn (level + 1) va)) = .table next) :
    walk mem (level + 1) ppn va = walk mem level next va := by
  rw [walk, entry]

theorem path_of_not_table (entry : ∀ next, decode (mem (slot ppn level va)) ≠ .table next) :
    path mem level ppn va = [slot ppn level va] := by
  cases level with
  | zero => rw [path]
  | succ level =>
      rw [path]
      cases read : decode (mem (slot ppn (level + 1) va)) with
      | invalid => rfl
      | page base flags => rfl
      | table next => exact absurd read (entry next)

theorem path_of_invalid (entry : decode (mem (slot ppn level va)) = .invalid) :
    path mem level ppn va = [slot ppn level va] := by
  apply path_of_not_table
  intro next table
  rw [entry] at table
  cases table

theorem path_of_table {next : Nat}
    (entry : decode (mem (slot ppn (level + 1) va)) = .table next) :
    path mem (level + 1) ppn va = slot ppn (level + 1) va :: path mem level next va := by
  rw [path, entry]

theorem slot_mem_path : slot ppn level va ∈ path mem level ppn va := by
  cases level with
  | zero => exact List.mem_singleton_self _
  | succ level => exact List.mem_cons_self ..

/-- Memories that agree on the addresses that a walk reads have the same walk. -/
theorem walk_congr {other : PhysMem}
    (agree : ∀ address ∈ path mem level ppn va, other address = mem address) :
    walk other level ppn va = walk mem level ppn va ∧
      path other level ppn va = path mem level ppn va := by
  induction level generalizing ppn with
  | zero =>
      have same := agree _ slot_mem_path
      constructor
      · rw [walk, walk, same]
      · rfl
  | succ level ih =>
      have same := agree _ slot_mem_path
      rw [walk, walk, path, path, same]
      cases entry : decode (mem (slot ppn (level + 1) va)) with
      | invalid => exact ⟨rfl, rfl⟩
      | page base flags => exact ⟨rfl, rfl⟩
      | table next =>
          have inner : ∀ address ∈ path mem level next va, other address = mem address := by
            intro address member
            apply agree
            rw [path_of_table entry]
            exact List.mem_cons_of_mem _ member
          obtain ⟨walks, paths⟩ := ih inner
          exact ⟨walks, congrArg _ paths⟩

/-- A walk that reads an entry which is made invalid faults. -/
theorem walk_of_cleared {other : PhysMem} {cleared : Nat → Prop}
    (invalid : ∀ address, cleared address → decode (other address) = .invalid)
    (kept : ∀ address, ¬ cleared address → other address = mem address)
    (reads : ∃ address ∈ path mem level ppn va, cleared address) :
    walk other level ppn va = none := by
  induction level generalizing ppn with
  | zero =>
      obtain ⟨address, member, isCleared⟩ := reads
      rw [path, List.mem_singleton] at member
      exact walk_of_invalid (invalid _ (member ▸ isCleared))
  | succ level ih =>
      by_cases first : cleared (slot ppn (level + 1) va)
      · exact walk_of_invalid (invalid _ first)
      · obtain ⟨address, member, isCleared⟩ := reads
        rw [path] at member
        rw [walk, kept _ first]
        cases entry : decode (mem (slot ppn (level + 1) va)) with
        | invalid => rfl
        | page base flags =>
            rw [entry, List.mem_singleton] at member
            exact absurd (member ▸ isCleared) first
        | table next =>
            rw [entry, List.mem_cons] at member
            rcases member with same | later
            · exact absurd (same ▸ isCleared) first
            · exact ih ⟨address, later, isCleared⟩

/-- Making entries invalid keeps exactly the translations that read none of them, and the
faults. -/
theorem walk_cleared_eq_iff {other : PhysMem} {cleared : Nat → Prop}
    (invalid : ∀ address, cleared address → decode (other address) = .invalid)
    (kept : ∀ address, ¬ cleared address → other address = mem address) :
    walk other level ppn va = walk mem level ppn va ↔
      walk mem level ppn va = none ∨ ∀ address ∈ path mem level ppn va, ¬ cleared address := by
  by_cases reads : ∃ address ∈ path mem level ppn va, cleared address
  · rw [walk_of_cleared invalid kept reads, eq_comm]
    constructor
    · exact .inl
    · rintro (fault | avoids)
      · exact fault
      · obtain ⟨address, member, isCleared⟩ := reads
        exact absurd isCleared (avoids address member)
  · have avoids : ∀ address ∈ path mem level ppn va, ¬ cleared address := fun address member
      isCleared => reads ⟨address, member, isCleared⟩
    have same := (walk_congr fun address member => kept address (avoids address member)).1
    exact ⟨fun _ => .inr avoids, fun _ => same⟩

theorem index_lt : index level va < 512 := Nat.mod_lt _ (by decide)

end Walk

/-! ## Building entries -/

/-- `(pa >> 12) << 10 | flags` -/
def makePte (pa flags : BitVec 64) : BitVec 64 := (pa >>> 12) <<< 10 ||| flags

theorem makePte_toNat {pa flags : BitVec 64} (physical : pa.toNat < 2 ^ 56)
    (small : flags.toNat < 2 ^ 10) :
    (makePte pa flags).toNat = pa.toNat / 2 ^ 12 * 2 ^ 10 + flags.toNat := by
  have page : pa.toNat / 2 ^ 12 < 2 ^ 44 := Nat.div_lt_of_lt_mul (by omega)
  rw [makePte, BitVec.toNat_or, BitVec.toNat_shiftLeft, BitVec.toNat_ushiftRight,
    Nat.shiftRight_eq_div_pow, Nat.shiftLeft_eq, Nat.mod_eq_of_lt (by omega),
    ← Nat.shiftLeft_eq, ← Nat.shiftLeft_add_eq_or_of_lt small, Nat.shiftLeft_eq]

/-- The hardware reads a built entry as it was meant. -/
theorem decode_makePte {pa flags : BitVec 64} (physical : pa.toNat < 2 ^ 56)
    (small : flags.toNat < 2 ^ 10) :
    decode (makePte pa flags) =
      match kind flags.toNat with
      | .invalid => .invalid
      | .table => .table (pa.toNat / 2 ^ 12)
      | .page => .page (pa.toNat / 2 ^ 12) flags.toNat := by
  have page : pa.toNat / 2 ^ 12 < 2 ^ 44 := Nat.div_lt_of_lt_mul (by omega)
  have flagBits : (pa.toNat / 2 ^ 12 * 2 ^ 10 + flags.toNat) % 2 ^ 10 = flags.toNat := by
    omega
  have pageBits : (pa.toNat / 2 ^ 12 * 2 ^ 10 + flags.toNat) / 2 ^ 10 = pa.toNat / 2 ^ 12 := by
    omega
  rw [decode, makePte_toNat physical small, if_neg (by omega), flagBits, pageBits]

theorem decode_zero : decode 0 = .invalid := by decide

end OscKernel.Paging
