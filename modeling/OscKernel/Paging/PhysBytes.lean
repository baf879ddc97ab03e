import OscKernel.Paging.FreshWalk
import OscKernel.Riscv.Stored

/-!
# Bytes of the physical memory (`ex62/utils.c`)

The kernel's byte accesses and `memcpy`, through the same mapping as its accesses to page tables.
Bytes are parts of the doublewords of the physical memory.
-/

namespace OscKernel.Paging

open Riscv

/-- Byte `i` of a doubleword. -/
def wordByte (w : BitVec 64) (i : Nat) : Byte := (w >>> (8 * i)).setWidth 8

/-- A doubleword with another byte `i`. -/
def setWordByte (w : BitVec 64) (i : Nat) (b : Byte) : BitVec 64 :=
  w &&& ~~~((BitVec.allOnes 8).setWidth 64 <<< (8 * i)) ||| b.setWidth 64 <<< (8 * i)

/-- The byte at a physical address. -/
def PhysMem.byte (m : PhysMem) (pa : Nat) : Byte := wordByte (m (pa / 8 * 8)) (pa % 8)

def PhysMem.setByte (m : PhysMem) (pa : Nat) (b : Byte) : PhysMem :=
  Function.update m (pa / 8 * 8) (setWordByte (m (pa / 8 * 8)) (pa % 8) b)

/-- The memory with bytes stored from a physical address on. -/
def PhysMem.setBytes (m : PhysMem) : Nat → List Byte → PhysMem
  | _, [] => m
  | pa, b :: bytes => (PhysMem.setBytes m (pa + 1) bytes).setByte pa b

namespace Kernel

def loadByte (k : Kernel) (va : BitVec 64) : Except Fault Byte :=
  match deref va with
  | some pa => .ok (k.mem.byte pa)
  | none => .error (.badAddress va)

def storeByte (k : Kernel) (va : BitVec 64) (b : Byte) : Except Fault Kernel :=
  match deref va with
  | some pa => .ok { k with mem := k.mem.setByte pa b }
  | none => .error (.badAddress va)

/-- The bytes that the kernel sees, zero where it can see none. -/
def view (k : Kernel) : Mem := fun va =>
  match deref va with
  | some pa => k.mem.byte pa
  | none => 0

end Kernel

/-- `memcpy`; the counter of the loop takes its `n` values whatever its sign is. -/
def memcpy : Nat → BitVec 64 → BitVec 64 → Kernel → Except Fault Kernel
  | 0, _, _, k => .ok k
  | n + 1, d, s, k => do
      let b ← k.loadByte s
      let k ← k.storeByte d b
      memcpy n (d + 1) (s + 1) k

/-! ## Bytes -/

section Bytes

variable {w : BitVec 64} {i j : Nat} {b : Byte} {m : PhysMem} {pa other : Nat}

theorem getLsbD_wordByte (w : BitVec 64) (i k : Nat) :
    (wordByte w i).getLsbD k = (decide (k < 8) && w.getLsbD (8 * i + k)) := by
  rw [wordByte, BitVec.getLsbD_setWidth, BitVec.getLsbD_ushiftRight]

/-- The bits of the replaced byte are between `8 * i` and `8 * i + 8`. -/
theorem getLsbD_setWordByte (w : BitVec 64) (i k : Nat) (b : Byte) (inside : k < 64) :
    (setWordByte w i b).getLsbD k =
      if 8 * i ≤ k ∧ k < 8 * i + 8 then b.getLsbD (k - 8 * i) else w.getLsbD k := by
  rw [setWordByte, BitVec.getLsbD_or, BitVec.getLsbD_and, BitVec.getLsbD_not,
    BitVec.getLsbD_shiftLeft, BitVec.getLsbD_shiftLeft, BitVec.getLsbD_setWidth,
    BitVec.getLsbD_setWidth, BitVec.getLsbD_allOnes]
  by_cases before : k < 8 * i
  · rw [if_neg (by omega)]
    simp [before, inside]
  · have small : k - 8 * i < 64 := by omega
    by_cases after : k < 8 * i + 8
    · have byte : k - 8 * i < 8 := by omega
      rw [if_pos (by omega)]
      simp [before, inside, byte, small]
    · have byte : ¬ k - 8 * i < 8 := by omega
      have above : b.getLsbD (k - 8 * i) = false := BitVec.getLsbD_of_ge b _ (by omega)
      rw [if_neg (by omega)]
      simp [before, inside, byte, above]

theorem wordByte_setWordByte (inside : i < 8) : wordByte (setWordByte w i b) i = b := by
  apply BitVec.eq_of_getLsbD_eq
  intro k small
  rw [getLsbD_wordByte, getLsbD_setWordByte _ _ _ _ (by omega), if_pos (by omega),
    Nat.add_sub_cancel_left, decide_eq_true small, Bool.true_and]

theorem wordByte_setWordByte_other (otherInside : j < 8) (different : j ≠ i) :
    wordByte (setWordByte w i b) j = wordByte w j := by
  apply BitVec.eq_of_getLsbD_eq
  intro k small
  rw [getLsbD_wordByte, getLsbD_wordByte, getLsbD_setWordByte _ _ _ _ (by omega),
    if_neg (by omega)]

theorem byte_setByte : (m.setByte pa b).byte other = if other = pa then b else m.byte other := by
  rw [PhysMem.byte, PhysMem.setByte, PhysMem.byte]
  have inside : pa % 8 < 8 := Nat.mod_lt _ (by decide)
  have otherInside : other % 8 < 8 := Nat.mod_lt _ (by decide)
  by_cases same : other = pa
  · rw [same, Function.update_self, if_pos rfl, wordByte_setWordByte inside]
  · rw [if_neg same]
    by_cases word : other / 8 * 8 = pa / 8 * 8
    · have different : other % 8 ≠ pa % 8 := by omega
      rw [word, Function.update_self, wordByte_setWordByte_other otherInside different]
    · rw [Function.update_of_ne word]

theorem setByte_outside {address : Nat} (outside : address ≠ pa / 8 * 8) :
    m.setByte pa b address = m address :=
  Function.update_of_ne outside _ _

/-- A byte is read as before where its doubleword has not changed. -/
theorem byte_congr {m' : PhysMem} (same : m' (pa / 8 * 8) = m (pa / 8 * 8)) :
    m'.byte pa = m.byte pa := by
  rw [PhysMem.byte, same, PhysMem.byte]

theorem byte_setBytes {bytes : List Byte} {i : Nat} (inside : i < bytes.length) :
    (m.setBytes pa bytes).byte (pa + i) = bytes[i] := by
  induction bytes generalizing pa i with
  | nil => exact absurd inside (Nat.not_lt_zero i)
  | cons b bytes ih =>
      rw [PhysMem.setBytes, byte_setByte]
      cases i with
      | zero => rw [Nat.add_zero, if_pos rfl, List.getElem_cons_zero]
      | succ i =>
          have later : pa + (i + 1) = pa + 1 + i := by omega
          rw [if_neg (by omega), later, ih (Nat.lt_of_succ_lt_succ inside),
            List.getElem_cons_succ]

end Bytes

/-! ## Copies -/

section Copies

variable {k k' : Kernel} {n x y bound : Nat} {va : BitVec 64}

theorem deref_physToVirt_eq (small : x < 2 ^ 64) :
    deref (physToVirt x) = if x < memorySize then some x else none := by
  have value : (virtToPhys (physToVirt x)).toNat = x := by
    rw [virtToPhys, physToVirt, BitVec.add_sub_cancel, BitVec.toNat_ofNat,
      Nat.mod_eq_of_lt small]
  rw [deref, value]

theorem physToVirt_add_ofNat (x n : Nat) :
    physToVirt x + BitVec.ofNat 64 n = physToVirt (x + n) := by
  rw [physToVirt, physToVirt, BitVec.ofNat_add, BitVec.add_assoc, BitVec.add_assoc,
    BitVec.add_comm pageOffset]

theorem physToVirt_succ (x : Nat) : physToVirt x + 1 = physToVirt (x + 1) :=
  physToVirt_add_ofNat x 1

theorem view_physToVirt (inside : x < memorySize) : k.view (physToVirt x) = k.mem.byte x := by
  rw [Kernel.view, deref_physToVirt inside]

theorem loadByte_physToVirt (inside : x < memorySize) :
    k.loadByte (physToVirt x) = .ok (k.mem.byte x) := by
  rw [Kernel.loadByte, deref_physToVirt inside]

theorem storeByte_physToVirt (inside : x < memorySize) (b : Byte) :
    k.storeByte (physToVirt x) b = .ok { k with mem := k.mem.setByte x b } := by
  rw [Kernel.storeByte, deref_physToVirt inside]

theorem storeByte_inside {b : Byte} (small : x < 2 ^ 64)
    (stored : k.storeByte (physToVirt x) b = .ok k') :
    k'.curr = k.curr ∧ k'.mem = k.mem.setByte x b := by
  rw [Kernel.storeByte, deref_physToVirt_eq small] at stored
  by_cases inside : x < memorySize
  · rw [if_pos inside] at stored
    cases stored
    exact ⟨rfl, rfl⟩
  · rw [if_neg inside] at stored
    cases stored

theorem bind_ok {ε α β : Type} {first : Except ε α} {next : α → Except ε β} {result : β}
    (ok : first >>= next = .ok result) : ∃ value, first = .ok value ∧ next value = .ok result := by
  cases first with
  | error fault => cases ok
  | ok value => exact ⟨value, rfl, ok⟩

/-- One round of a copy without a fault. -/
theorem memcpy_succ {s d : BitVec 64} (copied : memcpy (n + 1) d s k = .ok k') :
    ∃ b k₁, k.storeByte d b = .ok k₁ ∧ memcpy n (d + 1) (s + 1) k₁ = .ok k' := by
  rw [memcpy] at copied
  obtain ⟨b, -, afterLoad⟩ := bind_ok copied
  obtain ⟨k₁, stored, rest⟩ := bind_ok afterLoad
  exact ⟨b, k₁, stored, rest⟩

/-- A copy that ends without a fault has written nothing before its destination. -/
theorem memcpy_before (copied : memcpy n (physToVirt x) va k = .ok k') (aligned : 8 ∣ bound)
    (start : bound ≤ x) (small : x + n < 2 ^ 64) :
    k'.curr = k.curr ∧ ∀ address < bound, k'.mem address = k.mem address := by
  induction n generalizing x va k with
  | zero =>
      rw [memcpy] at copied
      cases copied
      exact ⟨rfl, fun _ _ => rfl⟩
  | succ n ih =>
      obtain ⟨b, k₁, stored, rest⟩ := memcpy_succ copied
      obtain ⟨curr₁, mem₁⟩ := storeByte_inside (by omega) stored
      rw [physToVirt_succ] at rest
      obtain ⟨curr, before⟩ := ih rest (by omega) (by omega)
      refine ⟨curr.trans curr₁, ?_⟩
      intro address below
      have outside : address ≠ x / 8 * 8 := by omega
      rw [before address below, mem₁, setByte_outside outside]

theorem memcpy_step {y : Nat} (inside : x < memorySize) (insideSource : y < memorySize) :
    memcpy (n + 1) (physToVirt x) (physToVirt y) k =
      memcpy n (physToVirt (x + 1)) (physToVirt (y + 1))
        { k with mem := k.mem.setByte x (k.mem.byte y) } := by
  rw [memcpy, loadByte_physToVirt insideSource, ok_bind, storeByte_physToVirt inside, ok_bind,
    physToVirt_succ, physToVirt_succ]

/-- A copy to lower addresses takes every byte from where it was. -/
theorem memcpy_copies (lower : x ≤ y) (inside : y + n ≤ memorySize) :
    ∃ k', memcpy n (physToVirt x) (physToVirt y) k = .ok k' ∧ k'.curr = k.curr ∧
      ∀ pa, k'.mem.byte pa =
        if x ≤ pa ∧ pa < x + n then k.mem.byte (y + (pa - x)) else k.mem.byte pa := by
  induction n generalizing x y k with
  | zero =>
      refine ⟨k, rfl, rfl, ?_⟩
      intro pa
      rw [if_neg (by omega)]
  | succ n ih =>
      rw [memcpy_step (by omega) (by omega)]
      generalize first : k.mem.setByte x (k.mem.byte y) = m₁
      have firstByte : ∀ pa, m₁.byte pa = if pa = x then k.mem.byte y else k.mem.byte pa := by
        intro pa
        rw [← first, byte_setByte]
      obtain ⟨k', copied, curr, bytes⟩ :=
        ih (k := { k with mem := m₁ }) (Nat.succ_le_succ lower) (by omega)
      refine ⟨k', copied, curr, ?_⟩
      intro pa
      have source : ({ k with mem := m₁ } : Kernel).mem = m₁ := rfl
      rw [bytes pa, source, firstByte, firstByte]
      by_cases later : x + 1 ≤ pa ∧ pa < x + 1 + n
      · have offset : y + 1 + (pa - (x + 1)) = y + (pa - x) := by omega
        rw [if_pos later, if_neg (by omega), if_pos (by omega), offset]
      · rw [if_neg later]
        by_cases same : pa = x
        · rw [if_pos same, if_pos (by omega), same, Nat.sub_self, Nat.add_zero]
        · rw [if_neg same, if_neg (by omega)]

end Copies

end OscKernel.Paging
