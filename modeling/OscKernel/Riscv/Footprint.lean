import Mathlib.Data.Set.BooleanAlgebra
import Mathlib.Data.Set.Function
import Mathlib.Order.CompletePartialOrder
import OscKernel.Riscv.Stored

/-!
# The bytes that are read

Sets of addresses as the footprint of an access, and buffers.  What is read of a string ends
with its NUL, and a comparison ends with the first difference.  Two memories that agree on a
footprint give the same result.
-/

namespace OscKernel.Riscv

/-- The bytes from an address on. -/
def bytesAt (a : BitVec 64) (n : Nat) : Set (BitVec 64) := {x | distance a x < n}

/-- A region that does not wrap around and does not start at the null pointer. -/
structure Buffer where
  base : BitVec 64
  size : Nat
  notNull : base ≠ 0
  fits : base.toNat + size ≤ 2 ^ 64

/-- The addresses of a buffer. -/
def Buffer.inside (buffer : Buffer) : Set (BitVec 64) := bytesAt buffer.base buffer.size

section Bytes

variable {a x : BitVec 64} {b k n more : Nat}

theorem distance_offset (a : BitVec 64) (k : Nat) :
    distance a (a + BitVec.ofNat 64 k) = k % 2 ^ 64 := by
  rw [distance, BitVec.add_comm, BitVec.add_sub_cancel, BitVec.toNat_ofNat]

theorem add_distance (a x : BitVec 64) : a + BitVec.ofNat 64 (distance a x) = x := by
  rw [distance, BitVec.ofNat_toNat, BitVec.setWidth_eq, BitVec.add_comm, BitVec.sub_add_cancel]

theorem mem_bytesAt : x ∈ bytesAt a n ↔ distance a x < n := Iff.rfl

theorem self_mem_bytesAt (positive : 0 < n) : a ∈ bytesAt a n := by
  rw [mem_bytesAt, distance, BitVec.sub_self]
  exact positive

theorem offset_mem_bytesAt (inside : k < n) : a + BitVec.ofNat 64 k ∈ bytesAt a n := by
  rw [mem_bytesAt, distance_offset]
  exact Nat.lt_of_le_of_lt (Nat.mod_le k _) inside

theorem mem_bytesAt_iff : x ∈ bytesAt a n ↔ ∃ k < n, k < 2 ^ 64 ∧ x = a + BitVec.ofNat 64 k := by
  constructor
  · intro inside
    exact ⟨distance a x, inside, BitVec.isLt _, (add_distance a x).symm⟩
  · rintro ⟨k, inside, -, rfl⟩
    exact offset_mem_bytesAt inside

/-- Bytes that do not pass the end of the address space are between two numbers. -/
theorem mem_bytesAt_ofNat (fits : b + n ≤ 2 ^ 64) :
    x ∈ bytesAt (BitVec.ofNat 64 b) n ↔ b ≤ x.toNat ∧ x.toNat < b + n := by
  have bound := x.isLt
  rw [mem_bytesAt, distance, BitVec.toNat_sub, BitVec.toNat_ofNat]
  omega

/-- Bytes one behind the other do not overlap. -/
theorem disjoint_bytesAt_ofNat {c : Nat} (before : b + n ≤ c) (fits : c + more ≤ 2 ^ 64) :
    Disjoint (bytesAt (BitVec.ofNat 64 b) n) (bytesAt (BitVec.ofNat 64 c) more) := by
  rw [Set.disjoint_left]
  intro x inside
  rw [mem_bytesAt_ofNat (by omega)] at inside ⊢
  omega

theorem bytesAt_mono (fewer : n ≤ more) : bytesAt a n ⊆ bytesAt a more :=
  fun _ inside => Nat.lt_of_lt_of_le inside fewer

theorem bytesAt_offset_subset : bytesAt (a + BitVec.ofNat 64 k) n ⊆ bytesAt a (k + n) := by
  intro x member
  obtain ⟨j, below, -, rfl⟩ := mem_bytesAt_iff.mp member
  rw [add_ofNat_add]
  exact offset_mem_bytesAt (Nat.add_lt_add_left below k)

end Bytes

namespace Buffer

variable (buffer : Buffer) {k n : Nat}

theorem size_lt : buffer.size < 2 ^ 64 := by
  have fits := buffer.fits
  have positive : 0 < buffer.base.toNat :=
    Nat.pos_of_ne_zero fun zero => buffer.notNull (BitVec.eq_of_toNat_eq zero)
  omega

theorem offset_mem_inside (small : k < 2 ^ 64) :
    buffer.base + BitVec.ofNat 64 k ∈ buffer.inside ↔ k < buffer.size := by
  rw [inside, mem_bytesAt, distance_add _ small]

/-- The null pointer points outside. -/
theorem zero_notMem : 0 ∉ buffer.inside := by
  have fits := buffer.fits
  have positive : 0 < buffer.base.toNat :=
    Nat.pos_of_ne_zero fun zero => buffer.notNull (BitVec.eq_of_toNat_eq zero)
  rw [inside, mem_bytesAt, distance, BitVec.toNat_sub]
  have zero : (0 : BitVec 64).toNat = 0 := rfl
  rw [zero]
  omega

/-- Bytes at an offset are inside if their end is. -/
theorem bytesAt_subset_iff (small : k < 2 ^ 64) :
    bytesAt (buffer.base + BitVec.ofNat 64 k) n ⊆ buffer.inside ↔ n = 0 ∨ k + n ≤ buffer.size := by
  have size := buffer.size_lt
  constructor
  · intro all
    by_cases empty : n = 0
    · exact .inl empty
    · right
      -- The last of the bytes before the end of the address space.
      by_cases wraps : k + n ≤ 2 ^ 64
      · have last := all (offset_mem_bytesAt (k := n - 1) (by omega))
        rw [add_ofNat_add, offset_mem_inside _ (by omega)] at last
        omega
      · have last := all (offset_mem_bytesAt (k := 2 ^ 64 - 1 - k) (by omega))
        rw [add_ofNat_add, offset_mem_inside _ (by omega)] at last
        omega
  · rintro (rfl | short) x member
    · exact absurd member (Nat.not_lt_zero _)
    · obtain ⟨j, below, -, rfl⟩ := mem_bytesAt_iff.mp member
      rw [add_ofNat_add, offset_mem_inside _ (by omega)]
      omega

end Buffer

namespace Mem

/-- What `strlen` reads. -/
def stringAt (m : Mem) (a : BitVec 64) : Set (BitVec 64) := bytesAt a (m.strlen a + 1)

/-- How many bytes `strcmp` reads at the address. -/
def strcmpReads (m : Mem) : List Byte → BitVec 64 → Nat
  | [], _ => 1
  | c :: rest, a => if c = m a then strcmpReads m rest (a + 1) + 1 else 1

section Strings

variable {m m' : Mem} {a : BitVec 64} {fuel k : Nat} {text other : List Byte}

theorem strlen_go_le (nul : m (a + BitVec.ofNat 64 k) = 0) (inside : k < fuel) :
    strlen.go m fuel a ≤ k := by
  induction fuel generalizing a k with
  | zero => omega
  | succ fuel ih =>
      rw [strlen.go]
      by_cases first : m a = 0
      · rw [if_pos first]
        exact Nat.zero_le k
      · rw [if_neg first]
        cases k with
        | zero => exact absurd ((congrArg m (BitVec.add_zero a)).symm.trans nul) first
        | succ k =>
            rw [add_ofNat_succ] at nul
            exact Nat.succ_le_succ (ih nul (by omega))

theorem nul_strlen_go (found : strlen.go m fuel a < fuel) :
    m (a + BitVec.ofNat 64 (strlen.go m fuel a)) = 0 := by
  induction fuel generalizing a with
  | zero => omega
  | succ fuel ih =>
      rw [strlen.go] at found ⊢
      by_cases first : m a = 0
      · rw [if_pos first]
        exact (congrArg m (BitVec.add_zero a)).trans first
      · rw [if_neg first] at found ⊢
        rw [add_ofNat_succ]
        exact ih (by omega)

/-- As much of a length as is looked at. -/
theorem min_strlen_go_congr {n : Nat} (agree : ∀ j < n, j ≤ strlen.go m fuel a →
    m' (a + BitVec.ofNat 64 j) = m (a + BitVec.ofNat 64 j)) :
    min n (strlen.go m' fuel a) = min n (strlen.go m fuel a) := by
  induction fuel generalizing a n with
  | zero => rfl
  | succ fuel ih =>
      cases n with
      | zero => rw [Nat.zero_min, Nat.zero_min]
      | succ n =>
          have first := agree 0 (Nat.zero_lt_succ n) (Nat.zero_le _)
          rw [show a + BitVec.ofNat 64 0 = a from BitVec.add_zero a] at first
          rw [strlen.go, strlen.go, first]
          by_cases nul : m a = 0
          · rw [if_pos nul, if_pos nul]
          · rw [if_neg nul, if_neg nul, Nat.succ_min_succ, Nat.succ_min_succ, ih]
            intro j below atMost
            have later := agree (j + 1) (by omega) (by rw [strlen.go, if_neg nul]; omega)
            rwa [add_ofNat_succ] at later

/-- The length is at most the index of a NUL. -/
theorem strlen_le (nul : m (a + BitVec.ofNat 64 k) = 0) (small : k < 2 ^ 64) : m.strlen a ≤ k :=
  strlen_go_le nul small

theorem min_strlen_congr {n : Nat} (agree : Set.EqOn m' m (bytesAt a (min n (m.strlen a + 1)))) :
    min n (m'.strlen a) = min n (m.strlen a) := by
  apply min_strlen_go_congr
  intro j below atMost
  exact agree (offset_mem_bytesAt (Nat.lt_min.mpr ⟨below, Nat.lt_succ_of_le atMost⟩))

/-- The length of a string does not depend on other bytes. -/
theorem strlen_congr (agree : Set.EqOn m' m (m.stringAt a)) : m'.strlen a = m.strlen a := by
  rw [stringAt, ← Nat.min_self (m.strlen a + 1)] at agree
  have whole := min_strlen_congr agree
  omega

/-- A string at an offset is read inside a buffer if a NUL is. -/
theorem stringAt_subset_iff (m : Mem) (buffer : Buffer) (small : k < 2 ^ 64) :
    m.stringAt (buffer.base + BitVec.ofNat 64 k) ⊆ buffer.inside ↔
      ∃ j, k + j < buffer.size ∧ m (buffer.base + BitVec.ofNat 64 (k + j)) = 0 := by
  have size := buffer.size_lt
  rw [stringAt, buffer.bytesAt_subset_iff small]
  constructor
  · rintro (none | short)
    · omega
    · refine ⟨m.strlen (buffer.base + BitVec.ofNat 64 k), by omega, ?_⟩
      rw [← add_ofNat_add]
      exact nul_strlen_go (by rw [← strlen]; omega)
  · rintro ⟨j, below, nul⟩
    right
    rw [← add_ofNat_add] at nul
    have length := strlen_le nul (by omega)
    omega

theorem strcmpReads_pos (m : Mem) (text : List Byte) (a : BitVec 64) :
    0 < m.strcmpReads text a := by
  cases text with
  | nil => exact Nat.zero_lt_one
  | cons c rest =>
      rw [strcmpReads]
      split
      · exact Nat.zero_lt_succ _
      · exact Nat.zero_lt_one

/-- A comparison does not depend on bytes behind the first difference. -/
theorem strcmp_congr (agree : Set.EqOn m' m (bytesAt a (m.strcmpReads text a))) :
    m'.strcmp text a = m.strcmp text a := by
  induction text generalizing a with
  | nil =>
      have first : m' a = m a := agree (self_mem_bytesAt Nat.zero_lt_one)
      rw [strcmp, strcmp, first]
  | cons c rest ih =>
      have first : m' a = m a := agree (self_mem_bytesAt (strcmpReads_pos m _ a))
      rw [strcmp, strcmp, first]
      by_cases same : c = m a
      · rw [if_pos same, if_pos same]
        apply ih
        intro x inside
        obtain ⟨j, below, -, rfl⟩ := mem_bytesAt_iff.mp inside
        apply agree
        rw [strcmpReads, if_pos same, ← add_ofNat_succ]
        exact offset_mem_bytesAt (Nat.succ_lt_succ below)
      · rw [if_neg same, if_neg same]

/-- A comparison with a string reads no more than the string and its NUL. -/
theorem CString.strcmpReads_le (string : m.CString a text) (noNul : 0 ∉ other) :
    m.strcmpReads other a ≤ text.length + 1 := by
  induction other generalizing a text with
  | nil => exact Nat.succ_le_succ (Nat.zero_le _)
  | cons d other ih =>
      obtain ⟨different, laterOther⟩ := List.ne_and_not_mem_of_not_mem_cons noNul
      rw [strcmpReads]
      by_cases same : d = m a
      · rw [if_pos same]
        cases text with
        | nil => exact absurd (same.trans (cstring_nil.mp string)) different.symm
        | cons c text =>
            obtain ⟨-, -, later⟩ := cstring_cons.mp string
            rw [List.length_cons]
            exact Nat.succ_le_succ (ih later laterOther)
      · rw [if_neg same]
        exact Nat.succ_le_succ (Nat.zero_le _)

end Strings

end Mem

end OscKernel.Riscv
