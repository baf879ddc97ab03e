import Mathlib.Algebra.Group.Nat.Defs
import Mathlib.Data.Nat.Basic

/-!
# Byte memory

Memory of 64-bit addresses with little-endian doublewords.  Addresses wrap around, so the
byte at `x` belongs to the doubleword at `a` if the distance from `a` to `x` is below 8.
-/

namespace OscKernel.Riscv

/-- Memory, byte by byte. -/
abbrev Mem := BitVec 64 → BitVec 8

/-- Distance from an address up to another one. -/
def distance (a x : BitVec 64) : Nat := (x - a).toNat

theorem distance_add (a : BitVec 64) {k : Nat} (small : k < 2 ^ 64) :
    distance a (a + BitVec.ofNat 64 k) = k := by
  rw [distance, BitVec.add_comm, BitVec.add_sub_cancel, BitVec.toNat_ofNat, Nat.mod_eq_of_lt small]

/-- Offsets of an address are added. -/
theorem add_ofNat_add (a : BitVec 64) (j k : Nat) :
    a + BitVec.ofNat 64 j + BitVec.ofNat 64 k = a + BitVec.ofNat 64 (j + k) := by
  rw [BitVec.add_assoc, ← BitVec.ofNat_add]

namespace Mem

/-- The number made of `n` bytes from `a` on, the lowest byte first. -/
def bytes (m : Mem) (a : BitVec 64) : Nat → Nat
  | 0 => 0
  | n + 1 => (m a).toNat + 2 ^ 8 * bytes m (a + 1) n

/-- Read a doubleword. -/
def load (m : Mem) (a : BitVec 64) : BitVec 64 := BitVec.ofNat 64 (m.bytes a 8)

/-- Write a doubleword. -/
def store (m : Mem) (a value : BitVec 64) : Mem := fun x =>
  if distance a x < 8 then BitVec.ofNat 8 (value.toNat / 2 ^ (8 * distance a x)) else m x

section Lemmas

variable {m other : Mem} {a b x value : BitVec 64}

theorem store_outside (outside : 8 ≤ distance a x) : m.store a value x = m x := by
  rw [store, if_neg (Nat.not_lt.mpr outside)]

theorem add_ofNat_succ (a : BitVec 64) (k : Nat) :
    a + BitVec.ofNat 64 (k + 1) = a + 1 + BitVec.ofNat 64 k := by
  rw [BitVec.ofNat_add, BitVec.add_comm (BitVec.ofNat 64 k), ← BitVec.add_assoc]
  rfl

/-- The bytes of a stored doubleword, from byte `k` on. -/
theorem bytes_store {k n : Nat} (inside : k + n ≤ 8) :
    (m.store a value).bytes (a + BitVec.ofNat 64 k) n =
      value.toNat / 2 ^ (8 * k) % 2 ^ (8 * n) := by
  induction n generalizing k with
  | zero => simp [bytes, Nat.mod_one]
  | succ n ih =>
      have offset : distance a (a + BitVec.ofNat 64 k) = k := distance_add a (by omega)
      have next : a + BitVec.ofNat 64 k + 1 = a + BitVec.ofNat 64 (k + 1) := by
        rw [BitVec.ofNat_add, BitVec.add_assoc]
        rfl
      have lowest : m.store a value (a + BitVec.ofNat 64 k) =
          BitVec.ofNat 8 (value.toNat / 2 ^ (8 * k)) := by
        rw [store, offset, if_pos (by omega)]
      rw [bytes, next, ih (by omega), lowest, BitVec.toNat_ofNat, Nat.mul_succ 8 k, Nat.pow_add,
        ← Nat.div_div_eq_div_mul, Nat.mul_succ 8 n, Nat.add_comm (8 * n) 8, Nat.pow_add,
        Nat.mod_mul]

/-- A stored doubleword is read back. -/
theorem load_store_self : (m.store a value).load a = value := by
  have start : a + BitVec.ofNat 64 0 = a := BitVec.add_zero a
  have whole : (m.store a value).bytes (a + BitVec.ofNat 64 0) 8 =
      value.toNat / 2 ^ (8 * 0) % 2 ^ (8 * 8) := bytes_store (by omega)
  rw [start] at whole
  apply BitVec.eq_of_toNat_eq
  have bound := value.isLt
  rw [load, whole, BitVec.toNat_ofNat, Nat.mul_zero, Nat.pow_zero, Nat.div_one]
  omega

theorem bytes_lt (m : Mem) (a : BitVec 64) (n : Nat) : m.bytes a n < 2 ^ (8 * n) := by
  induction n generalizing a with
  | zero => exact Nat.one_pos
  | succ n ih =>
      have low := (m a).isLt
      have high := ih (a + 1)
      rw [bytes, Nat.mul_succ, Nat.pow_add]
      omega

theorem byte_bytes {n k : Nat} (inside : k < n) :
    (m (a + BitVec.ofNat 64 k)).toNat = m.bytes a n / 2 ^ (8 * k) % 2 ^ 8 := by
  induction n generalizing a k with
  | zero => exact absurd inside (Nat.not_lt_zero k)
  | succ n ih =>
      have low := (m a).isLt
      rw [bytes]
      cases k with
      | zero =>
          rw [show a + BitVec.ofNat 64 0 = a from BitVec.add_zero a, Nat.mul_zero, Nat.pow_zero,
            Nat.div_one, Nat.add_mul_mod_self_left, Nat.mod_eq_of_lt low]
      | succ k =>
          rw [add_ofNat_succ, ih (Nat.lt_of_succ_lt_succ inside), Nat.mul_succ 8 k,
            Nat.add_comm (8 * k) 8, Nat.pow_add, ← Nat.div_div_eq_div_mul,
            Nat.add_mul_div_left _ _ (by decide), Nat.div_eq_of_lt low, Nat.zero_add]

/-- Each byte of a doubleword. -/
theorem byte_load {k : Nat} (inside : k < 8) :
    (m (a + BitVec.ofNat 64 k)).toNat = (m.load a).toNat / 2 ^ (8 * k) % 2 ^ 8 := by
  rw [load, BitVec.toNat_ofNat, Nat.mod_eq_of_lt (bytes_lt m a 8), byte_bytes inside]

theorem bytes_congr {n : Nat} (agree : ∀ k < n, other (a + BitVec.ofNat 64 k) =
    m (a + BitVec.ofNat 64 k)) : other.bytes a n = m.bytes a n := by
  induction n generalizing a with
  | zero => rfl
  | succ n ih =>
      have first := agree 0 (by omega)
      rw [show a + BitVec.ofNat 64 0 = a from BitVec.add_zero a] at first
      rw [bytes, bytes, first, ih]
      intro k below
      have later := agree (k + 1) (by omega)
      rwa [add_ofNat_succ] at later

/-- A doubleword is read as before where no byte of it has changed. -/
theorem load_congr (agree : ∀ x, distance a x < 8 → other x = m x) : other.load a = m.load a := by
  rw [load, load, bytes_congr]
  intro k below
  apply agree
  rwa [distance_add a (by omega)]

/-- Doublewords at a distance of at least 8 both ways do not overlap. -/
theorem load_store_apart (up : 8 ≤ distance a b) (down : 8 ≤ distance b a) :
    (m.store a value).load b = m.load b := by
  apply load_congr
  intro x inside
  apply store_outside
  rw [distance] at *
  bv_omega

end Lemmas

end Mem

end OscKernel.Riscv
