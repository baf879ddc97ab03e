import Mathlib.Algebra.Group.Nat.Defs
import Mathlib.Logic.Basic

/-!
# Masks and sign extension

Masking a machine word with low ones takes a remainder, masking it with high ones rounds
down to a multiple.  Extending a 32-bit `int` keeps its number unless the number is negative.
-/

namespace OscKernel.Words

variable {w : Nat}

/-- `INT_MAX` -/
def intMax : Nat := 2 ^ 31 - 1

/-- High ones clear the low bits. -/
theorem and_allOnes_shiftLeft (x : BitVec w) (k : Nat) :
    x &&& BitVec.allOnes w <<< k = (x >>> k) <<< k := by
  apply BitVec.eq_of_getLsbD_eq
  intro i small
  rw [BitVec.getLsbD_and, BitVec.getLsbD_shiftLeft, BitVec.getLsbD_shiftLeft,
    BitVec.getLsbD_ushiftRight, BitVec.getLsbD_allOnes]
  by_cases low : i < k
  · simp [low]
  · have back : k + (i - k) = i := by omega
    have inside : i - k < w := by omega
    simp [low, small, back, inside]

theorem toNat_and_allOnes_shiftLeft (x : BitVec w) (k : Nat) :
    (x &&& BitVec.allOnes w <<< k).toNat = x.toNat / 2 ^ k * 2 ^ k := by
  have bound := x.isLt
  have below : x.toNat / 2 ^ k * 2 ^ k ≤ x.toNat := Nat.div_mul_le_self _ _
  rw [and_allOnes_shiftLeft, BitVec.toNat_shiftLeft, BitVec.toNat_ushiftRight,
    Nat.shiftRight_eq_div_pow, Nat.shiftLeft_eq, Nat.mod_eq_of_lt (Nat.lt_of_le_of_lt below bound)]

/-- Rounding down clears the remainder. -/
theorem toNat_and_high {x mask : BitVec w} {k : Nat} (high : mask = BitVec.allOnes w <<< k) :
    (x &&& mask).toNat = x.toNat / 2 ^ k * 2 ^ k := by
  rw [high, toNat_and_allOnes_shiftLeft]

/-- Low ones keep the remainder. -/
theorem toNat_and_low {x mask : BitVec w} {k : Nat} (low : mask.toNat = 2 ^ k - 1) :
    (x &&& mask).toNat = x.toNat % 2 ^ k := by
  rw [BitVec.toNat_and, low, Nat.and_two_pow_sub_one_eq_mod]

/-- The sign is the upper half. -/
theorem msb_eq (x : BitVec 32) : x.msb = decide (2 ^ 31 ≤ x.toNat) :=
  BitVec.msb_eq_decide x

theorem toNat_signExtend_small {x : BitVec 32} (small : x.toNat < 2 ^ 31) :
    (x.signExtend 64).toNat = x.toNat := by
  have positive : x.msb = false := by
    rw [msb_eq, decide_eq_false_iff_not]
    omega
  rw [BitVec.toNat_signExtend, positive, BitVec.toNat_setWidth]
  have bound := x.isLt
  simp only [Bool.false_eq_true, if_false]
  omega

theorem toNat_signExtend_large {x : BitVec 32} (large : 2 ^ 31 ≤ x.toNat) :
    (x.signExtend 64).toNat = x.toNat + (2 ^ 64 - 2 ^ 32) := by
  have negative : x.msb = true := by
    rw [msb_eq, decide_eq_true large]
  rw [BitVec.toNat_signExtend, negative, BitVec.toNat_setWidth]
  have bound := x.isLt
  simp only [if_true]
  omega

/-- The low half of an extended word is the word. -/
theorem setWidth_signExtend (x : BitVec 32) : (x.signExtend 64).setWidth 32 = x := by
  apply BitVec.eq_of_toNat_eq
  have bound := x.isLt
  rw [BitVec.toNat_setWidth]
  by_cases small : x.toNat < 2 ^ 31
  · rw [toNat_signExtend_small small]
    omega
  · rw [toNat_signExtend_large (Nat.le_of_not_lt small)]
    omega

/-- An address moves up by a positive `int`, or by a negative one that wraps below 0. -/
theorem lt_add_signExtend_iff {p : BitVec 64} {x : BitVec 32} :
    p.toNat < (p + x.signExtend 64).toNat ↔
      (0 < x.toNat ∧ x.toNat < 2 ^ 31 ∧ p.toNat + x.toNat < 2 ^ 64) ∨
        (2 ^ 31 ≤ x.toNat ∧ p.toNat + x.toNat < 2 ^ 32) := by
  have bound := p.isLt
  have word := x.isLt
  rw [BitVec.toNat_add]
  by_cases small : x.toNat < 2 ^ 31
  · rw [toNat_signExtend_small small]
    omega
  · rw [toNat_signExtend_large (Nat.le_of_not_lt small)]
    omega

end OscKernel.Words
