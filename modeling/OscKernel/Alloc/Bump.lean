import OscKernel.Words.Masks

/-!
# The bump allocator (`utils.c` of `ex41`, `ex51` and `ex62`)

`kmalloc` and `alloc_page` take the next aligned address from a counter that starts at
`_end` and never give anything back.  The counter is an `unsigned long`.
-/

namespace OscKernel.Alloc

open Words

/-- `kmalloc`: the pointer, and the new value of `curr`. -/
def kmalloc (curr size : BitVec 64) : BitVec 64 × BitVec 64 :=
  let p := (curr + 0xf) &&& ~~~0xf
  (p, p + size)

/-- `alloc_page`: the pointer, and the new value of `curr`. -/
def allocPage (curr : BitVec 64) : BitVec 64 × BitVec 64 :=
  let p := (curr + 0x1000 - 1) &&& ~~~(0x1000 - 1)
  (p, p + 0x1000)

/-- The next multiple of `2 ^ k`. -/
def roundUp (k n : Nat) : Nat := (n + (2 ^ k - 1)) / 2 ^ k * 2 ^ k

theorem le_roundUp (k n : Nat) : n ≤ roundUp k n := by
  have positive : 0 < 2 ^ k := Nat.two_pow_pos k
  have next := Nat.lt_div_mul_add (a := n + (2 ^ k - 1)) positive
  rw [roundUp]
  omega

theorem roundUp_lt (k n : Nat) : roundUp k n < n + 2 ^ k := by
  have positive : 0 < 2 ^ k := Nat.two_pow_pos k
  have below := Nat.div_mul_le_self (n + (2 ^ k - 1)) (2 ^ k)
  rw [roundUp]
  omega

theorem dvd_roundUp (k n : Nat) : 2 ^ k ∣ roundUp k n := Nat.dvd_mul_left _ _

theorem roundUp_of_dvd {k n : Nat} (multiple : 2 ^ k ∣ n) : roundUp k n = n := by
  obtain ⟨c, rfl⟩ := multiple
  have positive : 0 < 2 ^ k := Nat.two_pow_pos k
  rw [roundUp, Nat.mul_add_div positive, Nat.div_eq_of_lt (by omega), Nat.add_zero, Nat.mul_comm]

/-- Rounding a pointer up to a multiple of four, as the programs do it. -/
theorem toNat_align_four {ptr : BitVec 64} (small : ptr.toNat + 3 < 2 ^ 64) :
    ((ptr + 4 - 1) &&& ~~~(4 - 1)).toNat = roundUp 2 ptr.toNat := by
  have sum : (ptr + 4 - 1).toNat = ptr.toNat + (2 ^ 2 - 1) := by bv_omega
  rw [toNat_and_high (k := 2) (by decide), sum, roundUp]

/-- A multiple of four stays in front. -/
theorem roundUp_add {base : Nat} (aligned : base % 4 = 0) (n : Nat) :
    roundUp 2 (base + n) = base + roundUp 2 n := by
  rw [roundUp, roundUp]
  omega

section Results

variable {curr size : BitVec 64}

/-- `kmalloc` computes with numbers, up to a multiple of `2 ^ 64`. -/
theorem kmalloc_ofNat (n : Nat) (size : BitVec 64) :
    kmalloc (BitVec.ofNat 64 n) size =
      (BitVec.ofNat 64 (roundUp 4 n), BitVec.ofNat 64 (roundUp 4 n + size.toNat)) := by
  have pointer : (BitVec.ofNat 64 n + 0xf) &&& ~~~0xf = BitVec.ofNat 64 (roundUp 4 n) := by
    apply BitVec.eq_of_toNat_eq
    rw [toNat_and_high (k := 4) (by decide), BitVec.toNat_add, BitVec.toNat_ofNat,
      BitVec.toNat_ofNat, show (0xf : BitVec 64).toNat = 0xf from rfl, roundUp]
    omega
  rw [kmalloc, pointer, BitVec.ofNat_add, BitVec.ofNat_toNat, BitVec.setWidth_eq]

theorem allocPage_ofNat (n : Nat) :
    allocPage (BitVec.ofNat 64 n) =
      (BitVec.ofNat 64 (roundUp 12 n), BitVec.ofNat 64 (roundUp 12 n + 0x1000)) := by
  have pointer : (BitVec.ofNat 64 n + 0x1000 - 1) &&& ~~~(0x1000 - 1) =
      BitVec.ofNat 64 (roundUp 12 n) := by
    apply BitVec.eq_of_toNat_eq
    rw [toNat_and_high (k := 12) (by decide), BitVec.toNat_sub, BitVec.toNat_add,
      BitVec.toNat_ofNat, BitVec.toNat_ofNat, show (0x1000 : BitVec 64).toNat = 0x1000 from rfl,
      show (1 : BitVec 64).toNat = 1 from rfl, roundUp]
    omega
  rw [allocPage, pointer, BitVec.ofNat_add]
  rfl

theorem kmalloc_eq (curr size : BitVec 64) :
    kmalloc curr size = (BitVec.ofNat 64 (roundUp 4 curr.toNat),
      BitVec.ofNat 64 (roundUp 4 curr.toNat + size.toNat)) := by
  have whole := kmalloc_ofNat curr.toNat size
  rwa [BitVec.ofNat_toNat, BitVec.setWidth_eq] at whole

theorem allocPage_eq (curr : BitVec 64) :
    allocPage curr = (BitVec.ofNat 64 (roundUp 12 curr.toNat),
      BitVec.ofNat 64 (roundUp 12 curr.toNat + 0x1000)) := by
  have whole := allocPage_ofNat curr.toNat
  rwa [BitVec.ofNat_toNat, BitVec.setWidth_eq] at whole

theorem kmalloc_fst (small : curr.toNat + 0xf < 2 ^ 64) :
    (kmalloc curr size).1.toNat = roundUp 4 curr.toNat := by
  have upper := roundUp_lt 4 curr.toNat
  rw [kmalloc_eq, BitVec.toNat_ofNat, Nat.mod_eq_of_lt (by omega)]

theorem kmalloc_snd (small : curr.toNat + 0xf + size.toNat < 2 ^ 64) :
    (kmalloc curr size).2.toNat = roundUp 4 curr.toNat + size.toNat := by
  have upper := roundUp_lt 4 curr.toNat
  rw [kmalloc_eq, BitVec.toNat_ofNat, Nat.mod_eq_of_lt (by omega)]

theorem allocPage_fst (small : curr.toNat + 0xfff < 2 ^ 64) :
    (allocPage curr).1.toNat = roundUp 12 curr.toNat := by
  have upper := roundUp_lt 12 curr.toNat
  rw [allocPage_eq, BitVec.toNat_ofNat, Nat.mod_eq_of_lt (by omega)]

theorem allocPage_snd (small : curr.toNat + 0xfff + 0x1000 < 2 ^ 64) :
    (allocPage curr).2.toNat = roundUp 12 curr.toNat + 0x1000 := by
  have upper := roundUp_lt 12 curr.toNat
  rw [allocPage_eq, BitVec.toNat_ofNat, Nat.mod_eq_of_lt (by omega)]

end Results

end OscKernel.Alloc
