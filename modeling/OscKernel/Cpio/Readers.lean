import Mathlib.Tactic.Ring
import OscKernel.Cpio.Newc
import OscKernel.Loops.Iterate
import OscKernel.Words.Masks

/-!
# The cpio readers (`ex22/main.c`, `ex41/main.c`, `ex62/main.c` and their `utils.c`)

`initrd_list` and `initrd_cat` of `ex22`, and the search loop of `exec` of `ex41` and `ex62`, each
with its own `hextoi` and `align`.  A `char` is signed where `ex22` runs, and unsigned on RISC-V.
-/

namespace OscKernel.Cpio

open Alloc Riscv Loops

/-- `TRAILER!!!` -/
def trailerName : List Byte := ascii "TRAILER!!!"

/-- The loop of `hextoi`, with the promotion of `char` to `int` and the lowest character that the
second test takes for a digit.  Other characters are not passed over. -/
def hextoiLoop (promote : Byte → BitVec 32) (lowest : BitVec 32) (m : Mem) :
    Nat → BitVec 64 → BitVec 32 → BitVec 32
  | 0, _, r => r
  | n + 1, s, r =>
      let c := promote (m s)
      if BitVec.sle 0x41 c then
        hextoiLoop promote lowest m n (s + 1) (r <<< 4 + (c - 0x41 + 10))
      else if BitVec.sle lowest c then
        hextoiLoop promote lowest m n (s + 1) (r <<< 4 + (c - 0x30))
      else hextoiLoop promote lowest m n s (r <<< 4)

/-- The loop of `memcmp`. -/
def memcmpLoop (m : Mem) : Nat → BitVec 64 → BitVec 64 → BitVec 32
  | 0, _, _ => 0
  | n + 1, a, b =>
      if m a ≠ m b then (m a).setWidth 32 - (m b).setWidth 32
      else memcmpLoop m n (a + 1) (b + 1)

/-- `memcmp` of `ex41` and `ex62`; a negative `n` compares nothing. -/
def memcmp (m : Mem) (s1 s2 : BitVec 64) (n : BitVec 32) : BitVec 32 :=
  memcmpLoop m n.toInt.toNat s1 s2

namespace Ex22

def hextoi (m : Mem) (s : BitVec 64) (n : Nat) : BitVec 32 :=
  hextoiLoop (BitVec.signExtend 32) 0x30 m n s 0

def align (n : BitVec 64) (byte : BitVec 32) : BitVec 64 :=
  (n + byte.signExtend 64 - 1) &&& (~~~(byte - 1)).signExtend 64

/-- The place of the data, with the `unsigned int` sizes. -/
def file (cur : BitVec 64) (namesize : BitVec 32) : BitVec 64 :=
  align (cur + 110 + namesize.setWidth 64) 4

def nextHeader (cur : BitVec 64) (namesize filesize : BitVec 32) : BitVec 64 :=
  align (file cur namesize + filesize.setWidth 64) 4

/-- A round of `initrd_list`.  A printed line is the size and the place of the name. -/
def initrdListRound (m : Mem) :
    BitVec 64 × List (BitVec 32 × BitVec 64) →
      Round (BitVec 64 × List (BitVec 32 × BitVec 64)) (List (BitVec 32 × BitVec 64))
  | (cur, printed) =>
      let namesize := hextoi m (cur + 94) 8
      let filesize := hextoi m (cur + 54) 8
      if m.strcmp trailerName (cur + 110) = 0 then .stop printed
      else .next (nextHeader cur namesize filesize, printed ++ [(filesize, cur + 110)])

/-- A round of `initrd_cat`: the header that it selects and the place of the data. -/
def initrdCatRound (m : Mem) (filename : List Byte) (cur : BitVec 64) :
    Round (BitVec 64) (Option (BitVec 64 × BitVec 64)) :=
  let namesize := hextoi m (cur + 94) 8
  let filesize := hextoi m (cur + 54) 8
  if m.strcmp trailerName (cur + 110) = 0 then .stop none
  else if m.strcmp filename (cur + 110) = 0 then .stop (some (cur, file cur namesize))
  else .next (nextHeader cur namesize filesize)

end Ex22

/-- `hextoi` of `ex41` and `ex62`. -/
def hextoi (m : Mem) (s : BitVec 64) (n : Nat) : BitVec 32 :=
  hextoiLoop (BitVec.setWidth 32) 0 m n s 0

/-- A round of the search of `exec`, with the sizes as `int`: the header that it selects and the
place of the data.  `trailer` is the address of the string literal. -/
def execRound (headsize datasize : BitVec 32 → BitVec 32)
    (program : BitVec 64 → BitVec 32 → BitVec 64) (m : Mem) (trailer filename p : BitVec 64) :
    Round (BitVec 64) (Option (BitVec 64 × BitVec 64)) :=
  if memcmp m (p + 110) trailer 10 = 0 then .stop none
  else
    let namesize := hextoi m (p + 94) 8
    let filesize := hextoi m (p + 54) 8
    if memcmp m (p + 110) filename namesize = 0 then .stop (some (p, program p namesize))
    else .next (p + (headsize namesize + datasize filesize).signExtend 64)

namespace Ex41

def align (n byte : BitVec 64) : BitVec 64 := (n + byte - 1) &&& ~~~(byte - 1)

def headsize (namesize : BitVec 32) : BitVec 32 :=
  (align (110 + namesize.signExtend 64) 4).setWidth 32

def datasize (filesize : BitVec 32) : BitVec 32 := (align (filesize.signExtend 64) 4).setWidth 32

/-- `epc` -/
def program (p : BitVec 64) (namesize : BitVec 32) : BitVec 64 :=
  align (p + 110 + namesize.signExtend 64) 4

def execRound := Cpio.execRound headsize datasize program

end Ex41

namespace Ex62

def align (n byte : BitVec 32) : BitVec 32 := (n + byte - 1) &&& ~~~(byte - 1)

def headsize (namesize : BitVec 32) : BitVec 32 :=
  align ((110 + namesize.signExtend 64).setWidth 32) 4

def datasize (filesize : BitVec 32) : BitVec 32 := align filesize 4

/-- The source of the copy. -/
def program (p : BitVec 64) (namesize : BitVec 32) : BitVec 64 :=
  p + (headsize namesize).signExtend 64

def execRound := Cpio.execRound headsize datasize program

end Ex62

/-! ## Hexadecimal fields -/

/-- The number that digits after `r` make. -/
def number (r : Nat) (ds : List Nat) : Nat := ds.foldl (fun r d => 16 * r + d) r

theorem number_digits (n r v : Nat) : number r (digits n v) = r * 16 ^ n + v % 16 ^ n := by
  induction n generalizing r with
  | zero => simp [digits, number, Nat.mod_one]
  | succ n ih =>
      have step : number r (digits (n + 1) v) =
          number (16 * r + v / 16 ^ n % 16) (digits n v) := rfl
      rw [step, ih, Nat.pow_succ, Nat.mod_mul, Nat.add_mul]
      ring

theorem digits_lt {n v d : Nat} (member : d ∈ digits n v) : d < 16 := by
  induction n with
  | zero => cases member
  | succ n ih =>
      rcases List.mem_cons.mp member with first | later
      · rw [first]
        exact Nat.mod_lt _ (by decide)
      · exact ih later

section Hextoi

variable {promote : Byte → BitVec 32} {lowest r : BitVec 32} {m : Mem} {a : BitVec 64}
variable {ds : List Nat} {v : Nat}

/-- A promotion and a bound that read a character as a number. -/
abbrev ReadsAs (promote : Byte → BitVec 32) (lowest : BitVec 32) (c : Byte) (k : Nat) : Prop :=
  (BitVec.sle 0x41 (promote c) = true ∧ promote c - 0x41 + 10 = BitVec.ofNat 32 k) ∨
    (BitVec.sle 0x41 (promote c) = false ∧ BitVec.sle lowest (promote c) = true ∧
      promote c - 0x30 = BitVec.ofNat 32 k)

/-- A promotion and a bound that read the upper-case digits right. -/
abbrev ReadsDigits (promote : Byte → BitVec 32) (lowest : BitVec 32) : Prop :=
  ∀ d < 16, (BitVec.sle 0x41 (promote (hexDigit d)) = true ∧
      promote (hexDigit d) - 0x41 + 10 = BitVec.ofNat 32 d) ∨
    (BitVec.sle 0x41 (promote (hexDigit d)) = false ∧
      BitVec.sle lowest (promote (hexDigit d)) = true ∧
      promote (hexDigit d) - 0x30 = BitVec.ofNat 32 d)

theorem shift_add (k d : Nat) :
    BitVec.ofNat 32 k <<< 4 + BitVec.ofNat 32 d = BitVec.ofNat 32 (16 * k + d) := by
  apply BitVec.eq_of_toNat_eq
  rw [BitVec.toNat_add, BitVec.toNat_shiftLeft, Nat.shiftLeft_eq, BitVec.toNat_ofNat,
    BitVec.toNat_ofNat, BitVec.toNat_ofNat]
  omega

/-- One character. -/
theorem hextoiLoop_reads {c : Byte} {k : Nat} (reads : ReadsAs promote lowest c k)
    (first : m a = c) (n r : Nat) :
    hextoiLoop promote lowest m (n + 1) a (BitVec.ofNat 32 r) =
      hextoiLoop promote lowest m n (a + 1) (BitVec.ofNat 32 (16 * r + k)) := by
  rw [hextoiLoop, first]
  rcases reads with ⟨letter, value⟩ | ⟨letter, digit, value⟩
  · rw [if_pos letter, value, shift_add]
  · rw [if_neg (by rw [letter]; nofun), if_pos digit, value, shift_add]

theorem hextoiLoop_digits (reads : ReadsDigits promote lowest) (small : ∀ d ∈ ds, d < 16)
    (stored : m.Stored a (ds.map hexDigit)) (k : Nat) :
    hextoiLoop promote lowest m ds.length a (BitVec.ofNat 32 k) =
      BitVec.ofNat 32 (number k ds) := by
  induction ds generalizing a k with
  | nil => rfl
  | cons d ds ih =>
      obtain ⟨first, later⟩ := Mem.stored_cons.mp stored
      rw [List.length_cons, hextoiLoop_reads (reads d (small d (List.mem_cons_self ..))) first,
        ih (fun other member => small other (List.mem_cons_of_mem _ member)) later]
      rfl

/-- A field of eight digits is read back. -/
theorem hextoiLoop_field (reads : ReadsDigits promote lowest) (small : v < 2 ^ 32)
    (stored : m.Stored a (hexField v)) :
    hextoiLoop promote lowest m 8 a 0 = BitVec.ofNat 32 v := by
  have whole : v % 16 ^ 8 = v := Nat.mod_eq_of_lt small
  have read : hextoiLoop promote lowest m 8 a (BitVec.ofNat 32 0) =
      BitVec.ofNat 32 (number 0 (digits 8 v)) :=
    hextoiLoop_digits reads (fun d member => digits_lt member) stored 0
  rw [number_digits, Nat.zero_mul, Nat.zero_add, whole] at read
  exact read

theorem Ex22.hextoi_field (small : v < 2 ^ 32) (stored : m.Stored a (hexField v)) :
    Ex22.hextoi m a 8 = BitVec.ofNat 32 v :=
  hextoiLoop_field (by decide +kernel) small stored

theorem hextoi_field (small : v < 2 ^ 32) (stored : m.Stored a (hexField v)) :
    hextoi m a 8 = BitVec.ofNat 32 v :=
  hextoiLoop_field (by decide +kernel) small stored

end Hextoi

/-! ## Sizes -/

section Sizes

variable {n : Nat}

theorem Ex22.align_four {n : BitVec 64} (small : n.toNat + 3 < 2 ^ 64) :
    (Ex22.align n 4).toNat = roundUp 2 n.toNat := by
  have sum : (n + (4 : BitVec 32).signExtend 64 - 1).toNat = n.toNat + (2 ^ 2 - 1) := by
    have four : (4 : BitVec 32).signExtend 64 = 4 := by decide
    rw [four]
    bv_omega
  rw [Ex22.align, Words.toNat_and_high (k := 2) (by decide), sum, roundUp]

theorem Ex41.align_four {n : BitVec 64} (small : n.toNat + 3 < 2 ^ 64) :
    (Ex41.align n 4).toNat = roundUp 2 n.toNat :=
  toNat_align_four small

/-- Rounding an `int` keeps its 32 bits of the rounded number. -/
theorem Ex62.align_ofNat (n : Nat) :
    Ex62.align (BitVec.ofNat 32 n) 4 = BitVec.ofNat 32 (roundUp 2 n) := by
  apply BitVec.eq_of_toNat_eq
  have sum : (BitVec.ofNat 32 n + 4 - 1).toNat = (n + 3) % 2 ^ 32 := by
    rw [BitVec.toNat_sub, BitVec.toNat_add, BitVec.toNat_ofNat]
    simp
    omega
  rw [Ex62.align, Words.toNat_and_high (k := 2) (by decide), sum, BitVec.toNat_ofNat, roundUp]
  omega

theorem Ex41.align_setWidth (n : BitVec 64) :
    (Ex41.align n 4).setWidth 32 = Ex62.align (n.setWidth 32) 4 := by
  apply BitVec.eq_of_toNat_eq
  have sum : (n + 4 - 1).toNat = (n.toNat + 3) % 2 ^ 64 := by bv_omega
  have lowSum : (n.setWidth 32 + 4 - 1).toNat = (n.toNat + 3) % 2 ^ 32 := by bv_omega
  rw [Ex41.align, Ex62.align, BitVec.toNat_setWidth, Words.toNat_and_high (k := 2) (by decide),
    Words.toNat_and_high (k := 2) (by decide), sum, lowSum]
  omega

/-- Both programs compute the same `int` sizes. -/
theorem Ex41.headsize_eq : Ex41.headsize = Ex62.headsize := by
  funext namesize
  rw [Ex41.headsize, Ex62.headsize, Ex41.align_setWidth]

theorem Ex41.datasize_eq : Ex41.datasize = Ex62.datasize := by
  funext filesize
  rw [Ex41.datasize, Ex62.datasize, Ex41.align_setWidth, Words.setWidth_signExtend]

theorem Ex62.headsize_of (n : Nat) :
    Ex62.headsize (BitVec.ofNat 32 n) = BitVec.ofNat 32 (roundUp 2 (110 + n)) := by
  have sum : (110 + (BitVec.ofNat 32 n).signExtend 64).setWidth 32 = BitVec.ofNat 32 (110 + n) := by
    rw [BitVec.setWidth_add _ _ (by decide), Words.setWidth_signExtend, BitVec.ofNat_add]
    rfl
  rw [Ex62.headsize, sum, Ex62.align_ofNat]

/-- `headsize + datasize` keeps the 32 low bits of the sum. -/
theorem Ex62.sum_of (n f : Nat) :
    Ex62.headsize (BitVec.ofNat 32 n) + Ex62.datasize (BitVec.ofNat 32 f) =
      BitVec.ofNat 32 (roundUp 2 (110 + n) + roundUp 2 f) := by
  rw [Ex62.headsize_of, Ex62.datasize, Ex62.align_ofNat, ← BitVec.ofNat_add]

theorem Ex62.headsize_ofNat (e : Entry) :
    Ex62.headsize (BitVec.ofNat 32 e.namesize) = BitVec.ofNat 32 e.headSize :=
  Ex62.headsize_of _

theorem Ex62.sum_ofNat (e : Entry) :
    Ex62.headsize (BitVec.ofNat 32 e.namesize) + Ex62.datasize (BitVec.ofNat 32 e.filesize) =
      BitVec.ofNat 32 e.size :=
  Ex62.sum_of _ _

theorem signExtend_ofNat (small : n < 2 ^ 31) :
    (BitVec.ofNat 32 n).signExtend 64 = BitVec.ofNat 64 n := by
  have value : (BitVec.ofNat 32 n).toNat = n := by
    rw [BitVec.toNat_ofNat]
    omega
  apply BitVec.eq_of_toNat_eq
  rw [Words.toNat_signExtend_small (by omega), value, BitVec.toNat_ofNat]
  omega

end Sizes

/-! ## Comparisons -/

section Compare

variable {m : Mem} {a b : BitVec 64} {text name filename : List Byte} {n : BitVec 32}

theorem difference_ne_zero {x y : Byte} (different : x ≠ y) :
    x.setWidth 32 - y.setWidth 32 ≠ (0 : BitVec 32) := by
  have values := Mem.toNat_ne different
  bv_omega

/-- `memcmp` with the characters of a string asks whether a name starts with them. -/
theorem memcmpLoop_startsWith (entryName : m.CString a name) (noNul : 0 ∉ text)
    (stored : m.Stored b text) : memcmpLoop m text.length a b = 0 ↔ text <+: name := by
  induction text generalizing a b name with
  | nil => exact ⟨fun _ => List.nil_prefix, fun _ => rfl⟩
  | cons c text ih =>
      obtain ⟨different, later⟩ := List.ne_and_not_mem_of_not_mem_cons noNul
      obtain ⟨first, rest⟩ := Mem.stored_cons.mp stored
      rw [List.length_cons, memcmpLoop, first]
      cases name with
      | nil =>
          rw [Mem.cstring_nil.mp entryName, if_pos different]
          exact ⟨fun zero => absurd zero (difference_ne_zero different),
            fun starts => absurd starts.length_le (Nat.not_succ_le_zero _)⟩
      | cons d name =>
          obtain ⟨-, firstName, restName⟩ := Mem.cstring_cons.mp entryName
          rw [firstName, List.cons_prefix_cons]
          by_cases same : d = c
          · rw [if_neg (not_not.mpr same), ih restName later rest, same, and_iff_right rfl]
          · rw [if_pos same]
            exact ⟨fun zero => absurd zero (difference_ne_zero same),
              fun both => absurd both.1.symm same⟩

/-- `memcmp` over a name and its NUL finds the same name only. -/
theorem memcmpLoop_name (entryName : m.CString a name) (string : m.CString b filename) :
    memcmpLoop m (name.length + 1) a b = 0 ↔ filename = name := by
  induction name generalizing a b filename with
  | nil =>
      rw [List.length_nil, memcmpLoop, Mem.cstring_nil.mp entryName]
      cases filename with
      | nil =>
          rw [Mem.cstring_nil.mp string, if_neg (not_not.mpr rfl)]
          exact ⟨fun _ => rfl, fun _ => rfl⟩
      | cons c filename =>
          obtain ⟨nonzero, first, -⟩ := Mem.cstring_cons.mp string
          rw [first, if_pos nonzero.symm]
          exact ⟨fun zero => absurd zero (difference_ne_zero nonzero.symm), nofun⟩
  | cons d name ih =>
      obtain ⟨nonzero, firstName, restName⟩ := Mem.cstring_cons.mp entryName
      rw [List.length_cons, memcmpLoop, firstName]
      cases filename with
      | nil =>
          rw [Mem.cstring_nil.mp string, if_pos nonzero]
          exact ⟨fun zero => absurd zero (difference_ne_zero nonzero), nofun⟩
      | cons c filename =>
          obtain ⟨-, first, rest⟩ := Mem.cstring_cons.mp string
          rw [first, List.cons.injEq]
          by_cases same : d = c
          · rw [if_neg (not_not.mpr same), ih restName rest, same, and_iff_right rfl]
          · rw [if_pos same]
            exact ⟨fun zero => absurd zero (difference_ne_zero same),
              fun both => absurd both.1.symm same⟩

theorem memcmp_small {n : Nat} (small : n < 2 ^ 31) :
    memcmp m a b (BitVec.ofNat 32 n) = memcmpLoop m n a b := by
  have value : (BitVec.ofNat 32 n).toInt = n := by
    rw [BitVec.toInt_eq_toNat_of_lt, BitVec.toNat_ofNat]
    · omega
    · rw [BitVec.toNat_ofNat]
      omega
  rw [memcmp, value, Int.toNat_natCast]

/-- Lengths from 2 GiB on are negative. -/
theorem memcmp_large (large : 2 ^ 31 ≤ n.toNat) : memcmp m a b n = 0 := by
  have negative : n.toInt.toNat = 0 := by
    rw [BitVec.toInt_eq_toNat_cond]
    omega
  rw [memcmp, negative, memcmpLoop]

end Compare

end OscKernel.Cpio
