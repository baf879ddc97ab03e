import Mathlib.Data.List.Forall2
import OscKernel.Cpio.Readers

/-!
# Lower-case fields (`hextoi` of `ex22/main.c`, `ex41/utils.c` and `ex62/utils.c`)

The three `hextoi` take every character from `'A'` on for an upper-case letter.  A lower-case one
is read as a digit that is 32 too large, and what is too large is carried into the digits before.
-/

namespace OscKernel.Cpio

open Riscv

/-- A digit from ten on in lower case. -/
def lowerDigit (d : Nat) : Byte := BitVec.ofNat 8 (0x61 + (d - 10))

/-- The character stands for the digit, a letter in either case. -/
def WritesDigit (c : Byte) (d : Nat) : Prop := c = hexDigit d ∨ (10 ≤ d ∧ c = lowerDigit d)

instance (c : Byte) (d : Nat) : Decidable (WritesDigit c d) :=
  inferInstanceAs (Decidable (c = hexDigit d ∨ (10 ≤ d ∧ c = lowerDigit d)))

/-- Eight hexadecimal digits that stand for a number. -/
def Writes (text : List Byte) (v : Nat) : Prop := List.Forall₂ WritesDigit text (digits 8 v)

/-- `'a'` to `'f'` -/
def IsLower (c : Byte) : Prop := 0x61 ≤ c.toNat ∧ c.toNat ≤ 0x66

instance (c : Byte) : Decidable (IsLower c) :=
  inferInstanceAs (Decidable (0x61 ≤ c.toNat ∧ c.toNat ≤ 0x66))

/-- 1 for a lower-case letter. -/
def excess (c : Byte) : Nat := if IsLower c then 1 else 0

/-! ## Numbers -/

section Number

variable {es : List Nat}

theorem number_eq (r : Nat) (ds : List Nat) : number r ds = r * 16 ^ ds.length + number 0 ds := by
  induction ds generalizing r with
  | nil => simp [number]
  | cons d ds ih =>
      have step : number r (d :: ds) = number (16 * r + d) ds := rfl
      have first : number 0 (d :: ds) = number (16 * 0 + d) ds := rfl
      rw [step, first, ih (16 * r + d), ih (16 * 0 + d), List.length_cons, Nat.pow_succ]
      ring

/-- Ones are far below the largest digits. -/
theorem number_ones_le (ones : ∀ e ∈ es, e ≤ 1) (r : Nat) :
    15 * number r es + 1 ≤ (15 * r + 1) * 16 ^ es.length := by
  induction es generalizing r with
  | nil => simp [number]
  | cons e es ih =>
      have small : e ≤ 1 := ones e (List.mem_cons_self ..)
      have step : number r (e :: es) = number (16 * r + e) es := rfl
      calc 15 * number r (e :: es) + 1
          ≤ (15 * (16 * r + e) + 1) * 16 ^ es.length := by
            rw [step]
            exact ih (fun other member => ones other (List.mem_cons_of_mem _ member)) _
        _ ≤ (16 * (15 * r + 1)) * 16 ^ es.length := Nat.mul_le_mul_right _ (by omega)
        _ = (15 * r + 1) * 16 ^ (e :: es).length := by
            rw [List.length_cons, Nat.pow_succ]
            ring

theorem number_eq_zero_iff : number 0 es = 0 ↔ ∀ e ∈ es, e = 0 := by
  induction es with
  | nil => simp [number]
  | cons e es ih =>
      have first : number 0 (e :: es) = number (16 * 0 + e) es := rfl
      have positive : 0 < 16 ^ es.length := Nat.pow_pos (by decide)
      rw [first, number_eq, List.forall_mem_cons, ← ih]
      simp only [Nat.mul_zero, Nat.zero_add, Nat.add_eq_zero_iff, Nat.mul_eq_zero]
      omega

end Number

/-! ## Fields -/

section Fields

variable {promote : Byte → BitVec 32} {lowest : BitVec 32} {m : Mem} {a : BitVec 64}
variable {c : Byte} {text : List Byte} {ds : List Nat} {d v : Nat}

/-- A promotion and a bound that read the lower-case letters as larger digits. -/
abbrev ReadsLower (promote : Byte → BitVec 32) (lowest : BitVec 32) : Prop :=
  ∀ d < 16, 10 ≤ d → ReadsAs promote lowest (lowerDigit d) (d + 32)

theorem excess_hexDigit : ∀ d < 16, excess (hexDigit d) = 0 := by
  decide

theorem excess_lowerDigit : ∀ d < 16, 10 ≤ d → excess (lowerDigit d) = 1 := by
  decide

theorem WritesDigit.readsAs (reads : ReadsDigits promote lowest)
    (readsLower : ReadsLower promote lowest) (writes : WritesDigit c d) (small : d < 16) :
    ReadsAs promote lowest c (d + 32 * excess c) := by
  rcases writes with rfl | ⟨letter, rfl⟩
  · rw [excess_hexDigit d small]
    exact reads d small
  · rw [excess_lowerDigit d small letter]
    exact readsLower d small letter

/-- The digits and what they are too large make two numbers. -/
theorem hextoiLoop_writes (reads : ReadsDigits promote lowest)
    (readsLower : ReadsLower promote lowest) (writes : List.Forall₂ WritesDigit text ds)
    (small : ∀ d ∈ ds, d < 16) (stored : m.Stored a text) (r e : Nat) :
    hextoiLoop promote lowest m text.length a (BitVec.ofNat 32 (r + 32 * e)) =
      BitVec.ofNat 32 (number r ds + 32 * number e (text.map excess)) := by
  induction writes generalizing a r e with
  | nil => rfl
  | @cons c d text ds first rest ih =>
      obtain ⟨atFirst, later⟩ := Mem.stored_cons.mp stored
      have readsAs := first.readsAs reads readsLower (small d (List.mem_cons_self ..))
      have digit : 16 * (r + 32 * e) + (d + 32 * excess c) =
          (16 * r + d) + 32 * (16 * e + excess c) := by ring
      rw [List.length_cons, hextoiLoop_reads readsAs atFirst, digit,
        ih (fun other member => small other (List.mem_cons_of_mem _ member)) later]
      rfl

theorem Writes.length (writes : Writes text v) : text.length = 8 := writes.length_eq

theorem hextoiLoop_field_writes (reads : ReadsDigits promote lowest)
    (readsLower : ReadsLower promote lowest) (small : v < 2 ^ 32) (writes : Writes text v)
    (stored : m.Stored a text) :
    hextoiLoop promote lowest m 8 a 0 =
      BitVec.ofNat 32 (v + 32 * number 0 (text.map excess)) := by
  have whole : number 0 (digits 8 v) = v := by
    rw [number_digits, Nat.zero_mul, Nat.zero_add]
    exact Nat.mod_eq_of_lt small
  have read := hextoiLoop_writes reads readsLower writes (fun d member => digits_lt member) stored
    0 0
  rw [writes.length, whole] at read
  exact read

/-- What is too large is lost with the first of eight digits only. -/
theorem excess_lost_iff (length : text.length = 8) :
    32 * number 0 (text.map excess) % 2 ^ 32 = 0 ↔ ∀ c ∈ text.tail, ¬ IsLower c := by
  obtain ⟨first, rest, rfl⟩ := List.exists_cons_of_length_eq_add_one length
  have ones : ∀ e ∈ rest.map excess, e ≤ 1 := by
    intro e member
    obtain ⟨c, -, rfl⟩ := List.mem_map.mp member
    rw [excess]
    split <;> omega
  have seven : (rest.map excess).length = 7 := by
    rw [List.length_map]
    exact Nat.succ.inj length
  have below := number_ones_le ones 0
  have split : number 0 ((first :: rest).map excess) =
      excess first * 16 ^ 7 + number 0 (rest.map excess) := by
    have step : number 0 ((first :: rest).map excess) =
        number (16 * 0 + excess first) (rest.map excess) := rfl
    rw [step, number_eq, seven, Nat.mul_zero, Nat.zero_add]
  have none : number 0 (rest.map excess) = 0 ↔ ∀ c ∈ rest, ¬ IsLower c := by
    rw [number_eq_zero_iff, List.forall_mem_map]
    refine forall₂_congr fun c _ => ?_
    rw [excess]
    split
    · rename_i lower
      exact ⟨nofun, fun not => absurd lower not⟩
    · rename_i notLower
      exact ⟨fun _ => notLower, fun _ => rfl⟩
  rw [seven] at below
  rw [List.tail_cons, ← none, split]
  omega

theorem hextoiLoop_field_eq_iff (reads : ReadsDigits promote lowest)
    (readsLower : ReadsLower promote lowest) (small : v < 2 ^ 32) (writes : Writes text v)
    (stored : m.Stored a text) :
    (hextoiLoop promote lowest m 8 a 0).toNat = v ↔ ∀ c ∈ text.tail, ¬ IsLower c := by
  rw [hextoiLoop_field_writes reads readsLower small writes stored, BitVec.toNat_ofNat,
    ← excess_lost_iff writes.length]
  omega

/-- A field in any case is read back if no letter after its first character is lower-case. -/
theorem hextoi_letterCase_iff (m : Mem) (a : BitVec 64) {v : Nat} (small : v < 2 ^ 32)
    {text : List Byte} (writes : Writes text v) (stored : m.Stored a text) :
    ((Ex22.hextoi m a 8).toNat = v ↔ ∀ c ∈ text.tail, ¬ IsLower c) ∧
      ((hextoi m a 8).toNat = v ↔ ∀ c ∈ text.tail, ¬ IsLower c) := by
  constructor
  · exact hextoiLoop_field_eq_iff (by decide +kernel) (by decide +kernel) small writes stored
  · exact hextoiLoop_field_eq_iff (by decide +kernel) (by decide +kernel) small writes stored

end Fields

/-- Memory with one field. -/
def fieldMem (text : String) : Mem := Mem.image 0 (ascii text)

/-- The first of the letters may be lower-case. -/
theorem hextoi_lowerFirst :
    (Ex22.hextoi (fieldMem "a000000B") 0 8).toNat = 0xa000000b ∧
      (hextoi (fieldMem "a000000B") 0 8).toNat = 0xa000000b := by
  have writes : Writes (ascii "a000000B") 0xa000000b := by
    simp only [Writes, digits, ascii]
    decide
  have stored : (fieldMem "a000000B").Stored 0 (ascii "a000000B") := Mem.stored_image 0 (by decide)
  have upper : ∀ c ∈ (ascii "a000000B").tail, ¬ IsLower c := by decide
  have same := hextoi_letterCase_iff _ 0 (by decide) writes stored
  exact ⟨same.1.mpr upper, same.2.mpr upper⟩

/-- A lower-case ten is read as 42. -/
theorem hextoi_lowerTen :
    Writes (ascii "0000000a") 10 ∧ (fieldMem "0000000a").Stored 0 (ascii "0000000a") ∧
      (Ex22.hextoi (fieldMem "0000000a") 0 8).toNat = 42 ∧
      (hextoi (fieldMem "0000000a") 0 8).toNat = 42 := by
  refine ⟨?_, Mem.stored_image 0 (by decide), by decide +kernel, by decide +kernel⟩
  simp only [Writes, digits, ascii]
  decide

end OscKernel.Cpio
