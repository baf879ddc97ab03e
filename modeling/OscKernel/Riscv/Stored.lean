import OscKernel.Riscv.Memory

/-!
# Byte strings in memory

Lists of bytes that are stored one after another, C strings among them.
-/

namespace OscKernel.Riscv

/-- Bytes, and the characters of C strings. -/
abbrev Byte : Type := BitVec 8

/-- The characters of a string literal. -/
def ascii (text : String) : List Byte := text.toList.map fun c => BitVec.ofNat 8 c.toNat

namespace Mem

/-- The bytes are in memory from `a` on. -/
def Stored (m : Mem) : BitVec 64 → List Byte → Prop
  | _, [] => True
  | a, b :: bytes => m a = b ∧ Stored m (a + 1) bytes

/-- The bytes from an address on, in a list. -/
def read (m : Mem) : BitVec 64 → Nat → List Byte
  | _, 0 => []
  | a, n + 1 => m a :: read m (a + 1) n

instance decidableStored (m : Mem) :
    (a : BitVec 64) → (bytes : List Byte) → Decidable (m.Stored a bytes)
  | _, [] => isTrue trivial
  | a, b :: bytes =>
      have := decidableStored m (a + 1) bytes
      inferInstanceAs (Decidable (m a = b ∧ m.Stored (a + 1) bytes))

/-- A C string: characters other than NUL and the NUL after them. -/
def CString (m : Mem) (a : BitVec 64) (text : List Byte) : Prop :=
  0 ∉ text ∧ m.Stored a (text ++ [0])

instance (m : Mem) (a : BitVec 64) (text : List Byte) : Decidable (m.CString a text) :=
  inferInstanceAs (Decidable (0 ∉ text ∧ m.Stored a (text ++ [0])))

/-- `strlen`; memory without a NUL is searched once. -/
def strlen (m : Mem) (a : BitVec 64) : Nat := go (2 ^ 64) a
where
  go : Nat → BitVec 64 → Nat
    | 0, _ => 0
    | fuel + 1, a => if m a = 0 then 0 else go fuel (a + 1) + 1

/-- `strcmp` of the string with the given characters and the one at an address. -/
def strcmp (m : Mem) : List Byte → BitVec 64 → Int
  | [], a => -((m a).toNat : Int)
  | c :: rest, a => if c = m a then strcmp m rest (a + 1) else (c.toNat : Int) - (m a).toNat

section Lemmas

variable {m : Mem} {a : BitVec 64} {bytes more text other : List Byte}

@[simp] theorem stored_nil : m.Stored a [] := trivial

@[simp] theorem stored_cons {b : Byte} :
    m.Stored a (b :: bytes) ↔ m a = b ∧ m.Stored (a + 1) bytes := Iff.rfl

theorem stored_append :
    m.Stored a (bytes ++ more) ↔
      m.Stored a bytes ∧ m.Stored (a + BitVec.ofNat 64 bytes.length) more := by
  induction bytes generalizing a with
  | nil =>
      have start : a + BitVec.ofNat 64 0 = a := BitVec.add_zero a
      simp only [List.nil_append, List.length_nil, stored_nil, true_and, start]
  | cons b bytes ih =>
      rw [List.cons_append, stored_cons, stored_cons, ih, List.length_cons, add_ofNat_succ,
        and_assoc]

theorem Stored.left (stored : m.Stored a (bytes ++ more)) : m.Stored a bytes :=
  (stored_append.mp stored).1

theorem Stored.right (stored : m.Stored a (bytes ++ more)) :
    m.Stored (a + BitVec.ofNat 64 bytes.length) more :=
  (stored_append.mp stored).2

/-- Stored bytes are read. -/
theorem Stored.read (stored : m.Stored a bytes) : m.read a bytes.length = bytes := by
  induction bytes generalizing a with
  | nil => rfl
  | cons b bytes ih =>
      rw [List.length_cons, Mem.read, stored.1, ih stored.2]

/-- Each byte is where its index says. -/
theorem Stored.byte (stored : m.Stored a bytes) {i : Nat} (inside : i < bytes.length) :
    m (a + BitVec.ofNat 64 i) = bytes[i] := by
  induction bytes generalizing a i with
  | nil => exact absurd inside (Nat.not_lt_zero i)
  | cons b bytes ih =>
      cases i with
      | zero =>
          have start : a + BitVec.ofNat 64 0 = a := BitVec.add_zero a
          rw [start]
          exact stored.1
      | succ i =>
          rw [add_ofNat_succ]
          exact ih stored.2 (Nat.lt_of_succ_lt_succ inside)

theorem stored_of_bytes
    (agree : ∀ i (inside : i < bytes.length), m (a + BitVec.ofNat 64 i) = bytes[i]) :
    m.Stored a bytes := by
  induction bytes generalizing a with
  | nil => exact trivial
  | cons b bytes ih =>
      have start : a + BitVec.ofNat 64 0 = a := BitVec.add_zero a
      have first := agree 0 (Nat.zero_lt_succ _)
      rw [start] at first
      refine ⟨first, ih ?_⟩
      intro i inside
      have later := agree (i + 1) (Nat.succ_lt_succ inside)
      rwa [add_ofNat_succ] at later

/-- Write bytes one after another. -/
def write (m : Mem) (a : BitVec 64) (bytes : List Byte) : Mem :=
  fun x => bytes.getD (distance a x) (m x)

theorem stored_write (m : Mem) (a : BitVec 64) (small : bytes.length ≤ 2 ^ 64) :
    (m.write a bytes).Stored a bytes := by
  apply stored_of_bytes
  intro i inside
  rw [write, distance_add a (Nat.lt_of_lt_of_le inside small), List.getD_eq_getElem?_getD,
    List.getElem?_eq_getElem inside, Option.getD_some]

theorem write_outside {x : BitVec 64} (outside : bytes.length ≤ distance a x) :
    m.write a bytes x = m x := by
  rw [write, List.getD_eq_getElem?_getD, List.getElem?_eq_none outside, Option.getD_none]

/-- Memory that holds nothing but the bytes. -/
def image (base : BitVec 64) (bytes : List Byte) : Mem := fun x => bytes.getD (distance base x) 0

theorem stored_image (base : BitVec 64) (small : bytes.length ≤ 2 ^ 64) :
    (image base bytes).Stored base bytes :=
  stored_write (fun _ => 0) base small

/-- Stored bytes are found in any memory that agrees on them. -/
theorem Stored.congr {m' : Mem} (stored : m.Stored a bytes)
    (agree : ∀ i < bytes.length, m' (a + BitVec.ofNat 64 i) = m (a + BitVec.ofNat 64 i)) :
    m'.Stored a bytes := by
  apply stored_of_bytes
  intro i inside
  rw [agree i inside, stored.byte inside]

@[simp] theorem cstring_nil : m.CString a [] ↔ m a = 0 := by
  simp [CString]

@[simp] theorem cstring_cons {c : Byte} :
    m.CString a (c :: text) ↔ c ≠ 0 ∧ m a = c ∧ m.CString (a + 1) text := by
  simp only [CString, List.mem_cons, not_or, List.cons_append, stored_cons, ne_comm (a := c)]
  constructor
  · rintro ⟨⟨different, later⟩, first, rest⟩
    exact ⟨different, first, later, rest⟩
  · rintro ⟨different, first, later, rest⟩
    exact ⟨⟨different, later⟩, first, rest⟩

/-- A NUL among the bytes ends a C string. -/
theorem Stored.cstring (stored : m.Stored a bytes) (nul : 0 ∈ bytes) :
    m.CString a (bytes.takeWhile (· ≠ 0)) := by
  induction bytes generalizing a with
  | nil => cases nul
  | cons b bytes ih =>
      obtain ⟨first, later⟩ := stored_cons.mp stored
      by_cases zero : b = 0
      · rw [List.takeWhile_cons_of_neg (by simpa using zero), cstring_nil, first, zero]
      · have nulLater : 0 ∈ bytes := List.mem_of_ne_of_mem (Ne.symm zero) nul
        rw [List.takeWhile_cons_of_pos (by simpa using zero), cstring_cons]
        exact ⟨zero, first, ih later nulLater⟩

theorem strlen_go (string : m.CString a text) {fuel : Nat} (enough : text.length < fuel) :
    strlen.go m fuel a = text.length := by
  induction text generalizing a fuel with
  | nil =>
      obtain ⟨fuel, rfl⟩ := Nat.exists_eq_succ_of_ne_zero (Nat.ne_of_gt enough)
      rw [strlen.go, if_pos (cstring_nil.mp string), List.length_nil]
  | cons c text ih =>
      obtain ⟨fuel, rfl⟩ := Nat.exists_eq_succ_of_ne_zero (Nat.ne_of_gt (Nat.zero_lt_of_lt enough))
      obtain ⟨nonzero, first, later⟩ := cstring_cons.mp string
      rw [strlen.go, first, if_neg nonzero, ih later (Nat.lt_of_succ_lt_succ enough),
        List.length_cons]

/-- `strlen` finds the NUL after the text. -/
theorem CString.strlen (string : m.CString a text) (small : text.length < 2 ^ 64) :
    m.strlen a = text.length :=
  strlen_go string small

theorem toNat_ne {x y : Byte} (different : x ≠ y) : x.toNat ≠ y.toNat :=
  fun equal => different (BitVec.eq_of_toNat_eq equal)

/-- `strcmp` is 0 for the same text only. -/
theorem CString.strcmp_eq_zero (string : m.CString a text) (noNul : 0 ∉ other) :
    m.strcmp other a = 0 ↔ other = text := by
  induction other generalizing a text with
  | nil =>
      rw [strcmp]
      cases text with
      | nil => simp [cstring_nil.mp string]
      | cons c text =>
          obtain ⟨nonzero, first, -⟩ := cstring_cons.mp string
          have value : c.toNat ≠ 0 := toNat_ne nonzero
          simp [first, value]
  | cons d other ih =>
      obtain ⟨different, laterOther⟩ := List.ne_and_not_mem_of_not_mem_cons noNul
      rw [strcmp]
      cases text with
      | nil =>
          have value : d.toNat ≠ 0 := toNat_ne different.symm
          rw [cstring_nil.mp string, if_neg different.symm]
          simp [value]
      | cons c text =>
          obtain ⟨-, first, later⟩ := cstring_cons.mp string
          rw [first, List.cons.injEq]
          by_cases same : d = c
          · rw [if_pos same, ih later laterOther, same, and_iff_right rfl]
          · have value := toNat_ne same
            rw [if_neg same]
            constructor
            · omega
            · exact fun both => absurd both.1 same

/-- The text at an address is one. -/
theorem CString.unique (string : m.CString a text) (otherString : m.CString a other) :
    other = text :=
  (string.strcmp_eq_zero otherString.1).mp
    ((otherString.strcmp_eq_zero otherString.1).mpr rfl)

end Lemmas

-- Long byte strings are taken apart by the lemmas above, and not by evaluation.
attribute [irreducible] Stored

end Mem

end OscKernel.Riscv
