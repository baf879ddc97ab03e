import OscKernel.Loops.Iterate
import OscKernel.Riscv.Footprint
import OscKernel.Words.Masks

/-!
# Copies and cache lines (`ex52/utils.c`, `ex52/video.c`)

`memcpy` and `flush_dcache` with the order of their accesses.  A display that reads memory behind
the cache sees a byte once the line of the byte is flushed after the byte was written.
-/

namespace OscKernel.Video

open Riscv Loops

/-- A byte that is written, the `cbo.flush` of the line at an address, or a fence. -/
inductive Access where
  | write (a : BitVec 64)
  | flush (line : BitVec 64)
  | fence
  deriving DecidableEq, Repr

/-- Memory, and the accesses so far in their order. -/
structure Traced where
  mem : Mem
  accesses : List Access

namespace Traced

def writeByte (t : Traced) (a : BitVec 64) (b : Byte) : Traced :=
  ⟨Function.update t.mem a b, t.accesses ++ [.write a]⟩

/-- `cbo_flush` -/
def cboFlush (t : Traced) (start : BitVec 64) : Traced :=
  { t with accesses := t.accesses ++ [.flush start] }

/-- `__sync_synchronize` -/
def syncSynchronize (t : Traced) : Traced := { t with accesses := t.accesses ++ [.fence] }

end Traced

/-- `memcpy`; the counter of the loop takes its `n` values whatever its sign is. -/
def memcpy : Nat → BitVec 64 → BitVec 64 → Traced → Traced
  | 0, _, _, t => t
  | n + 1, d, s, t => memcpy n (d + 1) (s + 1) (t.writeByte d (t.mem s))

/-- A round of `flush_dcache`. -/
def flushRound (limit : BitVec 64) : BitVec 64 × Traced → Round (BitVec 64 × Traced) Traced
  | (line, t) =>
      if line < limit then .next (line + 64, (t.cboFlush line).syncSynchronize) else .stop t

/-- `start` of `flush_dcache` -/
def lineOf (addr : BitVec 64) : BitVec 64 := addr &&& (~~~(64 - 1 : BitVec 32)).signExtend 64

def flushDcache (fuel : Nat) (addr len : BitVec 64) (t : Traced) : Option Traced :=
  iterate (flushRound (addr + len)) fuel (lineOf addr, t.syncSynchronize)

/-- The line of the byte is flushed. -/
def Covered (x : BitVec 64) (accesses : List Access) : Prop :=
  ∃ line, .flush line ∈ accesses ∧ line.toNat / 64 = x.toNat / 64

/-- The line of each byte is flushed after the byte was written. -/
def Flushed : List Access → Prop
  | [] => True
  | .write a :: later => Covered a later ∧ Flushed later
  | _ :: later => Flushed later

/-! ## Accesses -/

section Accesses

variable {x : BitVec 64} {accesses before later : List Access} {access : Access}

theorem Covered.mono (covered : Covered x accesses) (all : accesses ⊆ later) : Covered x later := by
  obtain ⟨line, flushed, same⟩ := covered
  exact ⟨line, all flushed, same⟩

theorem flushed_cons (written : ∀ a, access = .write a → Covered a later)
    (flushed : Flushed later) : Flushed (access :: later) := by
  cases access with
  | write a => exact ⟨written a rfl, flushed⟩
  | flush line => exact flushed
  | fence => exact flushed

theorem Flushed.tail (flushed : Flushed (access :: later)) : Flushed later := by
  cases access with
  | write a => exact flushed.2
  | flush line => exact flushed
  | fence => exact flushed

/-- What is flushed stays so. -/
theorem Flushed.append (first : Flushed before) (second : Flushed later) :
    Flushed (before ++ later) := by
  induction before with
  | nil => exact second
  | cons access before ih =>
      refine flushed_cons ?_ (ih first.tail)
      rintro a rfl
      exact first.1.mono (List.subset_append_left _ _)

/-- Writes are flushed by what comes later. -/
theorem flushed_append_of_covered (covered : ∀ a, .write a ∈ before → Covered a later)
    (flushed : Flushed later) : Flushed (before ++ later) := by
  induction before with
  | nil => exact flushed
  | cons access before ih =>
      refine flushed_cons ?_ (ih fun a member => covered a (List.mem_cons_of_mem _ member))
      rintro a rfl
      exact (covered a (List.mem_cons_self ..)).mono (List.subset_append_right _ _)

theorem flushed_of_no_write (none : ∀ a, .write a ∉ accesses) : Flushed accesses := by
  have whole : Flushed (accesses ++ []) :=
    flushed_append_of_covered (fun a written => absurd written (none a)) trivial
  rwa [List.append_nil] at whole

end Accesses

/-! ## Copies -/

/-- What a copy does where source and destination do not overlap. -/
structure Copied (n : Nat) (d s : BitVec 64) (t t' : Traced) : Prop where
  copied : ∀ j < n, t'.mem (d + BitVec.ofNat 64 j) = t.mem (s + BitVec.ofNat 64 j)
  kept : ∀ x ∉ bytesAt d n, t'.mem x = t.mem x
  accesses : t'.accesses =
    t.accesses ++ (List.range n).map fun j => .write (d + BitVec.ofNat 64 j)

section Copy

variable {n : Nat} {d s x : BitVec 64} {t : Traced}

theorem start_notMem_next (fits : n + 1 ≤ 2 ^ 64) : d ∉ bytesAt (d + 1) n := by
  rw [mem_bytesAt, distance]
  have back : (d - (d + 1)).toNat = 2 ^ 64 - 1 := by bv_omega
  omega

theorem bytesAt_next_subset : bytesAt (d + 1) n ⊆ bytesAt d (n + 1) := by
  have next : d + BitVec.ofNat 64 1 = d + 1 := rfl
  have subset := @bytesAt_offset_subset d 1 n
  rwa [next, Nat.add_comm] at subset

theorem memcpy_copied (fits : n ≤ 2 ^ 64) (apart : Disjoint (bytesAt s n) (bytesAt d n)) :
    Copied n d s t (memcpy n d s t) := by
  induction n generalizing d s t with
  | zero =>
      constructor
      · intro j below
        exact absurd below (Nat.not_lt_zero j)
      · intro x _
        rfl
      · exact (List.append_nil _).symm
  | succ n ih =>
      have rest := ih (d := d + 1) (s := s + 1) (t := t.writeByte d (t.mem s)) (by omega)
        (apart.mono bytesAt_next_subset bytesAt_next_subset)
      have first : d + BitVec.ofNat 64 0 = d := BitVec.add_zero d
      constructor
      · intro j below
        cases j with
        | zero =>
            rw [memcpy, first, rest.kept d (start_notMem_next fits),
              show s + BitVec.ofNat 64 0 = s from BitVec.add_zero s]
            exact Function.update_self ..
        | succ j =>
            have source : s + BitVec.ofNat 64 (j + 1) ≠ d := by
              intro same
              have inSource := offset_mem_bytesAt (a := s) below
              rw [same] at inSource
              exact Set.disjoint_left.mp apart inSource (self_mem_bytesAt (Nat.zero_lt_succ n))
            rw [memcpy, Mem.add_ofNat_succ d, rest.copied j (Nat.lt_of_succ_lt_succ below),
              ← Mem.add_ofNat_succ]
            exact Function.update_of_ne source ..
      · intro x outside
        have other : x ≠ d := by
          rintro rfl
          exact outside (self_mem_bytesAt (Nat.zero_lt_succ n))
        rw [memcpy, rest.kept x fun member => outside (bytesAt_next_subset member)]
        exact Function.update_of_ne other ..
      · rw [memcpy, rest.accesses, List.range_succ_eq_map, List.map_cons, List.map_map, first,
          Traced.writeByte, List.append_assoc]
        simp only [Function.comp_def, Nat.succ_eq_add_one, Mem.add_ofNat_succ,
          List.singleton_append]

/-- The bytes that a copy writes. -/
theorem Copied.write_mem {t' : Traced} (copied : Copied n d s t t') :
    ∃ written, t'.accesses = t.accesses ++ written ∧ ∀ a, .write a ∈ written → a ∈ bytesAt d n := by
  refine ⟨_, copied.accesses, ?_⟩
  intro a member
  obtain ⟨j, below, same⟩ := List.mem_map.mp member
  cases same
  exact offset_mem_bytesAt (List.mem_range.mp below)

end Copy

/-! ## Lines -/

section Lines

variable {line : BitVec 64} {t t' : Traced}

theorem lineOf_toNat (addr : BitVec 64) : (lineOf addr).toNat = addr.toNat / 64 * 64 :=
  Words.toNat_and_high (k := 6) (by decide)

/-- Where the flush loop is: the lines before are flushed, and nothing is written. -/
structure FlushedBelow (t : Traced) (first : Nat) (state : BitVec 64 × Traced) : Prop where
  mem : state.2.mem = t.mem
  aligned : 64 ∣ state.1.toNat
  lines : ∃ flushes, state.2.accesses = t.accesses ++ flushes ∧ (∀ a, .write a ∉ flushes) ∧
    ∀ x : BitVec 64, first ≤ x.toNat → x.toNat < state.1.toNat → Covered x flushes

theorem FlushedBelow.next {first : Nat} (below : FlushedBelow t first (line, t'))
    (fits : line.toNat + 64 < 2 ^ 64) :
    FlushedBelow t first (line + 64, (t'.cboFlush line).syncSynchronize) := by
  obtain ⟨flushes, accesses, noWrite, covered⟩ := below.lines
  have aligned := below.aligned
  have moved : (line + 64).toNat = line.toNat + 64 := by bv_omega
  constructor
  · exact below.mem
  · show 64 ∣ (line + 64).toNat
    rw [moved]
    exact Nat.dvd_add aligned (Nat.dvd_refl 64)
  · refine ⟨flushes ++ [.flush line, .fence], ?_, ?_, ?_⟩
    · have appended : t'.accesses ++ [.flush line] ++ [.fence] =
          t.accesses ++ (flushes ++ [.flush line, .fence]) := by
        rw [accesses, List.append_assoc, List.append_assoc]
        rfl
      exact appended
    · intro a member
      rcases List.mem_append.mp member with earlier | now
      · exact noWrite a earlier
      · simp at now
    · intro x lower (upper : x.toNat < (line + 64).toNat)
      by_cases earlier : x.toNat < line.toNat
      · exact (covered x lower earlier).mono (List.subset_append_left _ _)
      · refine ⟨line, by simp, ?_⟩
        have multiple : line.toNat % 64 = 0 := Nat.mod_eq_zero_of_dvd aligned
        omega

/-- `flush_dcache` flushes the line of every byte of its range. -/
theorem flushDcache_covers (addr len : BitVec 64) (t : Traced)
    (fits : addr.toNat + len.toNat + 64 ≤ 2 ^ 64) :
    ∃ t', (∀ fuel, len.toNat + 64 ≤ fuel → flushDcache fuel addr len t = some t') ∧
      t'.mem = t.mem ∧ ∃ flushes, t'.accesses = t.accesses ++ flushes ∧ (∀ a, .write a ∉ flushes) ∧
        ∀ x : BitVec 64, addr.toNat ≤ x.toNat → x.toNat < addr.toNat + len.toNat →
          Covered x flushes := by
  have limit : (addr + len).toNat = addr.toNat + len.toNat := by bv_omega
  have start : FlushedBelow t.syncSynchronize addr.toNat (lineOf addr, t.syncSynchronize) := by
    refine ⟨rfl, ?_, [], (List.append_nil _).symm, by simp, ?_⟩
    · rw [lineOf_toNat]
      exact Nat.dvd_mul_left 64 _
    · intro x lower (upper : x.toNat < (lineOf addr).toNat)
      rw [lineOf_toNat] at upper
      omega
  have round : ∀ state, FlushedBelow t.syncSynchronize addr.toNat state →
      (∃ t', flushRound (addr + len) state = .stop t' ∧
        ∃ line, FlushedBelow t.syncSynchronize addr.toNat (line, t') ∧ ¬ line < addr + len) ∨
      ∃ next, flushRound (addr + len) state = .next next ∧
        FlushedBelow t.syncSynchronize addr.toNat next ∧
        (addr + len).toNat - next.1.toNat < (addr + len).toNat - state.1.toNat := by
    rintro ⟨line, t'⟩ below
    rw [flushRound]
    by_cases inside : line < addr + len
    · have values : line.toNat < (addr + len).toNat := inside
      have moved : (line + 64).toNat = line.toNat + 64 := by bv_omega
      right
      rw [if_pos inside]
      refine ⟨_, rfl, below.next (by omega), ?_⟩
      show (addr + len).toNat - (line + 64).toNat < (addr + len).toNat - line.toNat
      omega
    · left
      rw [if_neg inside]
      exact ⟨t', rfl, line, below, inside⟩
  obtain ⟨t', ended, line, below, behind⟩ := iterate_of_invariant _ _ round start
  obtain ⟨flushes, accesses, noWrite, covered⟩ := below.lines
  have values : ¬ line.toNat < (addr + len).toNat := behind
  refine ⟨t', ?_, below.mem, .fence :: flushes, ?_, ?_, ?_⟩
  · intro fuel enough
    have first := lineOf_toNat addr
    exact ended fuel (show (addr + len).toNat - (lineOf addr).toNat < fuel by omega)
  · have fenced : t'.accesses = t.accesses ++ [.fence] ++ flushes := accesses
    rw [fenced, List.append_assoc]
    rfl
  · intro a member
    rcases List.mem_cons.mp member with fence | later
    · cases fence
    · exact noWrite a later
  · intro x lower upper
    have passed : x.toNat < line.toNat := by omega
    exact (covered x lower passed).mono (List.subset_cons_self _ _)

end Lines

end OscKernel.Video
