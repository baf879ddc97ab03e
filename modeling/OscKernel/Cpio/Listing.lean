import OscKernel.Cpio.Readers

/-!
# Listing an archive (`ex22/main.c`)

`initrd_list` prints the sizes and names of the records that an archive was made of.
-/

namespace OscKernel.Cpio

open Alloc Riscv Loops

namespace Ex22

variable {m : Mem} {cur : BitVec 64} {e : Entry} {rest : List Entry}

theorem file_eq (aligned : cur.toNat % 4 = 0) (fits : cur.toNat + e.size + 110 < 2 ^ 64)
    (wellFormed : e.WellFormed) :
    file cur (BitVec.ofNat 32 e.namesize) = cur + BitVec.ofNat 64 e.headSize := by
  have small := wellFormed.namesize_lt
  have nameEnd := le_roundUp 2 (110 + e.namesize)
  have size : e.size = roundUp 2 (110 + e.namesize) + roundUp 2 e.filesize := rfl
  have start : (cur + 110 + (BitVec.ofNat 32 e.namesize).setWidth 64).toNat =
      cur.toNat + (110 + e.namesize) := by
    rw [BitVec.toNat_add, BitVec.toNat_setWidth, BitVec.toNat_ofNat]
    bv_omega
  apply BitVec.eq_of_toNat_eq
  rw [file, align_four (by omega), start, roundUp_add aligned, BitVec.toNat_add,
    BitVec.toNat_ofNat, Entry.headSize]
  omega

/-- The next header is behind the record. -/
theorem nextHeader_eq (aligned : cur.toNat % 4 = 0) (fits : cur.toNat + e.size + 110 < 2 ^ 64)
    (wellFormed : e.WellFormed) :
    nextHeader cur (BitVec.ofNat 32 e.namesize) (BitVec.ofNat 32 e.filesize) =
      cur + BitVec.ofNat 64 e.size := by
  have small := wellFormed.filesize_lt
  have dataEnd := le_roundUp 2 e.filesize
  have size : e.size = e.headSize + roundUp 2 e.filesize := rfl
  have headAligned : (cur.toNat + e.headSize) % 4 = 0 := by
    have multiple := dvd_roundUp 2 (110 + e.namesize)
    rw [Entry.headSize]
    omega
  have start : (cur + BitVec.ofNat 64 e.headSize + (BitVec.ofNat 32 e.filesize).setWidth 64).toNat =
      cur.toNat + e.headSize + e.filesize := by
    rw [BitVec.toNat_add, BitVec.toNat_add, BitVec.toNat_setWidth, BitVec.toNat_ofNat,
      BitVec.toNat_ofNat]
    omega
  apply BitVec.eq_of_toNat_eq
  rw [nextHeader, file_eq aligned fits wellFormed, align_four (by omega), start,
    roundUp_add headAligned, BitVec.toNat_add, BitVec.toNat_ofNat, size]
  omega

/-- A printed line shows a record. -/
def Prints (m : Mem) (line : BitVec 32 × BitVec 64) (e : Entry) : Prop :=
  line.1.toNat = e.filesize ∧ m.CString line.2 e.name

theorem initrdListRound_closing (recorded : Recorded m cur e) (closing : e.name = trailerName)
    (printed : List (BitVec 32 × BitVec 64)) :
    initrdListRound m (cur, printed) = .stop printed := by
  have found : m.strcmp trailerName (cur + 110) = 0 :=
    (recorded.name.strcmp_eq_zero (by decide)).mpr closing.symm
  rw [initrdListRound, if_pos found]

theorem initrdListRound_entry (archived : Archived m cur (e :: rest)) (more : rest ≠ [])
    (name : e.name ≠ trailerName) (printed : List (BitVec 32 × BitVec 64)) :
    initrdListRound m (cur, printed) =
      .next (cur + BitVec.ofNat 64 e.size,
        printed ++ [(BitVec.ofNat 32 e.filesize, cur + 110)]) := by
  have recorded := archived.recorded
  have wellFormed := archived.wellFormed e (List.mem_cons_self ..)
  have other : m.strcmp trailerName (cur + 110) ≠ 0 := by
    rw [Ne, recorded.name.strcmp_eq_zero (by decide)]
    exact name.symm
  rw [initrdListRound, if_neg other, hextoi_field wellFormed.namesize_lt recorded.namesize,
    hextoi_field wellFormed.filesize_lt recorded.filesize,
    nextHeader_eq archived.aligned (archived.end_lt more) wellFormed]

/-- From any header on, the lines of the records that are left are added. -/
theorem initrdList_adds {entries : List Entry} {closing : Entry}
    (closingName : closing.name = trailerName) (names : ∀ e ∈ entries, e.name ≠ trailerName)
    (archived : Archived m cur (entries ++ [closing])) (printed : List (BitVec 32 × BitVec 64)) :
    ∃ lines, Ends (initrdListRound m) (cur, printed) (printed ++ lines) ∧
      List.Forall₂ (Prints m) lines entries := by
  induction entries generalizing cur printed with
  | nil =>
      refine ⟨[], ?_, .nil⟩
      rw [List.append_nil]
      exact Ends.of_stop (initrdListRound_closing archived.recorded closingName printed)
  | cons e entries ih =>
      have more : entries ++ [closing] ≠ [] := List.append_ne_nil_of_right_ne_nil _ nofun
      have name := names e (List.mem_cons_self ..)
      have wellFormed := archived.wellFormed e (List.mem_cons_self ..)
      obtain ⟨lines, ends, shown⟩ :=
        ih (fun other member => names other (List.mem_cons_of_mem _ member)) archived.next
          (printed ++ [(BitVec.ofNat 32 e.filesize, cur + 110)])
      rw [List.append_assoc] at ends
      refine ⟨(BitVec.ofNat 32 e.filesize, cur + 110) :: lines, ?_, .cons ?_ shown⟩
      · exact Ends.of_next (initrdListRound_entry archived more name printed) ends
      · refine ⟨?_, archived.recorded.name⟩
        rw [BitVec.toNat_ofNat, Nat.mod_eq_of_lt wellFormed.filesize_lt]

/-- `initrd_list` stops at the closing record and has printed the records before it, once each and
in their order. -/
theorem initrd_list_decodes {base : BitVec 64} {entries : List Entry} {closing : Entry}
    (closingName : closing.name = trailerName) (names : ∀ e ∈ entries, e.name ≠ trailerName)
    (archived : Archived m base (entries ++ [closing])) :
    ∃ lines, Ends (initrdListRound m) (base, []) lines ∧
      List.Forall₂ (Prints m) lines entries := by
  obtain ⟨lines, ends, shown⟩ := initrdList_adds closingName names archived []
  exact ⟨lines, ends, shown⟩

def listedFiles : List Entry := [plainEntry "osc.txt" "hello", plainEntry "test.txt" "abcdefg\n"]

/-- Two files of different sizes, the one after the other. -/
theorem initrd_list_decodes_osc_txt :
    ∃ lines,
      Ends (initrdListRound (disk (listedFiles ++ [plainEntry "TRAILER!!!" ""]) []))
        (initrdBase, []) lines ∧
      List.Forall₂ (Prints (disk (listedFiles ++ [plainEntry "TRAILER!!!" ""]) [])) lines
        listedFiles := by
  have archived : Archived (disk (listedFiles ++ [plainEntry "TRAILER!!!" ""]) []) initrdBase
      (listedFiles ++ [plainEntry "TRAILER!!!" ""]) :=
    (archived_disk (by decide) (by decide +kernel)).1
  exact initrd_list_decodes rfl (by decide) archived

end Ex22

end OscKernel.Cpio
