import OscKernel.Cpio.Listing

/-!
# The readers against each other (`ex22`, `ex41`, `ex62`)

`initrd_cat` and `exec` look for the same file in the same archive.  `exec` takes each name that
begins with `TRAILER!!!` for the closing record and computes with `int` sizes, so that the two
differ on some archives.
-/

namespace OscKernel.Cpio

open Alloc Riscv Loops

/-- The record that `initrd_cat` selects: its header and its data. -/
def select (name : List Byte) : BitVec 64 → List Entry → Option (BitVec 64 × BitVec 64)
  | _, [] => none
  | p, e :: rest =>
      if e.name = name then some (p, p + BitVec.ofNat 64 e.headSize)
      else select name (p + BitVec.ofNat 64 e.size) rest

/-- The records that neither reader stops at. -/
def passed (name : List Byte) (entries : List Entry) : List Entry :=
  entries.takeWhile fun e => e.name ≠ name ∧ ¬ trailerName <+: e.name

/-- The first record that a reader stops at. -/
def firstStop (name : List Byte) (entries : List Entry) : Option Entry :=
  entries.find? fun e => e.name = name ∨ trailerName <+: e.name

/-- The archives on which the readers do the same. -/
structure Alike (name : List Byte) (entries : List Entry) : Prop where
  passed : ∀ e ∈ passed name entries, e.size < 2 ^ 31
  selected : ∀ e, firstStop name entries = some e → ¬ trailerName <+: e.name → e.headSize < 2 ^ 31
  trailer : ∀ e, firstStop name entries = some e → trailerName <+: e.name →
    ∀ other ∈ entries, other.name ≠ name

/-- The records whose `int` sizes send `p` somewhere else. -/
def Jumps (e : Entry) : Prop := e.namesize < 2 ^ 31 ∧ 2 ^ 31 ≤ e.size

section Lists

variable {name : List Byte} {e : Entry} {rest : List Entry}

theorem passed_cons (other : e.name ≠ name) (plain : ¬ trailerName <+: e.name) :
    passed name (e :: rest) = e :: passed name rest :=
  List.takeWhile_cons_of_pos (decide_eq_true ⟨other, plain⟩)

theorem passed_cons_stop (stop : e.name = name ∨ trailerName <+: e.name) :
    passed name (e :: rest) = [] := by
  apply List.takeWhile_cons_of_neg
  rw [decide_eq_true_iff]
  rintro ⟨other, plain⟩
  exact stop.elim other plain

theorem firstStop_cons (other : e.name ≠ name) (plain : ¬ trailerName <+: e.name) :
    firstStop name (e :: rest) = firstStop name rest := by
  apply List.find?_cons_of_neg
  rw [decide_eq_true_iff]
  exact fun stop => stop.elim other plain

theorem firstStop_cons_stop (stop : e.name = name ∨ trailerName <+: e.name) :
    firstStop name (e :: rest) = some e :=
  List.find?_cons_of_pos (decide_eq_true stop)

theorem alike_nil : Alike name [] where
  passed := nofun
  selected := nofun
  trailer := nofun

theorem alike_cons_passed (other : e.name ≠ name) (plain : ¬ trailerName <+: e.name) :
    Alike name (e :: rest) ↔ e.size < 2 ^ 31 ∧ Alike name rest := by
  constructor
  · rintro ⟨passed, selected, trailer⟩
    rw [passed_cons other plain] at passed
    rw [firstStop_cons other plain] at selected trailer
    exact ⟨passed e (List.mem_cons_self ..),
      { passed := fun other member => passed other (List.mem_cons_of_mem _ member)
        selected := selected
        trailer := fun stop found starts entry member =>
          trailer stop found starts entry (List.mem_cons_of_mem _ member) }⟩
  · rintro ⟨size, passed, selected, trailer⟩
    constructor
    · rw [passed_cons other plain]
      exact List.forall_mem_cons.mpr ⟨size, passed⟩
    · rwa [firstStop_cons other plain]
    · rw [firstStop_cons other plain]
      intro stop found starts
      exact List.forall_mem_cons.mpr ⟨other, trailer stop found starts⟩

theorem alike_cons_selected (same : e.name = name) (plain : ¬ trailerName <+: e.name) :
    Alike name (e :: rest) ↔ e.headSize < 2 ^ 31 := by
  have stop : firstStop name (e :: rest) = some e := firstStop_cons_stop (.inl same)
  constructor
  · intro alike
    exact alike.selected e stop plain
  · intro size
    constructor
    · rw [passed_cons_stop (.inl same)]
      nofun
    · intro found isStop _
      cases stop.symm.trans isStop
      exact size
    · intro found isStop starts
      cases stop.symm.trans isStop
      exact absurd starts plain

theorem alike_cons_trailer (starts : trailerName <+: e.name) :
    Alike name (e :: rest) ↔ ∀ other ∈ e :: rest, other.name ≠ name := by
  have stop : firstStop name (e :: rest) = some e := firstStop_cons_stop (.inr starts)
  constructor
  · intro alike
    exact alike.trailer e stop starts
  · intro missing
    constructor
    · rw [passed_cons_stop (.inr starts)]
      nofun
    · intro found isStop plain
      cases stop.symm.trans isStop
      exact absurd starts plain
    · exact fun _ _ _ => missing

theorem select_eq_none {p : BitVec 64} {entries : List Entry} :
    select name p entries = none ↔ ∀ e ∈ entries, e.name ≠ name := by
  induction entries generalizing p with
  | nil => exact ⟨fun _ => nofun, fun _ => rfl⟩
  | cons e rest ih =>
      rw [select, List.forall_mem_cons]
      by_cases same : e.name = name
      · rw [if_pos same]
        exact ⟨nofun, fun both => absurd same both.1⟩
      · rw [if_neg same, ih, and_iff_right same]

end Lists

/-! ## One record -/

section Records

variable {m : Mem} {p trailer filename : BitVec 64} {name : List Byte} {e : Entry}
variable {rest entries : List Entry} {closing : Entry}
variable {headsize datasize : BitVec 32 → BitVec 32} {program : BitVec 64 → BitVec 32 → BitVec 64}

theorem Ex22.initrdCatRound_closing (recorded : Recorded m p e) (closing : e.name = trailerName) :
    Ex22.initrdCatRound m name p = .stop none := by
  have found : m.strcmp trailerName (p + 110) = 0 :=
    (recorded.name.strcmp_eq_zero (by decide)).mpr closing.symm
  rw [initrdCatRound, if_pos found]

theorem Ex22.initrdCatRound_entry (archived : Archived m p (e :: rest)) (more : rest ≠ [])
    (noNul : 0 ∉ name) (entryName : e.name ≠ trailerName) :
    Ex22.initrdCatRound m name p =
      if e.name = name then .stop (some (p, p + BitVec.ofNat 64 e.headSize))
      else .next (p + BitVec.ofNat 64 e.size) := by
  have recorded := archived.recorded
  have wellFormed := archived.wellFormed e (List.mem_cons_self ..)
  have fits := archived.end_lt more
  have other : m.strcmp trailerName (p + 110) ≠ 0 := by
    rw [Ne, recorded.name.strcmp_eq_zero (by decide)]
    exact entryName.symm
  rw [initrdCatRound, if_neg other, hextoi_field wellFormed.namesize_lt recorded.namesize,
    hextoi_field wellFormed.filesize_lt recorded.filesize,
    file_eq archived.aligned fits wellFormed, nextHeader_eq archived.aligned fits wellFormed]
  by_cases same : e.name = name
  · rw [if_pos same, if_pos ((recorded.name.strcmp_eq_zero noNul).mpr same.symm)]
  · have different : m.strcmp name (p + 110) ≠ 0 := by
      rw [Ne, recorded.name.strcmp_eq_zero noNul]
      exact Ne.symm same
    rw [if_neg same, if_neg different]

/-- `initrd_cat` selects the first record with the name. -/
theorem Ex22.initrdCat_ends (closingName : closing.name = trailerName)
    (names : ∀ e ∈ entries, e.name ≠ trailerName) (noNul : 0 ∉ name)
    (archived : Archived m p (entries ++ [closing])) :
    Ends (Ex22.initrdCatRound m name) p (select name p entries) := by
  induction entries generalizing p with
  | nil => exact Ends.of_stop (initrdCatRound_closing archived.recorded closingName)
  | cons e rest ih =>
      have more : rest ++ [closing] ≠ [] := List.append_ne_nil_of_right_ne_nil _ nofun
      have round := initrdCatRound_entry archived more noNul (names e (List.mem_cons_self ..))
      rw [select]
      by_cases same : e.name = name
      · rw [if_pos same] at round ⊢
        exact Ends.of_stop round
      · rw [if_neg same] at round ⊢
        exact Ends.of_next round
          (ih (fun other member => names other (List.mem_cons_of_mem _ member)) archived.next)

/-- The test of `exec` for the closing record: whether the name begins like its name. -/
theorem memcmp_trailer {a : BitVec 64} {text : List Byte} (entryName : m.CString a text)
    (literal : m.CString trailer trailerName) :
    memcmp m a trailer 10 = 0 ↔ trailerName <+: text := by
  have length : memcmp m a trailer 10 = memcmpLoop m trailerName.length a trailer :=
    memcmp_small (by decide)
  rw [length]
  exact memcmpLoop_startsWith entryName literal.1 literal.2.left

theorem execRound_trailer (recorded : Recorded m p e) (literal : m.CString trailer trailerName)
    (starts : trailerName <+: e.name) :
    execRound headsize datasize program m trailer filename p = .stop none := by
  rw [execRound, if_pos ((memcmp_trailer recorded.name literal).mpr starts)]

/-- `exec` selects a record with the name, or one with a negative `namesize`. -/
theorem execRound_entry (recorded : Recorded m p e) (wellFormed : e.WellFormed)
    (literal : m.CString trailer trailerName) (string : m.CString filename name)
    (plain : ¬ trailerName <+: e.name) :
    execRound headsize datasize program m trailer filename p =
      if e.name = name ∨ 2 ^ 31 ≤ e.namesize then
        .stop (some (p, program p (BitVec.ofNat 32 e.namesize)))
      else
        .next (p + (headsize (BitVec.ofNat 32 e.namesize) +
          datasize (BitVec.ofNat 32 e.filesize)).signExtend 64) := by
  have notTrailer := mt (memcmp_trailer recorded.name literal).mp plain
  rw [execRound, if_neg notTrailer, hextoi_field wellFormed.namesize_lt recorded.namesize,
    hextoi_field wellFormed.filesize_lt recorded.filesize]
  dsimp only
  by_cases large : 2 ^ 31 ≤ e.namesize
  · have value : (BitVec.ofNat 32 e.namesize).toNat = e.namesize := by
      rw [BitVec.toNat_ofNat, Nat.mod_eq_of_lt wellFormed.namesize_lt]
    rw [if_pos (memcmp_large (value.symm ▸ large)), if_pos (.inr large)]
  · have compared :
        memcmp m (p + 110) filename (BitVec.ofNat 32 e.namesize) = 0 ↔ name = e.name := by
      rw [memcmp_small (Nat.lt_of_not_le large)]
      exact memcmpLoop_name recorded.name string
    by_cases same : e.name = name
    · rw [if_pos (compared.mpr same.symm), if_pos (.inl same)]
    · rw [if_neg (mt compared.mp (Ne.symm same)), if_neg (fun either => either.elim same large)]

/-- The data address of `ex41`. -/
theorem Ex41.program_eq (aligned : p.toNat % 4 = 0) (fits : p.toNat + e.size + 110 < 2 ^ 64)
    (small : e.namesize < 2 ^ 31) :
    Ex41.program p (BitVec.ofNat 32 e.namesize) = p + BitVec.ofNat 64 e.headSize := by
  have nameEnd := le_roundUp 2 (110 + e.namesize)
  have size : e.size = roundUp 2 (110 + e.namesize) + roundUp 2 e.filesize := rfl
  have start : (p + 110 + (BitVec.ofNat 32 e.namesize).signExtend 64).toNat =
      p.toNat + (110 + e.namesize) := by
    rw [signExtend_ofNat small, BitVec.toNat_add, BitVec.toNat_ofNat]
    bv_omega
  apply BitVec.eq_of_toNat_eq
  rw [program, align_four (by omega), start, roundUp_add aligned, BitVec.toNat_add,
    BitVec.toNat_ofNat, Entry.headSize]
  omega

theorem Entry.WellFormed.headSize_lt (wellFormed : e.WellFormed) : e.headSize < 2 ^ 33 := by
  have upper := roundUp_lt 2 (110 + e.namesize)
  have small := wellFormed.namesize_lt
  rw [Entry.headSize]
  omega

/-- The data address of `ex62` is right for a `headsize` that fits in an `int`. -/
theorem Ex62.program_eq_iff (wellFormed : e.WellFormed) :
    Ex62.program p (BitVec.ofNat 32 e.namesize) = p + BitVec.ofNat 64 e.headSize ↔
      e.headSize < 2 ^ 31 := by
  have bound := wellFormed.headSize_lt
  rw [program, headsize_ofNat, BitVec.add_right_inj]
  constructor
  · intro same
    by_contra large
    have value := congrArg BitVec.toNat same
    rw [BitVec.toNat_ofNat] at value
    have low : (BitVec.ofNat 32 e.headSize).toNat = e.headSize % 2 ^ 32 := BitVec.toNat_ofNat ..
    by_cases negative : (BitVec.ofNat 32 e.headSize).toNat < 2 ^ 31
    · rw [Words.toNat_signExtend_small negative] at value
      omega
    · rw [Words.toNat_signExtend_large (Nat.le_of_not_lt negative)] at value
      omega
  · exact signExtend_ofNat

/-- The next header of both programs, for a sum of sizes that fits in an `int`. -/
theorem next_eq (small : e.size < 2 ^ 31) :
    p + (Ex62.headsize (BitVec.ofNat 32 e.namesize) +
      Ex62.datasize (BitVec.ofNat 32 e.filesize)).signExtend 64 = p + BitVec.ofNat 64 e.size := by
  rw [Ex62.sum_ofNat, signExtend_ofNat small]

theorem Ex41.execRound_eq :
    Ex41.execRound m trailer filename =
      Cpio.execRound Ex62.headsize Ex62.datasize Ex41.program m trailer filename := by
  rw [execRound, headsize_eq, datasize_eq]

theorem Archived.toNat_next (archived : Archived m p (e :: rest)) (more : rest ≠ []) :
    (p + BitVec.ofNat 64 e.size).toNat = p.toNat + e.size := by
  have fits := archived.end_lt more
  rw [BitVec.toNat_add, BitVec.toNat_ofNat]
  omega

/-- Selected headers are not before the record where the search starts. -/
theorem le_select {header data : BitVec 64} (archived : Archived m p (entries ++ [closing]))
    (selected : select name p entries = some (header, data)) : p.toNat ≤ header.toNat := by
  induction entries generalizing p with
  | nil => cases selected
  | cons e rest ih =>
      rw [select] at selected
      split at selected
      next =>
        cases selected
        exact Nat.le_refl _
      next =>
        have more : rest ++ [closing] ≠ [] := List.append_ne_nil_of_right_ne_nil _ nofun
        have later := ih archived.next selected
        rw [archived.toNat_next more] at later
        omega

end Records

/-! ## The whole search -/

/-- The readers select the same record and the same data, or none. -/
def Agree (m : Mem) (base trailer filename : BitVec 64) (name : List Byte) : Prop :=
  ∀ selected,
    (Ends (Ex41.execRound m trailer filename) base (some selected) ↔
      Ends (Ex22.initrdCatRound m name) base (some selected)) ∧
    (Ends (Ex62.execRound m trailer filename) base (some selected) ↔
      Ends (Ex22.initrdCatRound m name) base (some selected))

section Search

variable {m : Mem} {p base trailer filename : BitVec 64} {name : List Byte} {e : Entry}
variable {rest entries : List Entry} {closing : Entry} {result : Option (BitVec 64 × BitVec 64)}

/-- What `exec` selects is the record and the data `result`. -/
def Selects (m : Mem) (trailer filename p : BitVec 64) (result : Option (BitVec 64 × BitVec 64)) :
    Prop :=
  ∀ selected,
    (Ends (Ex41.execRound m trailer filename) p (some selected) ↔ some selected = result) ∧
    (Ends (Ex62.execRound m trailer filename) p (some selected) ↔ some selected = result)

theorem agree_iff_selects (closingName : closing.name = trailerName)
    (names : ∀ e ∈ entries, e.name ≠ trailerName) (noNul : 0 ∉ name)
    (archived : Archived m base (entries ++ [closing])) :
    Agree m base trailer filename name ↔
      Selects m trailer filename base (select name base entries) := by
  have ends := Ex22.initrdCat_ends closingName names noNul archived
  have selects : ∀ selected, Ends (Ex22.initrdCatRound m name) base (some selected) ↔
      some selected = select name base entries := by
    intro selected
    constructor
    · exact fun found => found.unique ends
    · intro same
      rwa [same]
  simp only [Agree, Selects, selects]

theorem selects_trailer (recorded : Recorded m p e) (literal : m.CString trailer trailerName)
    (starts : trailerName <+: e.name) :
    Selects m trailer filename p result ↔ result = none := by
  have first : ∀ selected, Ends (Ex41.execRound m trailer filename) p (some selected) ↔ False := by
    intro selected
    rw [Ex41.execRound_eq, Ends.stop_iff (execRound_trailer recorded literal starts)]
    exact ⟨nofun, nofun⟩
  have second : ∀ selected, Ends (Ex62.execRound m trailer filename) p (some selected) ↔ False := by
    intro selected
    rw [Ex62.execRound, Ends.stop_iff (execRound_trailer recorded literal starts)]
    exact ⟨nofun, nofun⟩
  simp only [Selects, first, second, false_iff, and_self]
  constructor
  · intro never
    cases result with
    | none => rfl
    | some selected => exact absurd rfl (never selected)
  · rintro rfl selected
    nofun

theorem selects_stop (recorded : Recorded m p e) (wellFormed : e.WellFormed)
    (literal : m.CString trailer trailerName) (string : m.CString filename name)
    (plain : ¬ trailerName <+: e.name) (stops : e.name = name ∨ 2 ^ 31 ≤ e.namesize) :
    Selects m trailer filename p result ↔
      result = some (p, Ex41.program p (BitVec.ofNat 32 e.namesize)) ∧
      result = some (p, Ex62.program p (BitVec.ofNat 32 e.namesize)) := by
  have ends : ∀ program selected,
      Ends (execRound Ex62.headsize Ex62.datasize program m trailer filename) p (some selected) ↔
        some selected = some (p, program p (BitVec.ofNat 32 e.namesize)) := by
    intro program selected
    apply Ends.stop_iff
    rw [execRound_entry recorded wellFormed literal string plain, if_pos stops]
  simp only [Selects, Ex41.execRound_eq, Ex62.execRound, ends]
  constructor
  · intro both
    exact ⟨((both _).1.mp rfl).symm, ((both _).2.mp rfl).symm⟩
  · rintro ⟨first, second⟩ selected
    rw [← first, ← second]
    exact ⟨Iff.rfl, Iff.rfl⟩

theorem selects_next (recorded : Recorded m p e) (wellFormed : e.WellFormed)
    (literal : m.CString trailer trailerName) (string : m.CString filename name)
    (plain : ¬ trailerName <+: e.name) (other : e.name ≠ name) (small : e.size < 2 ^ 31) :
    Selects m trailer filename p result ↔
      Selects m trailer filename (p + BitVec.ofNat 64 e.size) result := by
  have name_le : e.namesize ≤ e.size := by
    have nameEnd := le_roundUp 2 (110 + e.namesize)
    rw [Entry.size, Entry.headSize]
    omega
  have round : ∀ program,
      execRound Ex62.headsize Ex62.datasize program m trailer filename p =
        .next (p + BitVec.ofNat 64 e.size) := by
    intro program
    rw [execRound_entry recorded wellFormed literal string plain,
      if_neg (fun either => either.elim other (by omega)), next_eq small]
  simp only [Selects, Ex41.execRound_eq, Ex62.execRound, Ends.next_iff (round _)]

/-- On an archive without jumps `exec` selects what `initrd_cat` does if and only if the archive
is one on which the readers do the same.  The induction follows both over the passed records. -/
theorem selects_iff (literal : m.CString trailer trailerName) (string : m.CString filename name)
    (noJump : ∀ e ∈ passed name entries, ¬ Jumps e) (closingName : closing.name = trailerName)
    (archived : Archived m p (entries ++ [closing])) :
    Selects m trailer filename p (select name p entries) ↔ Alike name entries := by
  induction entries generalizing p with
  | nil =>
      have starts : trailerName <+: closing.name := closingName ▸ List.prefix_refl _
      rw [selects_trailer archived.recorded literal starts]
      exact ⟨fun _ => alike_nil, fun _ => rfl⟩
  | cons e rest ih =>
      have more : rest ++ [closing] ≠ [] := List.append_ne_nil_of_right_ne_nil _ nofun
      have recorded := archived.recorded
      have wellFormed := archived.wellFormed e (List.mem_cons_self ..)
      have fits := archived.end_lt more
      by_cases starts : trailerName <+: e.name
      · rw [selects_trailer recorded literal starts, alike_cons_trailer starts, select_eq_none]
      · by_cases same : e.name = name
        · have head_le : e.headSize < 2 ^ 31 → e.namesize < 2 ^ 31 := by
            have nameEnd := le_roundUp 2 (110 + e.namesize)
            rw [Entry.headSize]
            omega
          rw [selects_stop recorded wellFormed literal string starts (.inl same),
            alike_cons_selected same starts, select, if_pos same,
            ← Ex62.program_eq_iff (p := p) wellFormed]
          constructor
          · rintro ⟨-, second⟩
            exact (Prod.mk.inj (Option.some.inj second)).2.symm
          · intro second
            have small := head_le ((Ex62.program_eq_iff wellFormed).mp second)
            rw [Ex41.program_eq archived.aligned fits small, second]
            exact ⟨rfl, rfl⟩
        · rw [passed_cons same starts] at noJump
          have noJumpHere := noJump e (List.mem_cons_self ..)
          have noJumpLater : ∀ e ∈ passed name rest, ¬ Jumps e :=
            fun other member => noJump other (List.mem_cons_of_mem _ member)
          rw [alike_cons_passed same starts, select, if_neg same]
          by_cases small : e.size < 2 ^ 31
          · rw [selects_next recorded wellFormed literal string starts same small,
              ih noJumpLater archived.next, and_iff_right small]
          · have large : 2 ^ 31 ≤ e.namesize := by
              by_contra notLarge
              exact noJumpHere ⟨Nat.lt_of_not_le notLarge, Nat.le_of_not_lt small⟩
            rw [selects_stop recorded wellFormed literal string starts (.inr large)]
            constructor
            · rintro ⟨here, -⟩
              have later := le_select archived.next here
              rw [archived.toNat_next more] at later
              have positive := e.lt_size
              omega
            · rintro ⟨isSmall, -⟩
              exact absurd isSmall small

/-- The readers agree on each archive on which they do the same, and on no other one without
jumps. -/
theorem readers_agree (literal : m.CString trailer trailerName) (string : m.CString filename name)
    (closingName : closing.name = trailerName) (names : ∀ e ∈ entries, e.name ≠ trailerName)
    (archived : Archived m base (entries ++ [closing])) :
    (Alike name entries → Agree m base trailer filename name) ∧
      ((∀ e ∈ passed name entries, ¬ Jumps e) →
        Agree m base trailer filename name → Alike name entries) := by
  rw [agree_iff_selects closingName names string.1 archived]
  constructor
  · intro alike
    have noJump : ∀ e ∈ passed name entries, ¬ Jumps e :=
      fun e member jumps => Nat.not_le_of_lt (alike.passed e member) jumps.2
    exact (selects_iff literal string noJump closingName archived).mpr alike
  · intro noJump
    exact (selects_iff literal string noJump closingName archived).mp

end Search

/-! ## Two archives -/

/-- The string literal and the file name behind an archive. -/
def searchStrings (name : List Byte) : List Byte := trailerName ++ [0] ++ (name ++ [0])

/-- Two files. -/
def twoFiles (first second : String) : List Entry :=
  [plainEntry first "first", plainEntry second "second"]

/-- Two files and the closing record. -/
def twoRecords (first second : String) : List Entry :=
  twoFiles first second ++ [plainEntry "TRAILER!!!" ""]

/-- Memory with two files, looked up by the name of the second. -/
def twoFileDisk (first second : String) : Mem :=
  disk (twoRecords first second) (searchStrings (ascii second))

/-- The address of the file name. -/
def filenameAt (records : List Entry) : BitVec 64 := diskEnd records + 11

theorem twoFileDisk_stored {first second : String}
    (wellFormed : ∀ e ∈ twoRecords first second, e.WellFormed) (noNul : 0 ∉ ascii second)
    (small : (encode (twoRecords first second) ++ searchStrings (ascii second)).length ≤ 2 ^ 20) :
    Archived (twoFileDisk first second) initrdBase (twoRecords first second) ∧
      (twoFileDisk first second).CString (diskEnd (twoRecords first second)) trailerName ∧
      (twoFileDisk first second).CString (filenameAt (twoRecords first second)) (ascii second) := by
  obtain ⟨archived, stored⟩ := archived_disk wellFormed small
  exact ⟨archived, ⟨by decide, stored.left⟩, noNul, stored.right⟩

theorem readers_agree_prog_bin :
    Agree (twoFileDisk "osc.txt" "prog.bin") initrdBase (diskEnd (twoRecords "osc.txt" "prog.bin"))
      (filenameAt (twoRecords "osc.txt" "prog.bin")) (ascii "prog.bin") := by
  obtain ⟨archived, literal, string⟩ :=
    @twoFileDisk_stored "osc.txt" "prog.bin" (by decide) (by decide) (by decide +kernel)
  apply (readers_agree literal string rfl (by decide) archived).1
  constructor
  · decide
  · decide
  · decide

/-- A file whose name begins with that of the closing record hides the files after it. -/
theorem trailer_prefix_hides :
    Archived (twoFileDisk "TRAILER!!!.old" "prog.bin") initrdBase
        (twoRecords "TRAILER!!!.old" "prog.bin") ∧
      ¬ Agree (twoFileDisk "TRAILER!!!.old" "prog.bin") initrdBase
        (diskEnd (twoRecords "TRAILER!!!.old" "prog.bin"))
        (filenameAt (twoRecords "TRAILER!!!.old" "prog.bin")) (ascii "prog.bin") := by
  obtain ⟨archived, literal, string⟩ :=
    @twoFileDisk_stored "TRAILER!!!.old" "prog.bin" (by decide) (by decide) (by decide +kernel)
  refine ⟨archived, ?_⟩
  rw [agree_iff_selects rfl (by decide) (by decide) archived,
    selects_trailer archived.recorded literal (by decide), select_eq_none]
  decide

end OscKernel.Cpio
