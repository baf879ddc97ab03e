import OscKernel.Cpio.Agreement
import OscKernel.Loops.Endless

/-!
# Where the search goes on (`ex41/main.c`, `ex62/main.c`)

`exec` adds the sizes of a record to its address as an `int`.  A sum that is zero or negative keeps
the search at the record or sends it back, so that it need not end on a malformed archive.
-/

namespace OscKernel.Cpio

open Alloc Riscv Loops Relation

/-- The size of the record that the fields of the header at `p` announce. -/
def recordSize (m : Mem) (p : BitVec 64) : Nat :=
  roundUp 2 (110 + (hextoi m (p + 94) 8).toNat) + roundUp 2 (hextoi m (p + 54) 8).toNat

/-- The low 32 bits of the size are a positive `int` that keeps to the address space, or a negative
one that leaves it below. -/
def StepsUp (m : Mem) (p : BitVec 64) : Prop :=
  (0 < recordSize m p % 2 ^ 32 ∧ recordSize m p % 2 ^ 32 < 2 ^ 31 ∧
      p.toNat + recordSize m p % 2 ^ 32 < 2 ^ 64) ∨
    (2 ^ 31 ≤ recordSize m p % 2 ^ 32 ∧ p.toNat + recordSize m p % 2 ^ 32 < 2 ^ 32)

/-- The search loop of one of the two programs. -/
def IsExec (m : Mem) (trailer filename : BitVec 64)
    (round : BitVec 64 → Round (BitVec 64) (Option (BitVec 64 × BitVec 64))) : Prop :=
  round = Ex41.execRound m trailer filename ∨ round = Ex62.execRound m trailer filename

/-- Every iteration that the search comes to, and that goes on, moves up. -/
def Climbs (round : BitVec 64 → Round (BitVec 64) (Option (BitVec 64 × BitVec 64)))
    (base : BitVec 64) : Prop :=
  ∀ p next, ReflTransGen (Leads round) base p → Leads round p next → p.toNat < next.toNat

section Iterations

variable {m : Mem} {base trailer filename p next : BitVec 64}
variable {round : BitVec 64 → Round (BitVec 64) (Option (BitVec 64 × BitVec 64))}

/-- Both loops go on in the same way. -/
theorem IsExec.shared (isExec : IsExec m trailer filename round) :
    ∃ program, round = execRound Ex62.headsize Ex62.datasize program m trailer filename := by
  rcases isExec with isEx41 | isEx62
  · exact ⟨Ex41.program, isEx41.trans Ex41.execRound_eq⟩
  · exact ⟨Ex62.program, isEx62⟩

/-- An iteration that goes on adds the sizes of the record. -/
theorem IsExec.next_eq (isExec : IsExec m trailer filename round) (leads : Leads round p next) :
    next = p + (Ex62.headsize (hextoi m (p + 94) 8) +
      Ex62.datasize (hextoi m (p + 54) 8)).signExtend 64 := by
  obtain ⟨program, rfl⟩ := isExec.shared
  rw [Leads, execRound] at leads
  split at leads
  next => cases leads
  next =>
    dsimp only at leads
    split at leads
    next => cases leads
    next => exact (Round.next.inj leads).symm

theorem toNat_step (m : Mem) (p : BitVec 64) :
    (Ex62.headsize (hextoi m (p + 94) 8) + Ex62.datasize (hextoi m (p + 54) 8)).toNat =
      recordSize m p % 2 ^ 32 := by
  have sum := Ex62.sum_of (hextoi m (p + 94) 8).toNat (hextoi m (p + 54) 8).toNat
  rw [BitVec.ofNat_toNat, BitVec.ofNat_toNat, BitVec.setWidth_eq, BitVec.setWidth_eq] at sum
  rw [sum, BitVec.toNat_ofNat, recordSize]

/-- An iteration that goes on moves up exactly if its step does. -/
theorem IsExec.lt_iff (isExec : IsExec m trailer filename round) (leads : Leads round p next) :
    p.toNat < next.toNat ↔ StepsUp m p := by
  rw [isExec.next_eq leads, Words.lt_add_signExtend_iff, toNat_step, StepsUp]

theorem IsExec.climbs_iff (isExec : IsExec m trailer filename round) :
    Climbs round base ↔ ∀ p, ReflTransGen (Leads round) base p →
      (∃ next, Leads round p next) → StepsUp m p := by
  constructor
  · intro climbs p reached goesOn
    obtain ⟨next, leads⟩ := goesOn
    exact (isExec.lt_iff leads).mp (climbs p next reached leads)
  · intro stepsUp p next reached leads
    exact (isExec.lt_iff leads).mpr (stepsUp p reached ⟨next, leads⟩)

/-- A search that always moves up comes to no header twice. -/
theorem Climbs.later_lt (climbs : Climbs round base) {later : BitVec 64}
    (reached : ReflTransGen (Leads round) base p) (goesOn : TransGen (Leads round) p later) :
    p.toNat < later.toNat :=
  lt_of_reached_later BitVec.toNat climbs reached goesOn

/-- A search that always moves up ends. -/
theorem Climbs.ends (climbs : Climbs round base) : ∃ result, Ends round base result :=
  ends_of_increasing BitVec.toNat (2 ^ 64) BitVec.isLt climbs

end Iterations

/-! ## Well-formed archives -/

section Archives

variable {m : Mem} {p next trailer filename : BitVec 64} {name : List Byte} {e closing : Entry}
variable {entries rest : List Entry}
variable {round : BitVec 64 → Round (BitVec 64) (Option (BitVec 64 × BitVec 64))}

theorem Recorded.recordSize_eq (recorded : Recorded m p e) (wellFormed : e.WellFormed) :
    recordSize m p = e.size := by
  rw [recordSize, hextoi_field wellFormed.namesize_lt recorded.namesize,
    hextoi_field wellFormed.filesize_lt recorded.filesize, BitVec.toNat_ofNat, BitVec.toNat_ofNat,
    Nat.mod_eq_of_lt wellFormed.namesize_lt, Nat.mod_eq_of_lt wellFormed.filesize_lt, Entry.size,
    Entry.headSize]

theorem Archived.stepsUp (archived : Archived m p (e :: rest)) (more : rest ≠ [])
    (small : e.size < 2 ^ 31) : StepsUp m p := by
  have size := archived.recorded.recordSize_eq (archived.wellFormed e (List.mem_cons_self ..))
  have fits := archived.end_lt more
  have positive := e.lt_size
  left
  rw [size]
  omega

/-- An iteration goes on from a record before the closing one only, and to the record after it. -/
theorem Archived.leads (archived : Archived m p (entries ++ [closing]))
    (literal : m.CString trailer trailerName) (string : m.CString filename name)
    (closingName : closing.name = trailerName) (small : ∀ e ∈ entries, e.size < 2 ^ 31)
    (isExec : IsExec m trailer filename round) (leads : Leads round p next) :
    ∃ e rest, entries = e :: rest ∧ next = p + BitVec.ofNat 64 e.size := by
  obtain ⟨program, rfl⟩ := isExec.shared
  cases entries with
  | nil =>
      have starts : trailerName <+: closing.name := closingName ▸ List.prefix_rfl
      rw [Leads, execRound_trailer archived.recorded literal starts] at leads
      cases leads
  | cons e rest =>
      by_cases starts : trailerName <+: e.name
      · rw [Leads, execRound_trailer archived.recorded literal starts] at leads
        cases leads
      · have wellFormed := archived.wellFormed e (List.mem_cons_self ..)
        rw [Leads, execRound_entry archived.recorded wellFormed literal string starts,
          next_eq (small e (List.mem_cons_self ..))] at leads
        split at leads
        next => cases leads
        next => exact ⟨e, rest, rfl, (Round.next.inj leads).symm⟩

/-- The search climbs through every archive with records below 2 GiB. -/
theorem Archived.climbs (archived : Archived m p (entries ++ [closing]))
    (literal : m.CString trailer trailerName) (string : m.CString filename name)
    (closingName : closing.name = trailerName) (small : ∀ e ∈ entries, e.size < 2 ^ 31)
    (isExec : IsExec m trailer filename round) : Climbs round p := by
  intro reached next isReached leads
  -- Every header that is reached begins the rest of the archive.
  have inv : ∃ rest, Archived m reached (rest ++ [closing]) ∧ ∀ e ∈ rest, e.size < 2 ^ 31 := by
    apply invariant_of_reached _ isReached ⟨entries, archived, small⟩
    rintro p next leads ⟨entries, archived, small⟩
    obtain ⟨e, rest, rfl, rfl⟩ := archived.leads literal string closingName small isExec leads
    exact ⟨rest, archived.next, fun other member => small other (List.mem_cons_of_mem _ member)⟩
  obtain ⟨rest, archived, small⟩ := inv
  obtain ⟨e, rest, rfl, _⟩ := archived.leads literal string closingName small isExec leads
  have more : rest ++ [closing] ≠ [] := List.append_ne_nil_of_right_ne_nil _ nofun
  exact (isExec.lt_iff leads).mpr (archived.stepsUp more (small e (List.mem_cons_self ..)))

end Archives

/-- For every content of the memory an iteration that goes on moves up exactly if the announced
size, modulo `2 ^ 32`, is a step up.  A search whose headers all have such a size comes to no
header twice, and ends. -/
theorem search_advances_iff {m : Mem} {trailer filename : BitVec 64}
    {round : BitVec 64 → Round (BitVec 64) (Option (BitVec 64 × BitVec 64))}
    (isExec : IsExec m trailer filename round) (base : BitVec 64) :
    (∀ p next, Leads round p next → (p.toNat < next.toNat ↔ StepsUp m p)) ∧
    (Climbs round base ↔ ∀ p, ReflTransGen (Leads round) base p →
      (∃ next, Leads round p next) → StepsUp m p) ∧
    (Climbs round base →
      (∀ p later, ReflTransGen (Leads round) base p → TransGen (Leads round) p later →
        p.toNat < later.toNat) ∧ ∃ result, Ends round base result) := by
  refine ⟨fun p next => isExec.lt_iff, isExec.climbs_iff, fun climbs => ⟨?_, climbs.ends⟩⟩
  intro p later reached goesOn
  exact climbs.later_lt reached goesOn

/-- The search for the second of two files ends. -/
theorem search_advances_two_files :
    ∃ result, Ends (Ex62.execRound (twoFileDisk "osc.txt" "prog.bin")
      (diskEnd (twoRecords "osc.txt" "prog.bin")) (filenameAt (twoRecords "osc.txt" "prog.bin")))
      initrdBase result := by
  obtain ⟨archived, literal, string⟩ :=
    @twoFileDisk_stored "osc.txt" "prog.bin" (by decide) (by decide) (by decide +kernel)
  obtain ⟨_, _, advances⟩ := search_advances_iff (.inr rfl) initrdBase
  exact (advances (archived.climbs literal string rfl (by decide) (.inr rfl))).2

/-! ## A header that leads to itself -/

/-- A header with an empty name and the sizes 1 and `0xFFFFFF90`, which is -112. -/
def loopingHeader : List Byte :=
  List.replicate 54 0x30 ++ (hexField 0xFFFFFF90 ++ (List.replicate 32 0x30 ++
    (hexField 1 ++ (List.replicate 8 0x30 ++ [0]))))

/-- Memory with the header, the string literal and the file name. -/
def loopingInitrd : Mem :=
  Mem.image initrdBase (loopingHeader ++ searchStrings (ascii "prog.bin"))

/-- The address of the string literal. -/
def literalAt : BitVec 64 := initrdBase + 111

theorem loopingInitrd_stored :
    loopingInitrd.Stored (initrdBase + 54) (hexField 0xFFFFFF90) ∧
      loopingInitrd.Stored (initrdBase + 94) (hexField 1) ∧
      loopingInitrd.CString (initrdBase + 110) [] ∧
      loopingInitrd.CString literalAt trailerName ∧
      loopingInitrd.CString (literalAt + 11) (ascii "prog.bin") := by
  have stored : loopingInitrd.Stored initrdBase
      (loopingHeader ++ searchStrings (ascii "prog.bin")) := Mem.stored_image _ (by decide +kernel)
  have strings := stored.right
  have atFilesize := stored.left.right
  have atNamesize := atFilesize.right.right
  have atName := atNamesize.right.right
  simp only [List.length_replicate, hexField_length, add_ofNat_add] at atNamesize atName
  exact ⟨atFilesize.left, atNamesize.left, ⟨nofun, atName⟩, ⟨by decide, strings.left⟩,
    ⟨by decide, strings.right⟩⟩

theorem loopingInitrd_leads {round : BitVec 64 → Round (BitVec 64) (Option (BitVec 64 × BitVec 64))}
    (isExec : IsExec loopingInitrd literalAt (literalAt + 11) round) :
    Leads round initrdBase initrdBase := by
  obtain ⟨program, rfl⟩ := isExec.shared
  obtain ⟨atFilesize, atNamesize, entryName, literal, string⟩ := loopingInitrd_stored
  have notTrailer : memcmp loopingInitrd (initrdBase + 110) literalAt 10 ≠ 0 := by
    rw [Ne, memcmp_trailer entryName literal]
    decide
  have notFound :
      memcmp loopingInitrd (initrdBase + 110) (literalAt + 11) (BitVec.ofNat 32 1) ≠ 0 := by
    have different : ¬ ascii "prog.bin" = [] := by decide
    rw [memcmp_small (by decide)]
    exact mt (memcmpLoop_name entryName string).mp different
  have step : initrdBase + (BitVec.ofNat 32 (roundUp 2 (110 + 1) +
      roundUp 2 0xFFFFFF90)).signExtend 64 = initrdBase := by decide +kernel
  rw [Leads, execRound, if_neg notTrailer, hextoi_field (by decide) atNamesize,
    hextoi_field (by decide) atFilesize]
  dsimp only
  rw [if_neg notFound, Ex62.sum_of, step]

/-- The searches of both programs stay at the header for ever. -/
theorem search_stays_at_header :
    loopingInitrd.CString literalAt trailerName ∧
    loopingInitrd.CString (literalAt + 11) (ascii "prog.bin") ∧
    ¬ Climbs (Ex41.execRound loopingInitrd literalAt (literalAt + 11)) initrdBase ∧
    ¬ Climbs (Ex62.execRound loopingInitrd literalAt (literalAt + 11)) initrdBase ∧
    (¬ ∃ result, Ends (Ex41.execRound loopingInitrd literalAt (literalAt + 11)) initrdBase
      result) ∧
    ¬ ∃ result, Ends (Ex62.execRound loopingInitrd literalAt (literalAt + 11)) initrdBase
      result := by
  obtain ⟨_, _, _, literal, string⟩ := loopingInitrd_stored
  have inEx41 := loopingInitrd_leads (.inl rfl)
  have inEx62 := loopingInitrd_leads (.inr rfl)
  exact ⟨literal, string, fun climbs => Nat.lt_irrefl _ (climbs _ _ .refl inEx41),
    fun climbs => Nat.lt_irrefl _ (climbs _ _ .refl inEx62), not_ends_of_self inEx41,
    not_ends_of_self inEx62⟩

end OscKernel.Cpio
