import OscKernel.Cpio.Agreement

/-!
# Printing a file (`ex22/main.c`)

`initrd_cat` prints the data that it finds as a C string.  The text ends at the first NUL, be it in
the data, in the padding or in the records that follow.
-/

namespace OscKernel.Cpio

open Alloc Riscv Loops

namespace Ex22

/-- A round of `printf` with `%s`: a character before the NUL. -/
def textRound (m : Mem) : BitVec 64 × List Byte → Round (BitVec 64 × List Byte) (List Byte)
  | (s, printed) => if m s = 0 then .stop printed else .next (s + 1, printed ++ [m s])

/-- The two calls of `printf` that `initrd_cat` ends with. -/
inductive Output where
  | text (file : List Byte)
  | noSuchFile (filename : List Byte)

/-- The bytes that are printed. -/
def Output.bytes : Output → List Byte
  | .text file => file ++ ascii "\n"
  | .noSuchFile filename => ascii "initrd_cat: " ++ filename ++ ascii ": No such file\n"

/-- `initrd_cat` -/
inductive InitrdCat (m : Mem) (rd : BitVec 64) (filename : List Byte) : Output → Prop where
  | text {cur file : BitVec 64} {text : List Byte}
      (selects : Ends (initrdCatRound m filename) rd (some (cur, file)))
      (prints : Ends (textRound m) (file, []) text) : InitrdCat m rd filename (.text text)
  | noSuchFile (ends : Ends (initrdCatRound m filename) rd none) :
      InitrdCat m rd filename (.noSuchFile filename)

end Ex22

/-- The first record with the name. -/
def fileNamed (name : List Byte) (entries : List Entry) : Option Entry :=
  entries.find? fun e => e.name = name

section Text

variable {m : Mem} {s : BitVec 64} {text other : List Byte}

theorem Ex22.textRound_ends (string : m.CString s text) (printed : List Byte) :
    Ends (textRound m) (s, printed) (printed ++ text) := by
  induction text generalizing s printed with
  | nil =>
      rw [List.append_nil]
      exact Ends.of_stop (by rw [textRound, if_pos (Mem.cstring_nil.mp string)])
  | cons c text ih =>
      obtain ⟨nonzero, first, later⟩ := Mem.cstring_cons.mp string
      have round : textRound m (s, printed) = .next (s + 1, printed ++ [c]) := by
        rw [textRound, first, if_neg nonzero]
      have rest := ih later (printed ++ [c])
      rw [List.append_assoc, List.singleton_append] at rest
      exact Ends.of_next round rest

/-- A C string is printed up to its NUL. -/
theorem Ex22.text_ends_iff (string : m.CString s text) :
    Ends (textRound m) (s, []) other ↔ other = text := by
  have ends := textRound_ends string []
  constructor
  · exact fun otherEnds => otherEnds.unique ends
  · rintro rfl
    exact ends

end Text

section Records

variable {m : Mem} {p : BitVec 64} {name text : List Byte} {e closing : Entry}
variable {entries rest : List Entry}

theorem encode_head (e : Entry) (rest : List Entry) :
    ∃ bytes, encode (e :: rest) = 0x30 :: bytes :=
  ⟨_, rfl⟩

theorem Entry.padding_eq_nil {n : Nat} (whole : n % 4 = 0) : padding n = [] := by
  rw [padding, roundUp_of_dvd (k := 2) (Nat.dvd_of_mod_eq_zero whole), Nat.sub_self,
    List.replicate_zero]

/-- A NUL follows the data exactly if there is padding, since the next header begins with none. -/
theorem Archived.nul_after_data_iff (archived : Archived m p (e :: rest)) (more : rest ≠ []) :
    m (p + BitVec.ofNat 64 e.headSize + BitVec.ofNat 64 e.data.length) = 0 ↔
      e.filesize % 4 ≠ 0 := by
  have stored := archived.stored_data.right
  have upper := dvd_roundUp 2 e.filesize
  obtain ⟨following, later, rfl⟩ := List.exists_cons_of_ne_nil more
  by_cases whole : e.filesize % 4 = 0
  · obtain ⟨bytes, head⟩ := encode_head following later
    rw [Entry.padding_eq_nil whole, List.nil_append, head, Mem.stored_cons] at stored
    rw [stored.1]
    exact ⟨fun zero => absurd zero (by decide), fun part => absurd whole part⟩
  · have lower := le_roundUp 2 e.filesize
    obtain ⟨n, length⟩ : ∃ n, roundUp 2 e.filesize - e.filesize = n + 1 :=
      Nat.exists_eq_succ_of_ne_zero (by omega)
    rw [Entry.padding, length, List.replicate_succ, List.cons_append, Mem.stored_cons] at stored
    exact ⟨fun _ => whole, fun _ => stored.1⟩

/-- The name of the next record ends each text. -/
theorem Archived.exists_text (archived : Archived m p (e :: rest)) (more : rest ≠ []) :
    ∃ text, m.CString (p + BitVec.ofNat 64 e.headSize) text := by
  obtain ⟨following, later, rfl⟩ := List.exists_cons_of_ne_nil more
  have nul : 0 ∈ encode (following :: later) := by
    rw [encode_cons]
    simp [Entry.encode]
  exact ⟨_, archived.stored_data.cstring (List.mem_append_right _ (List.mem_append_right _ nul))⟩

/-- The text at the data is the data exactly if the only NUL of both follows them. -/
theorem Archived.text_eq_data_iff (archived : Archived m p (e :: rest)) (more : rest ≠ [])
    (string : m.CString (p + BitVec.ofNat 64 e.headSize) text) :
    text = e.data ↔ 0 ∉ e.data ∧ e.filesize % 4 ≠ 0 := by
  rw [← archived.nul_after_data_iff more]
  constructor
  · rintro rfl
    exact ⟨string.1, (Mem.stored_cons.mp string.2.right).1⟩
  · rintro ⟨noNul, nul⟩
    have ended : m.Stored (p + BitVec.ofNat 64 e.headSize) (e.data ++ [0]) :=
      Mem.stored_append.mpr ⟨archived.stored_data.left, Mem.stored_cons.mpr ⟨nul, Mem.stored_nil⟩⟩
    exact Mem.CString.unique ⟨noNul, ended⟩ string

theorem hexDigit_ne_zero {d : Nat} (small : d < 16) : hexDigit d ≠ 0 := by
  have all : ∀ d < 16, hexDigit d ≠ 0 := by decide
  exact all d small

theorem zero_notMem_hexField (v : Nat) : 0 ∉ hexField v := by
  intro nul
  obtain ⟨d, member, zero⟩ := List.mem_map.mp nul
  exact hexDigit_ne_zero (digits_lt member) zero

theorem Entry.zero_notMem_header (e : Entry) : 0 ∉ e.header := by
  have magic : 0 ∉ ascii "070701" := by decide
  simp only [header, fieldsBefore, fieldsBetween, List.mem_append, zero_notMem_hexField, magic,
    or_false, not_false_iff]

/-- Data without padding and without a NUL run on into the next header and its name. -/
theorem Archived.text_runs_on {following : Entry} {later : List Entry}
    (archived : Archived m p (e :: following :: later)) (noNul : 0 ∉ e.data)
    (whole : e.filesize % 4 = 0) :
    m.CString (p + BitVec.ofNat 64 e.headSize) (e.data ++ following.header ++ following.name) := by
  have stored := archived.stored_data
  have wellFormed := archived.wellFormed following (List.mem_cons_of_mem _ (List.mem_cons_self ..))
  have layout : e.data ++ (Entry.padding e.filesize ++ encode (following :: later)) =
      (e.data ++ following.header ++ following.name ++ [0]) ++
        (Entry.padding (110 + following.namesize) ++ (following.data ++
          (Entry.padding following.filesize ++ encode later))) := by
    simp only [Entry.padding_eq_nil whole, encode_cons, Entry.encode, List.append_assoc,
      List.nil_append]
  rw [layout] at stored
  refine ⟨?_, stored.left⟩
  simp only [List.mem_append, noNul, following.zero_notMem_header, wellFormed.noNul, or_false,
    not_false_iff]

/-- The record that is selected is the first with the name, and others follow. -/
theorem select_of_fileNamed (archived : Archived m p (entries ++ [closing]))
    (named : fileNamed name entries = some e) :
    ∃ cur rest, select name p entries = some (cur, cur + BitVec.ofNat 64 e.headSize) ∧
      Archived m cur (e :: rest) ∧ rest ≠ [] := by
  induction entries generalizing p with
  | nil => cases named
  | cons first others ih =>
      by_cases same : first.name = name
      · have found : fileNamed name (first :: others) = some first :=
          List.find?_cons_of_pos (decide_eq_true same)
        rw [found, Option.some.injEq] at named
        rw [select, if_pos same, ← named]
        exact ⟨p, _, rfl, archived, List.append_ne_nil_of_right_ne_nil _ (List.cons_ne_nil _ _)⟩
      · have later : fileNamed name (first :: others) = fileNamed name others :=
          List.find?_cons_of_neg (decide_eq_true_iff.not.mpr same)
        rw [select, if_neg same]
        exact ih archived.next (later.symm.trans named)

theorem fileNamed_eq_none : fileNamed name entries = none ↔ ∀ e ∈ entries, e.name ≠ name := by
  simp [fileNamed]

end Records

section Cat

variable {m : Mem} {rd cur file : BitVec 64} {name text : List Byte} {output : Ex22.Output}

/-- Without a selected record there is one thing to print. -/
theorem Ex22.initrdCat_none (ends : Ends (initrdCatRound m name) rd none) :
    InitrdCat m rd name output ↔ output = .noSuchFile name := by
  constructor
  · intro prints
    cases prints with
    | text selects _ => exact absurd (selects.unique ends) nofun
    | noSuchFile _ => rfl
  · rintro rfl
    exact .noSuchFile ends

/-- With a selected record it is the text at its data. -/
theorem Ex22.initrdCat_some (ends : Ends (initrdCatRound m name) rd (some (cur, file)))
    (string : m.CString file text) : InitrdCat m rd name output ↔ output = .text text := by
  constructor
  · intro prints
    cases prints with
    | text selects prints =>
        cases selects.unique ends
        rw [(text_ends_iff string).mp prints]
    | noSuchFile none => exact absurd (none.unique ends) nofun
  · rintro rfl
    exact .text ends ((text_ends_iff string).mpr rfl)

end Cat

/-- `initrd_cat` prints one thing for every name.  It says that there is no such file exactly if no
record has the name, and prints the data of the first record with the name exactly if they have no
NUL and a size that is no multiple of 4. -/
theorem initrd_cat_prints_iff {m : Mem} {base : BitVec 64} {name : List Byte}
    {entries : List Entry} {closing : Entry} (closingName : closing.name = trailerName)
    (names : ∀ e ∈ entries, e.name ≠ trailerName) (noNul : 0 ∉ name)
    (archived : Archived m base (entries ++ [closing])) :
    (∃ output, Ex22.InitrdCat m base name output) ∧
    ∀ output, Ex22.InitrdCat m base name output →
      (output = .noSuchFile name ↔ ∀ e ∈ entries, e.name ≠ name) ∧
      ((∀ e, fileNamed name entries = some e → output.bytes = e.data ++ ascii "\n") ↔
        ∀ e, fileNamed name entries = some e → 0 ∉ e.data ∧ e.filesize % 4 ≠ 0) := by
  have ends := Ex22.initrdCat_ends closingName names noNul archived
  cases named : fileNamed name entries with
  | none =>
      have missing := fileNamed_eq_none.mp named
      rw [select_eq_none.mpr missing] at ends
      refine ⟨⟨_, (Ex22.initrdCat_none ends).mpr rfl⟩, fun output prints => ?_⟩
      rw [(Ex22.initrdCat_none ends).mp prints]
      exact ⟨iff_of_true rfl missing, iff_of_true nofun nofun⟩
  | some e =>
      obtain ⟨cur, rest, selected, here, more⟩ := select_of_fileNamed archived named
      obtain ⟨text, string⟩ := here.exists_text more
      rw [selected] at ends
      refine ⟨⟨_, (Ex22.initrdCat_some ends string).mpr rfl⟩, fun output prints => ?_⟩
      rw [(Ex22.initrdCat_some ends string).mp prints]
      constructor
      · have present : ¬ ∀ e ∈ entries, e.name ≠ name := fun missing =>
          absurd (fileNamed_eq_none.mpr missing) (named ▸ nofun)
        exact iff_of_false nofun present
      · simp only [Option.some.injEq, forall_eq', Ex22.Output.bytes, List.append_left_inj]
        exact here.text_eq_data_iff more string

theorem initrd_cat_prints_prog_bin :
    (∃ output,
      Ex22.InitrdCat (twoFileDisk "osc.txt" "prog.bin") initrdBase (ascii "prog.bin") output) ∧
    ∀ output,
      Ex22.InitrdCat (twoFileDisk "osc.txt" "prog.bin") initrdBase (ascii "prog.bin") output →
      output.bytes = ascii "second\n" := by
  obtain ⟨archived, _⟩ :=
    @twoFileDisk_stored "osc.txt" "prog.bin" (by decide) (by decide) (by decide +kernel)
  obtain ⟨exists_output, all⟩ :=
    @initrd_cat_prints_iff _ _ (ascii "prog.bin") _ _ rfl (by decide) (by decide) archived
  refine ⟨exists_output, fun output prints => ?_⟩
  have second : fileNamed (ascii "prog.bin") (twoFiles "osc.txt" "prog.bin") =
      some (plainEntry "prog.bin" "second") := rfl
  apply (all output prints).2.mpr _ _ second
  intro e named
  cases second.symm.trans named
  decide

/-! ## Four bytes of data -/

/-- A file of four bytes and the closing record. -/
def fourBytes : List Entry := [plainEntry "motd" "data"] ++ [plainEntry "TRAILER!!!" ""]

/-- The header of the closing record is printed behind four bytes. -/
theorem following_header_printed :
    Archived (disk fourBytes []) initrdBase fourBytes ∧
    ¬ ∀ output, Ex22.InitrdCat (disk fourBytes []) initrdBase (ascii "motd") output →
      output.bytes = ascii "data\n" := by
  obtain ⟨archived, _⟩ := @archived_disk fourBytes [] (by decide) (by decide +kernel)
  refine ⟨archived, fun whole => ?_⟩
  have ends := @Ex22.initrdCat_ends _ _ (ascii "motd") _ _ rfl (by decide) (by decide) archived
  have string := archived.text_runs_on (by decide) (by decide)
  have printed := whole _ ((Ex22.initrdCat_some ends string).mpr rfl)
  exact absurd printed (by decide +kernel)

end OscKernel.Cpio
