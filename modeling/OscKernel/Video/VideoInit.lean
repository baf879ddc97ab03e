import OscKernel.Loops.Iterate
import OscKernel.Video.Display
import OscKernel.Video.FwCfg

/-!
# The configuration of ramfb (`ex52/video.c`, `ex52/utils.c`)

`fw_cfg_find_file` reads the file directory entry by entry, and `video_init` writes the
configuration to the item that it returns.
-/

namespace OscKernel.Video

open Riscv Loops Fdt

/-- `*(uint16_t*)a` -/
def load16 (m : Mem) (a : BitVec 64) : BitVec 16 := m (a + 1) ++ m a

def bswap16 (x : BitVec 16) : BitVec 16 := x.extractLsb' 0 8 ++ x.extractLsb' 8 8

/-- The bytes of a big-endian halfword. -/
def half (v : BitVec 16) : List Byte := [v.extractLsb' 8 8, v.extractLsb' 0 8]

/-- `strncmp` of the string with the given characters and the one at an address. -/
def strncmp (m : Mem) : List Byte → BitVec 64 → Nat → Int
  | _, _, 0 => 0
  | [], a, _ + 1 => -((m a).toNat : Int)
  | c :: rest, a, n + 1 =>
      if c = m a then strncmp m rest (a + 1) n else (c.toNat : Int) - (m a).toNat

/-- `struct FWCfgFile`, as the device provides it. -/
structure FwCfgFile where
  size : BitVec 32
  select : BitVec 16
  reserved : BitVec 16
  name : List Byte
  name_length : name.length = 56

namespace FwCfgFile

def encode (file : FwCfgFile) : List Byte :=
  word file.size ++ half file.select ++ half file.reserved ++ file.name

/-- The characters of the name are the given ones. -/
def named (text : List Byte) (file : FwCfgFile) : Bool := file.name.takeWhile (· ≠ 0) = text

end FwCfgFile

/-- `struct FWCfgFiles`, with a number of files that fits in its field. -/
structure FwCfgFiles where
  files : List FwCfgFile
  count_lt : files.length < 2 ^ 32

def FwCfgFiles.encode (dir : FwCfgFiles) : List Byte :=
  word (BitVec.ofNat 32 dir.files.length) ++ dir.files.flatMap FwCfgFile.encode

/-- The addresses of the local variables.  Variables that live at the same time do not overlap. -/
structure Locals where
  cfg : BitVec 64
  count : BitVec 64
  file : BitVec 64
  /-- `access` of the transfer under `fw_cfg_read_entry` -/
  readAccess : BitVec 64
  /-- `access` of the transfers under `fw_cfg_find_file` -/
  fileAccess : BitVec 64
  /-- `access` of the transfer under `fw_cfg_write_entry` -/
  writeAccess : BitVec 64
  readAccess_count : Disjoint (bytesAt readAccess 16) (bytesAt count 4)
  fileAccess_file : Disjoint (bytesAt fileAccess 16) (bytesAt file 64)
  cfg_count : Disjoint (bytesAt cfg 28) (bytesAt count 4)
  cfg_file : Disjoint (bytesAt cfg 28) (bytesAt file 64)
  cfg_readAccess : Disjoint (bytesAt cfg 28) (bytesAt readAccess 16)
  cfg_fileAccess : Disjoint (bytesAt cfg 28) (bytesAt fileAccess 16)
  cfg_writeAccess : Disjoint (bytesAt cfg 28) (bytesAt writeAccess 16)

/-- `FW_CFG_FILE_DIR` -/
def fileDir : BitVec 32 := 0x19

/-- `etc/ramfb` -/
def ramfbName : List Byte := ascii "etc/ramfb"

/-- `XRGB8888` -/
def xrgb8888 : BitVec 32 := 875713112

/-- `FB_BPP` -/
def fbBpp : BitVec 32 := 4

section Program

variable {device : FwCfgDevice}

/-- A round of `fw_cfg_find_file`; `none` if a wait does not end.  The counter, an `int`, is
converted for the comparison. -/
def findRound (locals : Locals) (name : List Byte) (count : BitVec 32) :
    BitVec 32 × World device →
      Round (BitVec 32 × World device) (Option (BitVec 32 × World device))
  | (i, w) =>
      if i < count then
        match fwCfgDmaTransfer locals.fileAccess locals.file 64 ctlRead w with
        | none => .stop none
        | some w =>
            if strncmp w.mem name (locals.file + 8) 56 = 0 then
              .stop (some ((bswap16 (load16 w.mem (locals.file + 4))).setWidth 32, w))
            else .next (i + 1, w)
      else .stop (some (-1, w))

def fwCfgFindFile (fuel : Nat) (locals : Locals) (name : List Byte) (w : World device) :
    Option (BitVec 32 × World device) := do
  let w ← fwCfgReadEntry locals.readAccess locals.count fileDir 4
    { w with mem := w.mem.write locals.count (le32 0) }
  let count := bswap32 (load32 w.mem locals.count)
  (iterate (findRound locals name count) fuel (0, w)).join

def videoInit (fuel : Nat) (locals : Locals) (w : World device) : Option (World device) := do
  let cfg := le64 (bswap64 fbBase) ++ le32 (bswap32 xrgb8888) ++ le32 (bswap32 0) ++
    le32 (bswap32 fbWidth) ++ le32 (bswap32 fbHeight) ++ le32 (bswap32 (fbWidth * fbBpp))
  let (e, w) ← fwCfgFindFile fuel locals ramfbName { w with mem := w.mem.write locals.cfg cfg }
  fwCfgWriteEntry locals.writeAccess locals.cfg e 28 w

end Program

/-- The configuration, all of its fields big-endian. -/
def ramfbConfig : List Byte :=
  quad 0x87000000 ++ word 875713112 ++ word 0 ++ word 1920 ++ word 1080 ++ word 7680

/-- The transfers with `WRITE`. -/
def writes (log : List Dma) : List Dma := log.filter Dma.isWrite

/-- Exactly one transfer writes, and it writes the configuration to the item. -/
def WritesConfig (log : List Dma) (select : BitVec 16) : Prop :=
  ∃ transfer, writes log = [transfer] ∧ transfer.selector = some select ∧
    transfer.data = ramfbConfig

/-- The configuration goes to the first file with the name, and nothing is written without one. -/
def Configures (files : List FwCfgFile) (log : List Dma) : Prop :=
  match files.find? (FwCfgFile.named ramfbName) with
  | some file => WritesConfig log file.select
  | none => writes log = []

/-! ## Names and files -/

section Files

variable {m : Mem} {a : BitVec 64} {text name : List Byte} {files : List FwCfgFile} {k : Nat}

theorem bswap16_load16 {v : BitVec 16} (stored : m.Stored a (half v)) :
    bswap16 (load16 m a) = v := by
  simp only [half, Mem.stored_cons, Mem.stored_nil, and_true] at stored
  rw [load16, stored.1, stored.2]
  apply BitVec.eq_of_getLsbD_eq
  intro i inside
  simp only [bswap16, BitVec.getLsbD_append, BitVec.getLsbD_extractLsb']
  grind

/-- `strncmp` is 0 for the same name only. -/
theorem strncmp_eq_zero (stored : m.Stored a name) (noNul : 0 ∉ text)
    (short : text.length < name.length) :
    strncmp m text a name.length = 0 ↔ name.takeWhile (· ≠ 0) = text := by
  induction text generalizing a name with
  | nil =>
      obtain ⟨c, name, rfl⟩ := List.exists_cons_of_length_pos short
      rw [List.length_cons, strncmp, (Mem.stored_cons.mp stored).1]
      by_cases zero : c = 0
      · rw [List.takeWhile_cons_of_neg (by simpa using zero), zero]
        exact ⟨fun _ => rfl, fun _ => rfl⟩
      · rw [List.takeWhile_cons_of_pos (by simpa using zero)]
        have value : c.toNat ≠ 0 := Mem.toNat_ne zero
        constructor
        · omega
        · nofun
  | cons d text ih =>
      obtain ⟨different, laterText⟩ := List.ne_and_not_mem_of_not_mem_cons noNul
      obtain ⟨c, name, rfl⟩ := List.exists_cons_of_length_pos (Nat.zero_lt_of_lt short)
      obtain ⟨first, later⟩ := Mem.stored_cons.mp stored
      rw [List.length_cons, strncmp, first]
      by_cases same : d = c
      · rw [if_pos same, ih later laterText (Nat.lt_of_succ_lt_succ short), ← same,
          List.takeWhile_cons_of_pos (by simpa using different.symm), List.cons.injEq,
          and_iff_right rfl]
      · rw [if_neg same]
        have value := Mem.toNat_ne same
        constructor
        · omega
        · intro taken
          by_cases zero : c = 0
          · rw [List.takeWhile_cons_of_neg (by simpa using zero)] at taken
            cases taken
          · rw [List.takeWhile_cons_of_pos (by simpa using zero)] at taken
            exact absurd (List.cons.inj taken).1.symm same

theorem FwCfgFile.encode_length (file : FwCfgFile) : file.encode.length = 64 := by
  have selectLength : (half file.select).length = 2 := rfl
  have reservedLength : (half file.reserved).length = 2 := rfl
  simp only [encode, List.length_append, word_length, file.name_length, selectLength,
    reservedLength]

/-- The entries from one on. -/
theorem flatMap_drop (files : List FwCfgFile) (k : Nat) :
    (files.flatMap FwCfgFile.encode).drop (64 * k) =
      (files.drop k).flatMap FwCfgFile.encode := by
  induction files generalizing k with
  | nil => simp
  | cons file files ih =>
      cases k with
      | zero => rfl
      | succ k =>
          rw [List.flatMap_cons, Nat.mul_succ, Nat.add_comm, ← List.drop_drop,
            List.drop_left' file.encode_length, ih, List.drop_succ_cons]

theorem flatMap_length (files : List FwCfgFile) :
    (files.flatMap FwCfgFile.encode).length = 64 * files.length := by
  induction files with
  | nil => rfl
  | cons file files ih =>
      rw [List.flatMap_cons, List.length_append, file.encode_length, ih, List.length_cons]
      omega

/-- The entry at the read position. -/
theorem FwCfgFiles.entry_at (dir : FwCfgFiles) (rest : List Byte) (inside : k < dir.files.length) :
    ((dir.encode ++ rest).drop (4 + 64 * k)).take 64 = dir.files[k].encode := by
  have behind : 64 * k ≤ (dir.files.flatMap FwCfgFile.encode).length := by
    rw [flatMap_length]
    omega
  rw [encode, List.append_assoc, ← List.drop_drop, List.drop_left' (word_length _),
    List.drop_append_of_le_length behind, flatMap_drop, List.drop_eq_getElem_cons inside,
    List.flatMap_cons, List.append_assoc, List.take_left' (FwCfgFile.encode_length _)]

end Files

/-! ## Transfers of the driver -/

section Control

variable {e b mask : BitVec 32}

/-- The item of a control word is beside its flags. -/
theorem shift_or_and (small : mask.toNat < 2 ^ 16) : (e <<< 16 ||| b) &&& mask = b &&& mask := by
  apply BitVec.eq_of_getLsbD_eq
  intro i inside
  rw [BitVec.getLsbD_and, BitVec.getLsbD_and, BitVec.getLsbD_or, BitVec.getLsbD_shiftLeft]
  by_cases low : i < 16
  · simp [low]
  · have high : mask.getLsbD i = false :=
      Nat.testBit_lt_two_pow (Nat.lt_of_lt_of_le small (Nat.pow_le_pow_right (by decide)
        (Nat.le_of_not_lt low)))
    rw [high, Bool.and_false, Bool.and_false]

theorem shift_or_high (small : b.toNat < 2 ^ 16) :
    ((e <<< 16 ||| b) >>> 16).setWidth 16 = e.setWidth 16 := by
  apply BitVec.eq_of_getLsbD_eq
  intro i inside
  have high : b.getLsbD (16 + i) = false :=
    Nat.testBit_lt_two_pow (Nat.lt_of_lt_of_le small (Nat.pow_le_pow_right (by decide)
      (Nat.le_add_right 16 i)))
  rw [BitVec.getLsbD_setWidth, BitVec.getLsbD_setWidth, BitVec.getLsbD_ushiftRight,
    BitVec.getLsbD_or, high, BitVec.getLsbD_shiftLeft, Bool.or_false]
  have back : 16 + i - 16 = i := Nat.add_sub_cancel_left 16 i
  have bound : 16 + i < 32 := by omega
  simp [inside, back, bound]

/-- A transfer under `fw_cfg_write_entry`. -/
theorem write_entry_writes (e length : BitVec 32) (address : BitVec 64) (data : List Byte) :
    Dma.isWrite ⟨⟨e <<< 16 ||| ctlSelect ||| ctlWrite, length, address⟩, data⟩ = true ∧
      Dma.selector ⟨⟨e <<< 16 ||| ctlSelect ||| ctlWrite, length, address⟩, data⟩ =
        some (e.setWidth 16) := by
  have flags : e <<< 16 ||| ctlSelect ||| ctlWrite = e <<< 16 ||| (ctlSelect ||| ctlWrite) :=
    BitVec.or_assoc ..
  constructor
  · rw [Dma.isWrite, flags, shift_or_and (by decide), shift_or_and (by decide)]
    decide
  · rw [Dma.selector, flags, shift_or_and (by decide), if_neg (by decide),
      shift_or_high (by decide)]

end Control

section Search

variable {device : FwCfgDevice} {locals : Locals} {dir : FwCfgFiles} {rest : List Byte}
variable {name : List Byte} {w w' : World device} {fw : FwCfg} {k : Nat}

/-- The configuration is in memory, and nothing has been written. -/
structure Prepared (locals : Locals) (w : World device) : Prop where
  config : w.mem.Stored locals.cfg ramfbConfig
  noWrites : writes w.log = []

/-- Transfers beside the configuration that do not write. -/
theorem Prepared.transferred {access address : BitVec 64} {length control : BitVec 32}
    (prepared : Prepared locals w) (transferred : Transferred access address length control w w')
    (apart : Disjoint (bytesAt locals.cfg 28) (bytesAt access 16))
    (apartBuffer : Disjoint (bytesAt locals.cfg 28) (bytesAt address length.toNat))
    (notWrite : control &&& ctlRead ≠ 0) : Prepared locals w' := by
  constructor
  · exact transferred.stored prepared.config apart apartBuffer
  · obtain ⟨data, log⟩ := transferred.log
    have isRead : Dma.isWrite ⟨⟨control, length, address⟩, data⟩ = false := by
      rw [Dma.isWrite, decide_eq_false_iff_not]
      exact fun both => notWrite both.1
    rw [writes, log, List.filter_append, ← writes, prepared.noWrites, List.nil_append,
      List.filter_cons_of_neg (by rw [isRead]; nofun), List.filter_nil]

/-- The first `k` files have other names, and the device is behind them. -/
structure Finding (locals : Locals) (dir : FwCfgFiles) (rest name : List Byte)
    (w : World device) (k : Nat) : Prop where
  prepared : Prepared locals w
  item : (device.view w.state).items (device.view w.state).selected = dir.encode ++ rest
  offset : (device.view w.state).offset = 4 + 64 * k
  passed : ∀ j (inside : j < dir.files.length), j < k → dir.files[j].named name = false

/-- The next entry is read. -/
theorem Finding.read (finding : Finding locals dir rest name w k)
    (inside : k < dir.files.length) :
    ∃ w', fwCfgDmaTransfer locals.fileAccess locals.file 64 ctlRead w = some w' ∧
      Prepared locals w' ∧ w'.mem.Stored locals.file dir.files[k].encode ∧
      device.view w'.state = (device.view w.state).advance 64 := by
  have noSelect : (device.view w.state).select ctlRead = device.view w.state := if_pos (by decide)
  have entry : (device.view w.state).next 64 = dir.files[k].encode := by
    rw [FwCfg.next, finding.item, finding.offset, dir.entry_at rest inside]
  have size : (64 : BitVec 32).toNat = 64 := rfl
  obtain ⟨w', done, transferred, view, stored⟩ := fwCfgDmaTransfer_read w 64
    (show ctlRead &&& ctlRead ≠ 0 by decide) locals.fileAccess_file (by
      rw [noSelect, size, entry, FwCfgFile.encode_length])
  rw [noSelect, size] at view stored
  rw [entry] at stored
  exact ⟨w', done, finding.prepared.transferred transferred locals.cfg_fileAccess locals.cfg_file
    (by decide), stored, view⟩

/-- What `fw_cfg_find_file` returns. -/
def findResult (files : List FwCfgFile) (name : List Byte) : BitVec 32 :=
  match files.find? (FwCfgFile.named name) with
  | some file => file.select.setWidth 32
  | none => -1

theorem Finding.found (finding : Finding locals dir rest name w k)
    (inside : k < dir.files.length) (named : dir.files[k].named name = true) :
    findResult dir.files name = dir.files[k].select.setWidth 32 := by
  have first : dir.files.find? (FwCfgFile.named name) = some dir.files[k] := by
    rw [List.find?_eq_some_iff_getElem]
    refine ⟨named, k, inside, rfl, ?_⟩
    intro j before
    rw [finding.passed j (before.trans inside) before]
    rfl
  rw [findResult, first]

theorem Finding.missing (finding : Finding locals dir rest name w dir.files.length) :
    findResult dir.files name = -1 := by
  have none : dir.files.find? (FwCfgFile.named name) = none := by
    rw [List.find?_eq_none]
    intro file member
    obtain ⟨j, inside, rfl⟩ := List.getElem_of_mem member
    rw [finding.passed j inside inside]
    nofun
  rw [findResult, none]

theorem counter_lt_iff (dir : FwCfgFiles) (atMost : k ≤ dir.files.length) :
    BitVec.ofNat 32 k < BitVec.ofNat 32 dir.files.length ↔ k < dir.files.length := by
  have count := dir.count_lt
  rw [BitVec.lt_def, BitVec.toNat_ofNat, BitVec.toNat_ofNat, Nat.mod_eq_of_lt count,
    Nat.mod_eq_of_lt (by omega)]

/-- A round finds a file with the name or goes behind one without it. -/
theorem Finding.round (finding : Finding locals dir rest name w k) (noNul : 0 ∉ name)
    (short : name.length < 56) (inside : k < dir.files.length) :
    (∃ w', findRound locals name (BitVec.ofNat 32 dir.files.length) (BitVec.ofNat 32 k, w) =
        .stop (some (findResult dir.files name, w')) ∧ Prepared locals w') ∨
      ∃ w', findRound locals name (BitVec.ofNat 32 dir.files.length) (BitVec.ofNat 32 k, w) =
        .next (BitVec.ofNat 32 (k + 1), w') ∧ Finding locals dir rest name w' (k + 1) := by
  obtain ⟨w', done, prepared, stored, view⟩ := finding.read inside
  have goes := (counter_lt_iff dir (Nat.le_of_lt inside)).mpr inside
  have select : bswap16 (load16 w'.mem (locals.file + 4)) = dir.files[k].select :=
    bswap16_load16 stored.left.left.right
  have atName : w'.mem.Stored (locals.file + 8) dir.files[k].name := stored.right
  have length := dir.files[k].name_length
  have compared := strncmp_eq_zero atName noNul (by omega)
  rw [length] at compared
  rw [findRound, if_pos goes, done]
  dsimp only
  by_cases named : dir.files[k].named name = true
  · left
    have same := compared.mpr (of_decide_eq_true named)
    rw [if_pos same, select, finding.found inside named]
    exact ⟨w', rfl, prepared⟩
  · right
    have different : ¬ strncmp w'.mem name (locals.file + 8) 56 = 0 := fun same =>
      named (decide_eq_true (compared.mp same))
    rw [if_neg different]
    refine ⟨w', by rw [BitVec.ofNat_add]; rfl, prepared, ?_, ?_, ?_⟩
    · rw [view]
      exact finding.item
    · rw [view]
      show (device.view w.state).offset + 64 = 4 + 64 * (k + 1)
      rw [finding.offset]
      omega
    · intro j below before
      rcases Nat.lt_succ_iff_lt_or_eq.mp before with earlier | rfl
      · exact finding.passed j below earlier
      · exact Bool.eq_false_iff.mpr named

/-- Where the loop of `fw_cfg_find_file` is. -/
def Searching (locals : Locals) (dir : FwCfgFiles) (rest name : List Byte)
    (state : BitVec 32 × World device) : Prop :=
  ∃ k ≤ dir.files.length, state.1 = BitVec.ofNat 32 k ∧ Finding locals dir rest name state.2 k

/-- The loop ends with the first file with the name or with -1. -/
theorem Finding.loop (finding : Finding locals dir rest name w 0) (noNul : 0 ∉ name)
    (short : name.length < 56) :
    ∃ w', Prepared locals w' ∧ ∀ fuel, dir.files.length < fuel →
      iterate (findRound locals name (BitVec.ofNat 32 dir.files.length)) fuel (0, w) =
        some (some (findResult dir.files name, w')) := by
  have start : Searching locals dir rest name ((0, w) : BitVec 32 × World device) :=
    ⟨0, Nat.zero_le _, rfl, finding⟩
  have step : ∀ state : BitVec 32 × World device, Searching locals dir rest name state →
      (∃ result, findRound locals name (BitVec.ofNat 32 dir.files.length) state = .stop result ∧
        ∃ w', result = some (findResult dir.files name, w') ∧ Prepared locals w') ∨
      ∃ next, findRound locals name (BitVec.ofNat 32 dir.files.length) state = .next next ∧
        Searching locals dir rest name next ∧
        dir.files.length - next.1.toNat < dir.files.length - state.1.toNat := by
    rintro ⟨i, w⟩ ⟨k, atMost, counter, finding⟩
    dsimp only at counter finding
    rw [counter]
    have count := dir.count_lt
    by_cases inside : k < dir.files.length
    · rcases finding.round noNul short inside with ⟨w', stops, prepared⟩ | ⟨w', goes, next⟩
      · exact .inl ⟨_, stops, w', rfl, prepared⟩
      · refine .inr ⟨_, goes, ⟨k + 1, inside, rfl, next⟩, ?_⟩
        dsimp only
        rw [BitVec.toNat_ofNat, BitVec.toNat_ofNat]
        omega
    · obtain rfl : k = dir.files.length := by omega
      have stops : ¬ BitVec.ofNat 32 dir.files.length < BitVec.ofNat 32 dir.files.length :=
        fun below => inside ((counter_lt_iff dir atMost).mp below)
      left
      rw [findRound, if_neg stops, finding.missing]
      exact ⟨_, rfl, w, rfl, finding.prepared⟩
  obtain ⟨result, ended, w', rfl, prepared⟩ := iterate_of_invariant _ _ step start
  refine ⟨w', prepared, ?_⟩
  intro fuel enough
  exact ended fuel (show dir.files.length - 0 < fuel from enough)

/-- `fw_cfg_find_file` returns and has written nothing. -/
theorem fwCfgFindFile_eq (name : List Byte) (prepared : Prepared locals w) (noNul : 0 ∉ name)
    (short : name.length < 56)
    (directory : (device.view w.state).items 0x19 = dir.encode ++ rest) :
    ∃ w', Prepared locals w' ∧ ∀ fuel, dir.files.length < fuel →
      fwCfgFindFile fuel locals name w = some (findResult dir.files name, w') := by
  let cleared : World device := { w with mem := w.mem.write locals.count (le32 0) }
  have kept : Prepared locals cleared := by
    refine ⟨?_, prepared.noWrites⟩
    apply prepared.config.congr
    intro i inside
    exact Mem.write_outside (Nat.le_of_not_lt
      (Set.disjoint_left.mp locals.cfg_count (offset_mem_bytesAt inside)))
  have selected : (device.view cleared.state).select (fileDir <<< 16 ||| ctlSelect ||| ctlRead) =
      { device.view w.state with selected := 0x19, offset := 0 } := if_neg (by decide)
  have size : (4 : BitVec 32).toNat = 4 := rfl
  have next : ({ device.view w.state with selected := 0x19, offset := 0 } : FwCfg).next 4 =
      word (BitVec.ofNat 32 dir.files.length) := by
    rw [FwCfg.next, directory, FwCfgFiles.encode, List.append_assoc]
    exact List.take_left' (word_length _)
  obtain ⟨w', done, transferred, view, stored⟩ := fwCfgDmaTransfer_read cleared 4
    (show (fileDir <<< 16 ||| ctlSelect ||| ctlRead) &&& ctlRead ≠ 0 by decide)
    locals.readAccess_count (by rw [selected, size, next, word_length])
  rw [selected, size] at view stored
  rw [next] at stored
  have finding : Finding locals dir rest name w' 0 := by
    refine ⟨kept.transferred transferred locals.cfg_readAccess locals.cfg_count (by decide),
      ?_, ?_, ?_⟩
    · rw [view]
      exact directory
    · rw [view]
      rfl
    · intro j _ before
      exact absurd before (Nat.not_lt_zero j)
  obtain ⟨last, stays, loop⟩ := finding.loop noNul short
  refine ⟨last, stays, ?_⟩
  intro fuel enough
  rw [fwCfgFindFile, fwCfgReadEntry, done]
  dsimp only [Option.bind_eq_bind, Option.bind_some]
  rw [bswap32_load32 stored, loop fuel enough]
  rfl

/-- `video_init` writes the configuration to the item that `fw_cfg_find_file` returns, whatever
that is. -/
theorem videoInit_writes (locals : Locals) (m : Mem) (s : device.State)
    (directory : (device.view s).items 0x19 = dir.encode ++ rest) :
    ∃ w', (∀ fuel, dir.files.length < fuel → videoInit fuel locals ⟨m, s, []⟩ = some w') ∧
      WritesConfig w'.log ((findResult dir.files ramfbName).setWidth 16) := by
  have config : le64 (bswap64 fbBase) ++ le32 (bswap32 xrgb8888) ++ le32 (bswap32 0) ++
      le32 (bswap32 fbWidth) ++ le32 (bswap32 fbHeight) ++ le32 (bswap32 (fbWidth * fbBpp)) =
        ramfbConfig := by
    simp only [le64_bswap64, le32_bswap32]
    rfl
  have prepared : Prepared locals
      (⟨m.write locals.cfg ramfbConfig, s, []⟩ : World device) := by
    constructor
    · exact Mem.stored_write m locals.cfg (by decide)
    · rfl
  obtain ⟨w, found, returns⟩ := fwCfgFindFile_eq ramfbName prepared (by decide)
    (by decide) directory
  obtain ⟨w', done, log⟩ := fwCfgDmaTransfer_data 28
    (findResult dir.files ramfbName <<< 16 ||| ctlSelect ||| ctlWrite) found.config rfl
    locals.cfg_writeAccess.symm
  refine ⟨w', ?_, ?_⟩
  · intro fuel enough
    rw [videoInit, config, returns fuel enough]
    exact done
  · obtain ⟨isWrite, selector⟩ :=
      write_entry_writes (findResult dir.files ramfbName) 28 locals.cfg ramfbConfig
    refine ⟨_, ?_, selector, rfl⟩
    rw [writes, log, List.filter_append, ← writes, found.noWrites, List.nil_append,
      List.filter_cons_of_pos isWrite, List.filter_nil]

end Search

/-- `video_init` configures ramfb if the directory has a file of its name. -/
theorem video_init_configures_iff (device : FwCfgDevice) (locals : Locals) (m : Mem)
    (s : device.State) (dir : FwCfgFiles) (directory : dir.encode <+: (device.view s).items 0x19) :
    (∃ enough, ∀ fuel, enough ≤ fuel → ∃ w, videoInit fuel locals ⟨m, s, []⟩ = some w ∧
      Configures dir.files w.log) ↔ ∃ file ∈ dir.files, file.named ramfbName = true := by
  obtain ⟨rest, directory⟩ := directory
  obtain ⟨w', done, written⟩ := videoInit_writes locals m s directory.symm
  rw [← List.find?_isSome]
  constructor
  · rintro ⟨enough, configures⟩
    obtain ⟨w, returns, configured⟩ := configures (enough + dir.files.length + 1) (by omega)
    rw [done _ (by omega)] at returns
    cases returns
    rw [Configures] at configured
    split at configured
    · rename_i file found
      rw [found]
      rfl
    · obtain ⟨transfer, writes, -⟩ := written
      rw [configured] at writes
      cases writes
  · intro some
    obtain ⟨file, found⟩ := Option.isSome_iff_exists.mp some
    refine ⟨dir.files.length + 1, fun fuel enough => ⟨w', done fuel enough, ?_⟩⟩
    have back : (file.select.setWidth 32).setWidth 16 = file.select := by simp
    rw [findResult, found] at written
    dsimp only at written
    rw [back] at written
    rw [Configures, found]
    exact written

/-- The local variables on a stack below `_end`. -/
def stackLocals : Locals where
  cfg := 0x8020bfc0
  count := 0x8020bf00
  file := 0x8020be00
  readAccess := 0x8020bd00
  fileAccess := 0x8020bd80
  writeAccess := 0x8020bf80
  readAccess_count := disjoint_bytesAt_ofNat (b := 0x8020bd00) (c := 0x8020bf00) (by decide)
    (by decide)
  fileAccess_file := disjoint_bytesAt_ofNat (b := 0x8020bd80) (c := 0x8020be00) (by decide)
    (by decide)
  cfg_count := (disjoint_bytesAt_ofNat (b := 0x8020bf00) (c := 0x8020bfc0) (by decide)
    (by decide)).symm
  cfg_file := (disjoint_bytesAt_ofNat (b := 0x8020be00) (c := 0x8020bfc0) (by decide)
    (by decide)).symm
  cfg_readAccess := (disjoint_bytesAt_ofNat (b := 0x8020bd00) (c := 0x8020bfc0) (by decide)
    (by decide)).symm
  cfg_fileAccess := (disjoint_bytesAt_ofNat (b := 0x8020bd80) (c := 0x8020bfc0) (by decide)
    (by decide)).symm
  cfg_writeAccess := (disjoint_bytesAt_ofNat (b := 0x8020bf80) (c := 0x8020bfc0) (by decide)
    (by decide)).symm

def bootFailWait : FwCfgFile where
  size := 4
  select := 0x22
  reserved := 0
  name := ascii "etc/boot-fail-wait" ++ List.replicate 38 0
  name_length := by decide

def etcRamfb : FwCfgFile where
  size := 28
  select := 0x25
  reserved := 0
  name := ascii "etc/ramfb" ++ List.replicate 47 0
  name_length := by decide

/-- A device with a directory and nothing else. -/
def directoryOnly (dir : FwCfgFiles) : FwCfg where
  items key := if key = 0x19 then dir.encode else []
  selected := 0
  offset := 0

/-- A directory with `etc/ramfb` behind another file. -/
theorem video_init_configures_ramfb :
    ∃ enough, ∀ fuel, enough ≤ fuel → ∃ w : World qemu,
      videoInit fuel stackLocals ⟨fun _ => 0, directoryOnly ⟨[bootFailWait, etcRamfb], by decide⟩,
        []⟩ = some w ∧ Configures [bootFailWait, etcRamfb] w.log :=
  (video_init_configures_iff qemu stackLocals (fun _ => 0)
    (directoryOnly ⟨[bootFailWait, etcRamfb], by decide⟩) ⟨[bootFailWait, etcRamfb], by decide⟩
      (List.prefix_refl _)).mpr ⟨etcRamfb, by simp, by decide⟩

/-- Without `etc/ramfb` the configuration is written to the item `0xffff`. -/
theorem video_init_without_ramfb :
    (¬ ∃ file ∈ [bootFailWait], file.named ramfbName = true) ∧
      ∃ w : World qemu, videoInit 2 stackLocals
        ⟨fun _ => 0, directoryOnly ⟨[bootFailWait], by decide⟩, []⟩ = some w ∧
          WritesConfig w.log 0xffff := by
  refine ⟨by decide, ?_⟩
  have directory : (qemu.view (directoryOnly ⟨[bootFailWait], by decide⟩)).items 0x19 =
      FwCfgFiles.encode ⟨[bootFailWait], by decide⟩ ++ [] := (List.append_nil _).symm
  obtain ⟨w, done, written⟩ := videoInit_writes stackLocals (fun _ => 0) _ directory
  exact ⟨w, done 2 (by decide), written⟩

end OscKernel.Video
