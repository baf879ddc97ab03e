import OscKernel.Alloc.Bump
import OscKernel.Riscv.Stored

/-!
# The newc archive format (`ex22/README.md`)

The records of an archive and the bytes that stand for them.  A record is a header of 110
characters, the name with its NUL, and the data, both padded to a multiple of four bytes.
-/

namespace OscKernel.Cpio

open Alloc Riscv

/-- An upper-case hexadecimal digit. -/
def hexDigit (d : Nat) : Byte :=
  if d < 10 then BitVec.ofNat 8 (0x30 + d) else BitVec.ofNat 8 (0x41 + (d - 10))

/-- The `n` lowest hexadecimal digits, the highest first. -/
def digits : Nat → Nat → List Nat
  | 0, _ => []
  | n + 1, v => v / 16 ^ n % 16 :: digits n v

/-- A header field. -/
def hexField (v : Nat) : List Byte := (digits 8 v).map hexDigit

/-- A record: the fields of `struct cpio_t` but the sizes, the name and the data. -/
structure Entry where
  ino : BitVec 32
  mode : BitVec 32
  uid : BitVec 32
  gid : BitVec 32
  nlink : BitVec 32
  mtime : BitVec 32
  devmajor : BitVec 32
  devminor : BitVec 32
  rdevmajor : BitVec 32
  rdevminor : BitVec 32
  check : BitVec 32
  name : List Byte
  data : List Byte

namespace Entry

/-- `filesize` -/
def filesize (e : Entry) : Nat := e.data.length

/-- `namesize` counts the NUL. -/
def namesize (e : Entry) : Nat := e.name.length + 1

/-- Names are C strings and the sizes fit in their fields. -/
structure WellFormed (e : Entry) : Prop where
  noNul : 0 ∉ e.name
  namesize_lt : e.namesize < 2 ^ 32
  filesize_lt : e.filesize < 2 ^ 32

instance (e : Entry) : Decidable e.WellFormed :=
  decidable_of_iff (0 ∉ e.name ∧ e.namesize < 2 ^ 32 ∧ e.filesize < 2 ^ 32)
    ⟨fun holds => ⟨holds.1, holds.2.1, holds.2.2⟩,
      fun holds => ⟨holds.noNul, holds.namesize_lt, holds.filesize_lt⟩⟩

/-- The fields before `filesize`. -/
def fieldsBefore (e : Entry) : List Byte :=
  ascii "070701" ++ hexField e.ino.toNat ++ hexField e.mode.toNat ++ hexField e.uid.toNat ++
    hexField e.gid.toNat ++ hexField e.nlink.toNat ++ hexField e.mtime.toNat

/-- The fields between `filesize` and `namesize`. -/
def fieldsBetween (e : Entry) : List Byte :=
  hexField e.devmajor.toNat ++ hexField e.devminor.toNat ++ hexField e.rdevmajor.toNat ++
    hexField e.rdevminor.toNat

def header (e : Entry) : List Byte :=
  e.fieldsBefore ++ hexField e.filesize ++ e.fieldsBetween ++ hexField e.namesize ++
    hexField e.check.toNat

/-- The NUL bytes that pad `n` bytes. -/
def padding (n : Nat) : List Byte := List.replicate (roundUp 2 n - n) 0

def encode (e : Entry) : List Byte :=
  e.header ++ (e.name ++ [0]) ++ padding (110 + e.namesize) ++ e.data ++ padding e.filesize

/-- The bytes before the data. -/
def headSize (e : Entry) : Nat := roundUp 2 (110 + e.namesize)

/-- The bytes of the record. -/
def size (e : Entry) : Nat := e.headSize + roundUp 2 e.filesize

end Entry

/-- The bytes of an archive. -/
def encode (records : List Entry) : List Byte := records.flatMap Entry.encode

/-- An archive in memory. -/
structure Archived (m : Mem) (base : BitVec 64) (records : List Entry) : Prop where
  aligned : base.toNat % 4 = 0
  fits : base.toNat + (encode records).length ≤ 2 ^ 64
  stored : m.Stored base (encode records)
  wellFormed : ∀ e ∈ records, e.WellFormed

/-- What a walker reads of a record. -/
structure Recorded (m : Mem) (p : BitVec 64) (e : Entry) : Prop where
  filesize : m.Stored (p + 54) (hexField e.filesize)
  namesize : m.Stored (p + 94) (hexField e.namesize)
  name : m.CString (p + 110) e.name
  data : m.Stored (p + BitVec.ofNat 64 e.headSize) e.data

@[simp] theorem hexField_length (v : Nat) : (hexField v).length = 8 := rfl

namespace Entry

theorem fieldsBefore_length (e : Entry) : e.fieldsBefore.length = 54 := by
  have magic : (ascii "070701").length = 6 := rfl
  simp only [fieldsBefore, List.length_append, hexField_length, magic]

theorem fieldsBetween_length (e : Entry) : e.fieldsBetween.length = 32 := by
  simp only [fieldsBetween, List.length_append, hexField_length]

theorem header_length (e : Entry) : e.header.length = 110 := by
  simp only [header, List.length_append, hexField_length, fieldsBefore_length,
    fieldsBetween_length]

theorem padding_length (n : Nat) : (padding n).length = roundUp 2 n - n := List.length_replicate

theorem encode_length (e : Entry) : e.encode.length = e.size := by
  have nameEnd := le_roundUp 2 (110 + e.namesize)
  have dataEnd := le_roundUp 2 e.filesize
  simp only [encode, List.length_append, header_length, padding_length, List.length_singleton, size,
    headSize, namesize, filesize] at *
  omega

theorem size_mod (e : Entry) : e.size % 4 = 0 := by
  have head := dvd_roundUp 2 (110 + e.namesize)
  have data := dvd_roundUp 2 e.filesize
  rw [size, headSize]
  omega

theorem lt_size (e : Entry) : 110 < e.size := by
  have head := le_roundUp 2 (110 + e.namesize)
  rw [size, headSize]
  rw [namesize] at *
  omega

end Entry

theorem encode_cons (e : Entry) (rest : List Entry) :
    encode (e :: rest) = e.encode ++ encode rest :=
  List.flatMap_cons

theorem encode_length_cons (e : Entry) (rest : List Entry) :
    (encode (e :: rest)).length = e.size + (encode rest).length := by
  rw [encode_cons, List.length_append, e.encode_length]

section Archived

variable {m : Mem} {base : BitVec 64} {e : Entry} {rest : List Entry}

/-- The data of the first record, and what follows them. -/
theorem Archived.stored_data (archived : Archived m base (e :: rest)) :
    m.Stored (base + BitVec.ofNat 64 e.headSize)
      (e.data ++ (Entry.padding e.filesize ++ encode rest)) := by
  have stored := archived.stored
  have nameEnd := le_roundUp 2 (110 + e.namesize)
  have layout : encode (e :: rest) =
      (e.header ++ ((e.name ++ [0]) ++ Entry.padding (110 + e.namesize))) ++
        (e.data ++ (Entry.padding e.filesize ++ encode rest)) := by
    simp only [encode_cons, Entry.encode, List.append_assoc]
  have dataOffset : (e.header ++ ((e.name ++ [0]) ++ Entry.padding (110 + e.namesize))).length =
      e.headSize := by
    simp only [List.length_append, List.length_singleton, Entry.header_length,
      Entry.padding_length, Entry.headSize, Entry.namesize] at *
    omega
  rw [layout] at stored
  rw [← dataOffset]
  exact stored.right

/-- The first record of an archive. -/
theorem Archived.recorded (archived : Archived m base (e :: rest)) : Recorded m base e := by
  have stored := archived.stored
  have wellFormed := archived.wellFormed e (List.mem_cons_self ..)
  have layout : encode (e :: rest) =
      e.fieldsBefore ++ (hexField e.filesize ++ (e.fieldsBetween ++ (hexField e.namesize ++
        (hexField e.check.toNat ++ ((e.name ++ [0]) ++ (Entry.padding (110 + e.namesize) ++
          (e.data ++ (Entry.padding e.filesize ++ encode rest)))))))) := by
    simp only [encode_cons, Entry.encode, Entry.header, List.append_assoc]
  rw [layout] at stored
  have atFilesize := stored.right
  have atNamesize := atFilesize.right.right
  have atName := atNamesize.right.right
  simp only [Entry.fieldsBefore_length, Entry.fieldsBetween_length, hexField_length, add_ofNat_add]
    at atFilesize atNamesize atName
  exact
    { filesize := atFilesize.left
      namesize := atNamesize.left
      name := ⟨wellFormed.noNul, atName.left⟩
      data := archived.stored_data.left }

/-- What follows the first record. -/
theorem Archived.next (archived : Archived m base (e :: rest)) :
    Archived m (base + BitVec.ofNat 64 e.size) rest where
  aligned := by
    have aligned := archived.aligned
    have multiple := e.size_mod
    rw [BitVec.toNat_add, BitVec.toNat_ofNat]
    omega
  fits := by
    have fits := archived.fits
    rw [encode_length_cons] at fits
    rw [BitVec.toNat_add, BitVec.toNat_ofNat]
    omega
  stored := by
    have stored := archived.stored
    rw [encode_cons] at stored
    rw [← e.encode_length]
    exact stored.right
  wellFormed other member := archived.wellFormed other (List.mem_cons_of_mem _ member)

/-- The end of a record that is not the last. -/
theorem Archived.end_lt (archived : Archived m base (e :: rest)) (more : rest ≠ []) :
    base.toNat + e.size + 110 < 2 ^ 64 := by
  obtain ⟨following, later, rfl⟩ := List.exists_cons_of_ne_nil more
  have fits := archived.fits
  have size := following.lt_size
  rw [encode_length_cons, encode_length_cons] at fits
  omega

end Archived

/-! ## Archives in an otherwise empty memory -/

/-- A record with its name and its data only. -/
def plainEntry (name data : String) : Entry where
  ino := 0
  mode := 0
  uid := 0
  gid := 0
  nlink := 1
  mtime := 0
  devmajor := 0
  devminor := 0
  rdevmajor := 0
  rdevminor := 0
  check := 0
  name := ascii name
  data := ascii data

/-- `INITRD_BASE` of `ex41` -/
def initrdBase : BitVec 64 := 0xa0200000

/-- An archive with strings behind it. -/
def disk (records : List Entry) (strings : List Byte) : Mem :=
  Mem.image initrdBase (encode records ++ strings)

/-- The address behind an archive. -/
def diskEnd (records : List Entry) : BitVec 64 :=
  initrdBase + BitVec.ofNat 64 (encode records).length

theorem archived_disk {records : List Entry} {strings : List Byte}
    (wellFormed : ∀ e ∈ records, e.WellFormed)
    (small : (encode records ++ strings).length ≤ 2 ^ 20) :
    Archived (disk records strings) initrdBase records ∧
      (disk records strings).Stored (diskEnd records) strings := by
  have stored : (disk records strings).Stored initrdBase (encode records ++ strings) :=
    Mem.stored_image _ (Nat.le_trans small (by decide))
  have base : initrdBase.toNat = 0xa0200000 := rfl
  rw [List.length_append] at small
  exact
    ⟨{ aligned := rfl
       fits := by omega
       stored := stored.left
       wellFormed := wellFormed }, stored.right⟩

end OscKernel.Cpio
