import OscKernel.Alloc.Bump
import OscKernel.Riscv.Stored

/-!
# Flattened device trees (`ex21/README.md`)

The structure block of a device tree as a tree, and the bytes that stand for it.  Words are
big-endian, and names and values are padded to a multiple of four bytes.
-/

namespace OscKernel.Fdt

open Alloc Riscv

/-- `*(uint32_t*)a` -/
def load32 (m : Mem) (a : BitVec 64) : BitVec 32 := m (a + 3) ++ m (a + 2) ++ m (a + 1) ++ m a

def bswap32 (x : BitVec 32) : BitVec 32 :=
  x.extractLsb' 0 8 ++ x.extractLsb' 8 8 ++ x.extractLsb' 16 8 ++ x.extractLsb' 24 8

/-- `*(uint64_t*)a` -/
def load64 (m : Mem) (a : BitVec 64) : BitVec 64 :=
  m (a + 7) ++ m (a + 6) ++ m (a + 5) ++ m (a + 4) ++ m (a + 3) ++ m (a + 2) ++ m (a + 1) ++ m a

def bswap64 (x : BitVec 64) : BitVec 64 :=
  x.extractLsb' 0 8 ++ x.extractLsb' 8 8 ++ x.extractLsb' 16 8 ++ x.extractLsb' 24 8 ++
    x.extractLsb' 32 8 ++ x.extractLsb' 40 8 ++ x.extractLsb' 48 8 ++ x.extractLsb' 56 8

/-- The bytes of a big-endian word. -/
def word (v : BitVec 32) : List Byte :=
  [v.extractLsb' 24 8, v.extractLsb' 16 8, v.extractLsb' 8 8, v.extractLsb' 0 8]

/-! ## Tokens -/

def fdtBeginNode : BitVec 32 := 1

def fdtEndNode : BitVec 32 := 2

def fdtProp : BitVec 32 := 3

def fdtNop : BitVec 32 := 4

def fdtEnd : BitVec 32 := 9

/-- What stands between the tokens of a node, in the order of the block. -/
inductive Items where
  | nil
  | nop (rest : Items)
  | prop (nameoff : BitVec 32) (value : List Byte) (rest : Items)
  | node (name : List Byte) (body rest : Items)
  deriving DecidableEq

/-- The NUL bytes that pad `n` bytes. -/
def padding (n : Nat) : List Byte := List.replicate (roundUp 2 n - n) 0

/-- `FDT_BEGIN_NODE` with the name. -/
def beginToken (name : List Byte) : List Byte :=
  word fdtBeginNode ++ (name ++ [0]) ++ padding (name.length + 1)

/-- `FDT_PROP` with the length, the offset of the name and the value. -/
def propToken (nameoff : BitVec 32) (value : List Byte) : List Byte :=
  word fdtProp ++ word (BitVec.ofNat 32 value.length) ++ word nameoff ++ value ++
    padding value.length

namespace Items

def encode : Items → List Byte
  | nil => []
  | nop rest => word fdtNop ++ rest.encode
  | prop nameoff value rest => propToken nameoff value ++ rest.encode
  | node name body rest => beginToken name ++ body.encode ++ word fdtEndNode ++ rest.encode

/-- Names are C strings. -/
def Named : Items → Prop
  | nil => True
  | nop rest => rest.Named
  | prop _ _ rest => rest.Named
  | node name body rest => 0 ∉ name ∧ body.Named ∧ rest.Named

instance decidableNamed : (items : Items) → Decidable items.Named
  | nil => isTrue trivial
  | nop rest => rest.decidableNamed
  | prop _ _ rest => rest.decidableNamed
  | node name body rest =>
      have := body.decidableNamed
      have := rest.decidableNamed
      inferInstanceAs (Decidable (0 ∉ name ∧ body.Named ∧ rest.Named))

/-- A number of `FDT_NOP`. -/
def nops : Nat → Items → Items
  | 0, rest => rest
  | n + 1, rest => nop (nops n rest)

end Items

/-- A device tree: what is in the root node, with `FDT_NOP` before and behind it. -/
structure Tree where
  before : Nat
  body : Items
  after : Nat

namespace Tree

/-- The root node has no name. -/
def items (tree : Tree) : Items := .nops tree.before (.node [] tree.body (.nops tree.after .nil))

/-- The structure block. -/
def encode (tree : Tree) : List Byte := tree.items.encode ++ word fdtEnd

end Tree

/-- Bytes of the blob at an offset where a token may start. -/
structure Placed (m : Mem) (fdt : BitVec 64) (off : Nat) (bytes : List Byte) : Prop where
  base : fdt.toNat % 4 = 0
  aligned : off % 4 = 0
  fits : fdt.toNat + off + bytes.length < 2 ^ 64
  small : off + bytes.length < 2 ^ 32
  stored : m.Stored (fdt + BitVec.ofNat 64 off) bytes

/-- `off_dt_struct` -/
def offDtStruct (m : Mem) (fdt : BitVec 64) : BitVec 32 := bswap32 (load32 m (fdt + 8))

/-- `off_dt_strings` -/
def offDtStrings (m : Mem) (fdt : BitVec 64) : BitVec 32 := bswap32 (load32 m (fdt + 12))

/-- A blob below 2 GiB with the tree in its structure block. -/
structure Blob (m : Mem) (fdt : BitVec 64) (tree : Tree) : Prop where
  placed : Placed m fdt (offDtStruct m fdt).toNat tree.encode
  named : tree.body.Named
  small : (offDtStruct m fdt).toNat + tree.encode.length < 2 ^ 31

/-! ## Words -/

@[simp] theorem word_length (v : BitVec 32) : (word v).length = 4 := rfl

theorem bswap32_append (a b c d : Byte) : bswap32 (d ++ c ++ b ++ a) = a ++ b ++ c ++ d := by
  apply BitVec.eq_of_getLsbD_eq
  intro i inside
  simp only [bswap32, BitVec.getLsbD_append, BitVec.getLsbD_extractLsb']
  grind

theorem bswap64_append (a b c d e f g h : Byte) :
    bswap64 (h ++ g ++ f ++ e ++ d ++ c ++ b ++ a) = a ++ b ++ c ++ d ++ e ++ f ++ g ++ h := by
  apply BitVec.eq_of_getLsbD_eq
  intro i inside
  simp only [bswap64, BitVec.getLsbD_append, BitVec.getLsbD_extractLsb']
  grind

theorem append_extract (v : BitVec 32) :
    v.extractLsb' 24 8 ++ v.extractLsb' 16 8 ++ v.extractLsb' 8 8 ++ v.extractLsb' 0 8 = v := by
  simp only [BitVec.extractLsb'_append_extractLsb'_eq_extractLsb']
  simp

/-- A word that was copied byte by byte. -/
theorem load32_copied {m m' : Mem} {a b : BitVec 64}
    (copied : ∀ k < 4, m' (a + BitVec.ofNat 64 k) = m (b + BitVec.ofNat 64 k)) :
    load32 m' a = load32 m b := by
  have first := copied 0 (by decide)
  have second : m' (a + 1) = m (b + 1) := copied 1 (by decide)
  have third : m' (a + 2) = m (b + 2) := copied 2 (by decide)
  have fourth : m' (a + 3) = m (b + 3) := copied 3 (by decide)
  rw [show a + BitVec.ofNat 64 0 = a from BitVec.add_zero a,
    show b + BitVec.ofNat 64 0 = b from BitVec.add_zero b] at first
  rw [load32, load32, first, second, third, fourth]

/-- A stored word is read back. -/
theorem bswap32_load32 {m : Mem} {a : BitVec 64} {v : BitVec 32} (stored : m.Stored a (word v)) :
    bswap32 (load32 m a) = v := by
  simp only [word, Mem.stored_cons, Mem.stored_nil, and_true] at stored
  obtain ⟨first, second, third, fourth⟩ := stored
  have two : a + 1 + 1 = a + 2 := BitVec.add_assoc ..
  have three : a + 2 + 1 = a + 3 := BitVec.add_assoc ..
  rw [two] at third fourth
  rw [three] at fourth
  rw [load32, bswap32_append, first, second, third, fourth, append_extract]

/-! ## Lengths -/

theorem add_padding (n : Nat) : n + (padding n).length = roundUp 2 n := by
  have above := le_roundUp 2 n
  rw [padding, List.length_replicate]
  omega

/-- The bytes of a token. -/
def beginSize (name : List Byte) : Nat := 4 + roundUp 2 (name.length + 1)

def propSize (value : List Byte) : Nat := 12 + roundUp 2 value.length

@[simp] theorem beginToken_length (name : List Byte) :
    (beginToken name).length = beginSize name := by
  have padded := add_padding (name.length + 1)
  simp only [beginToken, List.length_append, word_length, List.length_singleton, beginSize]
  omega

@[simp] theorem propToken_length (nameoff : BitVec 32) (value : List Byte) :
    (propToken nameoff value).length = propSize value := by
  have padded := add_padding value.length
  simp only [propToken, List.length_append, word_length, propSize]
  omega

theorem lt_beginSize (name : List Byte) : name.length < beginSize name := by
  have above := le_roundUp 2 (name.length + 1)
  rw [beginSize]
  omega

theorem four_le_beginSize (name : List Byte) : 4 ≤ beginSize name := Nat.le_add_right 4 _

theorem beginSize_mod (name : List Byte) : beginSize name % 4 = 0 := by
  have multiple := dvd_roundUp 2 (name.length + 1)
  rw [beginSize]
  omega

theorem propSize_mod (value : List Byte) : propSize value % 4 = 0 := by
  have multiple := dvd_roundUp 2 value.length
  rw [propSize]
  omega

namespace Items

/-- The bytes of the tokens. -/
def size : Items → Nat
  | nil => 0
  | nop rest => 4 + rest.size
  | prop _ value rest => propSize value + rest.size
  | node name body rest => beginSize name + body.size + 4 + rest.size

theorem encode_length (items : Items) : items.encode.length = items.size := by
  induction items with
  | nil => rfl
  | nop rest ih => simp [encode, size, ih]
  | prop nameoff value rest ih => simp [encode, size, ih]
  | node name body rest ihBody ih => simp [encode, size, ih, ihBody, Nat.add_assoc]

theorem size_nops (count : Nat) (rest : Items) :
    (nops count rest).size = 4 * count + rest.size := by
  induction count with
  | zero => simp [nops]
  | succ count ih =>
      rw [nops, size, ih]
      omega

theorem size_mod (items : Items) : items.size % 4 = 0 := by
  induction items with
  | nil => rfl
  | nop rest ih =>
      rw [size]
      omega
  | prop nameoff value rest ih =>
      have token := propSize_mod value
      rw [size]
      omega
  | node name body rest ihBody ih =>
      have token := beginSize_mod name
      rw [size]
      omega

end Items

section Placed

variable {m : Mem} {fdt : BitVec 64} {off : Nat} {bytes more : List Byte}

theorem Placed.right (placed : Placed m fdt off (bytes ++ more)) (whole : bytes.length % 4 = 0) :
    Placed m fdt (off + bytes.length) more := by
  obtain ⟨base, aligned, fits, small, stored⟩ := placed
  rw [List.length_append] at fits small
  refine ⟨base, by omega, by omega, by omega, ?_⟩
  have later := stored.right
  rwa [add_ofNat_add] at later

theorem toNat_pointer (fits : fdt.toNat + off < 2 ^ 64) :
    (fdt + BitVec.ofNat 64 off).toNat = fdt.toNat + off := by
  rw [BitVec.toNat_add, BitVec.toNat_ofNat]
  omega

theorem eq_ofNat_toNat (off : BitVec 32) : off = BitVec.ofNat 32 off.toNat := by
  rw [BitVec.ofNat_toNat, BitVec.setWidth_eq]

/-- The pointer of an offset. -/
theorem pointer_eq (small : off < 2 ^ 32) :
    fdt + (BitVec.ofNat 32 off).setWidth 64 = fdt + BitVec.ofNat 64 off := by
  have value : (BitVec.ofNat 32 off).setWidth 64 = BitVec.ofNat 64 off := by
    apply BitVec.eq_of_toNat_eq
    rw [BitVec.toNat_setWidth, BitVec.toNat_ofNat, BitVec.toNat_ofNat]
    omega
  rw [value]

/-- The token at an offset. -/
theorem Placed.token {v : BitVec 32} (placed : Placed m fdt off (word v ++ more)) :
    bswap32 (load32 m (fdt + (BitVec.ofNat 32 off).setWidth 64)) = v := by
  have small := placed.small
  rw [pointer_eq (by omega)]
  exact bswap32_load32 placed.stored.left

end Placed

/-! ## Blobs in an otherwise empty memory -/

/-- `struct fdt_header` and an empty memory reservation block, before a structure block of the
given size. -/
def header (structSize stringsSize : Nat) : List Byte :=
  (word 0xd00dfeed ++ word (BitVec.ofNat 32 (56 + structSize + stringsSize))) ++
    (word 56 ++ (word (BitVec.ofNat 32 (56 + structSize)) ++
      [40, 17, 16, 0, BitVec.ofNat 32 stringsSize, BitVec.ofNat 32 structSize, 0, 0, 0, 0].flatMap
        word))

/-- A blob with a strings block. -/
def Tree.blob (tree : Tree) (strings : List Byte) : List Byte :=
  header tree.encode.length strings.length ++ tree.encode ++ strings

/-- Where the blob is. -/
def blobBase : BitVec 64 := 0x1000

theorem blob_image {tree : Tree} {strings : List Byte} (named : tree.body.Named)
    (small : tree.encode.length + strings.length ≤ 2 ^ 20) :
    Blob (Mem.image blobBase (tree.blob strings)) blobBase tree ∧
      offDtStruct (Mem.image blobBase (tree.blob strings)) blobBase = 56 ∧
      (Mem.image blobBase (tree.blob strings)).Stored
        (blobBase + (offDtStrings (Mem.image blobBase (tree.blob strings)) blobBase).setWidth 64)
        strings := by
  have headerLength : (header tree.encode.length strings.length).length = 56 := rfl
  have length : (tree.blob strings).length = 56 + tree.encode.length + strings.length := by
    rw [Tree.blob, List.length_append, List.length_append, headerLength]
  have stored : (Mem.image blobBase (tree.blob strings)).Stored blobBase (tree.blob strings) :=
    Mem.stored_image _ (by omega)
  generalize Mem.image blobBase (tree.blob strings) = m at stored ⊢
  rw [Tree.blob, List.append_assoc] at stored
  have offsets := stored.left.right
  have struct : offDtStruct m blobBase = 56 := bswap32_load32 offsets.left
  have offset : offDtStrings m blobBase = BitVec.ofNat 32 (56 + tree.encode.length) :=
    bswap32_load32 offsets.right.left
  have block := stored.right
  rw [headerLength] at block
  have base : blobBase.toNat = 0x1000 := rfl
  have start : (56 : BitVec 32).toNat = 56 := rfl
  refine ⟨?_, struct, ?_⟩
  · refine ⟨?_, named, ?_⟩
    · rw [struct, start]
      exact
        { base := rfl
          aligned := rfl
          fits := by omega
          small := by omega
          stored := block.left }
    · rw [struct, start]
      omega
  · have atStrings := block.right
    rw [add_ofNat_add] at atStrings
    rwa [offset, pointer_eq (by omega)]

end OscKernel.Fdt
