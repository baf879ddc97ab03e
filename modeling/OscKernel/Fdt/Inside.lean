import OscKernel.Fdt.Reads

/-!
# When the readers stay inside the buffer (`ex21/main.c`)

The bytes that are read of a blob are inside its buffer exactly if the header is, and with it the
fields of all tokens of its layout up to the end of the search, the names of nodes with their NUL,
and as much of the names of properties as is compared.
-/

namespace OscKernel.Fdt

open Alloc Riscv Loops Words Relation

/-- Offset of the name of the property at an offset. -/
def nameOffset (m : Mem) (fdt : BitVec 64) (off : BitVec 32) : Nat :=
  (offDtStrings m fdt).toNat + (bswap32 (load32 m (fdt + off.setWidth 64 + 8))).toNat

/-- A token is inside the buffer, with the name of a node or the length of a value. -/
structure TokenInside (m : Mem) (buffer : Buffer) (off : BitVec 32) : Prop where
  token : off.toNat + 4 ≤ buffer.size
  name : tokenAt m buffer.base off = fdtBeginNode → ∃ i, off.toNat + 4 + i < buffer.size ∧
    m (buffer.base + BitVec.ofNat 64 (off.toNat + 4 + i)) = 0
  length : tokenAt m buffer.base off = fdtProp → off.toNat + 8 ≤ buffer.size

/-- A token is inside the buffer, with the fields of a property and the characters of its name
that are compared. -/
structure PropInside (m : Mem) (buffer : Buffer) (name : List Byte) (off : BitVec 32) : Prop where
  token : off.toNat + 4 ≤ buffer.size
  fields : tokenAt m buffer.base off = fdtProp → off.toNat + 12 ≤ buffer.size
  name : tokenAt m buffer.base off = fdtProp → nameOffset m buffer.base off +
    m.strcmpReads name (propName m buffer.base off) ≤ buffer.size

/-- `fdt_path_offset` runs without a fault and stays inside the buffer, and so does `fdt_getprop`
for an offset that it returns. -/
structure ReadsInside (m : Mem) (buffer : Buffer) (path name : List Byte) : Prop where
  defined : ∀ fault, ¬ PathOffset m buffer.base path (.error fault)
  pathOffset : pathOffsetRead m buffer.base path ⊆ buffer.inside
  getprop : ∀ off, PathOffset m buffer.base path (.ok off) → off.toNat < 2 ^ 31 →
    getpropRead m buffer.base off name ⊆ buffer.inside

/-- The header is inside the buffer, every token up to the end of the search for the path, and
behind the node that the path leads to every property up to the one with the name. -/
structure BlobInside (m : Mem) (buffer : Buffer) (path name : List Byte) : Prop where
  room : PathRoom m buffer.base path
  header : 16 ≤ buffer.size
  tokens : ∀ n place, Searched m buffer.base path n place → TokenInside m buffer place.off
  props : ∀ n place, Searched m buffer.base path n place → Found m buffer.base path place →
    place.off.toNat < 2 ^ 31 → ∀ k off, PropSearched m buffer.base place.off name k off →
      PropInside m buffer name off

section Fields

variable {m : Mem} {buffer : Buffer} {off : BitVec 32} {name : List Byte} {k n : Nat}

theorem setWidth_eq_ofNat (off : BitVec 32) : off.setWidth 64 = BitVec.ofNat 64 off.toNat :=
  (BitVec.ofNat_toNat ..).symm

/-- Bytes behind the start of a token. -/
theorem field_subset_iff (buffer : Buffer) (off : BitVec 32) (small : k < 2 ^ 32)
    (positive : 0 < n) :
    bytesAt (buffer.base + off.setWidth 64 + BitVec.ofNat 64 k) n ⊆ buffer.inside ↔
      off.toNat + k + n ≤ buffer.size := by
  have offset := off.isLt
  rw [setWidth_eq_ofNat, add_ofNat_add,
    buffer.bytesAt_subset_iff (by omega)]
  omega

theorem token_subset_iff (buffer : Buffer) (off : BitVec 32) :
    bytesAt (buffer.base + off.setWidth 64) 4 ⊆ buffer.inside ↔ off.toNat + 4 ≤ buffer.size := by
  have bytes := field_subset_iff buffer off (show 0 < 2 ^ 32 by decide) (show 0 < 4 by decide)
  rwa [BitVec.add_zero, Nat.add_zero] at bytes

/-- What is read at a token of `fdt_path_offset`. -/
theorem pathOffsetReads_subset_iff :
    pathOffsetReads m buffer.base off ⊆ buffer.inside ↔ TokenInside m buffer off := by
  have offset := off.isLt
  have string : m.stringAt (buffer.base + off.setWidth 64 + 4) ⊆ buffer.inside ↔
      ∃ i, off.toNat + 4 + i < buffer.size ∧
        m (buffer.base + BitVec.ofNat 64 (off.toNat + 4 + i)) = 0 := by
    rw [← Mem.stringAt_subset_iff m buffer (by omega), setWidth_eq_ofNat, BitVec.add_assoc,
      BitVec.ofNat_add]
    rfl
  have length : bytesAt (buffer.base + off.setWidth 64 + 4) 4 ⊆ buffer.inside ↔
      off.toNat + 8 ≤ buffer.size :=
    field_subset_iff buffer off (by decide) (by decide)
  rw [pathOffsetReads]
  rw [Set.union_subset_iff, token_subset_iff]
  by_cases begins : tokenAt m buffer.base off = fdtBeginNode
  · have notProp : tokenAt m buffer.base off ≠ fdtProp := by
      rw [begins]
      decide
    rw [if_pos begins, string]
    constructor
    · rintro ⟨token, nul⟩
      exact ⟨token, fun _ => nul, fun prop => absurd prop notProp⟩
    · intro inside
      exact ⟨inside.token, inside.name begins⟩
  · rw [if_neg begins]
    by_cases prop : tokenAt m buffer.base off = fdtProp
    · rw [if_pos prop, length]
      constructor
      · rintro ⟨token, fields⟩
        exact ⟨token, fun node => absurd node begins, fun _ => fields⟩
      · intro inside
        exact ⟨inside.token, inside.length prop⟩
    · rw [if_neg prop]
      constructor
      · rintro ⟨token, -⟩
        exact ⟨token, fun node => absurd node begins, fun other => absurd other prop⟩
      · intro inside
        exact ⟨inside.token, Set.empty_subset _⟩

/-- What is read at a token of `fdt_getprop`. -/
theorem getpropReads_subset_iff :
    getpropReads m buffer.base name off ⊆ buffer.inside ↔ PropInside m buffer name off := by
  have fields : bytesAt (buffer.base + off.setWidth 64 + 4) 8 ⊆ buffer.inside ↔
      off.toNat + 12 ≤ buffer.size :=
    field_subset_iff buffer off (by decide) (by decide)
  have strings := (offDtStrings m buffer.base).isLt
  have nameOff := (bswap32 (load32 m (buffer.base + off.setWidth 64 + 8))).isLt
  have address : propName m buffer.base off =
      buffer.base + BitVec.ofNat 64 (nameOffset m buffer.base off) := by
    rw [propName, nameOffset, setWidth_eq_ofNat (offDtStrings m buffer.base),
      setWidth_eq_ofNat (bswap32 _), add_ofNat_add]
  have compared : bytesAt (propName m buffer.base off)
      (m.strcmpReads name (propName m buffer.base off)) ⊆ buffer.inside ↔
        nameOffset m buffer.base off + m.strcmpReads name (propName m buffer.base off) ≤
          buffer.size := by
    have positive := Mem.strcmpReads_pos m name (propName m buffer.base off)
    generalize m.strcmpReads name (propName m buffer.base off) = reads at positive ⊢
    rw [address, buffer.bytesAt_subset_iff (by rw [nameOffset]; omega)]
    omega
  rw [getpropReads]
  rw [Set.union_subset_iff, token_subset_iff]
  by_cases prop : tokenAt m buffer.base off = fdtProp
  · rw [if_pos prop, Set.union_subset_iff, fields, compared]
    constructor
    · rintro ⟨token, header, characters⟩
      exact ⟨token, fun _ => header, fun _ => characters⟩
    · intro inside
      exact ⟨inside.token, inside.fields prop, inside.name prop⟩
  · rw [if_neg prop]
    constructor
    · rintro ⟨token, -⟩
      exact ⟨token, fun other => absurd other prop, fun other => absurd other prop⟩
    · intro inside
      exact ⟨inside.token, Set.empty_subset _⟩

end Fields

theorem ne_minus_one {off : BitVec 32} (small : off.toNat < 2 ^ 31) : off ≠ -1 := by
  rintro rfl
  exact absurd small (by decide)

section Inside

variable {m : Mem} {buffer : Buffer} {path name : List Byte} {idx : PathIdx}

theorem header_subset_iff (buffer : Buffer) :
    bytesAt (buffer.base + 8) 8 ⊆ buffer.inside ↔ 16 ≤ buffer.size := by
  have bytes := @Buffer.bytesAt_subset_iff buffer 8 8 (by decide)
  exact bytes.trans (by omega)

/-- `fdt_path_offset` reads inside the buffer exactly if the header is there and the tokens of the
search. -/
theorem pathOffsetRead_inside_iff (room : PathRoom m buffer.base path) :
    pathOffsetRead m buffer.base path ⊆ buffer.inside ↔ 16 ≤ buffer.size ∧
      ∀ n place, Searched m buffer.base path n place → TokenInside m buffer place.off := by
  obtain ⟨idx, scanned, -⟩ := exists_scanned room.counted room.few
  have isScanned := scanned_of_ok scanned
  rw [pathOffsetRead_subset_iff scanned, header_subset_iff]
  simp only [pathOffsetReads_subset_iff]
  apply and_congr_right
  intro _
  constructor
  · intro inside n place searched
    exact inside _ (room.reached isScanned searched)
  · intro inside s reached
    obtain ⟨n, place, searched, rfl⟩ := searched_of_reached isScanned reached
    exact inside n place searched

/-- `fdt_getprop` reads inside the buffer behind a node that is. -/
theorem getpropRead_inside_iff {off : BitVec 32} (header : 16 ≤ buffer.size)
    (node : TokenInside m buffer off) (begins : tokenAt m buffer.base off = fdtBeginNode) :
    getpropRead m buffer.base off name ⊆ buffer.inside ↔
      ∀ k next, PropSearched m buffer.base off name k next → PropInside m buffer name next := by
  have strings : bytesAt (buffer.base + 12) 4 ⊆ buffer.inside := by
    have bytes := @Buffer.bytesAt_subset_iff buffer 12 4 (by decide)
    exact bytes.mpr (.inr (by omega))
  have reads := pathOffsetReads_subset_iff.mpr node
  rw [pathOffsetReads, if_pos begins] at reads
  have nodeName := Set.subset_union_right.trans reads
  rw [getpropRead_subset_iff, and_iff_right strings, and_iff_right nodeName]
  simp only [getpropReads_subset_iff]
  constructor
  · intro inside k next searched
    exact inside next searched.reached
  · intro inside next reached
    obtain ⟨k, searched⟩ := propSearched_of_reached reached
    exact inside k next searched

end Inside

/-- For every buffer the readers stay inside exactly if the first 16 bytes of the header are in it,
the tokens up to the end of the search, and the properties of the node that is found. -/
theorem reads_inside_iff (m : Mem) (buffer : Buffer) (path name : List Byte) :
    ReadsInside m buffer path name ↔ BlobInside m buffer path name := by
  constructor
  · intro inside
    have room := pathRoom_iff.mpr inside.defined
    obtain ⟨header, tokens⟩ := (pathOffsetRead_inside_iff room).mp inside.pathOffset
    refine ⟨room, header, tokens, ?_⟩
    intro n place searched found small
    have reads := inside.getprop place.off (room.returns_found searched found) small
    exact (getpropRead_inside_iff header (tokens n place searched) found.begins).mp reads
  · rintro ⟨room, header, tokens, props⟩
    refine ⟨pathRoom_iff.mp room, (pathOffsetRead_inside_iff room).mpr ⟨header, tokens⟩, ?_⟩
    intro off returns small
    obtain ⟨n, place, searched, found, rfl⟩ := returns.found (ne_minus_one small)
    rw [getpropRead_inside_iff header (tokens n place searched) found.begins]
    exact props n place searched found small

/-- A buffer with the bytes of a file. -/
def loaded (file : List Byte) (short : file.length ≤ 2 ^ 20) : Buffer where
  base := blobBase
  size := file.length
  notNull := by decide
  fits := by
    have base : blobBase.toNat = 0x1000 := rfl
    omega

/-- The first token is looked for behind the end of a file where `off_dt_struct` says so. -/
theorem struct_overrun {file start rest path : List Byte} {struct : BitVec 32}
    (short : file.length ≤ 2 ^ 20) (layout : file = start ++ (word struct ++ rest))
    (eight : start.length = 8) (outside : file.length < struct.toNat + 4)
    (counted : path.length ≤ intMax) (few : path.count slash ≤ 10) :
    ¬ pathOffsetRead (Mem.image blobBase file) blobBase path ⊆ (loaded file short).inside := by
  intro inside
  have stored : (Mem.image blobBase file).Stored blobBase file := Mem.stored_image _ (by omega)
  rw [layout] at stored
  have offset := bswap32_load32 stored.right.left
  rw [eight, ← layout] at offset
  have value : offDtStruct (Mem.image blobBase file) blobBase = struct := offset
  obtain ⟨idx, scanned, -⟩ := exists_scanned counted few
  generalize Mem.image blobBase file = m at inside value
  obtain ⟨-, tokens⟩ := (pathOffsetRead_subset_iff scanned).mp inside
  have first := tokens ⟨offDtStruct m blobBase, -2, 0⟩ .refl
  dsimp only at first
  rw [value] at first
  have word := (@token_subset_iff (loaded file short) struct).mp
    (Set.subset_union_left.trans first)
  have size : (loaded file short).size = file.length := rfl
  omega

/-- A file without the magic number. -/
def wrongMagic : List Byte := word 0 ++ word 16 ++ (word 0x10000 ++ word 0)

/-- A blob that is cut off behind its memory reservation block. -/
def truncated : List Byte := header 100 20

/-- `fdt_path_offset` reads outside the buffer for either file. -/
theorem bad_files_overrun :
    (¬ pathOffsetRead (Mem.image blobBase wrongMagic) blobBase (ascii "/memory") ⊆
        (loaded wrongMagic (by decide)).inside ∧
      ¬ ReadsInside (Mem.image blobBase wrongMagic) (loaded wrongMagic (by decide))
        (ascii "/memory") (ascii "reg")) ∧
    (¬ pathOffsetRead (Mem.image blobBase truncated) blobBase (ascii "/memory") ⊆
        (loaded truncated (by decide)).inside ∧
      ¬ ReadsInside (Mem.image blobBase truncated) (loaded truncated (by decide))
        (ascii "/memory") (ascii "reg")) := by
  have wrong := @struct_overrun wrongMagic _ _ (ascii "/memory") 0x10000 (by decide) rfl rfl
    (by decide) (by decide) (by decide)
  have cut := @struct_overrun truncated _ _ (ascii "/memory") 56 (by decide) rfl rfl
    (by decide) (by decide) (by decide)
  exact ⟨⟨wrong, fun inside => wrong inside.pathOffset⟩, cut, fun inside => cut inside.pathOffset⟩

end OscKernel.Fdt
