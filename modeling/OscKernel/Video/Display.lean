import OscKernel.Fdt.Blob
import OscKernel.Video.Flush

/-!
# The frame buffer (`ex52/video.c`)

`video_bmp_display` copies an image into the middle of the frame buffer, row by row, and flushes
each row.  Images are up to the size of the frame buffer and lie beside it.
-/

namespace OscKernel.Video

open Riscv Loops Fdt

/-- `FB_BASE` -/
def fbBase : BitVec 64 := 0x87000000

/-- `FB_WIDTH` -/
def fbWidth : BitVec 32 := 1920

/-- `FB_HEIGHT` -/
def fbHeight : BitVec 32 := 1080

/-- `start_x` -/
def startX (width : BitVec 32) : BitVec 32 := (fbWidth - width).sdiv 2

/-- `start_y` -/
def startY (height : BitVec 32) : BitVec 32 := (fbHeight - height).sdiv 2

/-- `dst` -/
def rowDst (width height y : BitVec 32) : BitVec 64 :=
  fbBase + ((startY height + y) * fbWidth).signExtend 64 * 4 + (startX width).signExtend 64 * 4

/-- `bmp_image + y * width` -/
def rowSrc (bmpImage : BitVec 64) (width y : BitVec 32) : BitVec 64 :=
  bmpImage + (y * width).signExtend 64 * 4

/-- `width * sizeof(unsigned int)` -/
def rowSize (width : BitVec 32) : BitVec 64 := width.signExtend 64 * 4

/-- A round of `video_bmp_display`; `none` if there is not enough fuel for `flush_dcache`. -/
def displayRound (fuel : Nat) (bmpImage : BitVec 64) (width height : BitVec 32) :
    BitVec 32 × Traced → Round (BitVec 32 × Traced) (Option Traced)
  | (y, t) =>
      if BitVec.slt y height then
        let dst := rowDst width height y
        let t := memcpy ((rowSize width).setWidth 32).toNat dst (rowSrc bmpImage width y) t
        match flushDcache fuel dst (rowSize width) t with
        | some t => .next (y + 1, t)
        | none => .stop none
      else .stop (some t)

def videoBmpDisplay (fuel : Nat) (bmpImage : BitVec 64) (width height : BitVec 32) (t : Traced) :
    Option Traced :=
  (iterate (displayRound fuel bmpImage width height) fuel (0, t)).join

/-- The bytes of the frame buffer. -/
def frameBuffer : Set (BitVec 64) := bytesAt fbBase (4 * (1920 * 1080))

/-- The place of a pixel. -/
def pixelAt (x y : Nat) : BitVec 64 := fbBase + BitVec.ofNat 64 (4 * (y * 1920 + x))

/-- The column of the frame buffer where an image starts. -/
def left (width : BitVec 32) : Nat := (1920 - width.toNat) / 2

/-- The row where it starts. -/
def upper (height : BitVec 32) : Nat := (1080 - height.toNat) / 2

/-- The pixel is covered by the image. -/
def InImage (width height : BitVec 32) (x y : Nat) : Prop :=
  left width ≤ x ∧ x < left width + width.toNat ∧
    upper height ≤ y ∧ y < upper height + height.toNat

/-- The place of an image pixel. -/
def imagePixelAt (bmpImage : BitVec 64) (width : BitVec 32) (x y : Nat) : BitVec 64 :=
  bmpImage + BitVec.ofNat 64 (4 * (y * width.toNat + x))

/-- The image is in the frame buffer, nothing else is changed, and all of it is flushed. -/
structure Shown (m : Mem) (bmpImage : BitVec 64) (width height : BitVec 32) (t : Traced) :
    Prop where
  inside : ∀ x < 1920, ∀ y < 1080, InImage width height x y →
    load32 t.mem (pixelAt x y) =
      load32 m (imagePixelAt bmpImage width (x - left width) (y - upper height))
  outside : ∀ x < 1920, ∀ y < 1080, ¬ InImage width height x y →
    load32 t.mem (pixelAt x y) = load32 m (pixelAt x y)
  kept : ∀ a ∉ frameBuffer, t.mem a = m a
  writes : ∀ a, .write a ∈ t.accesses → a ∈ frameBuffer
  flushed : Flushed t.accesses

/-! ## Rows -/

/-- The number of the address of a row in the frame buffer. -/
def rowAt (width height : BitVec 32) (y : Nat) : Nat :=
  0x87000000 + 4 * ((upper height + y) * 1920 + left width)

section Rows

variable {width height : BitVec 32} {bmpImage x : BitVec 64} {y j : Nat}

theorem toNat_half {size width : BitVec 32} (fits : width.toNat ≤ size.toNat)
    (small : size.toNat < 2 ^ 31) :
    ((size - width).sdiv 2).toNat = (size.toNat - width.toNat) / 2 := by
  have difference : (size - width).toNat = size.toNat - width.toNat := by bv_omega
  have positive : (size - width).msb = false := by
    rw [Words.msb_eq, decide_eq_false_iff_not]
    omega
  have two : (2 : BitVec 32).msb = false := rfl
  rw [BitVec.sdiv_eq, positive, two]
  show ((size - width).udiv 2).toNat = _
  rw [BitVec.udiv_eq, BitVec.toNat_udiv, difference]
  rfl

theorem startX_toNat (narrow : width.toNat ≤ 1920) : (startX width).toNat = left width :=
  toNat_half narrow (by decide)

theorem startY_toNat (low : height.toNat ≤ 1080) : (startY height).toNat = upper height :=
  toNat_half low (by decide)

/-- An image is inside the frame buffer. -/
theorem left_add_le (narrow : width.toNat ≤ 1920) : left width + width.toNat ≤ 1920 := by
  rw [left]
  omega

theorem upper_add_le (low : height.toNat ≤ 1080) : upper height + height.toNat ≤ 1080 := by
  rw [upper]
  omega

/-- The offset of an element of an array of `unsigned int`. -/
theorem scaled_eq {i : BitVec 32} (small : i.toNat < 2 ^ 31) :
    i.signExtend 64 * 4 = BitVec.ofNat 64 (4 * i.toNat) := by
  apply BitVec.eq_of_toNat_eq
  rw [BitVec.toNat_mul, Words.toNat_signExtend_small small, BitVec.toNat_ofNat,
    show (4 : BitVec 64).toNat = 4 from rfl, Nat.mul_comm]

theorem rowDst_eq (narrow : width.toNat ≤ 1920) (low : height.toNat ≤ 1080)
    (inside : y < height.toNat) :
    rowDst width height (BitVec.ofNat 32 y) = BitVec.ofNat 64 (rowAt width height y) := by
  have column := startX_toNat narrow
  have columns := left_add_le narrow
  have rows := upper_add_le low
  have row : ((startY height + BitVec.ofNat 32 y) * fbWidth).toNat =
      (upper height + y) * 1920 := by
    rw [BitVec.toNat_mul, BitVec.toNat_add, startY_toNat low, BitVec.toNat_ofNat,
      show fbWidth.toNat = 1920 from rfl]
    omega
  rw [rowDst, scaled_eq (by omega), scaled_eq (by omega), row, column, add_ofNat_add,
    ← Nat.mul_add, rowAt, BitVec.ofNat_add]
  rfl

theorem rowSrc_eq (narrow : width.toNat ≤ 1920) (low : height.toNat ≤ 1080)
    (inside : y < height.toNat) :
    rowSrc bmpImage width (BitVec.ofNat 32 y) =
      bmpImage + BitVec.ofNat 64 (4 * (y * width.toNat)) := by
  have most : y * width.toNat ≤ 1080 * 1920 := Nat.mul_le_mul (by omega) narrow
  have pixel : (BitVec.ofNat 32 y * width).toNat = y * width.toNat := by
    rw [BitVec.toNat_mul, BitVec.toNat_ofNat, Nat.mod_eq_of_lt (show y < 2 ^ 32 by omega),
      Nat.mod_eq_of_lt (by omega)]
  rw [rowSrc, scaled_eq (by omega), pixel]

theorem rowSize_toNat (narrow : width.toNat ≤ 1920) :
    (rowSize width).toNat = 4 * width.toNat := by
  rw [rowSize, scaled_eq (by omega), BitVec.toNat_ofNat]
  omega

theorem rowSize_int (narrow : width.toNat ≤ 1920) :
    ((rowSize width).setWidth 32).toNat = 4 * width.toNat := by
  rw [BitVec.toNat_setWidth, rowSize_toNat narrow]
  omega

/-- The bytes of a row. -/
def rowBytes (width height : BitVec 32) (y : Nat) : Set (BitVec 64) :=
  bytesAt (BitVec.ofNat 64 (rowAt width height y)) (4 * width.toNat)

theorem rowAt_add_le (narrow : width.toNat ≤ 1920) (low : height.toNat ≤ 1080)
    (inside : y < height.toNat) :
    rowAt width height y + 4 * width.toNat ≤ 0x87000000 + 4 * (1920 * 1080) := by
  have columns := left_add_le narrow
  have rows := upper_add_le low
  rw [rowAt]
  omega

theorem mem_rowBytes (narrow : width.toNat ≤ 1920) (low : height.toNat ≤ 1080)
    (inside : y < height.toNat) : x ∈ rowBytes width height y ↔
      rowAt width height y ≤ x.toNat ∧ x.toNat < rowAt width height y + 4 * width.toNat := by
  have ends := rowAt_add_le narrow low inside
  exact mem_bytesAt_ofNat (by omega)

theorem mem_frameBuffer :
    x ∈ frameBuffer ↔ 0x87000000 ≤ x.toNat ∧ x.toNat < 0x87000000 + 4 * (1920 * 1080) :=
  mem_bytesAt_ofNat (by decide)

theorem rowBytes_subset (narrow : width.toNat ≤ 1920) (low : height.toNat ≤ 1080)
    (inside : y < height.toNat) : rowBytes width height y ⊆ frameBuffer := by
  intro x member
  have ends := rowAt_add_le narrow low inside
  rw [mem_rowBytes narrow low inside] at member
  rw [mem_frameBuffer]
  rw [rowAt] at member ends
  omega

/-- Rows do not overlap. -/
theorem rowBytes_disjoint (narrow : width.toNat ≤ 1920) (low : height.toNat ≤ 1080) {other : Nat}
    (before : other < y) (inside : y < height.toNat) (member : x ∈ rowBytes width height other) :
    x ∉ rowBytes width height y := by
  have columns := left_add_le narrow
  rw [mem_rowBytes narrow low (by omega)] at member
  rw [mem_rowBytes narrow low inside]
  rw [rowAt] at member ⊢
  omega

end Rows

/-! ## The copy -/

/-- The image is not in the frame buffer. -/
def ImageApart (bmpImage : BitVec 64) (width height : BitVec 32) : Prop :=
  Disjoint (bytesAt bmpImage (4 * (height.toNat * width.toNat))) frameBuffer

/-- The first rows of the image are shown, and nothing else is changed. -/
structure RowsShown (m : Mem) (bmpImage : BitVec 64) (width height : BitVec 32) (rows : Nat)
    (t : Traced) : Prop where
  copied : ∀ y < rows, ∀ j < 4 * width.toNat,
    t.mem (BitVec.ofNat 64 (rowAt width height y) + BitVec.ofNat 64 j) =
      m (bmpImage + BitVec.ofNat 64 (4 * (y * width.toNat) + j))
  kept : ∀ a, (∀ y < rows, a ∉ rowBytes width height y) → t.mem a = m a
  writes : ∀ a, .write a ∈ t.accesses → ∃ y < rows, a ∈ rowBytes width height y
  flushed : Flushed t.accesses

/-- Where the loop of `video_bmp_display` is. -/
def Displaying (m : Mem) (bmpImage : BitVec 64) (width height : BitVec 32)
    (state : BitVec 32 × Traced) : Prop :=
  ∃ rows ≤ height.toNat, state.1 = BitVec.ofNat 32 rows ∧
    RowsShown m bmpImage width height rows state.2

section Copy

variable {m : Mem} {bmpImage : BitVec 64} {width height : BitVec 32} {rows fuel : Nat}
variable {t t' : Traced}

theorem slt_ofNat {y : Nat} (small : y < 2 ^ 31) (low : height.toNat < 2 ^ 31) :
    BitVec.slt (BitVec.ofNat 32 y) height = decide (y < height.toNat) := by
  have value : (BitVec.ofNat 32 y).toNat = y := by
    rw [BitVec.toNat_ofNat]
    omega
  rw [BitVec.slt_eq_decide, BitVec.toInt_eq_toNat_of_lt (by omega),
    BitVec.toInt_eq_toNat_of_lt (by omega), value]
  simp only [Int.ofNat_lt]

/-- The bytes of a row are in the image. -/
theorem rowSource_subset (bmpImage : BitVec 64) (inside : rows < height.toNat) :
    bytesAt (bmpImage + BitVec.ofNat 64 (4 * (rows * width.toNat))) (4 * width.toNat) ⊆
      bytesAt bmpImage (4 * (height.toNat * width.toNat)) := by
  have whole : (rows + 1) * width.toNat ≤ height.toNat * width.toNat :=
    Nat.mul_le_mul_right _ inside
  rw [Nat.succ_mul] at whole
  exact bytesAt_offset_subset.trans (bytesAt_mono (by omega))

/-- One more row is copied. -/
theorem RowsShown.copy (narrow : width.toNat ≤ 1920) (low : height.toNat ≤ 1080)
    (apart : ImageApart bmpImage width height) (shown : RowsShown m bmpImage width height rows t)
    (inside : rows < height.toNat)
    (copied : Copied (4 * width.toNat) (BitVec.ofNat 64 (rowAt width height rows))
      (bmpImage + BitVec.ofNat 64 (4 * (rows * width.toNat))) t t') :
    (∀ y < rows + 1, ∀ j < 4 * width.toNat,
      t'.mem (BitVec.ofNat 64 (rowAt width height y) + BitVec.ofNat 64 j) =
        m (bmpImage + BitVec.ofNat 64 (4 * (y * width.toNat) + j))) ∧
    ∀ a, (∀ y < rows + 1, a ∉ rowBytes width height y) → t'.mem a = m a := by
  constructor
  · intro y before j below
    rcases Nat.lt_succ_iff_lt_or_eq.mp before with earlier | rfl
    · have member : BitVec.ofNat 64 (rowAt width height y) + BitVec.ofNat 64 j ∈
          rowBytes width height y := offset_mem_bytesAt below
      rw [copied.kept _ (rowBytes_disjoint narrow low earlier inside member)]
      exact shown.copied y earlier j below
    · have source := rowSource_subset bmpImage inside (offset_mem_bytesAt below)
      rw [add_ofNat_add] at source
      have outside := Set.disjoint_left.mp apart source
      rw [copied.copied j below, add_ofNat_add]
      apply shown.kept
      intro other earlier member
      exact outside (rowBytes_subset narrow low (by omega) member)
  · intro a outside
    rw [copied.kept a (outside rows (Nat.lt_succ_self _))]
    exact shown.kept a fun y before => outside y (Nat.lt_succ_of_lt before)

/-- A round shows the next row and flushes it. -/
theorem RowsShown.round (narrow : width.toNat ≤ 1920) (low : height.toNat ≤ 1080)
    (apart : ImageApart bmpImage width height) (shown : RowsShown m bmpImage width height rows t)
    (inside : rows < height.toNat) (enough : 7744 ≤ fuel) :
    ∃ t', displayRound fuel bmpImage width height (BitVec.ofNat 32 rows, t) =
        .next (BitVec.ofNat 32 (rows + 1), t') ∧
      RowsShown m bmpImage width height (rows + 1) t' := by
  have size := rowSize_toNat narrow
  have ends := rowAt_add_le narrow low inside
  have dst : (BitVec.ofNat 64 (rowAt width height rows)).toNat = rowAt width height rows := by
    rw [BitVec.toNat_ofNat]
    omega
  have rowApart := Set.disjoint_of_subset (rowSource_subset bmpImage inside)
    (rowBytes_subset narrow low inside) apart
  have copied := memcpy_copied (t := t) (by omega) rowApart
  obtain ⟨bytes, keeps⟩ := shown.copy narrow low apart inside copied
  obtain ⟨written, writes, inRow⟩ := copied.write_mem
  obtain ⟨t', flushes, mem, lines, accesses, noWrite, covered⟩ := flushDcache_covers
    (BitVec.ofNat 64 (rowAt width height rows)) (rowSize width)
    (memcpy (4 * width.toNat) (BitVec.ofNat 64 (rowAt width height rows))
      (bmpImage + BitVec.ofNat 64 (4 * (rows * width.toNat))) t) (by omega)
  rw [writes, List.append_assoc] at accesses
  refine ⟨t', ?_, ?_, ?_, ?_, ?_⟩
  · have goes : BitVec.slt (BitVec.ofNat 32 rows) height = true := by
      rw [slt_ofNat (by omega) (by omega), decide_eq_true inside]
    rw [displayRound, if_pos goes, rowDst_eq narrow low inside, rowSrc_eq narrow low inside,
      rowSize_int narrow]
    dsimp only
    rw [flushes fuel (by omega), BitVec.ofNat_add]
    rfl
  · rwa [mem]
  · rwa [mem]
  · intro a member
    rw [accesses] at member
    rcases List.mem_append.mp member with earlier | now
    · obtain ⟨y, before, inEarlier⟩ := shown.writes a earlier
      exact ⟨y, Nat.lt_succ_of_lt before, inEarlier⟩
    · rcases List.mem_append.mp now with copying | flushing
      · exact ⟨rows, Nat.lt_succ_self _, inRow a copying⟩
      · exact absurd flushing (noWrite a)
  · rw [accesses]
    refine shown.flushed.append (flushed_append_of_covered ?_ (flushed_of_no_write noWrite))
    intro a member
    have bounds := (mem_rowBytes narrow low inside).mp (inRow a member)
    exact covered a (by omega) (by omega)

/-- All rows are shown, whatever is in the memory before. -/
theorem display_rows (narrow : width.toNat ≤ 1920) (low : height.toNat ≤ 1080)
    (apart : ImageApart bmpImage width height) (enough : 7744 ≤ fuel) :
    ∃ t, videoBmpDisplay fuel bmpImage width height ⟨m, []⟩ = some t ∧
      RowsShown m bmpImage width height height.toNat t := by
  have start : Displaying m bmpImage width height (0, ⟨m, []⟩) := by
    refine ⟨0, Nat.zero_le _, rfl, ?_⟩
    constructor
    · intro y before
      exact absurd before (Nat.not_lt_zero y)
    · intro a _
      rfl
    · intro a member
      cases member
    · trivial
  have step : ∀ state, Displaying m bmpImage width height state →
      (∃ result, displayRound fuel bmpImage width height state = .stop result ∧
        ∃ t, result = some t ∧ RowsShown m bmpImage width height height.toNat t) ∨
      ∃ next, displayRound fuel bmpImage width height state = .next next ∧
        Displaying m bmpImage width height next ∧
        height.toNat - next.1.toNat < height.toNat - state.1.toNat := by
    rintro ⟨y, t⟩ ⟨rows, atMost, counter, shown⟩
    dsimp only at counter shown
    rw [counter]
    by_cases inside : rows < height.toNat
    · obtain ⟨t', goes, next⟩ := shown.round narrow low apart inside enough
      refine .inr ⟨_, goes, ⟨rows + 1, inside, rfl, next⟩, ?_⟩
      dsimp only
      rw [BitVec.toNat_ofNat, BitVec.toNat_ofNat]
      omega
    · obtain rfl : rows = height.toNat := by omega
      left
      refine ⟨some t, ?_, t, rfl, shown⟩
      have stops : ¬ BitVec.slt (BitVec.ofNat 32 height.toNat) height = true := by
        rw [slt_ofNat (by omega) (by omega), decide_eq_true_eq]
        exact inside
      rw [displayRound, if_neg stops]
  obtain ⟨result, ended, t, rfl, shown⟩ := iterate_of_invariant _ _ step start
  refine ⟨t, ?_, shown⟩
  rw [videoBmpDisplay, ended fuel (show height.toNat - 0 < fuel by omega)]
  rfl

end Copy

/-! ## Pixels -/

section Pixels

variable {m : Mem} {bmpImage : BitVec 64} {width height : BitVec 32} {t : Traced} {x y k : Nat}

theorem pixelAt_add (x y k : Nat) :
    pixelAt x y + BitVec.ofNat 64 k = BitVec.ofNat 64 (0x87000000 + 4 * (y * 1920 + x) + k) := by
  rw [pixelAt, BitVec.ofNat_add _ k, BitVec.ofNat_add 0x87000000]
  rfl

/-- A pixel of the image is copied with its row. -/
theorem RowsShown.pixel_inside (shown : RowsShown m bmpImage width height height.toNat t)
    (inImage : InImage width height x y) :
    load32 t.mem (pixelAt x y) =
      load32 m (imagePixelAt bmpImage width (x - left width) (y - upper height)) := by
  obtain ⟨fromLeft, toRight, fromTop, toBottom⟩ := inImage
  apply load32_copied
  intro k below
  have copied := shown.copied (y - upper height) (by omega) (4 * (x - left width) + k) (by omega)
  have target : rowAt width height (y - upper height) + (4 * (x - left width) + k) =
      0x87000000 + 4 * (y * 1920 + x) + k := by
    rw [rowAt, Nat.add_sub_cancel' fromTop]
    omega
  rw [← BitVec.ofNat_add, target] at copied
  rw [pixelAt_add, copied, imagePixelAt, add_ofNat_add, Nat.mul_add, Nat.add_assoc]

/-- The bytes of another pixel are in no row. -/
theorem pixel_notMem (narrow : width.toNat ≤ 1920) (low : height.toNat ≤ 1080) (column : x < 1920)
    (row : y < 1080) (outside : ¬ InImage width height x y) (below : k < 4) {other : Nat}
    (inside : other < height.toNat) :
    pixelAt x y + BitVec.ofNat 64 k ∉ rowBytes width height other := by
  have columns := left_add_le narrow
  have value : (BitVec.ofNat 64 (0x87000000 + 4 * (y * 1920 + x) + k)).toNat =
      0x87000000 + 4 * (y * 1920 + x) + k := by
    rw [BitVec.toNat_ofNat]
    omega
  rw [mem_rowBytes narrow low inside, pixelAt_add, value, rowAt]
  rw [InImage] at outside
  omega

/-- The rows are the image. -/
theorem RowsShown.shown (narrow : width.toNat ≤ 1920) (low : height.toNat ≤ 1080)
    (rows : RowsShown m bmpImage width height height.toNat t) :
    Shown m bmpImage width height t := by
  refine ⟨?_, ?_, ?_, ?_, rows.flushed⟩
  · intro x _ y _ inImage
    exact rows.pixel_inside inImage
  · intro x column y row outside
    apply load32_copied
    intro k below
    apply rows.kept
    intro other inside
    exact pixel_notMem narrow low column row outside below inside
  · intro a outside
    apply rows.kept
    intro y inside member
    exact outside (rowBytes_subset narrow low inside member)
  · intro a member
    obtain ⟨y, inside, inRow⟩ := rows.writes a member
    exact rowBytes_subset narrow low inside inRow

/-- `video_bmp_display` returns, and shows the image exactly and flushed. -/
theorem video_bmp_display_exact (m : Mem) (bmpImage : BitVec 64) (width height : BitVec 32)
    (narrow : width.toNat ≤ 1920) (low : height.toNat ≤ 1080)
    (apart : ImageApart bmpImage width height) :
    ∃ enough, ∀ fuel, enough ≤ fuel → ∃ t,
      videoBmpDisplay fuel bmpImage width height ⟨m, []⟩ = some t ∧
        Shown m bmpImage width height t := by
  refine ⟨7744, fun fuel enough => ?_⟩
  obtain ⟨t, displayed, rows⟩ := display_rows (m := m) narrow low apart enough
  exact ⟨t, displayed, rows.shown narrow low⟩

/-- A frame of the animation below the frame buffer, with the low bytes of addresses in memory. -/
theorem video_bmp_display_bird :
    ∃ enough, ∀ fuel, enough ≤ fuel → ∃ t,
      videoBmpDisplay fuel 0x80204000 109 128 ⟨BitVec.setWidth 8, []⟩ = some t ∧
        Shown (BitVec.setWidth 8) 0x80204000 109 128 t := by
  apply video_bmp_display_exact _ 0x80204000 109 128 (by decide) (by decide)
  exact disjoint_bytesAt_ofNat (b := 0x80204000) (c := 0x87000000) (by decide) (by decide)

end Pixels

end OscKernel.Video
