import OscKernel.Video.Delay
import OscKernel.Video.Display

/-!
# The animation (`ex52/main.c`)

`display_video` shows the frames of an array one after the other, with a delay after each, and
begins again behind the last one.  The frames lie beside the frame buffer.
-/

namespace OscKernel.Video

open Riscv Loops Fdt

/-- `FRAME_COUNT` -/
def frameCount : BitVec 32 := 7

/-- `FRAME_WIDTH` -/
def frameWidth : BitVec 32 := 109

/-- `FRAME_HEIGHT` -/
def frameHeight : BitVec 32 := 128

/-- `frame` -/
def frameOf (frames : BitVec 64) (f : BitVec 32) : BitVec 64 :=
  frames + (f * frameWidth * frameHeight).signExtend 64 * 4

/-- A round of the loops of `display_video`, with `f`, the memory and the accesses of the last
`video_bmp_display`.  Both loops only stop if there is not enough fuel for a call. -/
def displayVideoRound (fuel : Nat) (frames : BitVec 64) :
    BitVec 32 × Traced → Round (BitVec 32 × Traced) Unit
  | (f, t) =>
      if BitVec.slt f frameCount then
        match videoBmpDisplay fuel (frameOf frames f) frameWidth frameHeight ⟨t.mem, []⟩ with
        | none => .stop ()
        | some t =>
            match iterate (usleepRound 50000) fuel 0 with
            | none => .stop ()
            | some _ => .next (f + 1, t)
      else .next (0, t)

/-- The array of the frames is not in the frame buffer. -/
def FramesApart (frames : BitVec 64) : Prop :=
  Disjoint (bytesAt frames (4 * (7 * (128 * 109)))) frameBuffer

/-- A memory that differs only in the pixels of the image. -/
structure Kept (m : Mem) (width height : BitVec 32) (m' : Mem) : Prop where
  outside : ∀ x < 1920, ∀ y < 1080, ¬ InImage width height x y →
    load32 m' (pixelAt x y) = load32 m (pixelAt x y)
  kept : ∀ a ∉ frameBuffer, m' a = m a

/-- The animation with `f` at a number, behind the frame before it. -/
structure Playing (m : Mem) (frames : BitVec 64) (f : Nat) (s : BitVec 32 × Traced) : Prop where
  counter : s.1 = BitVec.ofNat 32 f
  few : f ≤ 7
  kept : Kept m frameWidth frameHeight s.2.mem
  shown : ∀ last, f = last + 1 →
    Shown m (frameOf frames (BitVec.ofNat 32 last)) frameWidth frameHeight s.2

/-! ## One frame over the last one -/

section Frame

variable {m m' : Mem} {bmpImage : BitVec 64} {width height : BitVec 32} {t : Traced}

theorem Kept.refl (m : Mem) (width height : BitVec 32) : Kept m width height m :=
  ⟨fun _ _ _ _ _ => rfl, fun _ _ => rfl⟩

theorem Shown.keeps (shown : Shown m bmpImage width height t) : Kept m width height t.mem :=
  ⟨shown.outside, shown.kept⟩

/-- The bytes of an image pixel are in the image. -/
theorem imagePixel_mem {x y k : Nat} (column : x < width.toNat) (row : y < height.toNat)
    (below : k < 4) : imagePixelAt bmpImage width x y + BitVec.ofNat 64 k ∈
      bytesAt bmpImage (4 * (height.toNat * width.toNat)) := by
  have rows : (y + 1) * width.toNat ≤ height.toNat * width.toNat := Nat.mul_le_mul_right _ row
  rw [Nat.succ_mul] at rows
  rw [imagePixelAt, add_ofNat_add]
  exact offset_mem_bytesAt (by omega)

/-- An image over another one of its size is shown as over the memory before both. -/
theorem Kept.shows (kept : Kept m width height m') (apart : ImageApart bmpImage width height)
    (shown : Shown m' bmpImage width height t) : Shown m bmpImage width height t := by
  refine ⟨?_, ?_, ?_, shown.writes, shown.flushed⟩
  · intro x column y row inImage
    rw [shown.inside x column y row inImage]
    obtain ⟨fromLeft, toRight, fromTop, toBottom⟩ := inImage
    apply load32_copied
    intro k below
    apply kept.kept
    exact Set.disjoint_left.mp apart (imagePixel_mem (by omega) (by omega) below)
  · intro x column y row notInImage
    exact (shown.outside x column y row notInImage).trans (kept.outside x column y row notInImage)
  · intro a notMember
    exact (shown.kept a notMember).trans (kept.kept a notMember)

end Frame

/-! ## The loops -/

section Loops

variable {m : Mem} {frames : BitVec 64} {f fuel : Nat} {s : BitVec 32 × Traced}

/-- A call of `usleep` returns. -/
theorem usleep_returns (usec : BitVec 32) (enough : (usleepBound usec).toNat < fuel) :
    iterate (usleepRound usec) fuel 0 = some usec := by
  have ended := iterate_mono (usleeps_bound usec).2 (fuel - ((usleepBound usec).toNat + 1))
  rwa [Nat.add_sub_cancel' enough] at ended

theorem frameOf_eq (few : f < 7) :
    frameOf frames (BitVec.ofNat 32 f) = frames + BitVec.ofNat 64 (4 * (f * (128 * 109))) := by
  have pixel : (BitVec.ofNat 32 f * frameWidth * frameHeight).toNat = f * (128 * 109) := by
    rw [BitVec.toNat_mul, BitVec.toNat_mul, BitVec.toNat_ofNat,
      show frameWidth.toNat = 109 from rfl, show frameHeight.toNat = 128 from rfl]
    omega
  rw [frameOf, scaled_eq (by omega), pixel]

/-- Every frame is in the array. -/
theorem FramesApart.image (apart : FramesApart frames) (few : f < 7) :
    ImageApart (frameOf frames (BitVec.ofNat 32 f)) frameWidth frameHeight := by
  rw [frameOf_eq few]
  refine Set.disjoint_of_subset_left (bytesAt_offset_subset.trans (bytesAt_mono ?_)) apart
  rw [show frameWidth.toNat = 109 from rfl, show frameHeight.toNat = 128 from rfl]
  omega

theorem Playing.start (m : Mem) (frames : BitVec 64) : Playing m frames 0 (0, ⟨m, []⟩) := by
  constructor
  · rfl
  · exact Nat.zero_le _
  · exact .refl m _ _
  · rintro last ⟨⟩

/-- A round shows the next frame and waits. -/
theorem Playing.next (playing : Playing m frames f s) (apart : FramesApart frames)
    (display : 7744 ≤ fuel) (delay : (usleepBound 50000).toNat < fuel) (few : f < 7) :
    ∃ t, Leads (displayVideoRound fuel frames) s (BitVec.ofNat 32 (f + 1), t) ∧
      Playing m frames (f + 1) (BitVec.ofNat 32 (f + 1), t) := by
  obtain ⟨counter, t⟩ := s
  obtain rfl : counter = BitVec.ofNat 32 f := playing.counter
  have narrow : frameWidth.toNat ≤ 1920 := by decide
  have low : frameHeight.toNat ≤ 1080 := by decide
  have image := apart.image few
  obtain ⟨t', displayed, rows⟩ := display_rows (m := t.mem) narrow low image display
  have shown := playing.kept.shows image (rows.shown narrow low)
  refine ⟨t', ?_, ?_⟩
  · have goes : BitVec.slt (BitVec.ofNat 32 f) frameCount = true := by
      rw [slt_ofNat (by omega) (by decide), decide_eq_true_eq]
      exact few
    rw [Leads, displayVideoRound, if_pos goes, displayed]
    dsimp only
    rw [usleep_returns 50000 delay, BitVec.ofNat_add]
    rfl
  · refine ⟨rfl, few, shown.keeps, ?_⟩
    rintro last same
    obtain rfl : f = last := Nat.succ.inj same
    exact shown

variable (fuel) in
/-- Behind the last frame the animation begins again. -/
theorem Playing.again (playing : Playing m frames 7 s) :
    Leads (displayVideoRound fuel frames) s (0, s.2) ∧ Playing m frames 0 (0, s.2) := by
  obtain ⟨counter, t⟩ := s
  obtain rfl : counter = BitVec.ofNat 32 7 := playing.counter
  constructor
  · have stops : ¬ BitVec.slt (BitVec.ofNat 32 7) frameCount = true := by decide
    rw [Leads, displayVideoRound, if_neg stops]
  · refine ⟨rfl, Nat.zero_le _, playing.kept, ?_⟩
    rintro last ⟨⟩

/-- The number of `f` in the next round. -/
def nextFrame (f : Nat) : Nat := (f + 1) % 8

theorem Playing.leads (playing : Playing m frames f s) (apart : FramesApart frames)
    (display : 7744 ≤ fuel) (delay : (usleepBound 50000).toNat < fuel) :
    ∃ next, Leads (displayVideoRound fuel frames) s next ∧ Playing m frames (nextFrame f) next ∧
      (f = 7 → next.2 = s.2) := by
  have few := playing.few
  by_cases last : f = 7
  · subst last
    obtain ⟨leads, again⟩ := playing.again fuel
    exact ⟨_, leads, again, fun _ => rfl⟩
  · obtain ⟨t, leads, next⟩ := playing.next apart display delay (by omega)
    have number : nextFrame f = f + 1 := Nat.mod_eq_of_lt (by omega)
    rw [number]
    exact ⟨_, leads, next, fun same => absurd same last⟩

/-- The animation goes on for ever.  Frame after frame is exactly in the middle of the frame
buffer, flushed, and everything around it and outside the frame buffer stays. -/
theorem display_video_plays (m : Mem) (frames : BitVec 64) (apart : FramesApart frames) :
    ∃ enough, ∀ fuel, enough ≤ fuel → ∃ run : Nat → BitVec 32 × Traced,
      run 0 = (0, ⟨m, []⟩) ∧
      (∀ n, Leads (displayVideoRound fuel frames) (run n) (run (n + 1))) ∧
      (∀ n, ∀ f < 7, Shown m (frameOf frames (BitVec.ofNat 32 f)) frameWidth frameHeight
        (run (8 * n + f + 1)).2) ∧
      ∀ n, (run (8 * n + 8)).2 = (run (8 * n + 7)).2 := by
  refine ⟨max 7744 ((usleepBound 50000).toNat + 1), ?_⟩
  intro fuel enough
  have display : 7744 ≤ fuel := (Nat.le_max_left _ _).trans enough
  have delay : (usleepBound 50000).toNat < fuel := (Nat.le_max_right _ _).trans enough
  have stays : ∀ s, (∃ f, Playing m frames f s) →
      ∃ next, Leads (displayVideoRound fuel frames) s next ∧ ∃ f, Playing m frames f next := by
    rintro s ⟨f, playing⟩
    obtain ⟨next, leads, later, -⟩ := playing.leads apart display delay
    exact ⟨next, leads, _, later⟩
  obtain ⟨run, start, leads⟩ := exists_run (not_ends_of_stays stays ⟨0, .start m frames⟩)
  -- The rounds are determined, so each state of the run is the one of the step lemma.
  have plays : ∀ n, Playing m frames (n % 8) (run n) := by
    intro n
    induction n with
    | zero =>
        rw [start]
        exact .start m frames
    | succ n ih =>
        obtain ⟨next, goes, later, -⟩ := ih.leads apart display delay
        obtain rfl : run (n + 1) = next := Round.next.inj ((leads n).symm.trans goes)
        rwa [nextFrame, Nat.mod_add_mod] at later
  refine ⟨run, start, leads, ?_, ?_⟩
  · intro n f few
    exact (plays (8 * n + f + 1)).shown f (by omega)
  · intro n
    obtain ⟨next, goes, -, same⟩ := (plays (8 * n + 7)).leads apart display delay
    obtain rfl : run (8 * n + 8) = next := Round.next.inj ((leads (8 * n + 7)).symm.trans goes)
    exact same (by omega)

/-- The second frame of an array below the frame buffer, with the low bytes of addresses in
memory. -/
theorem display_video_plays_bird :
    ∃ (fuel : Nat) (run : Nat → BitVec 32 × Traced), run 0 = (0, ⟨BitVec.setWidth 8, []⟩) ∧
      (∀ n, Leads (displayVideoRound fuel 0x80206580) (run n) (run (n + 1))) ∧
      Shown (BitVec.setWidth 8) 0x80213f80 109 128 (run 2).2 := by
  have apart : FramesApart 0x80206580 :=
    disjoint_bytesAt_ofNat (b := 0x80206580) (c := 0x87000000) (by decide) (by decide)
  have second : frameOf 0x80206580 (BitVec.ofNat 32 1) = 0x80213f80 := by decide
  obtain ⟨enough, plays⟩ := display_video_plays (BitVec.setWidth 8) 0x80206580 apart
  obtain ⟨run, start, leads, shown, -⟩ := plays enough (Nat.le_refl _)
  refine ⟨enough, run, start, leads, ?_⟩
  rw [← second]
  exact shown 0 1 (by decide)

end Loops

end OscKernel.Video
