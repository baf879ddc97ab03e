import OscKernel.Fdt.Layout

/-!
# When the walks end (`ex21/main.c`)

Both walks compute the next offset from lengths in the blob and cut it to 32 bits, so a token that
reaches 4 GiB may lead back.  Where every token that the search passes over ends before that, the
offsets increase and the walks return.
-/

namespace OscKernel.Fdt

open Alloc Riscv Loops Words Relation

/-! ## Tokens below 4 GiB -/

section Fits

variable (m : Mem) (fdt : BitVec 64) (off : BitVec 32)

/-- The bytes of the token at an offset, without padding, if a walk passes over it. -/
def tokenBytes : Option Nat :=
  if tokenAt m fdt off = fdtBeginNode then
    some (4 + m.strlen (fdt + off.setWidth 64 + 4) + 1)
  else if tokenAt m fdt off = fdtEndNode then some 4
  else if tokenAt m fdt off = fdtProp then
    some (12 + (bswap32 (load32 m (fdt + off.setWidth 64 + 4))).toNat)
  else if tokenAt m fdt off = fdtNop then some 4
  else none

/-- The token with its padding ends less than 4 GiB behind the start of the blob. -/
def Fits : Prop := ∀ bytes, tokenBytes m fdt off = some bytes →
  roundUp 2 (fdt.toNat + off.toNat + bytes) < fdt.toNat + 2 ^ 32

end Fits

section Steps

variable {m : Mem} {fdt : BitVec 64} {off next : BitVec 32}

/-- The address space may come round inside the token. -/
theorem nextToken_later {bytes : Nat} (positive : 0 < bytes)
    (fits : roundUp 2 (fdt.toNat + off.toNat + bytes) < fdt.toNat + 2 ^ 32) :
    off.toNat < (nextToken fdt (fdt + off.setWidth 64 + BitVec.ofNat 64 bytes)).toNat := by
  have sum : (fdt + off.setWidth 64 + BitVec.ofNat 64 bytes + 4 - 1).toNat =
      (fdt.toNat + off.toNat + bytes + 3) % 2 ^ 64 := by
    rw [BitVec.toNat_sub, BitVec.toNat_add, BitVec.toNat_add, BitVec.toNat_add,
      BitVec.toNat_setWidth, BitVec.toNat_ofNat, show (4 : BitVec 64).toNat = 4 from rfl,
      show (1 : BitVec 64).toNat = 1 from rfl]
    omega
  have rounded := @toNat_and_high 64 (fdt + off.setWidth 64 + BitVec.ofNat 64 bytes + 4 - 1)
    (~~~(4 - 1)) 2 (by decide)
  rw [sum] at rounded
  rw [roundUp] at fits
  rw [nextToken, alignUp, BitVec.toNat_setWidth, BitVec.toNat_sub, rounded]
  omega

theorem add_four_later (fits : roundUp 2 (fdt.toNat + off.toNat + 4) < fdt.toNat + 2 ^ 32) :
    off.toNat < (off + 4).toNat := by
  have above := le_roundUp 2 (fdt.toNat + off.toNat + 4)
  rw [BitVec.toNat_add, show (4 : BitVec 32).toNat = 4 from rfl]
  omega

/-- Behind a token that fits the offset is larger. -/
theorem Fits.later (fits : Fits m fdt off) (follows : Follows m fdt off next) :
    off.toNat < next.toNat := by
  rw [Fits, tokenBytes] at fits
  rw [Follows, behind] at follows
  by_cases begins : tokenAt m fdt off = fdtBeginNode
  · rw [if_pos begins] at fits follows
    cases follows
    have later := nextToken_later (by omega) (fits _ rfl)
    have pointer : fdt + off.setWidth 64 +
        BitVec.ofNat 64 (4 + m.strlen (fdt + off.setWidth 64 + 4) + 1) =
        fdt + off.setWidth 64 + 4 + BitVec.ofNat 64 (m.strlen (fdt + off.setWidth 64 + 4)) + 1 := by
      rw [BitVec.ofNat_add, BitVec.ofNat_add]
      simp only [BitVec.add_assoc]
      rfl
    rwa [pointer] at later
  · rw [if_neg begins] at fits follows
    by_cases ends : tokenAt m fdt off = fdtEndNode
    · rw [if_pos ends] at fits follows
      cases follows
      exact add_four_later (fits 4 rfl)
    · rw [if_neg ends] at fits follows
      by_cases prop : tokenAt m fdt off = fdtProp
      · rw [if_pos prop] at fits follows
        cases follows
        have later := nextToken_later (by omega) (fits _ rfl)
        rw [BitVec.ofNat_add, BitVec.ofNat_toNat, ← BitVec.add_assoc] at later
        exact later
      · rw [if_neg prop] at fits follows
        by_cases nop : tokenAt m fdt off = fdtNop
        · rw [if_pos nop] at fits follows
          cases follows
          exact add_four_later (fits 4 rfl)
        · rw [if_neg nop] at follows
          cases follows

end Steps

/-! ## Both walks -/

section Returns

variable {m : Mem} {fdt : BitVec 64} {path name : List Byte} {nodeoffset : BitVec 32}

/-- Offsets increase along tokens that fit, so a loop that follows them ends. -/
theorem ends_of_fits {σ ρ : Type} {round : σ → Round σ ρ} {state : σ} (offset : σ → BitVec 32)
    (fits : ∀ reached next, ReflTransGen (Leads round) state reached → Leads round reached next →
      Fits m fdt (offset reached) ∧ Follows m fdt (offset reached) (offset next)) :
    ∃ result, Ends round state result := by
  apply ends_of_decreasing fun state => 2 ^ 32 - (offset state).toNat
  intro reached next isReached leads
  obtain ⟨here, follows⟩ := fits reached next isReached leads
  have later := here.later follows
  have small := (offset next).isLt
  omega

/-- The search returns where there is room, and every token that it passes over fits. -/
theorem PathRoom.returns (room : PathRoom m fdt path)
    (fits : ∀ n place, Searched m fdt path n place → ¬ SearchEnds m fdt path place →
      Fits m fdt place.off) :
    ∃ off, PathOffset m fdt path (.ok off) := by
  obtain ⟨idx, scanned, -⟩ := exists_scanned room.counted room.few
  have isScanned := scanned_of_ok scanned
  have ends : ∃ result,
      Ends (pathOffsetRound m fdt path idx) ⟨offDtStruct m fdt, -2, 0⟩ result := by
    apply ends_of_fits Cursor.curOff
    intro s next reached leads
    obtain ⟨n, place, searched, rfl⟩ := searched_of_reached isScanned reached
    cases searched.outcome isScanned leads with
    | goesOn goesOn _ isNext => exact ⟨fits n place searched goesOn, Place.next_follows isNext⟩
  obtain ⟨result, ended⟩ := ends
  have returns : PathOffset m fdt path result := (pathOffset_iff_ends scanned).mpr ended
  cases result with
  | error fault => exact absurd returns (pathRoom_iff.mp room fault)
  | ok off => exact ⟨off, returns⟩

theorem pathRoom_of_returns (returns : ∃ off, PathOffset m fdt path (.ok off)) :
    PathRoom m fdt path := by
  obtain ⟨off, returns⟩ := returns
  rw [pathRoom_iff]
  intro fault faults
  cases returns.unique faults

theorem getProp_returns
    (fits : ∀ k off, PropSearched m fdt nodeoffset name k off → OtherProp m fdt name off →
      Fits m fdt off) :
    ∃ result, GetProp m fdt nodeoffset name result := by
  apply @ends_of_fits m fdt _ _ (getpropRound m fdt name) (bodyStart m fdt nodeoffset) id
  intro off next reached leads
  obtain ⟨k, searched⟩ := propSearched_of_reached reached
  obtain ⟨other, follows⟩ := getprop_leads_iff.mp leads
  exact ⟨fits k off searched other, follows⟩

end Returns

/-- `fdt_path_offset` returns for every memory where `path_idx` and the counters have room and every
token before the end of the search ends less than 4 GiB behind the start of the blob; without the
room it does not return.  `fdt_getprop` returns where every property before the one with the name
ends before 4 GiB. -/
theorem walks_return (m : Mem) (fdt : BitVec 64) (path : List Byte) (nodeoffset : BitVec 32)
    (name : List Byte) :
    (PathRoom m fdt path →
      (∀ n place, Searched m fdt path n place → ¬ SearchEnds m fdt path place →
        Fits m fdt place.off) → ∃ off, PathOffset m fdt path (.ok off)) ∧
    ((∃ off, PathOffset m fdt path (.ok off)) → PathRoom m fdt path) ∧
    ((∀ k off, PropSearched m fdt nodeoffset name k off → OtherProp m fdt name off →
      Fits m fdt off) → ∃ result, GetProp m fdt nodeoffset name result) :=
  ⟨PathRoom.returns, pathRoom_of_returns, getProp_returns⟩

theorem tokenAt_blank (fdt : BitVec 64) (off : BitVec 32) : tokenAt (fun _ => 0) fdt off = 0 := by
  rw [tokenAt, load32]
  decide

/-- In a memory of zeros there is no token to pass over. -/
theorem fits_blank (fdt : BitVec 64) (off : BitVec 32) : Fits (fun _ => 0) fdt off := by
  have none : tokenBytes (fun _ => 0) fdt off = none := by
    rw [tokenBytes, tokenAt_blank, if_neg (by decide), if_neg (by decide), if_neg (by decide),
      if_neg (by decide)]
  intro bytes some
  rw [none] at some
  cases some

theorem walks_return_blank :
    (∃ off, PathOffset (fun _ => 0) blobBase (ascii "/uart") (.ok off)) ∧
      ∃ result, GetProp (fun _ => 0) blobBase 0 (ascii "reg") result := by
  obtain ⟨path, -, getprop⟩ :=
    walks_return (fun _ => 0) blobBase (ascii "/uart") 0 (ascii "reg")
  have room : PathRoom (fun _ => 0) blobBase (ascii "/uart") := by
    refine ⟨by decide, by decide, ?_⟩
    rintro n place - ⟨begins, -⟩
    rw [tokenAt_blank] at begins
    exact absurd begins (by decide)
  exact ⟨path room fun _ place _ _ => fits_blank blobBase place.off,
    getprop fun _ off _ _ => fits_blank blobBase off⟩

/-! ## A blob that never ends -/

/-- A root node with a property of length `0xfffffff4`. -/
def loopingTokens : List Byte :=
  beginToken [] ++ (word fdtProp ++ (word 0xfffffff4 ++ (word 0 ++
    (word fdtEndNode ++ (word fdtEnd ++ (ascii "reg" ++ [0]))))))

/-- The blob in memory. -/
def loopingMem : Mem := Mem.image blobBase (header 28 4 ++ loopingTokens)

theorem loopingMem_header : offDtStruct loopingMem blobBase = BitVec.ofNat 32 56 ∧
    offDtStrings loopingMem blobBase = BitVec.ofNat 32 84 ∧
    Placed loopingMem blobBase 56 loopingTokens := by
  have stored : loopingMem.Stored blobBase (header 28 4 ++ loopingTokens) :=
    Mem.stored_image _ (by decide)
  have offsets := stored.left.right
  exact ⟨bswap32_load32 offsets.left, bswap32_load32 offsets.right.left,
    { base := by decide
      aligned := by decide
      fits := by decide
      small := by decide
      stored := stored.right }⟩

/-- Behind the property with that length the property itself is looked for. -/
theorem loopingMem_prop : tokenAt loopingMem blobBase 64 = fdtProp ∧
    bswap32 (load32 loopingMem (blobBase + 64 + 4)) = 0xfffffff4 ∧
    bswap32 (load32 loopingMem (blobBase + 64 + 8)) = 0 ∧
    loopingMem.CString (blobBase + 84) (ascii "reg") := by
  obtain ⟨_, _, placed⟩ := loopingMem_header
  have stored := (placed.right (by decide)).stored
  exact ⟨bswap32_load32 stored.left, bswap32_load32 stored.right.left,
    bswap32_load32 stored.right.right.left,
    ⟨by decide, stored.right.right.right.right.right⟩⟩

theorem loopingMem_getprop : Leads (getpropRound loopingMem blobBase (ascii "status")) 64 64 := by
  obtain ⟨prop, length, nameoff, string⟩ := loopingMem_prop
  obtain ⟨_, strings, _⟩ := loopingMem_header
  have pointer : blobBase + (64 : BitVec 32).setWidth 64 = blobBase + 64 := by decide
  have address : blobBase + (BitVec.ofNat 32 84).setWidth 64 + (0 : BitVec 32).setWidth 64 =
      blobBase + 84 := by decide
  have compared : loopingMem.strcmp (ascii "status") (blobBase + 84) ≠ 0 := fun same =>
    absurd ((string.strcmp_eq_zero (by decide)).mp same) (by decide)
  rw [tokenAt] at prop
  rw [Leads, getpropRound]
  dsimp only
  rw [prop, if_pos rfl, pointer, length, nameoff, strings, address, if_neg compared]
  congr 1

/-- The walk for a path stays at the property. -/
theorem loopingMem_walk (path : List Byte) (idx : PathIdx) :
    Leads (pathOffsetRound loopingMem blobBase path idx) ⟨64, -1, 0⟩ ⟨64, -1, 0⟩ := by
  obtain ⟨prop, length, _, _⟩ := loopingMem_prop
  have pointer : blobBase + (64 : BitVec 32).setWidth 64 = blobBase + 64 := by decide
  rw [tokenAt, pointer] at prop
  rw [Leads, pathOffsetRound]
  dsimp only
  rw [pointer, prop, if_neg (by decide), if_neg (by decide), if_pos rfl, length]
  congr 1

attribute [irreducible] loopingMem

/-- Neither function returns for the blob. -/
theorem looping_blob_never_returns :
    (¬ ∃ result, PathOffset loopingMem blobBase (ascii "/uart") result) ∧
      ¬ ∃ result, GetProp loopingMem blobBase (BitVec.ofNat 32 56) (ascii "status") result := by
  obtain ⟨struct, _, placed⟩ := loopingMem_header
  constructor
  · obtain ⟨idx, scanned⟩ : ∃ idx, scanPath 0 (ascii "/uart") .init = .ok idx := ⟨_, rfl⟩
    have first : Leads (pathOffsetRound loopingMem blobBase (ascii "/uart") idx)
        ⟨BitVec.ofNat 32 56, -2, 0⟩ ⟨64, -1, 0⟩ :=
      round_begin_other placed (by decide) (by decide) (by decide)
    have endless := not_ends_of_self (loopingMem_walk (ascii "/uart") idx)
    rintro ⟨result, returns⟩
    rw [pathOffset_iff_ends scanned, struct, Ends.iff_of_reached (.single first)] at returns
    exact endless ⟨result, returns⟩
  · rw [exists_congr fun result => getProp_iff_ends placed (by decide)]
    exact not_ends_of_self loopingMem_getprop

end OscKernel.Fdt
