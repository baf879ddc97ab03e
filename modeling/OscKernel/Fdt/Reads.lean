import OscKernel.Fdt.WalkEnds
import OscKernel.Riscv.Footprint

/-!
# What the readers read (`ex21/main.c`)

The bytes that `fdt_path_offset` and `fdt_getprop` read of a blob, round by round.  Neither is
given the size of the buffer, so they stay inside it exactly if every token that they come to
does, with its fields and with the strings behind it.
-/

namespace OscKernel.Fdt

open Alloc Riscv Loops Relation

/-! ## Footprints -/

section Footprints

variable (m : Mem) (fdt : BitVec 64)

/-- What one round of `fdt_path_offset` reads: the token, and the name of a node or the length of
a value. -/
def pathOffsetReads (off : BitVec 32) : Set (BitVec 64) :=
  let token := fdt + off.setWidth 64
  bytesAt token 4 ∪
    if tokenAt m fdt off = fdtBeginNode then m.stringAt (token + 4)
    else if tokenAt m fdt off = fdtProp then bytesAt (token + 4) 4
    else ∅

/-- What `fdt_path_offset` reads: `off_dt_struct` and `off_dt_strings`, and the tokens. -/
def pathOffsetRead (path : List Byte) : Set (BitVec 64) :=
  {x | ∃ idx, scanPath 0 path .init = .ok idx ∧ (x ∈ bytesAt (fdt + 8) 8 ∨
    ∃ s, ReflTransGen (Leads (pathOffsetRound m fdt path idx)) ⟨offDtStruct m fdt, -2, 0⟩ s ∧
      x ∈ pathOffsetReads m fdt s.curOff)}

/-- What one round of `fdt_getprop` reads: the token, and of a property the length, the offset of
the name, and as much of the name as is compared. -/
def getpropReads (name : List Byte) (off : BitVec 32) : Set (BitVec 64) :=
  let token := fdt + off.setWidth 64
  bytesAt token 4 ∪
    if tokenAt m fdt off = fdtProp then
      bytesAt (token + 4) 8 ∪ bytesAt (propName m fdt off) (m.strcmpReads name (propName m fdt off))
    else ∅

/-- What `fdt_getprop` reads: `off_dt_strings`, the name of the node, and the tokens. -/
def getpropRead (nodeoffset : BitVec 32) (name : List Byte) : Set (BitVec 64) :=
  {x | x ∈ bytesAt (fdt + 12) 4 ∨ x ∈ m.stringAt (fdt + nodeoffset.setWidth 64 + 4) ∨
    ∃ off, ReflTransGen (Leads (getpropRound m fdt name)) (bodyStart m fdt nodeoffset) off ∧
      x ∈ getpropReads m fdt name off}

end Footprints

section Subset

variable {m : Mem} {fdt : BitVec 64} {path name : List Byte} {idx : PathIdx} {set : Set (BitVec 64)}
variable {nodeoffset : BitVec 32}

theorem pathOffsetRead_subset_iff (scanned : scanPath 0 path .init = .ok idx) :
    pathOffsetRead m fdt path ⊆ set ↔ bytesAt (fdt + 8) 8 ⊆ set ∧
      ∀ s, ReflTransGen (Leads (pathOffsetRound m fdt path idx)) ⟨offDtStruct m fdt, -2, 0⟩ s →
        pathOffsetReads m fdt s.curOff ⊆ set := by
  constructor
  · intro all
    constructor
    · intro x member
      exact all ⟨idx, scanned, .inl member⟩
    · intro s reached x member
      exact all ⟨idx, scanned, .inr ⟨s, reached, member⟩⟩
  · rintro ⟨header, tokens⟩ x ⟨other, otherScanned, member⟩
    cases scanned.symm.trans otherScanned
    rcases member with inHeader | ⟨s, reached, inToken⟩
    · exact header inHeader
    · exact tokens s reached inToken

theorem getpropRead_subset_iff :
    getpropRead m fdt nodeoffset name ⊆ set ↔ bytesAt (fdt + 12) 4 ⊆ set ∧
      m.stringAt (fdt + nodeoffset.setWidth 64 + 4) ⊆ set ∧
      ∀ off, ReflTransGen (Leads (getpropRound m fdt name)) (bodyStart m fdt nodeoffset) off →
        getpropReads m fdt name off ⊆ set := by
  constructor
  · intro all
    refine ⟨?_, ?_, ?_⟩
    · intro x member
      exact all (.inl member)
    · intro x member
      exact all (.inr (.inl member))
    · intro off reached x member
      exact all (.inr (.inr ⟨off, reached, member⟩))
  · rintro ⟨header, nodeName, tokens⟩ x (inHeader | inName | ⟨off, reached, inToken⟩)
    · exact header inHeader
    · exact nodeName inName
    · exact tokens off reached inToken

end Subset

/-! ## The footprints are complete -/

section Congr

variable {m m' : Mem} {fdt a : BitVec 64} {path name : List Byte} {idx : PathIdx} {s : Cursor}
variable {off nodeoffset : BitVec 32}

theorem load32_congr (agree : Set.EqOn m' m (bytesAt a 4)) : load32 m' a = load32 m a :=
  load32_copied fun _ below => agree (offset_mem_bytesAt below)

/-- A comparison depends on the name and its NUL. -/
theorem componentAccepts_congr {depth : Nat} (agree : Set.EqOn m' m (m.stringAt a)) :
    componentAccepts m' a path idx depth = componentAccepts m a path idx depth := by
  have length := Mem.strlen_congr agree
  rw [componentAccepts, componentAccepts, length]
  congr 1
  funext start
  rw [strncmp2_eq, strncmp2_eq]
  congr 2
  apply strncmp2Loop_congr
  intro j _ below
  have short := toInt_ofNat_le (m.strlen a)
  exact agree (offset_mem_bytesAt (by omega))

/-- A round of `fdt_path_offset` depends on what it reads and on nothing else. -/
theorem pathOffsetRound_congr (agree : Set.EqOn m' m (pathOffsetReads m fdt s.curOff)) :
    pathOffsetRound m' fdt path idx s = pathOffsetRound m fdt path idx s := by
  rw [pathOffsetReads] at agree
  have token : load32 m' (fdt + s.curOff.setWidth 64) = load32 m (fdt + s.curOff.setWidth 64) :=
    load32_congr (agree.mono Set.subset_union_left)
  have fields := agree.mono Set.subset_union_right
  rw [pathOffsetRound, pathOffsetRound]
  dsimp only
  rw [token]
  by_cases begins : tokenAt m fdt s.curOff = fdtBeginNode
  · rw [if_pos begins] at fields
    rw [tokenAt] at begins
    have length := Mem.strlen_congr fields
    have compared := @componentAccepts_congr m m' (fdt + s.curOff.setWidth 64 + 4) path idx
      s.matchingDepth fields
    rw [if_pos begins, if_pos begins, length, compared]
  · rw [if_neg begins] at fields
    have other := begins
    rw [tokenAt] at other
    rw [if_neg other, if_neg other]
    by_cases prop : tokenAt m fdt s.curOff = fdtProp
    · rw [if_pos prop] at fields
      rw [load32_congr fields]
    · rw [tokenAt] at prop
      rw [if_neg prop, if_neg prop]

/-- `fdt_path_offset` depends on what it reads and on nothing else. -/
theorem pathOffset_congr {result : Except Fault (BitVec 32)}
    (agree : Set.EqOn m' m (pathOffsetRead m fdt path)) (returns : PathOffset m fdt path result) :
    PathOffset m' fdt path result := by
  cases scanned : scanPath 0 path .init with
  | error fault =>
      obtain ⟨fuel, ended⟩ := returns
      rw [fdtPathOffset, scanned] at ended
      exact ⟨fuel, by rw [fdtPathOffset, scanned, ended]⟩
  | ok idx =>
      obtain ⟨header, tokens⟩ := (pathOffsetRead_subset_iff scanned).mp subset_rfl
      have struct : offDtStruct m' fdt = offDtStruct m fdt := by
        rw [offDtStruct, offDtStruct, load32_congr]
        exact agree.mono ((bytesAt_mono (by decide)).trans header)
      rw [pathOffset_iff_ends scanned] at returns ⊢
      rw [struct]
      apply returns.congr
      intro s reached
      exact pathOffsetRound_congr (agree.mono (tokens s reached))

/-- A round of `fdt_getprop` depends on what it reads and on `off_dt_strings`. -/
theorem getpropRound_congr (strings : offDtStrings m' fdt = offDtStrings m fdt)
    (agree : Set.EqOn m' m (getpropReads m fdt name off)) :
    getpropRound m' fdt name off = getpropRound m fdt name off := by
  rw [getpropReads] at agree
  have token : load32 m' (fdt + off.setWidth 64) = load32 m (fdt + off.setWidth 64) :=
    load32_congr (agree.mono Set.subset_union_left)
  have fields := agree.mono Set.subset_union_right
  rw [getpropRound, getpropRound]
  dsimp only
  rw [token]
  by_cases prop : tokenAt m fdt off = fdtProp
  · rw [if_pos prop] at fields
    rw [tokenAt] at prop
    have words := fields.mono Set.subset_union_left
    have compared := Mem.strcmp_congr (fields.mono Set.subset_union_right)
    have length : load32 m' (fdt + off.setWidth 64 + 4) = load32 m (fdt + off.setWidth 64 + 4) :=
      load32_congr (words.mono (bytesAt_mono (by decide)))
    have nameOff : load32 m' (fdt + off.setWidth 64 + 8) =
        load32 m (fdt + off.setWidth 64 + 8) := by
      have later : fdt + off.setWidth 64 + 8 =
          fdt + off.setWidth 64 + 4 + BitVec.ofNat 64 4 := (BitVec.add_assoc _ 4 4).symm
      rw [later]
      exact load32_congr (words.mono bytesAt_offset_subset)
    rw [propName] at compared
    rw [if_pos prop, if_pos prop, length, nameOff, strings, compared]
  · rw [tokenAt] at prop
    rw [if_neg prop, if_neg prop]

/-- `fdt_getprop` depends on what it reads and on nothing else. -/
theorem getProp_congr {result : Option (BitVec 64 × BitVec 32)}
    (agree : Set.EqOn m' m (getpropRead m fdt nodeoffset name))
    (returns : GetProp m fdt nodeoffset name result) : GetProp m' fdt nodeoffset name result := by
  obtain ⟨header, nodeName, tokens⟩ :=
    (@getpropRead_subset_iff m fdt name _ nodeoffset).mp subset_rfl
  have strings : offDtStrings m' fdt = offDtStrings m fdt := by
    rw [offDtStrings, offDtStrings, load32_congr (agree.mono header)]
  have length := Mem.strlen_congr (agree.mono nodeName)
  have start : bodyStart m' fdt nodeoffset = bodyStart m fdt nodeoffset := by
    rw [bodyStart, bodyStart, length]
  have ends : Ends (getpropRound m fdt name) (bodyStart m fdt nodeoffset) result := returns
  have same : Ends (getpropRound m' fdt name) (bodyStart m fdt nodeoffset) result := by
    apply ends.congr
    intro off reached
    exact getpropRound_congr strings (agree.mono (tokens off reached))
  rw [← start] at same
  exact same

end Congr

end OscKernel.Fdt
