import OscKernel.Fdt.Blob
import OscKernel.Riscv.Footprint

/-!
# The fw_cfg device (`ex52/video.c`)

The DMA transfers of the driver.  The device is a parameter: what is documented of it are the laws
of `FwCfgDevice`, and `qemu` is a device that keeps them.
-/

namespace OscKernel.Video

open Riscv Fdt

/-- `FW_CFG_DMA_CTL_ERROR` -/
def ctlError : BitVec 32 := 0x01

/-- `FW_CFG_DMA_CTL_READ` -/
def ctlRead : BitVec 32 := 0x02

/-- `FW_CFG_DMA_CTL_SELECT` -/
def ctlSelect : BitVec 32 := 0x08

/-- `FW_CFG_DMA_CTL_WRITE` -/
def ctlWrite : BitVec 32 := 0x10

/-- The bytes of an `uint32_t` in memory. -/
def le32 (v : BitVec 32) : List Byte :=
  [v.extractLsb' 0 8, v.extractLsb' 8 8, v.extractLsb' 16 8, v.extractLsb' 24 8]

/-- The bytes of an `uint64_t` in memory. -/
def le64 (v : BitVec 64) : List Byte :=
  [v.extractLsb' 0 8, v.extractLsb' 8 8, v.extractLsb' 16 8, v.extractLsb' 24 8,
    v.extractLsb' 32 8, v.extractLsb' 40 8, v.extractLsb' 48 8, v.extractLsb' 56 8]

/-- The bytes of a big-endian doubleword. -/
def quad (v : BitVec 64) : List Byte :=
  [v.extractLsb' 56 8, v.extractLsb' 48 8, v.extractLsb' 40 8, v.extractLsb' 32 8,
    v.extractLsb' 24 8, v.extractLsb' 16 8, v.extractLsb' 8 8, v.extractLsb' 0 8]

/-- `struct FWCfgDmaAccess`, as the device understands it. -/
structure FwCfgDmaAccess where
  control : BitVec 32
  length : BitVec 32
  address : BitVec 64
  deriving DecidableEq

/-- The fields are big-endian. -/
def accessAt (m : Mem) (a : BitVec 64) : FwCfgDmaAccess where
  control := bswap32 (load32 m a)
  length := bswap32 (load32 m (a + 4))
  address := bswap64 (load64 m (a + 8))

/-- What there is to read, and where the device is. -/
structure FwCfg where
  items : BitVec 16 → List Byte
  selected : BitVec 16
  offset : Nat

namespace FwCfg

/-- A transfer with `SELECT` starts an item, and others go on. -/
def select (fw : FwCfg) (control : BitVec 32) : FwCfg :=
  if control &&& ctlSelect = 0 then fw
  else { fw with selected := (control >>> 16).setWidth 16, offset := 0 }

/-- The next bytes of the item. -/
def next (fw : FwCfg) (n : Nat) : List Byte := ((fw.items fw.selected).drop fw.offset).take n

def advance (fw : FwCfg) (n : Nat) : FwCfg := { fw with offset := fw.offset + n }

end FwCfg

/-- A device with what is documented of its DMA interface. -/
structure FwCfgDevice where
  State : Type
  view : State → FwCfg
  /-- the address of a `FWCfgDmaAccess` is written to the register -/
  dma : State → Mem → BitVec 64 → State × Mem
  /-- the control word is cleared, up to an error -/
  done : ∀ s m a, bswap32 (load32 (dma s m a).2 a) &&& ~~~ctlError = 0
  /-- a transfer with `READ` copies the next bytes of the item -/
  reads : ∀ s m a, (accessAt m a).control &&& ctlRead ≠ 0 →
    Disjoint (bytesAt a 4) (bytesAt (accessAt m a).address (accessAt m a).length.toNat) →
    (((view s).select (accessAt m a).control).next (accessAt m a).length.toNat).length =
      (accessAt m a).length.toNat →
    view (dma s m a).1 =
        ((view s).select (accessAt m a).control).advance (accessAt m a).length.toNat ∧
      (dma s m a).2.Stored (accessAt m a).address
        (((view s).select (accessAt m a).control).next (accessAt m a).length.toNat)
  /-- the device writes nothing else -/
  frame : ∀ s m a, ∀ x ∉ bytesAt a 4,
    x ∉ bytesAt (accessAt m a).address (accessAt m a).length.toNat → (dma s m a).2 x = m x

/-- A transfer that was asked for, with the bytes in memory at its address. -/
structure Dma where
  access : FwCfgDmaAccess
  data : List Byte
  deriving DecidableEq

namespace Dma

/-- `READ` goes before `WRITE`. -/
def isWrite (transfer : Dma) : Bool :=
  transfer.access.control &&& ctlRead = 0 ∧ transfer.access.control &&& ctlWrite ≠ 0

/-- The item that the transfer selects. -/
def selector (transfer : Dma) : Option (BitVec 16) :=
  if transfer.access.control &&& ctlSelect = 0 then none
  else some ((transfer.access.control >>> 16).setWidth 16)

end Dma

/-- Memory, the device, and the transfers so far. -/
structure World (device : FwCfgDevice) where
  mem : Mem
  state : device.State
  log : List Dma

section Driver

variable {device : FwCfgDevice}

/-- A big-endian address is written to `FW_CFG_DMA`. -/
def World.writeDma (w : World device) (value : BitVec 64) : World device :=
  let a := bswap64 value
  let access := accessAt w.mem a
  { mem := (device.dma w.state w.mem a).2
    state := (device.dma w.state w.mem a).1
    log := w.log ++ [⟨access, w.mem.read access.address access.length.toNat⟩] }

/-- `fw_cfg_dma_transfer`, with the address of `access`; `none` if the wait does not end. -/
def fwCfgDmaTransfer (access address : BitVec 64) (length control : BitVec 32)
    (w : World device) : Option (World device) :=
  let mem := w.mem.write access
    (le32 (bswap32 control) ++ le32 (bswap32 length) ++ le64 (bswap64 address))
  let w := { w with mem := mem }.writeDma (bswap64 access)
  if bswap32 (load32 w.mem access) &&& ~~~ctlError ≠ 0 then none else some w

def fwCfgReadEntry (access buf : BitVec 64) (e len : BitVec 32) (w : World device) :
    Option (World device) :=
  fwCfgDmaTransfer access buf len (e <<< 16 ||| ctlSelect ||| ctlRead) w

def fwCfgWriteEntry (access buf : BitVec 64) (e len : BitVec 32) (w : World device) :
    Option (World device) :=
  fwCfgDmaTransfer access buf len (e <<< 16 ||| ctlSelect ||| ctlWrite) w

end Driver

/-! ## Bytes -/

section Words

variable {m : Mem} {a : BitVec 64}

theorem le32_append (a b c d : Byte) : le32 (d ++ c ++ b ++ a) = [a, b, c, d] := by
  have bytes : ∀ x y : Byte, x = y ↔ ∀ i < 8, x.getLsbD i = y.getLsbD i := fun x y =>
    BitVec.eq_of_getLsbD_eq_iff
  simp only [le32, List.cons.injEq, and_true, bytes, BitVec.getLsbD_extractLsb',
    BitVec.getLsbD_append]
  grind

theorem le64_append (a b c d e f g h : Byte) :
    le64 (h ++ g ++ f ++ e ++ d ++ c ++ b ++ a) = [a, b, c, d, e, f, g, h] := by
  have bytes : ∀ x y : Byte, x = y ↔ ∀ i < 8, x.getLsbD i = y.getLsbD i := fun x y =>
    BitVec.eq_of_getLsbD_eq_iff
  simp only [le64, List.cons.injEq, and_true, bytes, BitVec.getLsbD_extractLsb',
    BitVec.getLsbD_append]
  grind

/-- A swapped word is big-endian in memory. -/
theorem le32_bswap32 (v : BitVec 32) : le32 (bswap32 v) = word v :=
  le32_append ..

theorem le64_bswap64 (v : BitVec 64) : le64 (bswap64 v) = quad v :=
  le64_append ..

theorem append_extract64 (v : BitVec 64) :
    v.extractLsb' 56 8 ++ v.extractLsb' 48 8 ++ v.extractLsb' 40 8 ++ v.extractLsb' 32 8 ++
      v.extractLsb' 24 8 ++ v.extractLsb' 16 8 ++ v.extractLsb' 8 8 ++ v.extractLsb' 0 8 = v := by
  simp only [BitVec.extractLsb'_append_extractLsb'_eq_extractLsb']
  simp

theorem bswap64_bswap64 (v : BitVec 64) : bswap64 (bswap64 v) = v :=
  (bswap64_append ..).trans (append_extract64 v)

/-- A stored doubleword is read back. -/
theorem bswap64_load64_quad {v : BitVec 64} (stored : m.Stored a (quad v)) :
    bswap64 (load64 m a) = v := by
  have byte : ∀ i < 8, m (a + BitVec.ofNat 64 i) = (quad v).getD i 0 := by
    intro i inside
    rw [stored.byte inside, List.getD_eq_getElem?_getD, List.getElem?_eq_getElem inside,
      Option.getD_some]
  have first : m a = v.extractLsb' 56 8 := by
    have start := byte 0 (by decide)
    rwa [show a + BitVec.ofNat 64 0 = a from BitVec.add_zero a] at start
  have second : m (a + 1) = v.extractLsb' 48 8 := byte 1 (by decide)
  have third : m (a + 2) = v.extractLsb' 40 8 := byte 2 (by decide)
  have fourth : m (a + 3) = v.extractLsb' 32 8 := byte 3 (by decide)
  have fifth : m (a + 4) = v.extractLsb' 24 8 := byte 4 (by decide)
  have sixth : m (a + 5) = v.extractLsb' 16 8 := byte 5 (by decide)
  have seventh : m (a + 6) = v.extractLsb' 8 8 := byte 6 (by decide)
  have eighth : m (a + 7) = v.extractLsb' 0 8 := byte 7 (by decide)
  rw [load64, bswap64_append, first, second, third, fourth, fifth, sixth, seventh, eighth,
    append_extract64]

/-- The bytes of a transfer in memory. -/
def FwCfgDmaAccess.encode (access : FwCfgDmaAccess) : List Byte :=
  word access.control ++ word access.length ++ quad access.address

theorem FwCfgDmaAccess.encode_length (access : FwCfgDmaAccess) : access.encode.length = 16 := rfl

/-- The device understands what the driver writes. -/
theorem accessAt_stored {access : FwCfgDmaAccess} (stored : m.Stored a access.encode) :
    accessAt m a = access := by
  have control := bswap32_load32 stored.left.left
  have length : bswap32 (load32 m (a + 4)) = access.length := bswap32_load32 stored.left.right
  have address : bswap64 (load64 m (a + 8)) = access.address := bswap64_load64_quad stored.right
  rw [accessAt, control, length, address]

end Words

/-! ## Transfers -/

section Transfers

variable {device : FwCfgDevice} {access address x : BitVec 64} {length control : BitVec 32}
variable {w : World device}

/-- Memory with the `FWCfgDmaAccess` of a transfer. -/
def described (m : Mem) (access address : BitVec 64) (length control : BitVec 32) : Mem :=
  m.write access (FwCfgDmaAccess.encode ⟨control, length, address⟩)

theorem accessAt_described (m : Mem) :
    accessAt (described m access address length control) access = ⟨control, length, address⟩ :=
  accessAt_stored (Mem.stored_write m access (by rw [FwCfgDmaAccess.encode_length]; decide))

theorem described_outside {m : Mem} (outside : x ∉ bytesAt access 16) :
    described m access address length control x = m x :=
  Mem.write_outside (Nat.le_of_not_lt outside)

/-- A transfer is one step of the device, and the wait after it ends. -/
theorem fwCfgDmaTransfer_eq :
    fwCfgDmaTransfer access address length control w =
      some
        { mem := (device.dma w.state (described w.mem access address length control) access).2
          state := (device.dma w.state (described w.mem access address length control) access).1
          log := w.log ++ [⟨⟨control, length, address⟩,
            (described w.mem access address length control).read address length.toNat⟩] } := by
  have bytes : w.mem.write access
      (le32 (bswap32 control) ++ le32 (bswap32 length) ++ le64 (bswap64 address)) =
        described w.mem access address length control := by
    rw [le32_bswap32, le32_bswap32, le64_bswap64]
    rfl
  rw [fwCfgDmaTransfer, bytes]
  simp only [World.writeDma, bswap64_bswap64, accessAt_described]
  rw [if_neg (not_not.mpr (device.done _ _ _))]

/-- What a transfer does besides. -/
structure Transferred (access address : BitVec 64) (length control : BitVec 32)
    (w w' : World device) : Prop where
  log : ∃ data, w'.log = w.log ++ [⟨⟨control, length, address⟩, data⟩]
  frame : ∀ x ∉ bytesAt access 16, x ∉ bytesAt address length.toNat → w'.mem x = w.mem x

/-- Bytes beside a transfer stay. -/
theorem Transferred.stored {w' : World device} {a : BitVec 64} {bytes : List Byte}
    (transferred : Transferred access address length control w w')
    (stored : w.mem.Stored a bytes)
    (apart : Disjoint (bytesAt a bytes.length) (bytesAt access 16))
    (apartBuffer : Disjoint (bytesAt a bytes.length) (bytesAt address length.toNat)) :
    w'.mem.Stored a bytes := by
  apply stored.congr
  intro i inside
  have member := offset_mem_bytesAt (a := a) inside
  exact transferred.frame _ (Set.disjoint_left.mp apart member)
    (Set.disjoint_left.mp apartBuffer member)

/-- A transfer with `READ` copies the next bytes of the item. -/
theorem fwCfgDmaTransfer_read (w : World device) (length : BitVec 32)
    (isRead : control &&& ctlRead ≠ 0)
    (apart : Disjoint (bytesAt access 16) (bytesAt address length.toNat))
    (enough : (((device.view w.state).select control).next length.toNat).length = length.toNat) :
    ∃ w', fwCfgDmaTransfer access address length control w = some w' ∧
      Transferred access address length control w w' ∧
      device.view w'.state = ((device.view w.state).select control).advance length.toNat ∧
      w'.mem.Stored address (((device.view w.state).select control).next length.toNat) := by
  have understood : accessAt (described w.mem access address length control) access = _ :=
    accessAt_described w.mem
  have reads := device.reads w.state (described w.mem access address length control) access
  have frame := device.frame w.state (described w.mem access address length control) access
  rw [understood] at reads frame
  have control4 : bytesAt access 4 ⊆ bytesAt access 16 := bytesAt_mono (by decide)
  obtain ⟨view, stored⟩ := reads isRead (Set.disjoint_of_subset_left control4 apart) enough
  refine ⟨_, fwCfgDmaTransfer_eq, ⟨⟨_, rfl⟩, ?_⟩, view, stored⟩
  intro x outside notBuffer
  have kept := frame x (fun member => outside (control4 member)) notBuffer
  exact kept.trans (described_outside outside)

/-- A transfer passes the bytes that are stored beside its `FWCfgDmaAccess`. -/
theorem fwCfgDmaTransfer_data (length control : BitVec 32) {data : List Byte}
    (stored : w.mem.Stored address data) (whole : data.length = length.toNat)
    (apart : Disjoint (bytesAt access 16) (bytesAt address length.toNat)) :
    ∃ w', fwCfgDmaTransfer access address length control w = some w' ∧
      w'.log = w.log ++ [⟨⟨control, length, address⟩, data⟩] := by
  refine ⟨_, fwCfgDmaTransfer_eq, ?_⟩
  have kept : (described w.mem access address length control).Stored address data := by
    apply stored.congr
    intro i inside
    apply described_outside
    rw [whole] at inside
    exact Set.disjoint_right.mp apart (offset_mem_bytesAt inside)
  rw [← whole, kept.read]

end Transfers

/-! ## A device -/

namespace FwCfg

/-- The next bytes of the item, with zeros behind its end. -/
def padded (fw : FwCfg) (n : Nat) : List Byte :=
  fw.next n ++ List.replicate (n - (fw.next n).length) 0

/-- Bytes are written to the item. -/
def overwrite (fw : FwCfg) (data : List Byte) : FwCfg :=
  let item := fw.items fw.selected
  { fw with
    items := Function.update fw.items fw.selected
      (item.take fw.offset ++ data ++ item.drop (fw.offset + data.length)) }

theorem padded_length (fw : FwCfg) (n : Nat) : (fw.padded n).length = n := by
  have fewer : (fw.next n).length ≤ n := List.length_take_le ..
  rw [padded, List.length_append, List.length_replicate]
  omega

theorem padded_eq_next {fw : FwCfg} {n : Nat} (enough : (fw.next n).length = n) :
    fw.padded n = fw.next n := by
  rw [padded, enough, Nat.sub_self, List.replicate_zero, List.append_nil]

/-- A transfer: the new state, what a `READ` copies, and the control word that is left. -/
def transfer (fw : FwCfg) (m : Mem) (access : FwCfgDmaAccess) :
    FwCfg × Option (List Byte) × BitVec 32 :=
  let fw := fw.select access.control
  let n := access.length.toNat
  if access.control &&& ctlRead ≠ 0 then
    (fw.advance (fw.next n).length, some (fw.padded n), 0)
  else if access.control &&& ctlWrite ≠ 0 then
    if (fw.next n).length = n then
      ((fw.overwrite (m.read access.address n)).advance n, none, 0)
    else (fw, none, ctlError)
  else (fw, none, 0)

section Transfer

variable (fw : FwCfg) (m : Mem) (access : FwCfgDmaAccess)

theorem transfer_control :
    (fw.transfer m access).2.2 = 0 ∨ (fw.transfer m access).2.2 = ctlError := by
  rw [transfer]
  split
  · exact .inl rfl
  · split
    · split
      · exact .inl rfl
      · exact .inr rfl
    · exact .inl rfl

theorem transfer_copied : ((fw.transfer m access).2.1.getD []).length ≤ access.length.toNat := by
  rw [transfer]
  split
  · exact Nat.le_of_eq (padded_length ..)
  · split
    · split
      · exact Nat.zero_le _
      · exact Nat.zero_le _
    · exact Nat.zero_le _

variable {fw access}

theorem transfer_read (isRead : access.control &&& ctlRead ≠ 0)
    (enough : ((fw.select access.control).next access.length.toNat).length =
      access.length.toNat) :
    fw.transfer m access = ((fw.select access.control).advance access.length.toNat,
      some ((fw.select access.control).next access.length.toNat), 0) := by
  rw [transfer, if_pos isRead, padded_eq_next enough, enough]

end Transfer

end FwCfg

/-- A device that completes a transfer at once.  Writes have to stay inside of the item. -/
def qemu : FwCfgDevice where
  State := FwCfg
  view fw := fw
  dma fw m a :=
    let access := accessAt m a
    let (fw, copied, control) := fw.transfer m access
    (fw, (m.write access.address (copied.getD [])).write a (word control))
  done := by
    intro fw m a
    dsimp only
    rw [bswap32_load32 (Mem.stored_write _ a (by rw [word_length]; decide))]
    rcases fw.transfer_control m (accessAt m a) with cleared | error
    · rw [cleared]
      rfl
    · rw [error]
      rfl
  reads := by
    intro fw m a isRead apart enough
    dsimp only
    rw [FwCfg.transfer_read m isRead enough]
    refine ⟨rfl, ?_⟩
    have bound := (accessAt m a).length.isLt
    have stored := Mem.stored_write m (accessAt m a).address
      (show ((fw.select (accessAt m a).control).next _).length ≤ 2 ^ 64 by rw [enough]; omega)
    apply stored.congr
    intro i inside
    apply Mem.write_outside
    rw [enough] at inside
    exact Nat.le_of_not_lt (Set.disjoint_right.mp apart (offset_mem_bytesAt inside))
  frame := by
    intro fw m a x notControl notBuffer
    have behind : (word (fw.transfer m (accessAt m a)).2.2).length ≤ distance a x := by
      rw [word_length]
      exact Nat.le_of_not_lt notControl
    dsimp only
    rw [Mem.write_outside behind, Mem.write_outside]
    exact (fw.transfer_copied m _).trans (Nat.le_of_not_lt notBuffer)

end OscKernel.Video
