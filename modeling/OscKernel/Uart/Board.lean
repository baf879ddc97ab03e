import Mathlib.Data.Finset.Card
import Mathlib.Data.Finset.Range
import Mathlib.Logic.Function.Basic
import OscKernel.Riscv.Machine
import OscKernel.Uart.Driver

/-!
# The UART, the PLIC and the hart that uses them

The devices are relations where the hardware has a choice: the line status has bits that nobody
looks at, and any interrupt that is pending and enabled may be claimed.  The receiving half of the
UART is a parameter, of which is assumed that no byte overruns another one.
-/

namespace OscKernel.Uart

open Mmio Riscv

/-! ## The UART -/

/-- The sending half of a UART. -/
structure Transmitter where
  /-- the byte in the holding register -/
  holding : Option Byte
  sent : List Byte
  /-- bytes that were overwritten in the holding register -/
  lost : List Byte

namespace Transmitter

/-- The bytes that were written and not overwritten. -/
def output (t : Transmitter) : List Byte := t.sent ++ t.holding.toList

/-- A write to the holding register. -/
def write (t : Transmitter) (c : Byte) : Transmitter where
  holding := some c
  sent := t.sent
  lost := t.lost ++ t.holding.toList

/-- The byte in the holding register is sent. -/
inductive Sends : Transmitter → Transmitter → Prop
  | mk {c sent lost} : Sends ⟨some c, sent, lost⟩ ⟨none, sent ++ [c], lost⟩

end Transmitter

/-- The receiving half of a UART with what is assumed of it.  While it has no room for a byte the
line holds that byte back, as QEMU does; the kernels themselves do nothing against an overrun. -/
structure ReceiverDevice where
  State : Type
  /-- the bytes that have not been read, the oldest first -/
  waiting : State → List Byte
  /-- a byte comes in, if there is room for it -/
  receives : State → Byte → State → Prop
  /-- a read from the data register -/
  takes : State → Byte → State → Prop
  /-- a byte that comes in overruns no other one -/
  noOverrun {s c s'} : receives s c s' → waiting s' = waiting s ++ [c]
  /-- a read takes the oldest byte -/
  oldest {s c s'} : takes s c s' → waiting s ≠ [] → waiting s = c :: waiting s'
  /-- the data register can always be read -/
  readable (s) : ∃ c s', takes s c s'

/-- A 16550 that holds `depth` bytes: 16 with its FIFO and 1 without. -/
def fifo (depth : Nat) : ReceiverDevice where
  State := { bytes : List Byte // bytes.length ≤ depth }
  waiting s := s.val
  receives s c s' := s'.val = s.val ++ [c]
  takes s c s' := s.val = c :: s'.val ∨ s.val = [] ∧ s'.val = []
  noOverrun received := received
  oldest := by
    rintro s c s' (next | ⟨empty, -⟩) waits
    · exact next
    · exact absurd empty waits
  readable := by
    rintro ⟨bytes, few⟩
    cases bytes with
    | nil => exact ⟨0, ⟨[], few⟩, .inr ⟨rfl, rfl⟩⟩
    | cons c rest => exact ⟨c, ⟨rest, Nat.le_of_succ_le few⟩, .inl rfl⟩

/-- The receiver with all that has passed through it. -/
structure Receiver (device : ReceiverDevice) where
  state : device.State
  /-- all bytes that have been received -/
  received : List Byte
  /-- all bytes that were read from the data register -/
  taken : List Byte

variable {device : ReceiverDevice}

namespace Receiver

/-- The bytes that have not been read. -/
def rx (r : Receiver device) : List Byte := device.waiting r.state

/-- A read from the data register. -/
def Takes (r : Receiver device) (c : Byte) (r' : Receiver device) : Prop :=
  ∃ state, device.takes r.state c state ∧ r' = ⟨state, r.received, r.taken ++ [c]⟩

/-- A byte is received. -/
def Receives (r : Receiver device) (c : Byte) (r' : Receiver device) : Prop :=
  ∃ state, device.receives r.state c state ∧ r' = ⟨state, r.received ++ [c], r.taken⟩

theorem exists_takes (r : Receiver device) : ∃ c r', r.Takes c r' := by
  obtain ⟨c, state, takes⟩ := device.readable r.state
  exact ⟨c, _, state, takes, rfl⟩

/-- A byte that waits is taken. -/
theorem Takes.of_waits {r r' : Receiver device} {c : Byte} (takes : r.Takes c r')
    (waits : r.rx ≠ []) :
    r.rx = c :: r'.rx ∧ r'.taken = r.taken ++ [c] ∧ r'.received = r.received := by
  obtain ⟨state, takes, rfl⟩ := takes
  exact ⟨device.oldest takes waits, rfl, rfl⟩

/-- A byte that comes in waits behind the others. -/
theorem Receives.rx_eq {r r' : Receiver device} {c : Byte} (receives : r.Receives c r') :
    r'.rx = r.rx ++ [c] ∧ r'.taken = r.taken ∧ r'.received = r.received ++ [c] := by
  obtain ⟨state, receives, rfl⟩ := receives
  exact ⟨device.noOverrun receives, rfl, rfl⟩

end Receiver

/-- The registers of the UART that programs use. -/
inductive Register where
  | data
  | interruptEnable
  | modemControl
  | lineStatus

/-- The register at an offset. -/
def register (offset : BitVec 64) : Option Register :=
  if offset = 0 then some .data
  else if offset = 1 then some .interruptEnable
  else if offset = 4 then some .modemControl
  else if offset = 5 then some .lineStatus
  else none

/-! ## The PLIC -/

/-- The interrupt source of the UART. -/
def uartSource : Nat := 10

/-- The PLIC; an enable register has the bits of 32 sources for one context. -/
structure Plic where
  priority : Nat → BitVec 32
  enable : Nat → Nat → BitVec 32
  threshold : Nat → BitVec 32
  pending : Nat → Bool
  claimed : Nat → Bool

namespace Plic

/-- The registers of the PLIC. -/
inductive Register where
  | priority (irq : Nat)
  | enable (context word : Nat)
  | threshold (context : Nat)
  | claim (context : Nat)
  deriving DecidableEq

/-- The register at an offset. -/
def register (offset : Nat) : Option Register :=
  if offset < 0x1000 then some (.priority (offset / 4))
  else if 0x2000 ≤ offset ∧ offset < 0x1f2000 then
    some (.enable ((offset - 0x2000) / 0x80) ((offset - 0x2000) % 0x80 / 4))
  else if 0x200000 ≤ offset ∧ offset < 0x4000000 then
    if offset % 0x1000 = 0 then some (.threshold ((offset - 0x200000) / 0x1000))
    else if offset % 0x1000 = 4 then some (.claim ((offset - 0x200000) / 0x1000))
    else none
  else none

variable (p : Plic)

def Enabled (context irq : Nat) : Prop := (p.enable context (irq / 32)).getLsbD (irq % 32) = true

/-- A source that a context can claim. -/
def Claimable (context irq : Nat) : Prop :=
  0 < irq ∧ irq < 1024 ∧ p.pending irq = true ∧ p.Enabled context irq

/-- A source that interrupts a context. -/
def Delivers (context irq : Nat) : Prop :=
  p.Claimable context irq ∧ p.threshold context < p.priority irq

/-- A read from a claim register. -/
inductive Claims (context : Nat) : BitVec 32 → Plic → Prop
  | nothing (silent : ∀ irq, ¬ p.Delivers context irq) : Claims context 0 p
  | source {irq} (claimable : p.Claimable context irq) : Claims context (BitVec.ofNat 32 irq)
      { p with
        pending := Function.update p.pending irq false
        claimed := Function.update p.claimed irq true }

/-- The value of a register other than a claim register. -/
def value : Register → BitVec 32
  | .priority irq => p.priority irq
  | .enable context word => p.enable context word
  | .threshold context => p.threshold context
  | .claim _ => 0

/-- A read from a register. -/
def Reads : Register → BitVec 32 → Plic → Prop
  | .claim context, value, p' => p.Claims context value p'
  | reg, value, p' => value = p.value reg ∧ p' = p

instance (context irq : Nat) : Decidable (p.Enabled context irq) :=
  inferInstanceAs (Decidable ((p.enable context (irq / 32)).getLsbD (irq % 32) = true))

/-- The completion of an interrupt that is enabled for the context. -/
def complete (context irq : Nat) : Plic :=
  if p.Enabled context irq then { p with claimed := Function.update p.claimed irq false } else p

/-- A write to a register. -/
def write : Register → BitVec 32 → Plic
  | .priority irq, value => { p with priority := Function.update p.priority irq value }
  | .enable context word, value =>
      { p with
        enable := Function.update p.enable context
          (Function.update (p.enable context) word value) }
  | .threshold context, value => { p with threshold := Function.update p.threshold context value }
  | .claim context, irq => p.complete context irq.toNat

/-- The gateway of a source forwards its interrupt, unless there is one that is not completed. -/
inductive Forwards (irq : Nat) : Plic → Prop
  | mk (bound : irq < 1024) (fresh : p.pending irq = false) (completed : p.claimed irq = false) :
      Forwards irq { p with pending := Function.update p.pending irq true }

/-- The sources that may become pending. -/
def fresh : Finset Nat := {irq ∈ Finset.range 1024 | p.pending irq = false}

theorem Forwards.fresh_lt {p p' : Plic} {irq : Nat} (forwards : p.Forwards irq p') :
    p'.fresh.card < p.fresh.card := by
  obtain ⟨bound, isFresh, _⟩ := forwards
  have member : irq ∈ p.fresh := by simp [fresh, bound, isFresh]
  have erased : ({ p with pending := Function.update p.pending irq true } : Plic).fresh =
      p.fresh.erase irq := by
    ext other
    by_cases same : other = irq
    · simp [fresh, same]
    · simp [fresh, same]
  rw [erased]
  exact Finset.card_erase_lt_of_mem member

theorem Claims.fresh_le {p p' : Plic} {context : Nat} {value : BitVec 32}
    (claims : p.Claims context value p') : p'.fresh.card ≤ p.fresh.card + 1 := by
  cases claims with
  | nothing => exact Nat.le_succ _
  | @source irq claimable =>
      refine (Finset.card_le_card ?_).trans (Finset.card_insert_le irq p.fresh)
      intro other member
      by_cases same : other = irq
      · exact Finset.mem_insert.mpr (.inl same)
      · simpa [fresh, same] using member

end Plic

/-! ## The board -/

/-- The receiver, and what turns its input into interrupts. -/
structure Inputs (device : ReceiverDevice) where
  receiver : Receiver device
  ier : Byte
  mcr : Byte
  plic : Plic
  /-- the interrupt lines of the other sources -/
  lines : Nat → Bool
  sstatus : BitVec 64
  sie : BitVec 64

namespace Inputs

variable (i : Inputs device)

/-- The UART may raise its interrupt line.  Other interrupts than the one for input may come up at
any time. -/
def UartLine : Prop :=
  i.mcr.getLsbD 3 = true ∧ (i.ier.getLsbD 0 = true ∧ i.receiver.rx ≠ [] ∨ i.ier &&& 0x0e ≠ 0)

/-- The interrupt line of a source is up. -/
def Line (irq : Nat) : Prop := if irq = uartSource then i.UartLine else i.lines irq = true

/-- The gateways work. -/
inductive Moves : Inputs device → Prop
  | forwards {irq plic} (line : i.Line irq) (forwards : i.plic.Forwards irq plic) :
      Moves { i with plic := plic }

/-- Input arrives, or the line of another source changes. -/
inductive Arrives : Inputs device → Prop
  | receives {c receiver} (receives : i.receiver.Receives c receiver) :
      Arrives { i with receiver := receiver }
  | line (irq : Nat) (level : Bool) : Arrives { i with lines := Function.update i.lines irq level }

/-- An external interrupt is taken in a context of the PLIC. -/
def Interrupted (context : Nat) : Prop :=
  i.sstatus.getLsbD 1 = true ∧ i.sie.getLsbD 9 = true ∧ ∃ irq, i.plic.Delivers context irq

end Inputs

structure Board (device : ReceiverDevice) where
  transmitter : Transmitter
  inputs : Inputs device

namespace Board

variable (b : Board device)

/-- A read from a register of the UART. -/
def UartReads : Register → Byte → Board device → Prop
  | .data, c, b' => ∃ receiver, b.inputs.receiver.Takes c receiver ∧
      b' = { b with inputs := { b.inputs with receiver := receiver } }
  | .interruptEnable, value, b' => value = b.inputs.ier ∧ b' = b
  | .modemControl, value, b' => value = b.inputs.mcr ∧ b' = b
  | .lineStatus, status, b' => (status &&& lsrDr ≠ 0 ↔ b.inputs.receiver.rx ≠ []) ∧
      (status &&& lsrTdrq ≠ 0 ↔ b.transmitter.holding = none) ∧ b' = b

/-- A write to a register of the UART. -/
def uartWrite : Register → Byte → Board device
  | .data, c => { b with transmitter := b.transmitter.write c }
  | .interruptEnable, value => { b with inputs := { b.inputs with ier := value } }
  | .modemControl, value => { b with inputs := { b.inputs with mcr := value } }
  | .lineStatus, _ => b

/-- `PLIC_BASE` -/
def plicBase : BitVec 64 := 0xc000000

def Reads (base : BitVec 64) : (port : Port) → port.Value → Board device → Prop
  | .byte addr, value, b' => ∃ reg, register (addr - base) = some reg ∧ b.UartReads reg value b'
  | .word addr, value, b' => ∃ reg plic, Plic.register (addr - plicBase).toNat = some reg ∧
      b.inputs.plic.Reads reg value plic ∧ b' = { b with inputs := { b.inputs with plic := plic } }
  | .csrs _, _, _ => False

def Writes (base : BitVec 64) : (port : Port) → port.Value → Board device → Prop
  | .byte addr, value, b' => ∃ reg, register (addr - base) = some reg ∧ b' = b.uartWrite reg value
  | .word addr, value, b' => ∃ reg, Plic.register (addr - plicBase).toNat = some reg ∧
      b' = { b with inputs := { b.inputs with plic := b.inputs.plic.write reg value } }
  | .csrs .sstatus, bits, b' =>
      b' = { b with inputs := { b.inputs with sstatus := b.inputs.sstatus ||| bits } }
  | .csrs .sie, bits, b' =>
      b' = { b with inputs := { b.inputs with sie := b.inputs.sie ||| bits } }

inductive Moves : Board device → Prop
  | sends {transmitter} (sends : b.transmitter.Sends transmitter) :
      Moves { b with transmitter := transmitter }
  | inputs {inputs} (moves : b.inputs.Moves inputs) : Moves { b with inputs := inputs }

end Board

/-- The board with a 16550 after a reset, with input that waits. -/
def Board.reset {depth : Nat} (input : List Byte) (few : input.length ≤ depth) :
    Board (fifo depth) where
  transmitter := ⟨none, [], []⟩
  inputs :=
    { receiver := ⟨⟨input, few⟩, input, []⟩
      ier := 0
      mcr := 0
      plic := ⟨fun _ => 0, fun _ _ => 0, fun _ => 0, fun _ => false, fun _ => false⟩
      lines := fun _ => false
      sstatus := 0
      sie := 0 }

/-- What `do_trap` looks at in `struct pt_regs`. -/
structure PtRegs where
  sepc : BitVec 64
  scause : BitVec 64
  stval : BitVec 64

/-- `scause` at an external interrupt -/
def externalInterrupt : BitVec 64 := 0x8000000000000009

/-- The board with a kernel: its receiver, the address of the UART, the context of the hart in the
PLIC, what `handle_exception` calls, and the loop at the end of `start_kernel`. -/
def board (device : ReceiverDevice) (base : BitVec 64) (context : Nat)
    (doTrap : PtRegs → Io Unit) (loop : Io Unit) : System Port Port.Value where
  State := Board device
  reads b := b.Reads base
  writes b := b.Writes base
  moves b := b.Moves
  arrives b b' := ∃ inputs, b.inputs.Arrives inputs ∧ b' = { b with inputs := inputs }
  interrupts b handler b' := b.inputs.Interrupted context ∧
    (∃ sepc stval, handler = doTrap ⟨sepc, externalInterrupt, stval⟩) ∧
    b' = { b with
      inputs := { b.inputs with sstatus := Machine.trapStatus .supervisor b.inputs.sstatus } }
  resume b := { b with inputs := { b.inputs with sstatus := Machine.sretStatus b.inputs.sstatus } }
  loop := loop

end OscKernel.Uart
