import OscKernel.Uart.Output

/-!
# A kernel with UART interrupts (`ex42/main.c`)

`start_kernel` configures the PLIC and the UART and then waits for interrupts, and `do_trap`
reads a byte and prints a report.  In any order of the steps each byte is read once and reported
once, and no interrupt is left over.
-/

namespace OscKernel.Uart.Ex42

open Cpio Mmio Riscv Uart

/-! ## The kernel -/

/-- `UART_BASE` -/
def uartBase : BitVec 64 := 0x10000000

/-- `UART_IRQ` -/
def uartIrq : BitVec 32 := 0x0a

def plicPriority (irq : BitVec 64) : BitVec 64 := Board.plicBase + irq * 4

def plicEnable (hart : BitVec 64) : BitVec 64 := Board.plicBase + 0x002080 + hart * 0x0100

def plicThreshold (hart : BitVec 64) : BitVec 64 := Board.plicBase + 0x201000 + hart * 0x2000

/-- The address `PLIC_CLAIM` -/
def plicClaimAddr (hart : BitVec 64) : BitVec 64 := Board.plicBase + 0x201004 + hart * 0x2000

def bootCpuHartid : BitVec 64 := 0

def uartInit : Io Unit := do
  modify (ier uartBase) fun (value : Byte) => value ||| (1 : Byte) <<< 0
  modify (mcr uartBase) fun (value : Byte) => value ||| (1 : Byte) <<< 3

def irqEnable : Io Unit := Program.put (.csrs .sstatus) ((1 : BitVec 64) <<< 1)

def enableExternalInterrupt : Io Unit := Program.put (.csrs .sie) ((1 : BitVec 64) <<< 9)

def plicInit : Io Unit := do
  modify (.word (plicPriority 0x0a)) fun (value : BitVec 32) => value ||| 1
  modify (.word (plicEnable bootCpuHartid + 0x0a / 32 * 4)) fun (value : BitVec 32) =>
    value ||| (1 : BitVec 32) <<< (0x0a % 32)
  modify (.word (plicThreshold bootCpuHartid)) fun (value : BitVec 32) => value &&& 0
  enableExternalInterrupt

def plicClaim : Io (BitVec 32) := Program.get (Port.word (plicClaimAddr bootCpuHartid))

def plicComplete (irq : BitVec 32) : Io Unit :=
  Program.put (.word (plicClaimAddr bootCpuHartid)) irq

/-- What `do_trap` prints for an interrupt of the UART. -/
def report (regs : PtRegs) (irq : BitVec 32) : Io Unit := do
  uartPuts uartBase (ascii "scause: ")
  uartHex uartBase regs.scause
  uartPuts uartBase (ascii "\nspec: ")
  uartHex uartBase regs.sepc
  uartPuts uartBase (ascii "\nstval: ")
  uartHex uartBase regs.stval
  uartPuts uartBase (ascii "\nirq: ")
  uartHex uartBase (irq.signExtend 64)
  uartPuts uartBase (ascii "\n")

def doTrap (regs : PtRegs) : Io Unit := do
  let irq : BitVec 32 ← plicClaim
  if irq = uartIrq then
    let _c : Byte ← Program.get (rbr uartBase)
    report regs irq
  if irq ≠ 0 then plicComplete irq

/-- `start_kernel` before its loop -/
def startKernel : Io Unit := do
  uartPuts uartBase (ascii "\nStarting kernel ...\n")
  plicInit
  uartInit
  irqEnable

/-- The board with this kernel.  Context 1 of the PLIC is the supervisor mode of hart 0. -/
abbrev ex42 (device : ReceiverDevice) : System Port Port.Value :=
  board device uartBase 1 doTrap (.ret ())

variable {device : ReceiverDevice}

/-! ## Registers -/

/-- A register that only programs change. -/
structure Cell (port : Port) (get : Inputs device → port.Value)
    (set : port.Value → Inputs device → Inputs device) : Prop where
  reads {b value b'} : (ex42 device).reads b port value b' ↔ value = get b.inputs ∧ b' = b
  writes {b value b'} :
    (ex42 device).writes b port value b' ↔ b' = { b with inputs := set value b.inputs }
  moves {i i'} : i.Moves i' → get i' = get i
  arrives {i i'} : i.Arrives i' → get i' = get i

/-- A configuration register of the PLIC. -/
def Inputs.setPlic (reg : Plic.Register) (value : BitVec 32) (i : Inputs device) : Inputs device :=
  { i with plic := i.plic.write reg value }

theorem plic_cell {addr : BitVec 64} {reg : Plic.Register}
    (decoded : Plic.register (addr - Board.plicBase).toNat = some reg)
    (plain : ∀ context, reg ≠ .claim context) :
    Cell (.word addr) (fun i : Inputs device => i.plic.value reg) (Inputs.setPlic reg) where
  reads := by
    intro b value b'
    refine (reads_word decoded).trans ?_
    cases reg with
    | claim context => exact absurd rfl (plain context)
    | _ =>
        constructor
        · rintro ⟨plic, ⟨value_eq, rfl⟩, rfl⟩
          exact ⟨value_eq, rfl⟩
        · rintro ⟨value_eq, rfl⟩
          exact ⟨_, ⟨value_eq, rfl⟩, rfl⟩
  writes := writes_word decoded
  moves := by
    rintro i _ ⟨_, forwards⟩
    cases forwards
    cases reg <;> rfl
  arrives := by
    intro i i' arrives
    cases arrives <;> rfl

theorem ier_cell : Cell (ier uartBase) (fun i : Inputs device => i.ier) fun value i =>
    { i with ier := value } where
  reads := reads_ier
  writes := writes_ier
  moves := by
    rintro i _ ⟨_, _⟩
    rfl
  arrives := by
    intro i i' arrives
    cases arrives <;> rfl

theorem mcr_cell : Cell (mcr uartBase) (fun i : Inputs device => i.mcr) fun value i =>
    { i with mcr := value } where
  reads := reads_mcr
  writes := writes_mcr
  moves := by
    rintro i _ ⟨_, _⟩
    rfl
  arrives := by
    intro i i' arrives
    cases arrives <;> rfl

/-- A register is changed and keeps its value between the two accesses. -/
theorem Cell.modify_outline {safe done : Board device → Prop} {port : Port}
    {get : Inputs device → port.Value} {set : port.Value → Inputs device → Inputs device}
    {f : port.Value → port.Value} {A B : Account device}
    (cell : Cell port get set) (steady : A.Steady 1 safe)
    (pays : ∀ n out i, A n out i → ∃ m, m + 2 ≤ n ∧ B m out (set (f (get i)) i)) :
    Outline safe done (fun _ => Owing B []) (Owing A [] : Assertion (ex42 device))
      (modify port f) := by
  have between (value : port.Value) : Account.Steady 1 safe
      (fun n out i => ∃ m ≤ n + 1, A m out i ∧ get i = value) := by
    constructor
    · constructor
      · rintro n out b rest ⟨m, _, holds, _⟩
        exact steady.safe holds
      · rintro n out i i' ⟨m, bound, holds, same⟩ moves
        obtain ⟨k, less, still⟩ := steady.moves holds moves
        -- The credits for the write remain.
        obtain ⟨_, enough, _⟩ := pays _ _ _ still
        exact ⟨n - 1, by omega, k, by omega, still, (cell.moves moves).trans same⟩
      · rintro n out i i' ⟨m, bound, holds, same⟩ arrives
        obtain ⟨k, still⟩ := steady.arrives holds arrives
        exact ⟨k, k, by omega, still, (cell.arrives arrives).trans same⟩
    · rintro n out i ⟨m, _, holds, _⟩
      exact steady.masked holds
  have held (value : port.Value) : Mmio.Steady safe
      (Owing (fun n out i => ∃ m ≤ n + 1, A m out i ∧ get i = value) [] :
        Assertion (ex42 device)) :=
    (between value).owing
  refine .read steady.owing ?_ ?_ fun value => .write (held value) ?_ ?_ (.ret ())
  · rintro n b _
    exact ⟨_, b, cell.reads.mpr ⟨rfl, rfl⟩⟩
  · rintro n b value b' ⟨nothingLost, m, enough, holds⟩ reads
    obtain ⟨value_eq, rfl⟩ := cell.reads.mp reads
    obtain ⟨_, rich, _⟩ := pays _ _ _ holds
    exact ⟨n - 1, by omega, nothingLost, m - 1, by omega, m, by omega, holds, value_eq.symm⟩
  · rintro n b _
    exact ⟨_, cell.writes.mpr rfl⟩
  · rintro n b b' ⟨nothingLost, l, enough, m, bound, holds, rfl⟩ writes
    obtain rfl := cell.writes.mp writes
    obtain ⟨k, rich, written⟩ := pays _ _ _ holds
    exact ⟨n - 1, by omega, nothingLost, k, by dsimp only at enough ⊢; omega, written⟩

/-- Bits of a CSR are set. -/
theorem csrs_outline {safe done : Board device → Prop} {csr : ControlCsr} {bits : BitVec 64}
    {A B : Account device} (steady : A.Steady 1 safe)
    (pays : ∀ n b b', A n b.transmitter.output b.inputs →
      (ex42 device).writes b (.csrs csr) bits b' →
      b'.transmitter = b.transmitter ∧ ∃ m < n, B m b'.transmitter.output b'.inputs) :
    Outline safe done (fun _ => Owing B []) (Owing A [] : Assertion (ex42 device))
      (Program.put (.csrs csr) bits) := by
  refine .write steady.owing ?_ ?_ (.ret ())
  · rintro n b _
    cases csr with
    | sstatus => exact ⟨_, rfl⟩
    | sie => exact ⟨_, rfl⟩
  · rintro n b b' ⟨nothingLost, m, enough, holds⟩ writes
    rw [List.append_nil] at holds
    obtain ⟨same, k, less, written⟩ := pays m b b' holds writes
    refine ⟨n - 1, by omega, ?_, k, ?_, ?_⟩
    · rw [same]; exact nothingLost
    · rw [same]; omega
    · rw [List.append_nil]; exact written

/-! ## The account of the kernel -/

/-- What `report` sends. -/
def reportText (regs : PtRegs) : List Byte :=
  (ascii "scause: ").flatMap putcText ++ (hexNumber regs.scause ++
  ((ascii "\nspec: ").flatMap putcText ++ (hexNumber regs.sepc ++
  ((ascii "\nstval: ").flatMap putcText ++ (hexNumber regs.stval ++
  ((ascii "\nirq: ").flatMap putcText ++ (hexNumber 10 ++ (ascii "\n").flatMap putcText)))))))

/-- Where the kernel is: after some accesses of `start_kernel`, idle, or in `do_trap` before and
after the completion of the interrupt. -/
inductive Phase where
  | boot (stage : Nat)
  | idle
  | claimed
  | completed
  deriving DecidableEq

/-- How far the configuration has come. -/
def Phase.stage : Phase → Nat
  | .boot stage => stage
  | _ => 6

/-- The configuration after some stages. -/
structure Configured (stage : Nat) (i : Inputs device) : Prop where
  priority : 1 ≤ stage → 0 < i.plic.priority uartSource
  enable : i.plic.enable 1 = if 2 ≤ stage then Function.update (fun _ => 0) 0 0x400 else fun _ => 0
  threshold : 3 ≤ stage → i.plic.threshold 1 = 0
  external : 4 ≤ stage → i.sie.getLsbD 9 = true
  ier : i.ier = if 5 ≤ stage then 1 else 0
  mcr : 6 ≤ stage → i.mcr.getLsbD 3 = true

/-- Reports of the bytes that were taken, one for each. -/
def Reports (text output taken : List Byte) : Prop :=
  ∃ reports : List PtRegs, reports.length = taken.length ∧
    (∀ regs ∈ reports, regs.scause = externalInterrupt) ∧
    output = text ++ reports.flatMap reportText

/-- The credits for a byte, from its interrupt to the return from the handler. -/
def bytePrice : Nat := 3 * (reportText ⟨0, 0, 0⟩).length + 6

/-- Each byte that was taken is reported after `text`, and a pending interrupt is for a byte that
waits. -/
structure Reported (text : List Byte) (phase : Phase) (more n : Nat) (output : List Byte)
    (i : Inputs device) : Prop where
  configured : Configured phase.stage i
  enabled : i.sstatus.getLsbD 1 = decide (phase = .idle)
  previous : phase = .claimed ∨ phase = .completed → i.sstatus.getLsbD 5 = true
  claimed : i.plic.claimed uartSource = decide (phase = .claimed)
  pending : i.plic.pending uartSource = true → phase ≠ .claimed ∧ i.receiver.rx ≠ []
  inOrder : i.receiver.taken ++ i.receiver.rx = i.receiver.received
  reports : Reports text output i.receiver.taken
  credits : bytePrice * i.receiver.rx.length + i.plic.fresh.card + more ≤ n

/-- Nothing is lost or reordered, and reports come in full and in order.  The interrupt of the UART
is claimed only while interrupts are off. -/
structure Faithful (text : List Byte) (b : Board device) : Prop where
  nothingLost : b.transmitter.lost = []
  inOrder : b.inputs.receiver.taken ++ b.inputs.receiver.rx = b.inputs.receiver.received
  reports : ∃ rest, Reports text (b.transmitter.output ++ rest) b.inputs.receiver.taken
  masked : b.inputs.plic.claimed uartSource = true → b.inputs.sstatus.getLsbD 1 = false

/-- All input has been taken and reported, and no interrupt is left over. -/
structure AllReported (text : List Byte) (b : Board device) : Prop where
  taken_eq : b.inputs.receiver.taken = b.inputs.receiver.received
  reports : Reports text b.transmitter.sent b.inputs.receiver.received
  notPending : b.inputs.plic.pending uartSource = false
  notClaimed : b.inputs.plic.claimed uartSource = false

variable {text : List Byte} {phase : Phase} {more stage : Nat}

theorem Configured.moves {i i' : Inputs device} (configured : Configured stage i)
    (moves : i.Moves i') : Configured stage i' := by
  obtain ⟨_, ⟨_, _, _⟩⟩ := moves
  obtain ⟨priority, enable, threshold, external, ier, mcr⟩ := configured
  exact ⟨priority, enable, threshold, external, ier, mcr⟩

theorem Configured.arrives {i i' : Inputs device} (configured : Configured stage i)
    (arrives : i.Arrives i') : Configured stage i' := by
  obtain ⟨priority, enable, threshold, external, ier, mcr⟩ := configured
  cases arrives with
  | receives _ => exact ⟨priority, enable, threshold, external, ier, mcr⟩
  | line irq level => exact ⟨priority, enable, threshold, external, ier, mcr⟩

theorem Configured.withStatus {i : Inputs device} (configured : Configured stage i)
    (status : BitVec 64) : Configured stage { i with sstatus := status } := by
  obtain ⟨priority, enable, threshold, external, ier, mcr⟩ := configured
  exact ⟨priority, enable, threshold, external, ier, mcr⟩

theorem Configured.withReceiver {i : Inputs device} (configured : Configured stage i)
    (receiver : Receiver device) : Configured stage { i with receiver := receiver } := by
  obtain ⟨priority, enable, threshold, external, ier, mcr⟩ := configured
  exact ⟨priority, enable, threshold, external, ier, mcr⟩

/-- The UART raises its line only for input. -/
theorem Configured.waits_of_line {i : Inputs device} (configured : Configured stage i)
    (line : i.UartLine) : i.receiver.rx ≠ [] := by
  obtain ⟨_, ⟨_, waits⟩ | other⟩ := line
  · exact waits
  · rw [configured.ier] at other
    split at other
    · exact absurd rfl other
    · exact absurd rfl other

theorem reported_kept :
    Account.Kept (Faithful text : Board device → Prop) (Reported text phase more) where
  safe := by
    rintro m out b rest holds nothingLost rfl
    refine ⟨nothingLost, holds.inOrder, ⟨rest, holds.reports⟩, ?_⟩
    intro claimed
    rw [holds.claimed] at claimed
    rw [holds.enabled, of_decide_eq_true claimed]
    rfl
  moves := by
    rintro m out i i' holds moves
    have configured := holds.configured.moves moves
    have credits := holds.credits
    cases moves with
    | @forwards irq plic line forwards =>
        have less := forwards.fresh_lt
        obtain ⟨bound, fresh, completed⟩ := forwards
        have pending : Function.update i.plic.pending irq true uartSource = true →
            phase ≠ .claimed ∧ i.receiver.rx ≠ [] := by
          intro pending
          by_cases same : irq = uartSource
          · subst same
            rw [Inputs.Line, if_pos rfl] at line
            rw [holds.claimed] at completed
            exact ⟨of_decide_eq_false completed, holds.configured.waits_of_line line⟩
          · rw [Function.update_of_ne (Ne.symm same)] at pending
            exact holds.pending pending
        exact ⟨m - 1, by omega, configured, holds.enabled, holds.previous, holds.claimed, pending,
          holds.inOrder, holds.reports, by dsimp only; omega⟩
  arrives := by
    rintro m out i i' holds arrives
    have configured := holds.configured.arrives arrives
    cases arrives with
    | receives receives =>
        obtain ⟨rx_eq, taken_eq, received_eq⟩ := receives.rx_eq
        refine ⟨_, configured, holds.enabled, holds.previous, holds.claimed, ?_, ?_, ?_, le_rfl⟩
        · intro pending
          exact ⟨(holds.pending pending).1, by simp [rx_eq]⟩
        · simp [rx_eq, taken_eq, received_eq, ← holds.inOrder]
        · dsimp only
          rw [taken_eq]
          exact holds.reports
    | line irq level =>
        exact ⟨_, configured, holds.enabled, holds.previous, holds.claimed, holds.pending,
          holds.inOrder, holds.reports, le_rfl⟩

theorem boot_ne_idle (stage : Nat) : Phase.boot stage ≠ .idle := by
  rintro ⟨⟩

theorem reported_steady (busy : phase ≠ .idle) :
    Account.Steady 1 (Faithful text : Board device → Prop) (Reported text phase more) where
  toKept := reported_kept
  masked := by
    rintro m out i holds ⟨unmasked, _⟩
    rw [holds.enabled, decide_eq_false busy] at unmasked
    cases unmasked

/-! ## `start_kernel` -/

section Boot

variable {done : Board device → Prop}

/-- What the configuration does not touch. -/
structure SameInput (i i' : Inputs device) : Prop where
  receiver : i'.receiver = i.receiver
  sstatus : i'.sstatus = i.sstatus
  pending : i'.plic.pending = i.plic.pending
  claimed : i'.plic.claimed = i.plic.claimed

theorem sameInput_setPlic {reg : Plic.Register} {value : BitVec 32} {i : Inputs device}
    (plain : ∀ context, reg ≠ .claim context) : SameInput i (Inputs.setPlic reg value i) := by
  cases reg with
  | claim context => exact absurd rfl (plain context)
  | _ => exact ⟨rfl, rfl, rfl, rfl⟩

theorem Reported.boot {n m stage stage' : Nat} {output : List Byte} {i i' : Inputs device}
    (holds : Reported text (.boot stage) (more + m) n output i) (same : SameInput i i')
    (configured : Configured stage' i') :
    ∃ k, k + m ≤ n ∧ Reported text (.boot stage') more k output i' := by
  obtain ⟨receiver, sstatus, pending, claimed⟩ := same
  have fresh : i'.plic.fresh = i.plic.fresh := by rw [Plic.fresh, Plic.fresh, pending]
  have credits := holds.credits
  refine ⟨n - m, by omega, configured, ?_, ?_, ?_, ?_, ?_, ?_, ?_⟩
  · rw [sstatus]; exact holds.enabled
  · rintro (⟨⟨⟩⟩ | ⟨⟨⟩⟩)
  · rw [claimed]; exact holds.claimed
  · rw [pending, receiver]
    exact fun isPending => ⟨by rintro ⟨⟩, (holds.pending isPending).2⟩
  · rw [receiver]; exact holds.inOrder
  · rw [receiver]; exact holds.reports
  · rw [receiver, fresh]; omega

/-- A stage that changes a register. -/
theorem stage_outline {port : Port} {get : Inputs device → port.Value}
    {set : port.Value → Inputs device → Inputs device} {f : port.Value → port.Value}
    (cell : Cell port get set)
    (same : ∀ value i, SameInput i (set value i))
    (configures : ∀ i, Configured stage i → Configured (stage + 1) (set (f (get i)) i)) :
    Outline (Faithful text) done (fun _ => Owing (Reported text (.boot (stage + 1)) more) [])
      (Owing (Reported text (.boot stage) (more + 2)) [] : Assertion (ex42 device))
      (modify port f) := by
  refine cell.modify_outline (reported_steady (boot_ne_idle _)) ?_
  intro n out i holds
  exact holds.boot (same _ _) (configures i holds.configured)

theorem or_one_pos (value : BitVec 32) : 0 < value ||| 1 := by
  have bit : (value ||| 1).getLsbD 0 = true := by simp
  rw [BitVec.lt_def]
  apply Nat.pos_of_ne_zero
  intro isZero
  have zero : value ||| 1 = 0 := BitVec.eq_of_toNat_eq isZero
  rw [zero] at bit
  cases bit

theorem configured_priority (i : Inputs device) (configured : Configured 0 i) :
    Configured 1 (Inputs.setPlic (.priority 10) (i.plic.value (.priority 10) ||| 1) i) where
  priority := fun _ => or_one_pos _
  enable := configured.enable
  threshold := fun late => absurd late (by decide)
  external := fun late => absurd late (by decide)
  ier := configured.ier
  mcr := fun late => absurd late (by decide)

theorem configured_enable (i : Inputs device) (configured : Configured 1 i) :
    Configured 2 (Inputs.setPlic (.enable 1 0)
      (i.plic.value (.enable 1 0) ||| (1 : BitVec 32) <<< (0x0a % 32)) i) where
  priority := fun _ => configured.priority (by decide)
  enable := by
    have before : i.plic.enable 1 = fun _ => 0 := configured.enable
    simp only [Inputs.setPlic, Plic.write, Plic.value, before, Function.update_self]
    rfl
  threshold := fun late => absurd late (by decide)
  external := fun late => absurd late (by decide)
  ier := configured.ier
  mcr := fun late => absurd late (by decide)

theorem configured_threshold (i : Inputs device) (configured : Configured 2 i) :
    Configured 3 (Inputs.setPlic (.threshold 1) (i.plic.value (.threshold 1) &&& 0) i) where
  priority := fun _ => configured.priority (by decide)
  enable := configured.enable
  threshold := by
    intro _
    simp [Inputs.setPlic, Plic.write]
  external := fun late => absurd late (by decide)
  ier := configured.ier
  mcr := fun late => absurd late (by decide)

theorem configured_external (i : Inputs device) (configured : Configured 3 i) :
    Configured 4 { i with sie := i.sie ||| (1 : BitVec 64) <<< 9 } where
  priority := fun _ => configured.priority (by decide)
  enable := configured.enable
  threshold := fun _ => configured.threshold (by decide)
  external := by
    intro _
    simp
  ier := configured.ier
  mcr := fun late => absurd late (by decide)

theorem configured_ier (i : Inputs device) (configured : Configured 4 i) :
    Configured 5 { i with ier := i.ier ||| (1 : Byte) <<< 0 } where
  priority := fun _ => configured.priority (by decide)
  enable := configured.enable
  threshold := fun _ => configured.threshold (by decide)
  external := fun _ => configured.external (by decide)
  ier := by
    have before : i.ier = 0 := configured.ier
    rw [before]
    rfl
  mcr := fun late => absurd late (by decide)

theorem configured_mcr (i : Inputs device) (configured : Configured 5 i) :
    Configured 6 { i with mcr := i.mcr ||| (1 : Byte) <<< 3 } where
  priority := fun _ => configured.priority (by decide)
  enable := configured.enable
  threshold := fun _ => configured.threshold (by decide)
  external := fun _ => configured.external (by decide)
  ier := configured.ier
  mcr := by
    intro _
    simp

theorem plicInit_outline :
    Outline (Faithful text) done (fun _ => Owing (Reported text (.boot 4) more) [])
      (Owing (Reported text (.boot 0) (more + 7)) [] : Assertion (ex42 device)) plicInit := by
  have isPriority : ∀ context, Plic.Register.priority 10 ≠ .claim context := by rintro _ ⟨⟩
  have isEnable : ∀ context, Plic.Register.enable 1 0 ≠ .claim context := by rintro _ ⟨⟩
  have isThreshold : ∀ context, Plic.Register.threshold 1 ≠ .claim context := by rintro _ ⟨⟩
  refine (stage_outline (plic_cell (by decide) isPriority)
    (fun _ _ => sameInput_setPlic isPriority) configured_priority).bind fun _ => ?_
  refine (stage_outline (plic_cell (by decide) isEnable)
    (fun _ _ => sameInput_setPlic isEnable) configured_enable).bind fun _ => ?_
  refine (stage_outline (plic_cell (by decide) isThreshold)
    (fun _ _ => sameInput_setPlic isThreshold) configured_threshold).bind fun _ => ?_
  refine csrs_outline (reported_steady (boot_ne_idle _)) ?_
  rintro n b b' holds rfl
  have same : SameInput b.inputs
      { b.inputs with sie := b.inputs.sie ||| (1 : BitVec 64) <<< 9 } := ⟨rfl, rfl, rfl, rfl⟩
  obtain ⟨k, less, reported⟩ := holds.boot same (configured_external _ holds.configured)
  exact ⟨rfl, k, by omega, reported⟩

theorem uartInit_outline :
    Outline (Faithful text) done (fun _ => Owing (Reported text (.boot 6) more) [])
      (Owing (Reported text (.boot 4) (more + 4)) [] : Assertion (ex42 device)) uartInit :=
  (stage_outline ier_cell (fun _ _ => ⟨rfl, rfl, rfl, rfl⟩) configured_ier).bind fun _ =>
    stage_outline mcr_cell (fun _ _ => ⟨rfl, rfl, rfl, rfl⟩) configured_mcr

theorem irqEnable_outline :
    Outline (Faithful text) done (fun _ => Owing (Reported text .idle more) [])
      (Owing (Reported text (.boot 6) (more + 1)) [] : Assertion (ex42 device)) irqEnable := by
  refine csrs_outline (reported_steady (boot_ne_idle _)) ?_
  rintro n b b' holds rfl
  have credits := holds.credits
  refine ⟨rfl, n - 1, by omega, holds.configured.withStatus _, ?_, ?_, holds.claimed, ?_,
    holds.inOrder, holds.reports, by dsimp only; omega⟩
  · simp
  · rintro (⟨⟨⟩⟩ | ⟨⟨⟩⟩)
  · exact fun isPending => ⟨by rintro ⟨⟩, (holds.pending isPending).2⟩

end Boot

/-! ## `do_trap` -/

theorem length_digits (n v : Nat) : (digits n v).length = n := by
  induction n with
  | zero => rfl
  | succ n ih => rw [digits, List.length_cons, ih]

theorem length_reportText (regs : PtRegs) :
    (reportText regs).length = (reportText ⟨0, 0, 0⟩).length := by
  simp [reportText, hexNumber, length_digits]

theorem report_prints (regs : PtRegs) :
    Prints uartBase 1 doTrap (.ret ()) (report regs uartIrq) (reportText regs) :=
  (uartPuts_prints _).bind ((uartHex_prints _).bind ((uartPuts_prints _).bind
    ((uartHex_prints _).bind ((uartPuts_prints _).bind ((uartHex_prints _).bind
      ((uartPuts_prints _).bind ((uartHex_prints _).bind (uartPuts_prints _))))))))

theorem only_bit : ∀ k < 32, (0x400 : BitVec 32).getLsbD k = true → k = 10 := by
  decide

/-- Of the sources only the UART can be claimed. -/
theorem Configured.eq_of_claimable {i : Inputs device} {irq : Nat} (configured : Configured 6 i)
    (claimable : i.plic.Claimable 1 irq) : irq = uartSource := by
  obtain ⟨_, bound, _, enabled⟩ := claimable
  have enable : i.plic.enable 1 = Function.update (fun _ => 0) 0 0x400 := configured.enable
  rw [Plic.Enabled, enable] at enabled
  by_cases first : irq / 32 = 0
  · rw [first, Function.update_self] at enabled
    have isBit := only_bit _ (Nat.mod_lt irq (by decide)) enabled
    rw [uartSource]
    omega
  · rw [Function.update_of_ne first] at enabled
    simp at enabled

theorem Configured.uart_enabled {i : Inputs device} (configured : Configured 6 i) :
    i.plic.Enabled 1 uartSource := by
  have enable : i.plic.enable 1 = Function.update (fun _ => 0) 0 0x400 := configured.enable
  rw [Plic.Enabled, enable]
  rfl

/-- The UART interrupts while it is pending. -/
theorem Configured.delivers {i : Inputs device} (configured : Configured 6 i)
    (pending : i.plic.pending uartSource = true) : i.plic.Delivers 1 uartSource := by
  refine ⟨⟨by decide, by decide, pending, configured.uart_enabled⟩, ?_⟩
  rw [configured.threshold (by decide)]
  exact configured.priority (by decide)

/-- Before the interrupt is claimed. -/
def Pending (text : List Byte) : Account device := fun n out i =>
  Reported text .completed 3 n out i ∧ i.plic.pending uartSource = true

/-- Before the byte is read. -/
def Waits (text : List Byte) : Account device := fun n out i =>
  Reported text .claimed 1 n out i ∧ i.receiver.rx ≠ []

theorem pending_steady :
    Account.Steady 1 (Faithful text : Board device → Prop) (Pending text) := by
  refine (reported_steady (by decide)).and ?_ ?_
  · intro i i' pending moves
    cases moves with
    | @forwards irq plic _ forwards =>
        obtain ⟨_, _, _⟩ := forwards
        by_cases same : irq = uartSource
        · rw [same]
          exact Function.update_self uartSource true i.plic.pending
        · exact (Function.update_of_ne (Ne.symm same) ..).trans pending
  · intro i i' pending arrives
    cases arrives <;> exact pending

theorem waits_steady : Account.Steady 1 (Faithful text : Board device → Prop) (Waits text) :=
  (reported_steady (by decide)).and waits_moves waits_arrives

theorem decoded_claim : Plic.register (plicClaimAddr bootCpuHartid - Board.plicBase).toNat =
    some (.claim 1) := by
  decide

/-- The UART's interrupt is claimed. -/
theorem claim_outline {f : BitVec 32 → Io Unit} {Q : Unit → Assertion (ex42 device)}
    {done : Board device → Prop}
    (next : Outline (Faithful text) done Q (Owing (Waits text) []) (f uartIrq)) :
    Outline (Faithful text) done Q (Owing (Pending text) []) (plicClaim >>= f) := by
  have rest (value : BitVec 32) : Outline (Faithful text) done Q
      (if value = uartIrq then Owing (Waits text) [] else fun _ _ => False) (f value) := by
    by_cases isUart : value = uartIrq
    · rw [if_pos isUart, isUart]
      exact next
    · rw [if_neg isUart]
      exact .unreached fun _ _ => id
  refine .read pending_steady.owing ?_ ?_ rest
  · rintro n b ⟨_, m, _, holds, pending⟩
    have claimable := (holds.configured.delivers pending).1
    exact ⟨_, _, (reads_word decoded_claim).mpr ⟨_, .source claimable, rfl⟩⟩
  · rintro n b value b' ⟨nothingLost, m, enough, holds, pending⟩ reads
    obtain ⟨plic, claims, rfl⟩ := (reads_word decoded_claim).mp reads
    have fresh := claims.fresh_le
    have credits := holds.credits
    cases claims with
    | nothing silent => exact absurd (holds.configured.delivers pending) (silent uartSource)
    | @source irq claimable =>
        obtain rfl := holds.configured.eq_of_claimable claimable
        rw [show BitVec.ofNat 32 uartSource = uartIrq from rfl, if_pos rfl]
        refine ⟨n - 1, by omega, nothingLost, m - 1, by dsimp only at enough ⊢; omega, ?_,
          (holds.pending pending).2⟩
        refine ⟨?_, holds.enabled, fun _ => holds.previous (.inr rfl), ?_, ?_, holds.inOrder,
          holds.reports, by dsimp only; omega⟩
        · obtain ⟨priority, enable, threshold, external, ier, mcr⟩ := holds.configured
          exact ⟨priority, enable, threshold, external, ier, mcr⟩
        · exact Function.update_self uartSource true b.inputs.plic.claimed
        · intro again
          have cleared := Function.update_self uartSource false b.inputs.plic.pending
          exact absurd (cleared.symm.trans again) Bool.false_ne_true

theorem complete_eq {plic : Plic} (enabled : plic.Enabled 1 uartSource) :
    plic.write (.claim 1) uartIrq =
      { plic with claimed := Function.update plic.claimed uartSource false } :=
  if_pos enabled

theorem doTrap_outline {done : Board device → Prop} (regs : PtRegs)
    (external : regs.scause = externalInterrupt) :
    Outline (Faithful text) done (fun _ => Owing (Reported text .completed 5) [])
      (Owing (Pending text) [] : Assertion (ex42 device)) (doTrap regs) := by
  refine claim_outline ?_
  show Outline (Faithful text) done (fun _ => Owing (Reported text .completed 5) [])
    (Owing (Waits text) []) (.read (rbr uartBase) fun _ => report regs uartIrq >>= fun _ =>
      plicComplete uartIrq)
  have waits : Mmio.Steady (Faithful text) (Owing (Waits text) [] : Assertion (ex42 device)) :=
    waits_steady.owing
  have claimed : Account.Steady 1 (Faithful text : Board device → Prop)
      (Reported text .claimed 6) :=
    reported_steady (by decide)
  refine .read waits ?_ ?_ fun _ => ((report_prints regs).alone claimed).bind fun _ =>
    .write claimed.owing ?_ ?_ (.ret ())
  · rintro n b _
    obtain ⟨c, receiver, takes⟩ := b.inputs.receiver.exists_takes
    exact ⟨c, _, reads_rbr.mpr ⟨receiver, takes, rfl⟩⟩
  · rintro n b (c : Byte) b' ⟨nothingLost, m, enough, holds, waits⟩ reads
    obtain ⟨receiver, takes, rfl⟩ := reads_rbr.mp reads
    obtain ⟨rx_eq, taken_eq, received_eq⟩ := takes.of_waits waits
    have credits := holds.credits
    rw [rx_eq, List.length_cons, Nat.mul_add, Nat.mul_one] at credits
    have price : bytePrice = 3 * (reportText regs).length + 6 := by
      rw [length_reportText]
      rfl
    refine ⟨n - 1, by omega, nothingLost, m - 1 - 3 * (reportText regs).length, ?_,
      holds.configured.withReceiver _, holds.enabled, holds.previous, holds.claimed, ?_, ?_, ?_, ?_⟩
    · dsimp only at enough ⊢
      omega
    · intro again
      exact absurd rfl (holds.pending again).1
    · have inOrder := holds.inOrder
      rw [rx_eq] at inOrder
      simp [taken_eq, received_eq, ← inOrder]
    · obtain ⟨reports, length_eq, causes, output_eq⟩ := holds.reports
      rw [List.append_nil] at output_eq
      refine ⟨reports ++ [regs], ?_, ?_, ?_⟩
      · simp [taken_eq, length_eq]
      · intro other member
        rcases List.mem_append.mp member with before | isLast
        · exact causes other before
        · rw [List.mem_singleton.mp isLast]
          exact external
      · simp [output_eq]
    · dsimp only
      omega
  · rintro n b _
    exact ⟨_, (writes_word decoded_claim).mpr rfl⟩
  · rintro n b b' ⟨nothingLost, m, enough, holds⟩ writes
    obtain rfl := (writes_word decoded_claim).mp writes
    have credits := holds.credits
    rw [complete_eq holds.configured.uart_enabled]
    refine ⟨n - 1, by omega, nothingLost, m - 1, by dsimp only at enough ⊢; omega,
      ?_, holds.enabled, fun _ => holds.previous (.inl rfl), ?_, ?_, holds.inOrder,
      holds.reports, ?_⟩
    · obtain ⟨priority, enable, threshold, external, ier, mcr⟩ := holds.configured
      exact ⟨priority, enable, threshold, external, ier, mcr⟩
    · exact Function.update_self uartSource false b.inputs.plic.claimed
    · exact fun isPending => ⟨by rintro ⟨⟩, (holds.pending isPending).2⟩
    · show bytePrice * b.inputs.receiver.rx.length + b.inputs.plic.fresh.card + 5 ≤ m - 1
      omega

/-! ## All runs -/

theorem trapStatus_off (status : BitVec 64) :
    (Machine.trapStatus .supervisor status).getLsbD 1 = false := by
  rw [Machine.trapStatus, if_pos rfl]
  split
  · simp
  · simp

theorem trapStatus_previous {status : BitVec 64} (enabled : status.getLsbD 1 = true) :
    (Machine.trapStatus .supervisor status).getLsbD 5 = true := by
  simp [Machine.trapStatus, enabled]

theorem sretStatus_on {status : BitVec 64} (previous : status.getLsbD 5 = true) :
    (Machine.sretStatus status).getLsbD 1 = true := by
  simp [Machine.sretStatus, previous]

theorem kernel : Kernel (Faithful text) (AllReported text) (Owing (Reported text .idle 4) [])
    (Owing (Reported text .completed 5) [] : Assertion (ex42 device)) where
  keeps := reported_kept.owing
  again := .inl rfl
  rests := by
    rintro _ n ⟨⟨holding, sent, lost⟩, i⟩ ⟨_, m, _, holds⟩
    have configured := holds.configured
    by_cases pending : i.plic.pending uartSource = true
    · have interrupted : i.Interrupted 1 :=
        ⟨holds.enabled, configured.external (by decide), uartSource, configured.delivers pending⟩
      exact .inr (.inl ⟨_, _, interrupted, ⟨0, 0, rfl⟩, rfl⟩)
    · rw [Bool.not_eq_true] at pending
      by_cases waits : i.receiver.rx = []
      · cases holding with
        | some c => exact .inl ⟨_, .sends .mk⟩
        | none =>
            have taken_eq : i.receiver.taken = i.receiver.received := by
              rw [← holds.inOrder, waits, List.append_nil]
            refine .inr (.inr ⟨taken_eq, ?_, pending, holds.claimed⟩)
            rw [← taken_eq]
            simpa [Transmitter.output] using holds.reports
      · have line : i.Line uartSource := by
          rw [Inputs.Line, if_pos rfl]
          refine ⟨configured.mcr (by decide), .inl ⟨?_, waits⟩⟩
          rw [show i.ier = 1 from configured.ier]
          rfl
        exact .inl ⟨_, .inputs (.forwards line (.mk (by decide) pending holds.claimed))⟩
  handles := by
    rintro n b handler b' ⟨nothingLost, m, enough, holds⟩ ⟨⟨unmasked, _, irq, delivers⟩,
      ⟨sepc, stval, rfl⟩, rfl⟩
    obtain rfl := holds.configured.eq_of_claimable delivers.1
    have pending : b.inputs.plic.pending uartSource = true := delivers.1.2.2.1
    have credits := holds.credits
    refine ⟨Owing (Pending text) [], doTrap_outline _ rfl, n - 1, by omega, nothingLost, m - 1,
      by dsimp only at enough ⊢; omega, ?_, pending⟩
    exact ⟨holds.configured.withStatus _, trapStatus_off _, fun _ => trapStatus_previous unmasked,
      holds.claimed, fun _ => ⟨by rintro ⟨⟩, (holds.pending pending).2⟩, holds.inOrder,
      holds.reports, by dsimp only; omega⟩
  steady := (reported_steady (by decide)).owing
  resumes := by
    rintro n b ⟨nothingLost, m, enough, holds⟩
    have credits := holds.credits
    show Paid (Owing (Reported text .idle 4) [] : Assertion (ex42 device)) n
      ⟨b.transmitter, { b.inputs with sstatus := Machine.sretStatus b.inputs.sstatus }⟩
    refine ⟨n - 1, by omega, nothingLost, m - 1, by dsimp only at enough ⊢; omega, ?_⟩
    exact ⟨holds.configured.withStatus _, sretStatus_on (holds.previous (.inr rfl)),
      by rintro (⟨⟨⟩⟩ | ⟨⟨⟩⟩),
      holds.claimed, fun pending => ⟨by rintro ⟨⟩, (holds.pending pending).2⟩, holds.inOrder,
      holds.reports, by dsimp only; omega⟩

/-- What the firmware leaves behind: interrupts are off, and the hart has no sources in the PLIC. -/
structure Started (start : Board device) : Prop where
  masked : start.inputs.sstatus.getLsbD 1 = false
  nothingLost : start.transmitter.lost = []
  nothingTaken : start.inputs.receiver.taken = []
  waiting : start.inputs.receiver.rx = start.inputs.receiver.received
  ier : start.inputs.ier = 0
  enable : start.inputs.plic.enable 1 = fun _ => 0
  notPending : start.inputs.plic.pending uartSource = false
  notClaimed : start.inputs.plic.claimed uartSource = false

theorem startKernel_outline {done : Board device → Prop} :
    Outline (Faithful text) done (fun _ => Owing (Reported text .idle 4) [])
      (Owing (Reported text (.boot 0) 16) ((ascii "\nStarting kernel ...\n").flatMap putcText) :
        Assertion (ex42 device)) startKernel :=
  ((uartPuts_prints _).alone (reported_steady (boot_ne_idle 0))).bind fun _ =>
    plicInit_outline.bind fun _ => uartInit_outline.bind fun _ => irqEnable_outline

/-- With any receiver that is not overrun, in any order of the steps, each byte is read once and
reported once, handlers are not interrupted, and once nothing more happens all that was received
has been reported. -/
theorem start_kernel_reports {start : Board device} (started : Started start)
    {c : Config (ex42 device)}
    (reached : Reachable ⟨startKernel, [], start⟩ c) :
    c.suspended.length ≤ 1 ∧
      let text := start.transmitter.output ++ (ascii "\nStarting kernel ...\n").flatMap putcText
      Faithful text c.state ∧ Settles (AllReported text) c := by
  obtain ⟨masked, nothingLost, nothingTaken, waiting, ier, enable, notPending, notClaimed⟩ :=
    started
  have booted : Reported
      (start.transmitter.output ++ (ascii "\nStarting kernel ...\n").flatMap putcText) (.boot 0) 16
      (bytePrice * start.inputs.receiver.rx.length + start.inputs.plic.fresh.card + 16)
      (start.transmitter.output ++ (ascii "\nStarting kernel ...\n").flatMap putcText)
      start.inputs := by
    refine ⟨⟨?_, enable, ?_, ?_, ier, ?_⟩, masked, ?_, notClaimed, ?_, ?_, ⟨[], ?_⟩, le_rfl⟩
    · exact fun late => absurd late (by decide)
    · exact fun late => absurd late (by decide)
    · exact fun late => absurd late (by decide)
    · exact fun late => absurd late (by decide)
    · rintro (⟨⟨⟩⟩ | ⟨⟨⟩⟩)
    · rw [notPending]
      rintro ⟨⟩
    · rw [nothingTaken, waiting, List.nil_append]
    · rw [nothingTaken]
      simp
  obtain ⟨m, good⟩ :=
    Good.reachable kernel (.runs startKernel_outline ⟨nothingLost, _, le_rfl, booted⟩) reached
  exact ⟨good.depth, good.isSafe kernel, good.settles kernel⟩

theorem start_kernel_reports_reset :
    let text := (ascii "\nStarting kernel ...\n").flatMap putcText
    ∃ c : Config (ex42 (fifo 16)), Relation.ReflTransGen Step
        ⟨startKernel, [], Board.reset (ascii "ab") (by decide)⟩ c ∧
      AllReported text c.state :=
  have started : Started (Board.reset (ascii "ab") (by decide) : Board (fifo 16)) :=
    ⟨rfl, rfl, rfl, rfl, rfl, rfl, rfl, rfl⟩
  (start_kernel_reports started .refl).2.2.exists_done

end OscKernel.Uart.Ex42
