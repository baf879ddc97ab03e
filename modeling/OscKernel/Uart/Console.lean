import OscKernel.Uart.Output

/-!
# Kernels that echo their input (`ex11/main.c`, `ex12/main.c`, `ex61/main.c`)

`start_kernel` prints a text and then sends back what it receives.  Interrupts are off.  With a
receiver that is not overrun, in any order of the steps of the kernel, of the UART and of arrivals,
nothing is lost, repeated or reordered, and all is sent back before the next arrival if the board
has the time.
-/

namespace OscKernel.Uart

open Cpio Mmio Riscv

/-! ## The kernels -/

/-- `struct sbiret` -/
structure Sbiret where
  error : BitVec 64
  value : BitVec 64

/-- The registers that an `ecall` passes to the firmware. -/
structure EcallRegs where
  a0 : BitVec 64
  a1 : BitVec 64
  a2 : BitVec 64
  a3 : BitVec 64
  a4 : BitVec 64
  a5 : BitVec 64
  a6 : BitVec 64
  a7 : BitVec 64

section Sbi

variable (firmware : EcallRegs → BitVec 64 × BitVec 64)

def sbiEcall (ext fid : BitVec 32) (arg0 arg1 arg2 arg3 arg4 arg5 : BitVec 64) : Sbiret :=
  let ret := firmware ⟨arg0, arg1, arg2, arg3, arg4, arg5, fid.signExtend 64, ext.signExtend 64⟩
  ⟨ret.1, ret.2⟩

def sbiGetSpecVersion : BitVec 64 := (sbiEcall firmware 0x10 0 0 0 0 0 0 0).value

def sbiProbeExtension (extid : BitVec 32) : BitVec 64 :=
  (sbiEcall firmware 0x10 3 (extid.signExtend 64) 0 0 0 0 0).value

end Sbi

/-- `start_kernel` of `ex11` before its loop -/
def Ex11.startKernel (base : BitVec 64) : Io Unit :=
  Ex11.uartPuts base (ascii "\nStarting kernel ...\n")

namespace Ex12

/-- `start_kernel` before its loop -/
def startKernel (firmware : EcallRegs → BitVec 64 × BitVec 64) (base : BitVec 64) : Io Unit := do
  uartPuts base (ascii "\nStarting kernel ...\n")
  uartPuts base (ascii "SBI specification version: ")
  uartHex base (sbiGetSpecVersion firmware)
  uartPuts base (ascii "\n")
  uartPuts base (ascii "Probe Set Timer: ")
  uartHex base (sbiProbeExtension firmware 0x0)
  uartPuts base (ascii "\n")
  uartPuts base (ascii "Probe Shutdown:  ")
  uartHex base (sbiProbeExtension firmware 0x8)
  uartPuts base (ascii "\n")

end Ex12

/-- `start_kernel` of `ex61` before its loop, with its address -/
def Ex61.startKernel (base address : BitVec 64) : Io Unit := do
  uartPuts base (ascii "\nStarting kernel at : ")
  uartHex base address
  uartPuts base (ascii "\n")

/-! ## The account of a console -/

/-- A kernel is started: interrupts are off and no byte has been read. -/
structure Fresh {device : ReceiverDevice} (start : Board device) : Prop where
  masked : start.inputs.sstatus.getLsbD 1 = false
  nothingLost : start.transmitter.lost = []
  nothingTaken : start.inputs.receiver.taken = []
  waiting : start.inputs.receiver.rx = start.inputs.receiver.received

/-- The credits to read bytes and to send the answers. -/
def price (answer : Byte → List Byte) (rx : List Byte) : Nat :=
  (rx.map fun c => 3 * (answer c).length + 3).sum

theorem price_cons (answer : Byte → List Byte) (c : Byte) (rx : List Byte) :
    price answer (c :: rx) = 3 * (answer c).length + 3 + price answer rx := rfl

/-- After `text` each byte that was taken is answered. -/
structure Answered {device : ReceiverDevice} (text : List Byte) (answer : Byte → List Byte)
    (more : Nat) (n : Nat) (output : List Byte) (i : Inputs device) : Prop where
  masked : i.sstatus.getLsbD 1 = false
  inOrder : i.receiver.taken ++ i.receiver.rx = i.receiver.received
  output_eq : output = text ++ i.receiver.taken.flatMap answer
  credits : price answer i.receiver.rx + i.plic.fresh.card + more ≤ n

/-- Nothing is lost, repeated or reordered. -/
structure Faithful {device : ReceiverDevice} (text : List Byte) (answer : Byte → List Byte)
    (b : Board device) : Prop where
  nothingLost : b.transmitter.lost = []
  inOrder : b.inputs.receiver.taken ++ b.inputs.receiver.rx = b.inputs.receiver.received
  output_prefix : b.transmitter.output <+: text ++ b.inputs.receiver.taken.flatMap answer

/-- All input has been answered. -/
structure AllAnswered {device : ReceiverDevice} (text : List Byte) (answer : Byte → List Byte)
    (b : Board device) : Prop where
  taken_eq : b.inputs.receiver.taken = b.inputs.receiver.received
  sent_eq : b.transmitter.sent = text ++ b.inputs.receiver.received.flatMap answer

variable {device : ReceiverDevice} {base : BitVec 64} {context : Nat} {doTrap : PtRegs → Io Unit}
  {loop : Io Unit} {text : List Byte} {answer : Byte → List Byte} {more : Nat}

theorem answered_kept :
    Account.Kept (Faithful text answer : Board device → Prop) (Answered text answer more) where
  safe := by
    rintro m out b rest ⟨_, inOrder, rfl, _⟩ nothingLost isPrefix
    exact ⟨nothingLost, inOrder, rest, isPrefix⟩
  moves := by
    rintro m out i _ ⟨masked, inOrder, output_eq, credits⟩ ⟨_, forwards⟩
    have less := forwards.fresh_lt
    exact ⟨m - 1, by omega, masked, inOrder, output_eq, by dsimp only; omega⟩
  arrives := by
    rintro m out i i' ⟨masked, inOrder, output_eq, _⟩ arrives
    cases arrives with
    | receives receives =>
        obtain ⟨rx_eq, taken_eq, received_eq⟩ := receives.rx_eq
        refine ⟨_, masked, ?_, ?_, le_rfl⟩
        · simp [rx_eq, taken_eq, received_eq, ← inOrder]
        · dsimp only
          rw [taken_eq, output_eq]
    | line irq level => exact ⟨_, masked, inOrder, output_eq, le_rfl⟩

theorem answered_steady : Account.Steady context (Faithful text answer : Board device → Prop)
    (Answered text answer more) where
  toKept := answered_kept
  masked := by
    rintro m out i ⟨masked, _⟩ ⟨unmasked, _⟩
    rw [masked] at unmasked
    cases unmasked

/-- The account of a kernel that is started and will print a text. -/
theorem Fresh.answered {start : Board device} {printed : List Byte} (fresh : Fresh start) :
    Answered (start.transmitter.output ++ printed) answer more
      (price answer start.inputs.receiver.rx + start.inputs.plic.fresh.card + more)
      (start.transmitter.output ++ printed) start.inputs := by
  obtain ⟨masked, _, nothingTaken, waiting⟩ := fresh
  refine ⟨masked, ?_, ?_, le_rfl⟩
  · rw [nothingTaken, waiting, List.nil_append]
  · rw [nothingTaken, List.flatMap_nil, List.append_nil]

/-- `Answered` while a byte waits. -/
def Waits (text : List Byte) (answer : Byte → List Byte) : Account device :=
  fun n output i => Answered text answer 1 n output i ∧ i.receiver.rx ≠ []

theorem waits_steady : Account.Steady context (Faithful text answer : Board device → Prop)
    (Waits text answer) :=
  answered_steady.and waits_moves waits_arrives

/-- A round of the loop of `start_kernel`. -/
def respond (base : BitVec 64) (f : Byte → Io Unit) : Io Unit := do
  awaitData base
  .read (rbr base) f

theorem answer_outline {f : Byte → Io Unit}
    (answers : ∀ c, Outline (Faithful text answer) (AllAnswered text answer)
      (fun _ => Owing (Answered text answer 3) [])
      (Owing (Answered text answer 3) (answer c) :
        Assertion (board device base context doTrap loop)) (f c)) :
    Outline (Faithful text answer) (AllAnswered text answer)
      (fun _ => Owing (Answered text answer 3) [])
      (Owing (Answered text answer 2) [] : Assertion (board device base context doTrap loop))
      (respond base f) := by
  have steady : Mmio.Steady (Faithful text answer)
      (Owing (Waits text answer) [] : Assertion (board device base context doTrap loop)) :=
    waits_steady.owing
  refine .wait answered_steady.owing ?_ ?_ ?_ (.read steady ?_ ?_ answers)
  · rintro n ⟨⟨holding, sent, lost⟩, inputs⟩ ⟨_, m, _, holds⟩
    by_cases waits : inputs.receiver.rx = []
    · cases holding with
      | none =>
          have taken_eq : inputs.receiver.taken = inputs.receiver.received := by
            rw [← holds.inOrder, waits, List.append_nil]
          refine .inr (.inr ⟨taken_eq, ?_⟩)
          rw [← taken_eq, ← holds.output_eq]
          simp [Transmitter.output]
      | some c => exact .inr (.inl ⟨_, .sends .mk⟩)
    · obtain ⟨status, hasData, isEmpty⟩ := exists_status ⟨⟨holding, sent, lost⟩, inputs⟩
      refine .inl ⟨status, _, reads_lsr.mpr ⟨hasData, isEmpty, rfl⟩, ?_⟩
      exact decide_eq_true (hasData.mpr waits)
  · rintro n b status b' _ reads _
    exact (reads_lsr.mp reads).2.2
  · rintro n b status b' ⟨nothingLost, m, enough, holds⟩ reads ready
    obtain ⟨hasData, _, rfl⟩ := reads_lsr.mp reads
    obtain ⟨masked, inOrder, output_eq, credits⟩ := holds
    refine ⟨n - 1, by omega, nothingLost, m - 1, by omega, ?_⟩
    exact ⟨⟨masked, inOrder, output_eq, by omega⟩, hasData.mp (of_decide_eq_true ready)⟩
  · rintro n b _
    obtain ⟨c, receiver, takes⟩ := b.inputs.receiver.exists_takes
    exact ⟨c, _, reads_rbr.mpr ⟨receiver, takes, rfl⟩⟩
  · rintro n b (c : Byte) b' ⟨nothingLost, m, enough, holds, waits⟩ reads
    obtain ⟨masked, inOrder, output_eq, credits⟩ := holds
    obtain ⟨receiver, takes, rfl⟩ := reads_rbr.mp reads
    obtain ⟨rx_eq, taken_eq, received_eq⟩ := takes.of_waits waits
    rw [rx_eq, price_cons] at credits
    refine ⟨n - 1, by omega, nothingLost, m - 1 - 3 * (answer c).length, ?_, masked, ?_, ?_, ?_⟩
    · dsimp only at enough ⊢
      omega
    · rw [rx_eq] at inOrder
      simp [taken_eq, received_eq, ← inOrder]
    · rw [List.append_nil] at output_eq
      simp [taken_eq, output_eq]
    · dsimp only
      omega

section Runs

variable {f : Byte → Io Unit}
  (answers : ∀ c, Prints base context doTrap (respond base f) (f c) (answer c))

include answers

/-- A kernel that answers each byte. -/
theorem answers_kernel : Kernel (Faithful text answer) (AllAnswered text answer)
    (Owing (Answered text answer 3) [])
    (fun _ _ => False : Assertion (board device base context doTrap (respond base f))) where
  keeps := answered_kept.owing
  again := by
    refine .inr ⟨Owing (Answered text answer 2) [], ?_, ?_⟩
    · exact answer_outline fun c => (answers c).alone answered_steady
    · rintro n b ⟨nothingLost, m, enough, masked, inOrder, output_eq, credits⟩
      refine ⟨n - 1, by omega, nothingLost, m - 1, by omega, masked, inOrder, output_eq, ?_⟩
      omega
  rests := by
    rintro ⟨⟩
  handles := fun holds taken => absurd taken (answered_steady.owing.masked holds)
  steady := ⟨⟨False.elim, False.elim, False.elim⟩, False.elim⟩
  resumes := False.elim

/-- A kernel that prints a text and then answers each byte. -/
theorem answers_all {main : Io Unit} {printed : List Byte}
    (prints : Prints base context doTrap (respond base f) main printed)
    {start : Board device} (fresh : Fresh start)
    {c : Config (board device base context doTrap (respond base f))}
    (reached : Reachable ⟨main, [], start⟩ c) :
    Faithful (start.transmitter.output ++ printed) answer c.state ∧
      Settles (AllAnswered (start.transmitter.output ++ printed) answer) c := by
  have kernel : Kernel (Faithful (start.transmitter.output ++ printed) answer)
      (AllAnswered (start.transmitter.output ++ printed) answer)
      (Owing (Answered (start.transmitter.output ++ printed) answer 3) [])
      (fun _ _ => False : Assertion (board device base context doTrap (respond base f))) :=
    answers_kernel answers
  obtain ⟨m, good⟩ := Good.reachable kernel
    (.runs (prints.alone answered_steady) ⟨fresh.nothingLost, _, le_rfl, fresh.answered⟩) reached
  exact ⟨good.isSafe kernel, good.settles kernel⟩

end Runs

/-- The text has been sent. -/
def AllPrinted (text : List Byte) (b : Board device) : Prop := b.transmitter.sent = text

/-- A kernel that has nothing more to do. -/
theorem prints_kernel : Kernel (Faithful text fun _ => []) (AllPrinted text)
    (Owing (Answered text (fun _ => []) 0) [])
    (fun _ _ => False : Assertion (board device base context doTrap (.ret ()))) where
  keeps := answered_kept.owing
  again := .inl rfl
  rests := by
    rintro _ n ⟨⟨holding, sent, lost⟩, inputs⟩ ⟨_, m, _, holds⟩
    cases holding with
    | none =>
        have unanswered : inputs.receiver.taken.flatMap (fun _ => ([] : List Byte)) = [] :=
          List.flatMap_eq_nil_iff.mpr fun _ _ => rfl
        have output_eq := holds.output_eq
        rw [unanswered, List.append_nil] at output_eq
        exact .inr (.inr (by simpa [AllPrinted, Transmitter.output] using output_eq))
    | some c => exact .inl ⟨_, .sends .mk⟩
  handles := fun holds taken => absurd taken (answered_steady.owing.masked holds)
  steady := ⟨⟨False.elim, False.elim, False.elim⟩, False.elim⟩
  resumes := False.elim

/-- A kernel that prints a text and then does nothing more. -/
theorem prints_all {main : Io Unit} {printed : List Byte}
    (prints : Prints base context doTrap (.ret ()) main printed) {start : Board device}
    (fresh : Fresh start) {c : Config (board device base context doTrap (.ret ()))}
    (reached : Reachable ⟨main, [], start⟩ c) :
    Faithful (start.transmitter.output ++ printed) (fun _ => []) c.state ∧
      Settles (AllPrinted (start.transmitter.output ++ printed)) c := by
  have kernel : Kernel (Faithful (start.transmitter.output ++ printed) fun _ => [])
      (AllPrinted (start.transmitter.output ++ printed))
      (Owing (Answered (start.transmitter.output ++ printed) (fun _ => []) 0) [])
      (fun _ _ => False : Assertion (board device base context doTrap (.ret ()))) := prints_kernel
  obtain ⟨m, good⟩ := Good.reachable kernel
    (.runs (prints.alone answered_steady) ⟨fresh.nothingLost, _, le_rfl, fresh.answered⟩) reached
  exact ⟨good.isSafe kernel, good.settles kernel⟩

/-! ## What the kernels show -/

namespace Ex12

/-- The text that `start_kernel` prints, before `uart_putc` puts in the carriage returns. -/
def banner (firmware : EcallRegs → BitVec 64 × BitVec 64) : List Byte :=
  (ascii "\nStarting kernel ...\n").flatMap putcText ++
  ((ascii "SBI specification version: ").flatMap putcText ++
  (hexNumber (sbiGetSpecVersion firmware) ++ ((ascii "\n").flatMap putcText ++
  ((ascii "Probe Set Timer: ").flatMap putcText ++
  (hexNumber (sbiProbeExtension firmware 0x0) ++ ((ascii "\n").flatMap putcText ++
  ((ascii "Probe Shutdown:  ").flatMap putcText ++
  (hexNumber (sbiProbeExtension firmware 0x8) ++ (ascii "\n").flatMap putcText))))))))

theorem startKernel_prints (firmware : EcallRegs → BitVec 64 × BitVec 64) :
    Prints base context doTrap loop (startKernel firmware base) (banner firmware) :=
  (uartPuts_prints _).bind ((uartPuts_prints _).bind ((uartHex_prints _).bind
    ((uartPuts_prints _).bind ((uartPuts_prints _).bind ((uartHex_prints _).bind
      ((uartPuts_prints _).bind ((uartPuts_prints _).bind ((uartHex_prints _).bind
        (uartPuts_prints _)))))))))

/-- What `uart_putc(uart_getc())` sends for a byte. -/
def echoText (c : Byte) : List Byte := putcText (if c = carriageReturn then newline else c)

/-- With any receiver that is not overrun, in any order of the steps of the kernel, of the UART and
of arrivals, all input is echoed in order, and all that was received is echoed once nothing more
happens. -/
theorem start_kernel_echoes (firmware : EcallRegs → BitVec 64 × BitVec 64) {start : Board device}
    (fresh : Fresh start) {c : Config (board device base context doTrap (echo base))}
    (reached : Reachable ⟨startKernel firmware base, [], start⟩ c) :
    Faithful (start.transmitter.output ++ banner firmware) echoText c.state ∧
      Settles (AllAnswered (start.transmitter.output ++ banner firmware) echoText) c :=
  answers_all (f := fun c => uartPutc base (if c = carriageReturn then newline else c))
    (fun _ => uartPutc_prints _) (startKernel_prints firmware) fresh reached

theorem start_kernel_echoes_reset :
    ∃ c : Config (board (fifo 16) 0x10000000 1 (fun _ => .ret ()) (echo 0x10000000)),
      Relation.ReflTransGen Step
        ⟨startKernel (fun _ => (0, 0x3000000)) 0x10000000, [],
          Board.reset (ascii "a\r") (by decide)⟩ c ∧
      AllAnswered (banner fun _ => (0, 0x3000000)) echoText c.state :=
  (start_kernel_echoes (fun _ => (0, 0x3000000)) ⟨rfl, rfl, rfl, rfl⟩ .refl).2.exists_done

end Ex12

namespace Ex11

/-- With any receiver that is not overrun, in any order of the steps, all input is sent back in
order, and a new line after each carriage return. -/
theorem start_kernel_sends_back {start : Board device} (fresh : Fresh start)
    {c : Config (board device base context doTrap (Ex11.echo base))}
    (reached : Reachable ⟨startKernel base, [], start⟩ c) :
    let text := start.transmitter.output ++ (ascii "\nStarting kernel ...\n").flatMap putcText
    Faithful text putcText c.state ∧ Settles (AllAnswered text putcText) c :=
  answers_all (f := Ex11.uartPutc base) uartPutc_prints (uartPuts_prints _) fresh reached

theorem start_kernel_sends_back_reset :
    ∃ c : Config (board (fifo 16) 0x10000000 1 (fun _ => .ret ()) (Ex11.echo 0x10000000)),
      Relation.ReflTransGen Step
        ⟨startKernel 0x10000000, [], Board.reset (ascii "a\n") (by decide)⟩ c ∧
      AllAnswered ((ascii "\nStarting kernel ...\n").flatMap putcText) putcText c.state :=
  (start_kernel_sends_back ⟨rfl, rfl, rfl, rfl⟩ .refl).2.exists_done

end Ex11

end OscKernel.Uart
