import OscKernel.Cpio.LetterCase
import OscKernel.Mmio.Outline
import OscKernel.Uart.Board

/-!
# What the UART functions print

Outlines of the functions that send.  An assertion says what is still to be sent, and a relation
between all output, with what is owed at its end, and the input side of the board.
-/

namespace OscKernel.Uart

open Cpio Mmio Riscv

variable {device : ReceiverDevice} {base : BitVec 64} {context : Nat} {doTrap : PtRegs → Io Unit}
  {loop : Io Unit}

/-! ## Accesses -/

section Accesses

variable {b b' : Board device}

theorem offset_eq (a offset : BitVec 64) : a + offset - a = offset := by
  rw [BitVec.add_comm, BitVec.add_sub_cancel]

theorem reads_lsr {status : Byte} :
    (board device base context doTrap loop).reads b (lsr base) status b' ↔
      (status &&& lsrDr ≠ 0 ↔ b.inputs.receiver.rx ≠ []) ∧
      (status &&& lsrTdrq ≠ 0 ↔ b.transmitter.holding = none) ∧ b' = b := by
  simp only [board, Board.Reads, lsr, offset_eq]
  simp [register, Board.UartReads]

theorem reads_rbr {c : Byte} :
    (board device base context doTrap loop).reads b (rbr base) c b' ↔
      ∃ receiver, b.inputs.receiver.Takes c receiver ∧
        b' = { b with inputs := { b.inputs with receiver := receiver } } := by
  simp [board, Board.Reads, rbr, register, Board.UartReads]

theorem writes_thr {c : Byte} :
    (board device base context doTrap loop).writes b (thr base) c b' ↔
      b' = { b with transmitter := b.transmitter.write c } := by
  simp [board, Board.Writes, thr, register, Board.uartWrite]

theorem reads_ier {value : Byte} :
    (board device base context doTrap loop).reads b (ier base) value b' ↔
      value = b.inputs.ier ∧ b' = b := by
  simp only [board, Board.Reads, ier, offset_eq]
  simp [register, Board.UartReads]

theorem writes_ier {value : Byte} :
    (board device base context doTrap loop).writes b (ier base) value b' ↔
      b' = { b with inputs := { b.inputs with ier := value } } := by
  simp only [board, Board.Writes, ier, offset_eq]
  simp [register, Board.uartWrite]

theorem reads_mcr {value : Byte} :
    (board device base context doTrap loop).reads b (mcr base) value b' ↔
      value = b.inputs.mcr ∧ b' = b := by
  simp only [board, Board.Reads, mcr, offset_eq]
  simp [register, Board.UartReads]

theorem writes_mcr {value : Byte} :
    (board device base context doTrap loop).writes b (mcr base) value b' ↔
      b' = { b with inputs := { b.inputs with mcr := value } } := by
  simp only [board, Board.Writes, mcr, offset_eq]
  simp [register, Board.uartWrite]

theorem reads_word {addr : BitVec 64} {reg : Plic.Register} {value : BitVec 32}
    (decoded : Plic.register (addr - Board.plicBase).toNat = some reg) :
    (board device base context doTrap loop).reads b (.word addr) value b' ↔
      ∃ plic, b.inputs.plic.Reads reg value plic ∧
        b' = { b with inputs := { b.inputs with plic := plic } } := by
  simp only [board, Board.Reads, decoded, Option.some.injEq]
  constructor
  · rintro ⟨_, plic, rfl, reads, rfl⟩
    exact ⟨plic, reads, rfl⟩
  · rintro ⟨plic, reads, rfl⟩
    exact ⟨reg, plic, rfl, reads, rfl⟩

theorem writes_word {addr : BitVec 64} {reg : Plic.Register} {value : BitVec 32}
    (decoded : Plic.register (addr - Board.plicBase).toNat = some reg) :
    (board device base context doTrap loop).writes b (.word addr) value b' ↔
      b' = { b with inputs := { b.inputs with plic := b.inputs.plic.write reg value } } := by
  simp only [board, Board.Writes, decoded, Option.some.injEq]
  constructor
  · rintro ⟨_, rfl, rfl⟩
    rfl
  · rintro rfl
    exact ⟨reg, rfl, rfl⟩

/-- The line status can be read. -/
theorem exists_status (b : Board device) : ∃ status : Byte,
    (status &&& lsrDr ≠ 0 ↔ b.inputs.receiver.rx ≠ []) ∧
      (status &&& lsrTdrq ≠ 0 ↔ b.transmitter.holding = none) := by
  by_cases waiting : b.inputs.receiver.rx = []
  · by_cases empty : b.transmitter.holding = none
    · exact ⟨0x20, by simp [waiting, lsrDr], by simp [empty, lsrTdrq]⟩
    · exact ⟨0x00, by simp [waiting, lsrDr], by simp [empty, lsrTdrq]⟩
  · by_cases empty : b.transmitter.holding = none
    · exact ⟨0x21, by simp [waiting, lsrDr], by simp [empty, lsrTdrq]⟩
    · exact ⟨0x01, by simp [waiting, lsrDr], by simp [empty, lsrTdrq]⟩

end Accesses

/-! ## What is owed -/

/-- A relation between a number of credits, all output and the input side. -/
abbrev Account (device : ReceiverDevice) : Type := Nat → List Byte → Inputs device → Prop

/-- The credit for a byte in the holding register. -/
def Transmitter.due (t : Transmitter) : Nat := t.holding.toList.length

/-- With `out` sent, the account is right. -/
def Owing (account : Account device) (out : List Byte) :
    Assertion (board device base context doTrap loop) :=
  fun n b => b.transmitter.lost = [] ∧ ∃ m, m + 3 * out.length + b.transmitter.due ≤ n ∧
    account m (b.transmitter.output ++ out) b.inputs

/-- `Owing` when the holding register is empty. -/
def Sending (account : Account device) (c : Byte) (out : List Byte) :
    Assertion (board device base context doTrap loop) :=
  fun n b => b.transmitter.lost = [] ∧ b.transmitter.holding = none ∧
    ∃ m, m + 3 * out.length + 2 ≤ n ∧ account m (b.transmitter.output ++ c :: out) b.inputs

/-- An account that the input side and arrivals keep. -/
structure Account.Kept (safe : Board device → Prop) (account : Account device) : Prop where
  safe {m out b rest} : account m out b.inputs → b.transmitter.lost = [] →
    b.transmitter.output ++ rest = out → safe b
  moves {m out i i'} : account m out i → i.Moves i' → ∃ k < m, account k out i'
  arrives {m out i i'} : account m out i → i.Arrives i' → ∃ k, account k out i'

/-- An account that no interrupt disturbs. -/
structure Account.Steady (context : Nat) (safe : Board device → Prop)
    (account : Account device) : Prop extends Account.Kept safe account where
  masked {m out i} : account m out i → ¬ i.Interrupted context

/-- Something more that the input side and arrivals keep. -/
theorem Account.Steady.and {safe : Board device → Prop} {account : Account device}
    {fact : Inputs device → Prop}
    (steady : account.Steady context safe) (moves : ∀ i i', fact i → i.Moves i' → fact i')
    (arrives : ∀ i i', fact i → i.Arrives i' → fact i') :
    Account.Steady context safe (fun n out i => account n out i ∧ fact i) where
  safe := fun holds => steady.safe holds.1
  moves := by
    rintro m out i i' ⟨holds, also⟩ moved
    obtain ⟨k, less, still⟩ := steady.moves holds moved
    exact ⟨k, less, still, moves i i' also moved⟩
  arrives := by
    rintro m out i i' ⟨holds, also⟩ arrived
    obtain ⟨k, still⟩ := steady.arrives holds arrived
    exact ⟨k, still, arrives i i' also arrived⟩
  masked := fun holds => steady.masked holds.1

/-- A byte that waits goes on to wait. -/
theorem waits_moves (i i' : Inputs device) (waits : i.receiver.rx ≠ []) (moves : i.Moves i') :
    i'.receiver.rx ≠ [] := by
  obtain ⟨_, _⟩ := moves
  exact waits

theorem waits_arrives (i i' : Inputs device) (waits : i.receiver.rx ≠ []) (arrives : i.Arrives i') :
    i'.receiver.rx ≠ [] := by
  cases arrives with
  | receives receives =>
      rw [receives.rx_eq.1]
      exact List.append_ne_nil_of_left_ne_nil waits _
  | line irq level => exact waits

section Outlines

variable {safe done : Board device → Prop} {account : Account device} {c : Byte} {out : List Byte}

theorem Account.Kept.owing (kept : account.Kept safe) :
    Mmio.Kept safe (Owing account out : Assertion (board device base context doTrap loop)) where
  safe := by
    rintro n b ⟨nothingLost, m, _, holds⟩
    exact kept.safe holds nothingLost rfl
  moves := by
    rintro n ⟨transmitter, inputs⟩ b' ⟨nothingLost, m, enough, holds⟩ moves
    cases moves with
    | sends sends =>
        cases sends
        refine ⟨n - 1, ?_, nothingLost, m, ?_, ?_⟩
        · simp [Transmitter.due] at enough; omega
        · simp [Transmitter.due] at enough ⊢; omega
        · simpa [Transmitter.output] using holds
    | inputs moves =>
        obtain ⟨k, less, still⟩ := kept.moves holds moves
        exact ⟨n - 1, by omega, nothingLost, k, by dsimp only at enough ⊢; omega, still⟩
  arrives := by
    rintro n b b' ⟨nothingLost, m, enough, holds⟩ ⟨inputs, arrives, rfl⟩
    obtain ⟨k, still⟩ := kept.arrives holds arrives
    exact ⟨_, nothingLost, k, le_rfl, still⟩

theorem Account.Steady.owing (steady : account.Steady context safe) :
    Mmio.Steady safe (Owing account out : Assertion (board device base context doTrap loop)) where
  toKept := steady.toKept.owing
  masked := by
    rintro n b handler b' ⟨_, m, _, holds⟩ ⟨taken, _⟩
    exact steady.masked holds taken

theorem Account.Steady.sending (steady : account.Steady context safe) :
    Mmio.Steady safe
      (Sending account c out : Assertion (board device base context doTrap loop)) where
  safe := by
    rintro n b ⟨nothingLost, _, m, _, holds⟩
    exact steady.safe holds nothingLost rfl
  moves := by
    rintro n ⟨transmitter, inputs⟩ b' ⟨nothingLost, empty, m, enough, holds⟩ moves
    cases moves with
    | sends sends => cases sends; cases empty
    | inputs moves =>
        obtain ⟨k, less, still⟩ := steady.moves holds moves
        exact ⟨n - 1, by omega, nothingLost, empty, k, by omega, still⟩
  arrives := by
    rintro n b b' ⟨nothingLost, empty, m, enough, holds⟩ ⟨inputs, arrives, rfl⟩
    obtain ⟨k, still⟩ := steady.arrives holds arrives
    exact ⟨_, nothingLost, empty, k, le_rfl, still⟩
  masked := by
    rintro n b handler b' ⟨_, _, m, _, holds⟩ ⟨taken, _⟩
    exact steady.masked holds taken

end Outlines

/-! ## The functions -/

/-- A program sends a text, whatever the account and what is owed after it. -/
def Prints (base : BitVec 64) (context : Nat) (doTrap : PtRegs → Io Unit) (loop p : Io Unit)
    (text : List Byte) : Prop :=
  ∀ ⦃device : ReceiverDevice⦄ ⦃safe done : Board device → Prop⦄ ⦃account : Account device⦄,
    account.Steady context safe → ∀ out, Outline safe done (fun _ => Owing account out)
      (Owing account (text ++ out) : Assertion (board device base context doTrap loop)) p

namespace Prints

theorem nothing : Prints base context doTrap loop (.ret ()) [] := fun _ _ _ _ _ _ => .ret ()

theorem bind {p q : Io Unit} {first second : List Byte}
    (prints : Prints base context doTrap loop p first)
    (next : Prints base context doTrap loop q second) :
    Prints base context doTrap loop (p >>= fun _ => q) (first ++ second) := by
  intro device safe done account steady out
  rw [List.append_assoc]
  exact (prints steady _).bind fun _ => next steady out

/-- Nothing else is owed. -/
theorem alone {safe done : Board device → Prop} {account : Account device} {p : Io Unit}
    {text : List Byte}
    (prints : Prints base context doTrap loop p text) (steady : account.Steady context safe) :
    Outline safe done (fun _ => Owing account [])
      (Owing account text : Assertion (board device base context doTrap loop)) p := by
  have outline := @prints device safe done account steady []
  rwa [List.append_nil] at outline

end Prints

/-- One byte is sent. -/
theorem send_prints (c : Byte) : Prints base context doTrap loop (send base c) [c] := by
  intro device safe done account steady out
  have sending : Mmio.Steady safe
      (Sending account c out : Assertion (board device base context doTrap loop)) := steady.sending
  refine .wait steady.owing ?_ ?_ ?_ (.write sending ?_ ?_ (.ret ()))
  · rintro n ⟨⟨holding, sent, lost⟩, inputs⟩ _
    cases holding with
    | none =>
        obtain ⟨status, hasData, isEmpty⟩ := exists_status ⟨⟨none, sent, lost⟩, inputs⟩
        refine .inl ⟨status, _, reads_lsr.mpr ⟨hasData, isEmpty, rfl⟩, ?_⟩
        exact decide_eq_true (isEmpty.mpr rfl)
    | some waiting => exact .inr (.inl ⟨_, .sends .mk⟩)
  · rintro n b status b' _ reads _
    exact (reads_lsr.mp reads).2.2
  · rintro n b status b' ⟨nothingLost, m, enough, holds⟩ reads ready
    obtain ⟨_, isEmpty, rfl⟩ := reads_lsr.mp reads
    have empty := isEmpty.mp (of_decide_eq_true ready)
    rw [List.length_append, List.length_singleton] at enough
    exact ⟨n - 1, by omega, nothingLost, empty, m, by omega, holds⟩
  · rintro n b _
    exact ⟨_, writes_thr.mpr rfl⟩
  · rintro n ⟨⟨holding, sent, lost⟩, inputs⟩ b' ⟨nothingLost, empty, m, enough, holds⟩ writes
    obtain rfl := writes_thr.mp writes
    obtain rfl : lost = [] := nothingLost
    obtain rfl : holding = none := empty
    refine ⟨n - 1, by omega, rfl, m, ?_, ?_⟩
    · simp [Transmitter.write, Transmitter.due]; omega
    · simpa [Transmitter.write, Transmitter.output] using holds

/-- What `uart_putc` sends for a character. -/
def putcText (c : Byte) : List Byte := if c = newline then [carriageReturn, newline] else [c]

/-- What `uart_putc` of `ex11` sends for a character. -/
def Ex11.putcText (c : Byte) : List Byte :=
  if c = carriageReturn then [carriageReturn, newline] else [c]

theorem uartPutc_prints (c : Byte) :
    Prints base context doTrap loop (uartPutc base c) (putcText c) := by
  by_cases isNewline : c = newline
  · subst isNewline
    exact (send_prints carriageReturn).bind (send_prints newline)
  · simp only [uartPutc, putcText, if_neg isNewline]
    exact send_prints c

theorem Ex11.uartPutc_prints (c : Byte) :
    Prints base context doTrap loop (Ex11.uartPutc base c) (Ex11.putcText c) := by
  by_cases isReturn : c = carriageReturn
  · subst isReturn
    exact (send_prints carriageReturn).bind (send_prints newline)
  · simp only [Ex11.uartPutc, Ex11.putcText, if_neg isReturn]
    exact (send_prints c).bind .nothing

/-- A string is sent character after character. -/
theorem putsWith_prints {putc : Byte → Io Unit} {text : Byte → List Byte}
    (putc_prints : ∀ c, Prints base context doTrap loop (putc c) (text c)) (s : List Byte) :
    Prints base context doTrap loop (putsWith putc s) (s.flatMap text) := by
  induction s with
  | nil => exact .nothing
  | cons c s ih => exact (putc_prints c).bind ih

theorem uartPuts_prints (s : List Byte) :
    Prints base context doTrap loop (uartPuts base s) (s.flatMap putcText) :=
  putsWith_prints uartPutc_prints s

theorem Ex11.uartPuts_prints (s : List Byte) :
    Prints base context doTrap loop (Ex11.uartPuts base s) (s.flatMap Ex11.putcText) :=
  putsWith_prints Ex11.uartPutc_prints s

/-! ## Numbers -/

/-- The character for a digit. -/
def hexDigitChar (d : Nat) : Byte := if d < 10 then BitVec.ofNat 8 (0x30 + d) else lowerDigit d

theorem hexChar_ofNat : ∀ d < 16, hexChar (BitVec.ofNat 64 d) = hexDigitChar d := by
  decide

theorem putcText_hexDigitChar : ∀ d < 16, putcText (hexDigitChar d) = [hexDigitChar d] := by
  decide

theorem nibble_eq (h : BitVec 64) (n : Nat) :
    h >>> (4 * n) &&& 0xf = BitVec.ofNat 64 (h.toNat / 16 ^ n % 16) := by
  apply BitVec.eq_of_toNat_eq
  have mask : (0xf : BitVec 64).toNat = 2 ^ 4 - 1 := rfl
  rw [BitVec.toNat_and, mask, Nat.and_two_pow_sub_one_eq_mod, BitVec.toNat_ushiftRight,
    Nat.shiftRight_eq_div_pow, Nat.pow_mul, BitVec.toNat_ofNat, Nat.mod_eq_of_lt (b := 2 ^ 64)]
  have small : h.toNat / (2 ^ 4) ^ n % 16 < 16 := Nat.mod_lt _ (by decide)
  exact small.trans (by decide)

/-- The loop of `uart_hex` sends the lowest digits. -/
theorem uartHexLoop_prints (h : BitVec 64) (n : Nat) :
    Prints base context doTrap loop (uartHexLoop base h n)
      ((digits n h.toNat).map hexDigitChar) := by
  induction n with
  | zero => exact .nothing
  | succ n ih =>
      have small : h.toNat / 16 ^ n % 16 < 16 := Nat.mod_lt _ (by decide)
      have digit : Prints base context doTrap loop
          (uartPutc base (hexDigitChar (h.toNat / 16 ^ n % 16))) _ := uartPutc_prints _
      rw [putcText_hexDigitChar _ small] at digit
      rw [uartHexLoop, nibble_eq, hexChar_ofNat _ small]
      exact digit.bind ih

/-- What `uart_hex` sends for a number. -/
def hexNumber (h : BitVec 64) : List Byte := ascii "0x" ++ (digits 16 h.toNat).map hexDigitChar

theorem uartHex_prints (h : BitVec 64) :
    Prints base context doTrap loop (uartHex base h) (hexNumber h) :=
  (uartPuts_prints (ascii "0x")).bind (uartHexLoop_prints h 16)

end OscKernel.Uart
