import OscKernel.Mmio.Program
import OscKernel.Riscv.Stored

/-!
# The UART driver (`uart.c`, `ex11/main.c`)

The functions that wait for the line status and move one byte at a time.  `ex61` and `ex62` use
those of `uart.c` at a virtual address.
-/

namespace OscKernel.Uart

open Mmio Riscv

/-- The CSRs that control interrupts. -/
inductive ControlCsr where
  | sstatus
  | sie
  deriving DecidableEq

/-- What programs access: bytes and words of devices, and `csrs`, which sets bits of a CSR. -/
inductive Port where
  | byte (addr : BitVec 64)
  | word (addr : BitVec 64)
  | csrs (csr : ControlCsr)
  deriving DecidableEq

abbrev Port.Value : Port → Type
  | .byte _ => BitVec 8
  | .word _ => BitVec 32
  | .csrs _ => BitVec 64

/-- Programs of the kernels. -/
abbrev Io := Program Port Port.Value

/-- `*port = f(*port)` -/
def modify (port : Port) (f : port.Value → port.Value) : Io Unit := do
  let value ← Program.get port
  Program.put port (f value)

/-- `'\n'` -/
def newline : Byte := 0x0a

/-- `'\r'` -/
def carriageReturn : Byte := 0x0d

/-- `LSR_DR` -/
def lsrDr : Byte := 0x01

/-- `LSR_TDRQ` -/
def lsrTdrq : Byte := 0x20

/-- `UART_RBR` -/
def rbr (base : BitVec 64) : Port := .byte (base + 0x0)

/-- `UART_THR` -/
def thr (base : BitVec 64) : Port := .byte (base + 0x0)

/-- `UART_IER` -/
def ier (base : BitVec 64) : Port := .byte (base + 0x1)

/-- `UART_MCR` -/
def mcr (base : BitVec 64) : Port := .byte (base + 0x4)

/-- `UART_LSR` -/
def lsr (base : BitVec 64) : Port := .byte (base + 0x5)

/-- The loop of `uart_puts`. -/
def putsWith (putc : Byte → Io Unit) : List Byte → Io Unit
  | [] => return
  | c :: s => do
      putc c
      putsWith putc s

section Functions

variable (base : BitVec 64)

/-- The loop of `uart_getc`. -/
def awaitData : Io Unit := Program.await (lsr base) fun (status : Byte) => status &&& lsrDr ≠ 0

/-- The loop of `uart_putc` and the write behind it. -/
def send (c : Byte) : Io Unit := do
  Program.await (lsr base) fun (status : Byte) => status &&& lsrTdrq ≠ 0
  Program.put (thr base) c

def uartGetc : Io Byte := do
  awaitData base
  let c : Byte ← Program.get (rbr base)
  return if c = carriageReturn then newline else c

/-- `uart_putc`; the call of itself is for a character that is no new line. -/
def uartPutc (c : Byte) : Io Unit := do
  if c = newline then send base carriageReturn
  send base c

/-- `uart_puts` of a string with the given characters. -/
def uartPuts (s : List Byte) : Io Unit := putsWith (uartPutc base) s

/-- The digit that `uart_hex` sends for four bits. -/
def hexChar (n : BitVec 64) : Byte := (n + if n > 9 then 0x57 else 0x30).setWidth 8

/-- The loop of `uart_hex` from `c = 4 * (n - 1)` on. -/
def uartHexLoop (h : BitVec 64) : Nat → Io Unit
  | 0 => return
  | n + 1 => do
      uartPutc base (hexChar (h >>> (4 * n) &&& 0xf))
      uartHexLoop h n

def uartHex (h : BitVec 64) : Io Unit := do
  uartPuts base (ascii "0x")
  uartHexLoop base h 16

/-- `uart_putc(uart_getc())` -/
def echo : Io Unit := do
  uartPutc base (← uartGetc base)

end Functions

namespace Ex11

variable (base : BitVec 64)

def uartGetc : Io Byte := do
  awaitData base
  Program.get (rbr base)

/-- `uart_putc`; the call of itself is for a character that is no carriage return. -/
def uartPutc (c : Byte) : Io Unit := do
  send base c
  if c = carriageReturn then send base newline

def uartPuts (s : List Byte) : Io Unit := putsWith (uartPutc base) s

/-- `uart_putc(uart_getc())` -/
def echo : Io Unit := do
  uartPutc base (← uartGetc base)

end Ex11

end OscKernel.Uart
