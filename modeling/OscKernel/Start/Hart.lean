import OscKernel.Loops.Iterate
import OscKernel.Paging.Walk
import OscKernel.Riscv.Machine
import Mathlib.Logic.Relation

/-!
# A hart that boots

A program whose instructions are fetched through the address translation, one line of
assembly after the other.  A line is at one physical address; the addresses that the program
computes are relative to its program counter, so they move with it.  An access that the
translation refuses is a trap to `stvec`.
-/

namespace OscKernel.Start

open Loops Paging Riscv

/-- The accesses that the translation checks. -/
inductive Access where
  | load
  | store
  | fetch
  deriving DecidableEq, Repr

/-- The permission bit of an access: R, W and X are bits 1 to 3. -/
def Access.bit : Access → Nat
  | .load => 1
  | .store => 2
  | .fetch => 3

/-- What the supervisor may do to a page: U is bit 4, A and D are bits 6 and 7. -/
def permits (flags : Nat) (access : Access) : Bool :=
  flags.testBit access.bit && !flags.testBit 4 && flags.testBit 6 &&
    (access != .store || flags.testBit 7)

/-- The physical address of an access.  Bits 60 to 63 of `satp` are the mode, 0 without
translation and 8 for Sv39; bits 0 to 43 are the page of the root table. -/
def reach (satp : BitVec 64) (m : PhysMem) (access : Access) (va : BitVec 64) : Option Nat :=
  if satp.toNat / 2 ^ 60 = 0 then
    if va.toNat < 2 ^ 56 then some va.toNat else none
  else if satp.toNat / 2 ^ 60 = 8 then
    match translate m (satp.toNat % 2 ^ 44) va with
    | some t => if permits t.flags access then some t.pa else none
    | none => none
  else none

/-- What a trap leaves in the registers `sepc`, `scause` and `stval`. -/
structure Trap where
  sepc : BitVec 64
  scause : BitVec 64
  stval : BitVec 64
  deriving DecidableEq, Repr

/-- The hart, and the traps that it has taken. -/
structure Hart where
  pc : BitVec 64
  regs : Reg → BitVec 64
  stvec : BitVec 64
  satp : BitVec 64
  traps : List Trap
  mem : PhysMem

/-- The lines of the boot code; symbols and targets are physical addresses.
`cleared` is `table[i] = 0` of C, and `fill` the statements that fill the page tables. -/
inductive Line where
  | la (rd : Reg) (symbol : Nat)
  | li (rd : Reg) (imm : BitVec 64)
  | add (rd rs rs' : Reg)
  | addi (rd rs : Reg) (imm : BitVec 64)
  | andi (rd rs : Reg) (imm : BitVec 64)
  | ble (rs rs' : Reg) (target : Nat)
  | blt (rs rs' : Reg) (target : Nat)
  | sdZero (rs : Reg)
  | cleared (table : Nat) (i : Reg)
  | jr (rs : Reg)
  | call (target : Nat)
  | tail (target : Nat)
  | csrwStvec (rs : Reg)
  | csrwSatp (pgd : Nat)
  | sfence
  | fill (tables : PhysMem → PhysMem)

/-- Lines and the physical addresses where they are. -/
structure Text where
  lines : List Line
  address : Nat → Nat
  increasing : ∀ i, address i < address (i + 1)

/-- `MAKE_SATP(pgd)` -/
def makeSatp (pgd : BitVec 64) : BitVec 64 := (8 : BitVec 64) <<< 60 ||| pgd >>> 12

namespace Hart

def setReg (s : Hart) (rd : Reg) (value : BitVec 64) : Hart :=
  { s with regs := Function.update s.regs rd value }

def goto (s : Hart) (pc : BitVec 64) : Hart := { s with pc := pc }

/-- A trap; the two low bits of `stvec` are its mode. -/
def trap (s : Hart) (scause stval : BitVec 64) : Hart :=
  { s with pc := s.stvec &&& ~~~3, traps := s.traps ++ [⟨s.pc, scause, stval⟩] }

/-- A store of a zero doubleword, and then the program counter.  The memory is made of aligned
doublewords: scause 6 is a store to another address, scause 15 a page fault of a store. -/
def zero (s : Hart) (va next : BitVec 64) : Hart :=
  if 8 ∣ va.toNat then
    match reach s.satp s.mem .store va with
    | some pa => { s with mem := Function.update s.mem pa 0, pc := next }
    | none => s.trap 15 va
  else s.trap 6 va

/-- A store that neither the alignment nor the translation refuses. -/
theorem zero_eq {s : Hart} {va next : BitVec 64} {pa : Nat} (aligned : 8 ∣ va.toNat)
    (reached : reach s.satp s.mem .store va = some pa) :
    s.zero va next = { s with mem := Function.update s.mem pa 0, pc := next } := by
  rw [zero, if_pos aligned, reached]

end Hart

namespace Text

variable (text : Text)

/-- The address of something as line `i` sees it. -/
def relative (i : Nat) (s : Hart) (target : Nat) : BitVec 64 :=
  s.pc + BitVec.ofNat 64 target - BitVec.ofNat 64 (text.address i)

/-- The address of the line after line `i`. -/
def after (i : Nat) (s : Hart) : BitVec 64 := text.relative i s (text.address (i + 1))

/-- Line `i`. -/
def exec (i : Nat) (s : Hart) : Line → Hart
  | .la rd symbol => (s.setReg rd (text.relative i s symbol)).goto (text.after i s)
  | .li rd imm => (s.setReg rd imm).goto (text.after i s)
  | .add rd rs rs' => (s.setReg rd (s.regs rs + s.regs rs')).goto (text.after i s)
  | .addi rd rs imm => (s.setReg rd (s.regs rs + imm)).goto (text.after i s)
  | .andi rd rs imm => (s.setReg rd (s.regs rs &&& imm)).goto (text.after i s)
  | .ble rs rs' target =>
      if (s.regs rs).sle (s.regs rs') then s.goto (text.relative i s target)
      else s.goto (text.after i s)
  | .blt rs rs' target =>
      if (s.regs rs).slt (s.regs rs') then s.goto (text.relative i s target)
      else s.goto (text.after i s)
  | .sdZero rs => s.zero (s.regs rs) (text.after i s)
  | .cleared table j => s.zero (text.relative i s table + 8 * s.regs j) (text.after i s)
  | .jr rs => s.goto (s.regs rs &&& ~~~1)
  | .call target => (s.setReg .ra (text.after i s)).goto (text.relative i s target)
  | .tail target => s.goto (text.relative i s target)
  | .csrwStvec rs => { s with stvec := s.regs rs, pc := text.after i s }
  | .csrwSatp pgd =>
      { s with satp := makeSatp (text.relative i s pgd), pc := text.after i s }
  | .sfence => s.goto (text.after i s)
  | .fill tables => { s with mem := tables s.mem, pc := text.after i s }

/-- The line at a physical address. -/
def lineAt (pa : Nat) : Option Nat :=
  (List.range text.lines.length).find? fun i => text.address i == pa

/-- One line; the program ends at the first address that is none of its lines.  Scause 12 is a
page fault of a fetch. -/
def round (s : Hart) : Round Hart Hart :=
  match reach s.satp s.mem .fetch s.pc with
  | none => .next (s.trap 12 s.pc)
  | some pa =>
      match text.lineAt pa with
      | none => .stop s
      | some i =>
          match text.lines[i]? with
          | none => .stop s
          | some line => .next (text.exec i s line)

/-- Some lines later. -/
def Reaches : Hart → Hart → Prop :=
  Relation.ReflTransGen fun s t => text.round s = .next t

section Run

variable {text} {s t : Hart} {i j : Nat} {off : BitVec 64}

theorem address_lt (before : i < j) : text.address i < text.address j := by
  induction j with
  | zero => omega
  | succ j ih =>
      have step := text.increasing j
      by_cases last : i = j
      · rw [last]
        exact step
      · exact Nat.lt_trans (ih (by omega)) step

theorem lineAt_address (inside : i < text.lines.length) :
    text.lineAt (text.address i) = some i := by
  rw [lineAt, List.find?_range_eq_some]
  refine ⟨by simp, List.mem_range.mpr inside, ?_⟩
  intro j before
  have apart := text.address_lt before
  simp only [Bool.not_eq_true', beq_eq_false_iff_ne, ne_eq]
  omega

theorem lineAt_of_ne {pa : Nat} (away : ∀ i < text.lines.length, text.address i ≠ pa) :
    text.lineAt pa = none := by
  rw [lineAt, List.find?_eq_none]
  intro i member
  simp only [beq_iff_eq]
  exact away i (List.mem_range.mp member)

/-- The program ends behind its lines. -/
theorem ends_of_reaches {pa : Nat} (reaches : text.Reaches s t)
    (fetched : reach t.satp t.mem .fetch t.pc = some pa)
    (away : ∀ i < text.lines.length, text.address i ≠ pa) : Ends text.round s t := by
  induction reaches using Relation.ReflTransGen.head_induction_on with
  | refl =>
      apply Ends.of_stop
      rw [round, fetched]
      simp only [lineAt_of_ne away]
  | head step _ ih => exact Ends.of_next step ih

end Run

end Text

/-! ## Windows -/

/-- Every access to the physical addresses from `lo` to `hi` works at an offset. -/
def Window (satp : BitVec 64) (m : PhysMem) (off : BitVec 64) (lo hi : Nat) : Prop :=
  ∀ x, lo ≤ x → x < hi → ∀ access, reach satp m access (BitVec.ofNat 64 x + off) = some x

/-- The hart is at line `i` of a program that runs at an offset, in a window of the text. -/
structure AtLine (text : Text) (off : BitVec 64) (i : Nat) (s : Hart) : Prop where
  pc : s.pc = BitVec.ofNat 64 (text.address i) + off
  fetched : reach s.satp s.mem .fetch s.pc = some (text.address i)

theorem Window.atLine {text : Text} {off : BitVec 64} {i lo hi : Nat} {s : Hart}
    (window : Window s.satp s.mem off lo hi)
    (pc : s.pc = BitVec.ofNat 64 (text.address i) + off) (low : lo ≤ text.address i)
    (high : text.address i < hi) : AtLine text off i s := by
  constructor
  · exact pc
  · rw [pc]
    exact window _ low high _

/-- Without translation the window at offset 0 is the physical memory. -/
theorem window_bare {satp : BitVec 64} {m : PhysMem} {lo hi : Nat}
    (bare : satp.toNat / 2 ^ 60 = 0) (physical : hi ≤ 2 ^ 56) : Window satp m 0 lo hi := by
  intro x _ high access
  have address : (BitVec.ofNat 64 x + 0).toNat = x := by
    rw [BitVec.toNat_add, BitVec.toNat_ofNat, show (0 : BitVec 64).toNat = 0 from rfl]
    omega
  rw [reach, if_pos bare, address, if_pos (by omega)]

namespace AtLine

variable {text : Text} {off : BitVec 64} {i : Nat} {s : Hart} {line : Line}

/-- The address of a symbol while the program runs at an offset. -/
theorem relative (here : AtLine text off i s) (target : Nat) :
    text.relative i s target = BitVec.ofNat 64 target + off := by
  rw [Text.relative, here.pc]
  apply BitVec.eq_of_toNat_eq
  simp only [BitVec.toNat_add, BitVec.toNat_sub, BitVec.toNat_ofNat]
  have bound := off.isLt
  omega

theorem after (here : AtLine text off i s) :
    text.after i s = BitVec.ofNat 64 (text.address (i + 1)) + off := here.relative _

theorem round (here : AtLine text off i s) (code : text.lines[i]? = some line) :
    text.round s = .next (text.exec i s line) := by
  have inside : i < text.lines.length := (List.getElem?_eq_some_iff.mp code).1
  rw [Text.round, here.fetched]
  simp only [Text.lineAt_address inside, code]

/-- The hart goes from line to line. -/
theorem reaches (here : AtLine text off i s) (code : text.lines[i]? = some line) {t : Hart}
    (rest : text.Reaches (text.exec i s line) t) : text.Reaches s t :=
  .head (here.round code) rest

end AtLine

end OscKernel.Start
