import OscKernel.Riscv.Memory
import Mathlib.Data.List.Nodup
import Mathlib.Logic.Function.Basic

/-!
# A RISC-V machine

The part of a 64-bit RISC-V hart that trap handlers and context switches use: the 31
general registers, the supervisor CSRs of traps, byte memory, the instructions that move
data between them, and what the hardware does at a trap and at `sret`.
-/

namespace OscKernel.Riscv

/-- The general registers other than `zero`. -/
inductive Reg where
  | ra | sp | gp | tp | t0 | t1 | t2 | s0 | s1
  | a0 | a1 | a2 | a3 | a4 | a5 | a6 | a7
  | s2 | s3 | s4 | s5 | s6 | s7 | s8 | s9 | s10 | s11
  | t3 | t4 | t5 | t6
  deriving DecidableEq, Repr

/-- The CSRs of traps to supervisor mode. -/
inductive Csr where
  | sscratch | sepc | sstatus | scause | stval
  deriving DecidableEq, Repr

/-- Privilege modes. -/
inductive Mode where
  | user | supervisor
  deriving DecidableEq, Repr

/-- A hart and its memory. -/
structure Machine where
  regs : Reg → BitVec 64
  csrs : Csr → BitVec 64
  mode : Mode
  pc : BitVec 64
  mem : Mem

/-- The instructions that move data; `csrwZero` is `csrw` with the register `zero`. -/
inductive Instr where
  | li (rd : Reg) (imm : BitVec 64)
  | not (rd rs : Reg)
  | and (rd rs rs' : Reg)
  | addi (rd rs : Reg) (imm : BitVec 64)
  | andi (rd rs : Reg) (imm : BitVec 64)
  | ld (rd : Reg) (offset : BitVec 64) (base : Reg)
  | sd (rs : Reg) (offset : BitVec 64) (base : Reg)
  | csrr (rd : Reg) (csr : Csr)
  | csrw (csr : Csr) (rs : Reg)
  | csrwZero (csr : Csr)
  | csrrw (rd : Reg) (csr : Csr) (rs : Reg)
  deriving DecidableEq, Repr

namespace Machine

def setReg (s : Machine) (rd : Reg) (value : BitVec 64) : Machine :=
  { s with regs := Function.update s.regs rd value }

def setCsr (s : Machine) (csr : Csr) (value : BitVec 64) : Machine :=
  { s with csrs := Function.update s.csrs csr value }

/-- One instruction. -/
def exec (s : Machine) : Instr → Machine
  | .li rd imm => s.setReg rd imm
  | .not rd rs => s.setReg rd (~~~s.regs rs)
  | .and rd rs rs' => s.setReg rd (s.regs rs &&& s.regs rs')
  | .addi rd rs imm => s.setReg rd (s.regs rs + imm)
  | .andi rd rs imm => s.setReg rd (s.regs rs &&& imm)
  | .ld rd offset base => s.setReg rd (s.mem.load (s.regs base + offset))
  | .sd rs offset base => { s with mem := s.mem.store (s.regs base + offset) (s.regs rs) }
  | .csrr rd csr => s.setReg rd (s.csrs csr)
  | .csrw csr rs => s.setCsr csr (s.regs rs)
  | .csrwZero csr => s.setCsr csr 0
  | .csrrw rd csr rs => (s.setCsr csr (s.regs rs)).setReg rd (s.csrs csr)

/-- Instructions without jumps. -/
def block (code : List Instr) (s : Machine) : Machine := code.foldl exec s

/-- `jal` that is the last instruction of a call: the return address is that of the instruction
after it. -/
def call (s : Machine) : Machine := s.setReg .ra (s.pc + 4)

/-- `jalr rd, imm(rs)`, with the address of the instruction after it. -/
def jalr (rd rs : Reg) (imm after : BitVec 64) (s : Machine) : Machine :=
  { s.setReg rd after with pc := (s.regs rs + imm) &&& ~~~1 }

/-! ## Traps -/

/-- `sstatus` after a trap: SPP (bit 8) holds the mode, SPIE (bit 5) the interrupt enable
SIE (bit 1), which is cleared. -/
def trapStatus (mode : Mode) (status : BitVec 64) : BitVec 64 :=
  (status &&& ~~~0x122) ||| (if mode = .supervisor then 0x100 else 0) |||
    (if status.getLsbD 1 then 0x20 else 0)

/-- `sstatus` after `sret`. -/
def sretStatus (status : BitVec 64) : BitVec 64 :=
  (status &&& ~~~0x122) ||| (if status.getLsbD 5 then 0x2 else 0) ||| 0x20

/-- A trap to the handler at `stvec`. -/
def trap (stvec cause tval : BitVec 64) (s : Machine) : Machine where
  regs := s.regs
  csrs
    | .sscratch => s.csrs .sscratch
    | .sepc => s.pc
    | .sstatus => trapStatus s.mode (s.csrs .sstatus)
    | .scause => cause
    | .stval => tval
  mode := .supervisor
  pc := stvec
  mem := s.mem

/-- The mode that SPP records. -/
def previousMode (status : BitVec 64) : Mode := if status.getLsbD 8 then .supervisor else .user

/-- `sret` -/
def sret (s : Machine) : Machine :=
  { s with
    mode := previousMode (s.csrs .sstatus)
    pc := s.csrs .sepc
    csrs := Function.update s.csrs .sstatus (sretStatus (s.csrs .sstatus)) }

theorem previousMode_trapStatus (mode : Mode) (status : BitVec 64) :
    previousMode (trapStatus mode status) = mode := by
  have cleared : (status &&& ~~~0x122).getLsbD 8 = false := by
    rw [BitVec.getLsbD_and, BitVec.getLsbD_not]
    simp
  have enable : ((if status.getLsbD 1 then 0x20 else 0 : BitVec 64)).getLsbD 8 = false := by
    split
    · decide
    · decide
  rw [previousMode, trapStatus, BitVec.getLsbD_or, BitVec.getLsbD_or, cleared, enable]
  cases mode with
  | user => rfl
  | supervisor => rfl

/-- The test `andi rd, rd, 1 << 8` for SPP. -/
theorem and_spp_ne_zero (status : BitVec 64) :
    status &&& 0x100 ≠ 0 ↔ previousMode status = .supervisor := by
  have bit : status &&& 0x100 = if status.getLsbD 8 then 0x100 else 0 :=
    BitVec.and_twoPow status 8
  rw [bit, previousMode]
  cases status.getLsbD 8 with
  | false => decide
  | true => decide

/-! ## Blocks of loads and stores -/

section Blocks

variable {s : Machine} {base : Reg}

theorem block_append (first second : List Instr) (s : Machine) :
    block (first ++ second) s = block second (block first s) := List.foldl_append

theorem block_cons (instr : Instr) (code : List Instr) (s : Machine) :
    block (instr :: code) s = block code (s.exec instr) := rfl

/-- Address of slot `i` of a frame. -/
def slotAddr (frame : BitVec 64) (i : Nat) : BitVec 64 := frame + BitVec.ofNat 64 (8 * i)

/-- Stores of registers into slots of the frame that `base` points to. -/
def saves (base : Reg) (table : List (Reg × Nat)) : List Instr :=
  table.map fun entry => .sd entry.1 (BitVec.ofNat 64 (8 * entry.2)) base

/-- Loads of registers from slots of the frame that `base` points to. -/
def loads (base : Reg) (table : List (Reg × Nat)) : List Instr :=
  table.map fun entry => .ld entry.1 (BitVec.ofNat 64 (8 * entry.2)) base

/-- Slots of one frame do not overlap. -/
theorem load_store_slot {m : Mem} {frame value : BitVec 64} {i j : Nat} (small : i < 2 ^ 32)
    (small' : j < 2 ^ 32) (different : i ≠ j) :
    (m.store (slotAddr frame i) value).load (slotAddr frame j) = m.load (slotAddr frame j) := by
  apply Mem.load_store_apart
  · rw [distance, slotAddr, slotAddr]
    bv_omega
  · rw [distance, slotAddr, slotAddr]
    bv_omega

/-- The effect of a block of stores. -/
structure Saved (base : Reg) (table : List (Reg × Nat)) (s s' : Machine) : Prop where
  regs : s'.regs = s.regs
  csrs : s'.csrs = s.csrs
  mode : s'.mode = s.mode
  pc : s'.pc = s.pc
  slots : ∀ entry ∈ table, s'.mem.load (slotAddr (s.regs base) entry.2) = s.regs entry.1
  otherSlots : ∀ i < 2 ^ 32, i ∉ table.map Prod.snd →
    s'.mem.load (slotAddr (s.regs base) i) = s.mem.load (slotAddr (s.regs base) i)
  outside : ∀ x, (∀ entry ∈ table, 8 ≤ distance (slotAddr (s.regs base) entry.2) x) →
    s'.mem x = s.mem x

theorem block_saves {table : List (Reg × Nat)} (distinct : (table.map Prod.snd).Nodup)
    (small : ∀ entry ∈ table, entry.2 < 2 ^ 32) :
    Saved base table s (block (saves base table) s) := by
  induction table generalizing s with
  | nil =>
      constructor
      all_goals first | rfl | simp [saves, block]
  | cons entry table ih =>
      rw [List.map_cons, List.nodup_cons] at distinct
      have first : entry.2 < 2 ^ 32 := small entry (List.mem_cons_self ..)
      have rest := ih (s := s.exec (.sd entry.1 (BitVec.ofNat 64 (8 * entry.2)) base)) distinct.2
        fun other member => small other (List.mem_cons_of_mem _ member)
      have code : block (saves base (entry :: table)) s =
          block (saves base table)
            (s.exec (.sd entry.1 (BitVec.ofNat 64 (8 * entry.2)) base)) := rfl
      rw [code]
      constructor
      · exact rest.regs
      · exact rest.csrs
      · exact rest.mode
      · exact rest.pc
      · intro other member
        rcases List.mem_cons.mp member with equal | member
        · rw [equal]
          calc (block (saves base table) _).mem.load (slotAddr (s.regs base) entry.2)
              = (s.mem.store (slotAddr (s.regs base) entry.2) (s.regs entry.1)).load
                  (slotAddr (s.regs base) entry.2) := rest.otherSlots entry.2 first distinct.1
            _ = s.regs entry.1 := Mem.load_store_self
        · exact rest.slots other member
      · intro i bound absent
        rw [List.map_cons, List.mem_cons, not_or] at absent
        calc (block (saves base table) _).mem.load (slotAddr (s.regs base) i)
            = (s.mem.store (slotAddr (s.regs base) entry.2) (s.regs entry.1)).load
                (slotAddr (s.regs base) i) := rest.otherSlots i bound absent.2
          _ = s.mem.load (slotAddr (s.regs base) i) :=
              load_store_slot first bound (Ne.symm absent.1)
      · intro x away
        calc (block (saves base table) _).mem x
            = s.mem.store (slotAddr (s.regs base) entry.2) (s.regs entry.1) x :=
              rest.outside x fun other member => away other (List.mem_cons_of_mem _ member)
          _ = s.mem x := Mem.store_outside (away entry (List.mem_cons_self ..))

/-- The effect of a block of loads. -/
structure Loaded (base : Reg) (table : List (Reg × Nat)) (s s' : Machine) : Prop where
  csrs : s'.csrs = s.csrs
  mode : s'.mode = s.mode
  pc : s'.pc = s.pc
  mem : s'.mem = s.mem
  slots : ∀ entry ∈ table, s'.regs entry.1 = s.mem.load (slotAddr (s.regs base) entry.2)
  others : ∀ r, r ∉ table.map Prod.fst → s'.regs r = s.regs r

theorem block_loads {table : List (Reg × Nat)} (distinct : (table.map Prod.fst).Nodup)
    (other : base ∉ table.map Prod.fst) : Loaded base table s (block (loads base table) s) := by
  induction table generalizing s with
  | nil =>
      constructor
      all_goals first | rfl | simp [loads, block]
  | cons entry table ih =>
      rw [List.map_cons, List.nodup_cons] at distinct
      rw [List.map_cons, List.mem_cons, not_or] at other
      have rest := ih (s := s.exec (.ld entry.1 (BitVec.ofNat 64 (8 * entry.2)) base)) distinct.2
        other.2
      have code : block (loads base (entry :: table)) s =
          block (loads base table)
            (s.exec (.ld entry.1 (BitVec.ofNat 64 (8 * entry.2)) base)) := rfl
      have loaded : (s.exec (.ld entry.1 (BitVec.ofNat 64 (8 * entry.2)) base)).regs =
          Function.update s.regs entry.1 (s.mem.load (slotAddr (s.regs base) entry.2)) := rfl
      have pointer : (s.exec (.ld entry.1 (BitVec.ofNat 64 (8 * entry.2)) base)).regs base =
          s.regs base := by
        rw [loaded, Function.update_of_ne other.1]
      rw [code]
      constructor
      · exact rest.csrs
      · exact rest.mode
      · exact rest.pc
      · exact rest.mem
      · intro found member
        rcases List.mem_cons.mp member with equal | member
        · rw [equal, rest.others entry.1 distinct.1, loaded, Function.update_self]
        · rw [rest.slots found member, pointer]
          rfl
      · intro r absent
        rw [List.map_cons, List.mem_cons, not_or] at absent
        rw [rest.others r absent.2, loaded, Function.update_of_ne absent.1]

end Blocks

end Machine

end OscKernel.Riscv
