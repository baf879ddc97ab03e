import OscKernel.Traps.HandleException

/-!
# Traps are transparent

Between `handle_exception` and `ret_from_exception` runs `do_trap`, any C code that follows the
calling convention.  Traps may interrupt it again, down to any depth of nesting.  The
interrupted program then finds its registers, its mode and `sscratch` as it left them.
-/

namespace OscKernel.Traps

open OscKernel.Riscv OscKernel.Riscv.Machine

/-- The convention for the stack: there is room for a frame, and `sscratch` has the kernel stack
in user mode only. -/
structure Ready (s : Machine) : Prop where
  room : 280 ≤ (stackTop s).toNat
  user : s.mode = .user → s.csrs .sscratch ≠ 0
  supervisor : s.mode = .supervisor → s.csrs .sscratch = 0

/-- What the code of `do_trap` may do: write below the `sp` of its call, and to the saved
`sepc`. -/
structure Own (entry t t' : Machine) : Prop where
  mode : t'.mode = t.mode
  sscratch : t'.csrs .sscratch = t.csrs .sscratch
  memory : ∀ x, (entry.regs .sp).toNat ≤ x.toNat →
    8 ≤ distance (slotAddr (entry.regs .sp) 31) x → t'.mem x = t.mem x

/-- `do_trap` under way, with traps of the relation `Nested` in between. -/
inductive Running (Nested : Machine → Machine → Prop) (entry : Machine) : Machine → Prop where
  | start : Running Nested entry entry
  | own {t t' : Machine} : Running Nested entry t → Own entry t t' → Running Nested entry t'
  | nested {t t' : Machine} : Running Nested entry t →
      (t.regs .sp).toNat ≤ (entry.regs .sp).toNat → 280 ≤ (t.regs .sp).toNat →
      Nested t t' → Running Nested entry t'

def calleeSaved : List Reg := [.sp, .s0, .s1, .s2, .s3, .s4, .s5, .s6, .s7, .s8, .s9, .s10, .s11]

/-- `do_trap` from its call to its return. -/
structure DoTrap (Nested : Machine → Machine → Prop) (entry t : Machine) : Prop where
  running : Running Nested entry t
  restored : ∀ r ∈ calleeSaved, t.regs r = entry.regs r

/-- A trap at `s`, from the interrupted instruction through `sret`, with at most `depth` frames
on the stack. -/
def Trap : Nat → Machine → Machine → Prop
  | 0, _, _ => False
  | depth + 1, s, done => ∃ stvec cause tval t,
      DoTrap (Trap depth) (handle_exception (trap stvec cause tval s)) t ∧
        done = ret_from_exception t

/-- A trap at `s` with its stages: `do_trap` is called at `entry`, it returns at `left`, and the
interrupted program goes on at `done`. -/
structure Trapped (depth : Nat) (s entry left done : Machine) : Prop where
  entered : ∃ stvec cause tval, entry = handle_exception (trap stvec cause tval s)
  call : DoTrap (Trap depth) entry left
  returned : done = ret_from_exception left

/-- What every trap does, whichever stack it takes. -/
structure Passed (s done : Machine) : Prop where
  registers : ∀ r, done.regs r = s.regs r
  mode : done.mode = s.mode
  savedMode : done.mode = previousMode (done.mem.load (slotAddr (stackTop s - 280) 32))
  savedPc : done.pc = done.mem.load (slotAddr (stackTop s - 280) 31)
  memory : ∀ x, (stackTop s).toNat ≤ x.toNat → done.mem x = s.mem x
  top : done.csrs .sscratch = if s.mode = .supervisor then 0 else stackTop s

/-- The interrupted program finds everything as it was, `sscratch` included. -/
structure Transparent (s done : Machine) : Prop extends Passed s done where
  sscratch : done.csrs .sscratch = s.csrs .sscratch

/-- Where the interrupted program goes on: `do_trap` finds the interrupted pc in slot 31 of its
frame, and what it leaves there is where `sret` goes. -/
structure Resumes (s entry left done : Machine) : Prop where
  saved : entry.mem.load (slotAddr (entry.regs .sp) 31) = s.pc
  resumed : done.pc = left.mem.load (slotAddr (entry.regs .sp) 31)
  untouched : left.mem.load (slotAddr (entry.regs .sp) 31) =
    entry.mem.load (slotAddr (entry.regs .sp) 31) → done.pc = s.pc
  advanced : ∀ step, left.mem.load (slotAddr (entry.regs .sp) 31) =
    entry.mem.load (slotAddr (entry.regs .sp) 31) + step → done.pc = s.pc + step

section Call

variable {entry t : Machine} {Nested : Machine → Machine → Prop}

/-- What `do_trap` keeps. -/
structure Kept (entry t : Machine) : Prop where
  mode : t.mode = entry.mode
  sscratch : t.csrs .sscratch = entry.csrs .sscratch
  memory : ∀ x, (entry.regs .sp).toNat ≤ x.toNat →
    8 ≤ distance (slotAddr (entry.regs .sp) 31) x → t.mem x = entry.mem x

/-- Nested traps are in supervisor mode with `sscratch` zero, so their frames are below the
`sp` that they find. -/
theorem Running.kept (supervisor : entry.mode = .supervisor)
    (zero : entry.csrs .sscratch = 0)
    (transparent : ∀ {s done}, Ready s → Nested s done → Transparent s done)
    (running : Running Nested entry t) : Kept entry t := by
  induction running with
  | start => exact ⟨rfl, rfl, fun _ _ _ => rfl⟩
  | own _ step ih =>
      constructor
      · rw [step.mode, ih.mode]
      · rw [step.sscratch, ih.sscratch]
      · intro x above apart
        rw [step.memory x above apart, ih.memory x above apart]
  | @nested t t' _ below room pass ih =>
      have scratch : t.csrs .sscratch = 0 := ih.sscratch.trans zero
      have top : stackTop t = t.regs .sp := if_neg fun different => different scratch
      have ready : Ready t := by
        constructor
        · rwa [top]
        · intro user
          rw [ih.mode, supervisor] at user
          cases user
        · exact fun _ => scratch
      have done := transparent ready pass
      constructor
      · rw [done.mode, ih.mode]
      · rw [done.sscratch, ih.sscratch]
      · intro x above apart
        rw [done.memory x (by rw [top]; omega), ih.memory x above apart]

end Call

/-! ## One trap -/

/-- The bytes of a doubleword that does not wrap around. -/
theorem toNat_of_distance {a x : BitVec 64} (room : a.toNat + 8 ≤ 2 ^ 64)
    (inside : distance a x < 8) :
    a.toNat ≤ x.toNat ∧ x.toNat < a.toNat + 8 := by
  rw [distance] at inside
  bv_omega

theorem distance_of_toNat {a x : BitVec 64} (room : a.toNat + 8 ≤ 2 ^ 64)
    (outside : x.toNat < a.toNat ∨ a.toNat + 8 ≤ x.toNat) : 8 ≤ distance a x := by
  rw [distance]
  bv_omega

/-- `do_trap` keeps every slot of the frame but the one of `sepc`. -/
theorem Kept.slots {entry t : Machine} (kept : Kept entry t)
    (room : (entry.regs .sp).toNat + 280 ≤ 2 ^ 64) {i : Nat} (inside : i < 35) (other : i ≠ 31) :
    t.mem.load (slotAddr (entry.regs .sp) i) = entry.mem.load (slotAddr (entry.regs .sp) i) := by
  have place := slotAddr_toNat inside room
  have sepcPlace := slotAddr_toNat (show 31 < 35 by decide) room
  apply Mem.load_congr
  intro x within
  have bounds := toNat_of_distance (by omega) within
  apply kept.memory x
  · omega
  · apply distance_of_toNat
    · omega
    · omega

theorem frame_toNat {s : Machine} (room : 280 ≤ (stackTop s).toNat) :
    (stackTop s - 280).toNat + 280 = (stackTop s).toNat := by
  bv_omega

/-- The registers and the mode come back from the frame, where `do_trap` has left them. -/
theorem passed_of_kept {stvec cause tval : BitVec 64} {s t : Machine}
    (room : 280 ≤ (stackTop s).toNat)
    (kept : Kept (handle_exception (trap stvec cause tval s)) t)
    (sp : t.regs .sp = (handle_exception (trap stvec cause tval s)).regs .sp) :
    Passed s (ret_from_exception t) := by
  have entered := handle_exception_spec (trap stvec cause tval s)
  have left := ret_from_exception_spec t
  have top : stackTop (trap stvec cause tval s) = stackTop s := rfl
  have status : previousMode ((trap stvec cause tval s).csrs .sstatus) = s.mode :=
    previousMode_trapStatus ..
  have regs : (trap stvec cause tval s).regs = s.regs := rfl
  have mem : (trap stvec cause tval s).mem = s.mem := rfl
  generalize trap stvec cause tval s = trapped at *
  generalize handle_exception trapped = entry at *
  have frame := frame_toNat room
  have pointer : entry.regs .sp = stackTop s - 280 := by rw [entered.sp, top]
  have limit : (entry.regs .sp).toNat + 280 ≤ 2 ^ 64 := by
    rw [pointer, frame]
    exact Nat.le_of_lt (stackTop s).isLt
  have savedStatus : previousMode (t.mem.load (slotAddr (t.regs .sp) 32)) = s.mode := by
    rw [sp, kept.slots limit (by decide) (by decide), pointer, ← top, entered.sstatus, status]
  constructor
  · intro r
    rw [left.registers, sp, kept.slots limit ?_ ?_, pointer, ← top, entered.registers, regs]
    · cases r <;> decide
    · cases r <;> decide
  · rw [left.mode, savedStatus]
  · rw [left.mode, left.mem, sp, pointer]
  · rw [left.pc, left.mem, sp, pointer]
  · intro x above
    rw [left.mem, kept.memory x ?_ ?_, entered.outside x ?_, mem]
    · intro i inside
      rw [top]
      apply distance_slotAddr inside
      · omega
      · omega
    · rw [pointer]
      omega
    · apply distance_slotAddr (by decide) limit
      rw [pointer]
      omega
  · have mode := left.mode.trans savedStatus
    rw [left.sscratch, mode, kept.sscratch, entered.sscratch, sp, pointer, BitVec.sub_add_cancel]

/-- A trap at a machine that keeps the convention for the stack. -/
theorem trap_transparent {depth : Nat} {s done : Machine} (ready : Ready s)
    (pass : Trap depth s done) : Transparent s done := by
  induction depth generalizing s done with
  | zero => exact pass.elim
  | succ depth ih =>
      obtain ⟨stvec, cause, tval, t, call, rfl⟩ := pass
      have entered := handle_exception_spec (trap stvec cause tval s)
      have kept := call.running.kept entered.mode entered.sscratch ih
      have passed := passed_of_kept ready.room kept (call.restored .sp (by decide))
      refine ⟨passed, ?_⟩
      rw [passed.top, stackTop]
      cases mode : s.mode with
      | user => rw [if_neg (by decide), if_pos (ready.user mode)]
      | supervisor => rw [if_pos rfl, ready.supervisor mode]

theorem Trapped.trap {depth : Nat} {s entry left done : Machine}
    (trapped : Trapped depth s entry left done) : Trap (depth + 1) s done := by
  obtain ⟨⟨stvec, cause, tval, rfl⟩, call, returned⟩ := trapped
  exact ⟨stvec, cause, tval, left, call, returned⟩

/-- `sepc` is in slot 31, and `ret_from_exception` takes it from there. -/
theorem Trapped.resumes {depth : Nat} {s entry left done : Machine}
    (trapped : Trapped depth s entry left done) : Resumes s entry left done := by
  obtain ⟨⟨stvec, cause, tval, rfl⟩, call, rfl⟩ := trapped
  have entered := handle_exception_spec (Machine.trap stvec cause tval s)
  have saved : (handle_exception (Machine.trap stvec cause tval s)).mem.load
      (slotAddr ((handle_exception (Machine.trap stvec cause tval s)).regs .sp) 31) = s.pc := by
    rw [entered.sp, entered.sepc]
    rfl
  have resumed := (ret_from_exception_spec left).pc
  rw [call.restored .sp (by decide)] at resumed
  constructor
  · exact saved
  · exact resumed
  · intro untouched
    rw [resumed, untouched, saved]
  · intro step advanced
    rw [resumed, advanced, saved]

/-! ## `do_trap` of `main.c` -/

/-- `do_trap`: its prints stay on its own stack, and `regs->epc += 4` advances the saved
`sepc`. -/
structure do_trap (entry t : Machine) : Prop where
  own : Own entry entry t
  restored : ∀ r ∈ calleeSaved, t.regs r = entry.regs r
  advanced : t.mem.load (slotAddr (entry.regs .sp) 31) =
    entry.mem.load (slotAddr (entry.regs .sp) 31) + 4

theorem do_trap.call {entry t : Machine} {Nested : Machine → Machine → Prop}
    (call : do_trap entry t) : DoTrap Nested entry t :=
  ⟨.own .start call.own, call.restored⟩

theorem do_trap.kept {entry t : Machine} (call : do_trap entry t) : Kept entry t :=
  ⟨call.own.mode, call.own.sscratch, call.own.memory⟩

/-- The shortest `do_trap`: nothing is printed. -/
def advanceSepc (entry : Machine) : Machine :=
  { entry with
    mem := entry.mem.store (slotAddr (entry.regs .sp) 31)
      (entry.mem.load (slotAddr (entry.regs .sp) 31) + 4) }

theorem do_trap_advanceSepc (entry : Machine) : do_trap entry (advanceSepc entry) :=
  ⟨⟨rfl, rfl, fun _ _ apart => Mem.store_outside apart⟩, fun _ _ => rfl, Mem.load_store_self⟩

/-! ## Runs -/

/-- Runs of the interrupted program: steps of its own, which stay in its mode and leave
`sscratch` alone, and traps with room for their frame. -/
inductive Run (s : Machine) : Machine → Prop where
  | start : Run s s
  | step {t t' : Machine} : Run s t → t'.mode = t.mode →
      t'.csrs .sscratch = t.csrs .sscratch → Run s t'
  | trap {t t' : Machine} {depth : Nat} : Run s t → 280 ≤ (stackTop t).toNat →
      Trap depth t t' → Run s t'

theorem Ready.transfer {s t : Machine} (ready : Ready s) (room : 280 ≤ (stackTop t).toNat)
    (mode : t.mode = s.mode) (sscratch : t.csrs .sscratch = s.csrs .sscratch) : Ready t := by
  constructor
  · exact room
  · rw [mode, sscratch]
    exact ready.user
  · rw [mode, sscratch]
    exact ready.supervisor

/-- The kernel stack does not drift. -/
theorem Run.kept {s t : Machine} (ready : Ready s) (run : Run s t) :
    t.mode = s.mode ∧ t.csrs .sscratch = s.csrs .sscratch := by
  induction run with
  | start => exact ⟨rfl, rfl⟩
  | step _ mode sscratch ih => exact ⟨mode.trans ih.1, sscratch.trans ih.2⟩
  | trap _ room pass ih =>
      have done := trap_transparent (ready.transfer room ih.1 ih.2) pass
      exact ⟨done.mode.trans ih.1, done.sscratch.trans ih.2⟩

/-- After any run, a trap to any depth of nesting is transparent, `sscratch` is still the one at
the start, and the program goes on at its saved pc, as `do_trap` has left it. -/
theorem handle_exception_transparent {s t entry left done : Machine} {depth : Nat}
    (ready : Ready s) (run : Run s t) (room : 280 ≤ (stackTop t).toNat)
    (trapped : Trapped depth t entry left done) :
    Transparent t done ∧ done.csrs .sscratch = s.csrs .sscratch ∧
      Resumes t entry left done := by
  obtain ⟨mode, sscratch⟩ := run.kept ready
  have transparent := trap_transparent (ready.transfer room mode sscratch) trapped.trap
  exact ⟨transparent, transparent.sscratch.trans sscratch, trapped.resumes⟩

/-- A user program with its kernel stack at `0x80210000`, interrupted once by an `ecall` at
`0x80200000`. -/
theorem handle_exception_transparent_user :
    ∃ s entry left done : Machine, s.mode = .user ∧ s.csrs .sscratch = 0x80210000 ∧
      Trapped 0 s entry left done ∧ Transparent s done ∧ done.pc = 0x80200004 := by
  let s : Machine :=
    { regs := fun r => BitVec.ofNat 64 (0x80200000 + slot r)
      csrs := fun csr => if csr = .sscratch then 0x80210000 else 0
      mode := .user
      pc := 0x80200000
      mem := fun _ => 0 }
  have ready : Ready s := ⟨by decide, fun _ => by decide, fun supervisor => by cases supervisor⟩
  have call := do_trap_advanceSepc (handle_exception (trap 0x80200040 8 0 s))
  have trapped : Trapped 0 s (handle_exception (trap 0x80200040 8 0 s))
      (advanceSepc (handle_exception (trap 0x80200040 8 0 s)))
      (ret_from_exception (advanceSepc (handle_exception (trap 0x80200040 8 0 s)))) :=
    ⟨⟨0x80200040, 8, 0, rfl⟩, call.call, rfl⟩
  obtain ⟨transparent, _, resumes⟩ :=
    handle_exception_transparent ready .start ready.room trapped
  exact ⟨s, _, _, _, rfl, rfl, trapped, transparent, resumes.advanced 4 call.advanced⟩

end OscKernel.Traps
