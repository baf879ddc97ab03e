import OscKernel.Traps.Transparent
import Mathlib.Data.List.Induction

/-!
# User memory across traps

`exec` of the first user program leaves `sscratch` zero.  The first trap of the program
therefore puts its frame on the user's stack, and the way back takes the end of that frame for
the kernel stack of every later trap.
-/

namespace OscKernel.Traps

open OscKernel.Riscv OscKernel.Riscv.Machine

/-- The `asm` of `exec`; `epc` is the register that the compiler takes for `%0`. -/
def exec_asm (epc : Reg) (s : Machine) : Machine :=
  sret (block
    [.csrr .t0 .sstatus, .li .t1 0x100, .not .t1 .t1, .and .t0 .t0 .t1, .csrw .sstatus .t0,
      .csrw .sepc epc] s)

/-- One pass of an `ecall` through `handle_exception` and `do_trap`. -/
def Pass (t done : Machine) : Prop :=
  ∃ stvec t', do_trap (handle_exception (trap stvec 8 0 t)) t' ∧ done = ret_from_exception t'

/-- Runs of a user program, with the machines before and after each `ecall`.  Its own steps
write any register and any memory. -/
inductive UserRun (s : Machine) : List (Machine × Machine) → Machine → Prop where
  | start : UserRun s [] s
  | step {passes : List (Machine × Machine)} {t t' : Machine} : UserRun s passes t →
      t'.mode = t.mode → t'.csrs = t.csrs → UserRun s passes t'
  | ecall {passes : List (Machine × Machine)} {t done : Machine} : UserRun s passes t →
      280 ≤ (t.regs .sp).toNat → Pass t done → UserRun s (passes ++ [(t, done)]) done

/-- The `sp` of the user at each `ecall`. -/
def depths (passes : List (Machine × Machine)) : List (BitVec 64) :=
  passes.map fun pass => pass.1.regs .sp

/-- The bytes from the user's `sp` on are as before. -/
def Survives (pass : Machine × Machine) : Prop :=
  ∀ x, (pass.1.regs .sp).toNat ≤ x.toNat → pass.2.mem x = pass.1.mem x

theorem exec_asm_spec (epc : Reg) (s : Machine) :
    (exec_asm epc s).mode = .user ∧ (exec_asm epc s).csrs .sscratch = s.csrs .sscratch := by
  have status : (exec_asm epc s).mode = previousMode (s.csrs .sstatus &&& ~~~0x100) := rfl
  constructor
  · rw [status, previousMode, BitVec.getLsbD_and, BitVec.getLsbD_not]
    simp
  · rfl

section Passes

variable {s t done : Machine} {passes : List (Machine × Machine)}

theorem Pass.passed (room : 280 ≤ (stackTop t).toNat) (pass : Pass t done) : Passed t done := by
  obtain ⟨stvec, t', call, rfl⟩ := pass
  exact passed_of_kept room call.kept (call.restored .sp (by decide))

/-- `stval`, zero for an `ecall`, ends in the last doubleword below the stack top. -/
theorem Pass.overwrites (room : 280 ≤ (stackTop t).toNat) (pass : Pass t done) :
    done.mem.load (slotAddr (stackTop t - 280) 34) = 0 := by
  obtain ⟨stvec, t', call, rfl⟩ := pass
  have entered := handle_exception_spec (trap stvec 8 0 t)
  have left := ret_from_exception_spec t'
  have top : stackTop (trap stvec 8 0 t) = stackTop t := rfl
  have tval : (trap stvec 8 0 t).csrs .stval = 0 := rfl
  have frame := frame_toNat room
  have pointer : (handle_exception (trap stvec 8 0 t)).regs .sp = stackTop t - 280 := by
    rw [entered.sp, top]
  have limit : (stackTop t - 280).toNat + 280 ≤ 2 ^ 64 := by
    rw [frame]
    exact Nat.le_of_lt (stackTop t).isLt
  have kept := call.kept.slots (by rwa [pointer]) (show 34 < 35 by decide) (by decide)
  rw [left.mem, ← pointer, kept, pointer, ← top, entered.stval, tval]

/-- What holds after any run: `sscratch` is the `sp` of the first `ecall`, and so was the stack
of every pass. -/
structure Tracked (passes : List (Machine × Machine)) (t : Machine) : Prop where
  mode : t.mode = .user
  sscratch : t.csrs .sscratch = (depths passes).headD 0
  room : ∀ pass ∈ passes, 280 ≤ (pass.1.regs .sp).toNat
  top : ∀ pass ∈ passes, stackTop pass.1 = (depths passes).headD 0
  pass : ∀ pass ∈ passes, Pass pass.1 pass.2

theorem Tracked.stackTop_eq (tracked : Tracked passes t) (done : Machine) :
    stackTop t = (depths (passes ++ [(t, done)])).headD 0 := by
  rw [stackTop, tracked.sscratch]
  cases passes with
  | nil => rfl
  | cons first later =>
      have room := tracked.room first (List.mem_cons_self ..)
      have nonzero : first.1.regs .sp ≠ 0 := by
        intro zero
        rw [zero] at room
        exact absurd room (by decide)
      exact if_pos nonzero

theorem Tracked.stackTop_room (tracked : Tracked passes t)
    (room : 280 ≤ (t.regs .sp).toNat) : 280 ≤ (stackTop t).toNat := by
  rw [tracked.stackTop_eq t]
  cases passes with
  | nil => exact room
  | cons first later => exact tracked.room first (List.mem_cons_self ..)

theorem depths_headD_append {first : Machine × Machine} (member : first ∈ passes)
    (later : List (Machine × Machine)) :
    (depths (passes ++ later)).headD 0 = (depths passes).headD 0 := by
  cases passes with
  | nil => cases member
  | cons head tail => rfl

theorem UserRun.tracked (user : s.mode = .user) (zero : s.csrs .sscratch = 0)
    (run : UserRun s passes t) : Tracked passes t := by
  induction run with
  | start => exact ⟨user, zero, by simp, by simp, by simp⟩
  | step _ mode csrs ih =>
      exact ⟨mode.trans ih.mode, (congrFun csrs _).trans ih.sscratch, ih.room, ih.top, ih.pass⟩
  | @ecall passes t done _ room pass ih =>
      have top := ih.stackTop_eq done
      have passed := pass.passed (ih.stackTop_room room)
      constructor
      · rw [passed.mode, ih.mode]
      · rw [passed.top, ih.mode, if_neg (by decide), top]
      · intro other member
        rcases List.mem_append.mp member with member | member
        · exact ih.room other member
        · rw [List.mem_singleton.mp member]
          exact room
      · intro other member
        rcases List.mem_append.mp member with member | member
        · rw [ih.top other member, depths_headD_append member]
        · rw [List.mem_singleton.mp member]
          exact top
      · intro other member
        rcases List.mem_append.mp member with member | member
        · exact ih.pass other member
        · rw [List.mem_singleton.mp member]
          exact pass

theorem Tracked.top_room (tracked : Tracked passes t) {pass : Machine × Machine}
    (member : pass ∈ passes) : 280 ≤ (stackTop pass.1).toNat := by
  rw [tracked.top pass member]
  cases passes with
  | nil => cases member
  | cons first later => exact tracked.room first (List.mem_cons_self ..)

/-- A pass that starts at or above the stack top of the first one is harmless. -/
theorem Tracked.survives (tracked : Tracked passes t) {pass : Machine × Machine}
    (member : pass ∈ passes)
    (above : ((depths passes).headD 0).toNat ≤ (pass.1.regs .sp).toNat) : Survives pass := by
  intro x higher
  apply ((tracked.pass pass member).passed (tracked.top_room member)).memory
  rw [tracked.top pass member]
  omega

/-- A pass that starts below it overwrites the user's bytes. -/
theorem Tracked.not_survives (tracked : Tracked passes t) {pass : Machine × Machine}
    (member : pass ∈ passes)
    (below : (pass.1.regs .sp).toNat < ((depths passes).headD 0).toNat)
    (filled : pass.1.mem = fun _ => 0xff) : ¬ Survives pass := by
  intro survives
  have room := tracked.top_room member
  have frame := frame_toNat room
  rw [← tracked.top pass member] at below
  have zero := (tracked.pass pass member).overwrites room
  have byte := Mem.byte_load (m := pass.2.mem) (a := slotAddr (stackTop pass.1 - 280) 34)
    (show 7 < 8 by decide)
  have place := slotAddr_toNat (show 34 < 35 by decide)
    (show (stackTop pass.1 - 280).toNat + 280 ≤ 2 ^ 64 by
      rw [frame]
      exact Nat.le_of_lt (stackTop pass.1).isLt)
  have limit := (stackTop pass.1).isLt
  rw [zero, survives _ ?_, filled] at byte
  · have ones : (0xff : BitVec 8).toNat = 0 / 2 ^ (8 * 7) % 2 ^ 8 := byte
    exact absurd ones (by decide)
  · rw [BitVec.toNat_add, place, BitVec.toNat_ofNat]
    omega

/-- The user reaches an `ecall` at each depth of a list, with memory full of ones. -/
theorem exists_userRun (s : Machine) (sps : List (BitVec 64))
    (room : ∀ sp ∈ sps, 280 ≤ sp.toNat) :
    ∃ passes t, UserRun s passes t ∧ depths passes = sps ∧
      ∀ pass ∈ passes, pass.1.mem = fun _ => 0xff := by
  induction sps using List.reverseRecOn with
  | nil => exact ⟨[], s, .start, rfl, by simp⟩
  | append_singleton sps sp ih =>
      obtain ⟨passes, t, run, same, filled⟩ := ih fun other member =>
        room other (List.mem_append_left _ member)
      let pushed : Machine :=
        { t with regs := Function.update t.regs .sp sp, mem := fun _ => 0xff }
      have pointer : pushed.regs .sp = sp := Function.update_self Reg.sp sp t.regs
      have step : UserRun s passes pushed := run.step rfl rfl
      have pass : Pass pushed (ret_from_exception
          (advanceSepc (handle_exception (trap 0x80200040 8 0 pushed)))) :=
        ⟨0x80200040, _, do_trap_advanceSepc _, rfl⟩
      refine ⟨_, _, step.ecall ?_ pass, ?_, ?_⟩
      · rw [pointer]
        exact room sp (List.mem_append_right _ (List.mem_singleton_self sp))
      · rw [← same, depths, List.map_append, List.map_singleton, pointer]
        rfl
      · intro other member
        rcases List.mem_append.mp member with member | member
        · exact filled other member
        · rw [List.mem_singleton.mp member]

end Passes

/-- User memory survives every `ecall` exactly for the programs whose stack is never below its
depth at their first `ecall`. -/
theorem user_memory_iff (epc : Reg) {s : Machine} (zero : s.csrs .sscratch = 0)
    {sps : List (BitVec 64)} (room : ∀ sp ∈ sps, 280 ≤ sp.toNat) :
    (∀ passes t, UserRun (exec_asm epc s) passes t → depths passes = sps →
        ∀ pass ∈ passes, Survives pass) ↔
      ∀ sp ∈ sps, (sps.headD 0).toNat ≤ sp.toNat := by
  obtain ⟨user, kept⟩ := exec_asm_spec epc s
  rw [zero] at kept
  constructor
  · intro survive sp member
    obtain ⟨passes, t, run, same, filled⟩ := exists_userRun (exec_asm epc s) sps room
    rw [← same] at member ⊢
    obtain ⟨pass, found, rfl⟩ := List.mem_map.mp member
    by_contra below
    exact (run.tracked user kept).not_survives found (Nat.lt_of_not_le below) (filled pass found)
      (survive passes t run same pass found)
  · intro above passes t run same pass found
    apply (run.tracked user kept).survives found
    rw [same]
    apply above
    rw [← same]
    exact List.mem_map_of_mem found

/-- The kernel when it calls `exec`. -/
def execKernel : Machine where
  regs := fun _ => 0x80210000
  csrs := fun _ => 0
  mode := .supervisor
  pc := 0x80200100
  mem := fun _ => 0

/-- A program that traps twice at one depth. -/
theorem user_memory_iff_same_depth :
    (∀ passes t, UserRun (exec_asm .a0 execKernel) passes t →
        depths passes = [0x80210000, 0x80210000] → ∀ pass ∈ passes, Survives pass) ∧
      execKernel.csrs .sscratch = 0 := by
  have zero : execKernel.csrs .sscratch = 0 := rfl
  have room : ∀ sp ∈ [(0x80210000 : BitVec 64), 0x80210000], 280 ≤ sp.toNat := by simp
  exact ⟨(user_memory_iff .a0 zero room).mpr (by simp), zero⟩

/-- A program that pushes 16 bytes between its first and its second `ecall` loses them. -/
theorem pushed_bytes_lost :
    ¬ ∀ (epc : Reg) (s : Machine), s.csrs .sscratch = 0 → ∀ passes t,
      UserRun (exec_asm epc s) passes t → ∀ pass ∈ passes, Survives pass := by
  intro survive
  have room : ∀ sp ∈ [(0x80210000 : BitVec 64), 0x8020fff0], 280 ≤ sp.toNat := by simp
  obtain ⟨passes, t, run, same, filled⟩ := exists_userRun (exec_asm .a0 execKernel) _ room
  obtain ⟨user, kept⟩ := exec_asm_spec .a0 execKernel
  have member : (0x8020fff0 : BitVec 64) ∈ depths passes := by
    rw [same]
    decide
  obtain ⟨pass, found, depth⟩ := List.mem_map.mp member
  have below : (pass.1.regs .sp).toNat < ((depths passes).headD 0).toNat := by
    rw [depth, same]
    decide
  exact (run.tracked user kept).not_survives found below (filled pass found)
    (survive .a0 execKernel rfl passes t run pass found)

end OscKernel.Traps
