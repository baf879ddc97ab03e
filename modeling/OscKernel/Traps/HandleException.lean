import OscKernel.Riscv.Machine

/-!
# Trap entry and exit

`handle_exception` of `start.S`, which is the same code in every exercise with traps.  The
frame it builds is the `struct pt_regs` of `main.c`: 31 registers, then `sepc`, `sstatus`,
`scause` and `stval`.
-/

namespace OscKernel.Traps

open OscKernel.Riscv OscKernel.Riscv.Machine

/-- `save_context`, up to the call of `do_trap`. -/
def save_context : List Instr :=
  [.addi .sp .sp (-280),
    .sd .ra (8 * 0) .sp, .sd .gp (8 * 2) .sp, .sd .tp (8 * 3) .sp, .sd .t0 (8 * 4) .sp,
    .sd .t1 (8 * 5) .sp, .sd .t2 (8 * 6) .sp, .sd .s0 (8 * 7) .sp, .sd .s1 (8 * 8) .sp,
    .sd .a0 (8 * 9) .sp, .sd .a1 (8 * 10) .sp, .sd .a2 (8 * 11) .sp, .sd .a3 (8 * 12) .sp,
    .sd .a4 (8 * 13) .sp, .sd .a5 (8 * 14) .sp, .sd .a6 (8 * 15) .sp, .sd .a7 (8 * 16) .sp,
    .sd .s2 (8 * 17) .sp, .sd .s3 (8 * 18) .sp, .sd .s4 (8 * 19) .sp, .sd .s5 (8 * 20) .sp,
    .sd .s6 (8 * 21) .sp, .sd .s7 (8 * 22) .sp, .sd .s8 (8 * 23) .sp, .sd .s9 (8 * 24) .sp,
    .sd .s10 (8 * 25) .sp, .sd .s11 (8 * 26) .sp, .sd .t3 (8 * 27) .sp, .sd .t4 (8 * 28) .sp,
    .sd .t5 (8 * 29) .sp, .sd .t6 (8 * 30) .sp,
    .csrr .s0 .sscratch, .csrr .s1 .sepc, .csrr .s2 .sstatus, .csrr .s3 .scause,
    .csrr .s4 .stval,
    .sd .s0 (8 * 1) .sp, .sd .s1 (8 * 31) .sp, .sd .s2 (8 * 32) .sp, .sd .s3 (8 * 33) .sp,
    .sd .s4 (8 * 34) .sp,
    .csrwZero .sscratch,
    .addi .a0 .sp 0]

/-- `handle_exception` up to the call of `do_trap`. -/
def handle_exception (s : Machine) : Machine :=
  let s := s.exec (.csrrw .sp .sscratch .sp)
  let s := if s.regs .sp ≠ 0 then s else s.exec (.csrr .sp .sscratch)
  block save_context s

/-- `ret_from_exception` from the label `1` on, up to `sret`. -/
def restore_context : List Instr :=
  [.ld .s1 (8 * 31) .sp, .ld .s2 (8 * 32) .sp, .csrw .sepc .s1, .csrw .sstatus .s2,
    .ld .ra (8 * 0) .sp, .ld .gp (8 * 2) .sp, .ld .tp (8 * 3) .sp, .ld .t0 (8 * 4) .sp,
    .ld .t1 (8 * 5) .sp, .ld .t2 (8 * 6) .sp, .ld .s0 (8 * 7) .sp, .ld .s1 (8 * 8) .sp,
    .ld .a0 (8 * 9) .sp, .ld .a1 (8 * 10) .sp, .ld .a2 (8 * 11) .sp, .ld .a3 (8 * 12) .sp,
    .ld .a4 (8 * 13) .sp, .ld .a5 (8 * 14) .sp, .ld .a6 (8 * 15) .sp, .ld .a7 (8 * 16) .sp,
    .ld .s2 (8 * 17) .sp, .ld .s3 (8 * 18) .sp, .ld .s4 (8 * 19) .sp, .ld .s5 (8 * 20) .sp,
    .ld .s6 (8 * 21) .sp, .ld .s7 (8 * 22) .sp, .ld .s8 (8 * 23) .sp, .ld .s9 (8 * 24) .sp,
    .ld .s10 (8 * 25) .sp, .ld .s11 (8 * 26) .sp, .ld .t3 (8 * 27) .sp, .ld .t4 (8 * 28) .sp,
    .ld .t5 (8 * 29) .sp, .ld .t6 (8 * 30) .sp,
    .ld .sp (8 * 1) .sp]

/-- `ret_from_exception` -/
def ret_from_exception (s : Machine) : Machine :=
  let s := block [.ld .s0 (8 * 32) .sp, .andi .s0 .s0 (1 <<< 8)] s
  let s := if s.regs .s0 ≠ 0 then s else block [.addi .s0 .sp 280, .csrw .sscratch .s0] s
  (block restore_context s).sret

/-! ## The frame -/

/-- The slot of a register in `struct pt_regs`. -/
def slot : Reg → Nat
  | .ra => 0 | .sp => 1 | .gp => 2 | .tp => 3 | .t0 => 4 | .t1 => 5 | .t2 => 6
  | .s0 => 7 | .s1 => 8 | .a0 => 9 | .a1 => 10 | .a2 => 11 | .a3 => 12 | .a4 => 13
  | .a5 => 14 | .a6 => 15 | .a7 => 16 | .s2 => 17 | .s3 => 18 | .s4 => 19 | .s5 => 20
  | .s6 => 21 | .s7 => 22 | .s8 => 23 | .s9 => 24 | .s10 => 25 | .s11 => 26 | .t3 => 27
  | .t4 => 28 | .t5 => 29 | .t6 => 30

/-- The registers that `handle_exception` moves with one instruction each. -/
def generalRegs : List Reg :=
  [.ra, .gp, .tp, .t0, .t1, .t2, .s0, .s1, .a0, .a1, .a2, .a3, .a4, .a5, .a6, .a7, .s2, .s3,
    .s4, .s5, .s6, .s7, .s8, .s9, .s10, .s11, .t3, .t4, .t5, .t6]

def generalSlots : List (Reg × Nat) := generalRegs.map fun r => (r, slot r)

/-- The registers that hold the CSRs, with their slots. -/
def csrSlots : List (Reg × Nat) := [(.s0, 1), (.s1, 31), (.s2, 32), (.s3, 33), (.s4, 34)]

theorem mem_generalSlots {r : Reg} (other : r ≠ .sp) : (r, slot r) ∈ generalSlots := by
  cases r with
  | sp => exact absurd rfl other
  | _ => decide

theorem save_context_eq : save_context =
    .addi .sp .sp (-280) :: (saves .sp generalSlots ++
      ([.csrr .s0 .sscratch, .csrr .s1 .sepc, .csrr .s2 .sstatus, .csrr .s3 .scause,
        .csrr .s4 .stval] ++
      (saves .sp csrSlots ++ [.csrwZero .sscratch, .addi .a0 .sp 0]))) := by
  decide

theorem restore_context_eq : restore_context =
    [.ld .s1 (8 * 31) .sp, .ld .s2 (8 * 32) .sp, .csrw .sepc .s1, .csrw .sstatus .s2] ++
      (loads .sp generalSlots ++ [.ld .sp (8 * 1) .sp]) := by
  decide

/-- Offsets within the frame are the addresses of its slots. -/
theorem slotAddr_toNat {frame : BitVec 64} {i : Nat} (inside : i < 35)
    (room : frame.toNat + 280 ≤ 2 ^ 64) :
    (slotAddr frame i).toNat = frame.toNat + 8 * i := by
  rw [slotAddr, BitVec.toNat_add, BitVec.toNat_ofNat, Nat.mod_eq_of_lt (by omega),
    Nat.mod_eq_of_lt (by omega)]

/-- Memory from the end of the frame on is outside every slot. -/
theorem distance_slotAddr {frame x : BitVec 64} {i : Nat} (inside : i < 35)
    (room : frame.toNat + 280 ≤ 2 ^ 64) (above : frame.toNat + 280 ≤ x.toNat) :
    8 ≤ distance (slotAddr frame i) x := by
  have place := slotAddr_toNat inside room
  rw [distance]
  bv_omega

/-- The kernel stack that a trap uses. -/
def stackTop (s : Machine) : BitVec 64 :=
  if s.csrs .sscratch ≠ 0 then s.csrs .sscratch else s.regs .sp

/-- The machine at the call of `do_trap`, after a trap at `s`. -/
structure Entered (s entry : Machine) : Prop where
  sp : entry.regs .sp = stackTop s - 280
  mode : entry.mode = s.mode
  sscratch : entry.csrs .sscratch = 0
  registers : ∀ r, entry.mem.load (slotAddr (stackTop s - 280) (slot r)) = s.regs r
  sepc : entry.mem.load (slotAddr (stackTop s - 280) 31) = s.csrs .sepc
  sstatus : entry.mem.load (slotAddr (stackTop s - 280) 32) = s.csrs .sstatus
  scause : entry.mem.load (slotAddr (stackTop s - 280) 33) = s.csrs .scause
  stval : entry.mem.load (slotAddr (stackTop s - 280) 34) = s.csrs .stval
  outside : ∀ x, (∀ i < 35, 8 ≤ distance (slotAddr (stackTop s - 280) i) x) →
    entry.mem x = s.mem x

/-- The swap of `sp` and `sscratch`: `sp` is on the kernel stack and `sscratch` has the `sp` of
the interrupted program, in both modes. -/
theorem swap_spec (s : Machine) :
    let swapped := s.exec (.csrrw .sp .sscratch .sp)
    (if swapped.regs .sp ≠ 0 then swapped else swapped.exec (.csrr .sp .sscratch)) =
      { s with
        regs := Function.update s.regs .sp (stackTop s)
        csrs := Function.update s.csrs .sscratch (s.regs .sp) } := by
  intro swapped
  have taken : swapped.regs .sp = s.csrs .sscratch := rfl
  rw [taken, stackTop]
  by_cases user : s.csrs .sscratch ≠ 0
  · rw [if_pos user, if_pos user]
    rfl
  · rw [if_neg user, if_neg user]
    show Machine.mk (Function.update (Function.update s.regs .sp _) .sp _) _ _ _ _ = _
    rw [Function.update_idem]
    rfl

/-- Read the CSRs of the trap into `s0` to `s4`. -/
def readCsrs : List Instr :=
  [.csrr .s0 .sscratch, .csrr .s1 .sepc, .csrr .s2 .sstatus, .csrr .s3 .scause, .csrr .s4 .stval]

/-- After `readCsrs` the slots of `csrSlots` get the CSRs. -/
def csrOf : Nat → Csr
  | 1 => .sscratch
  | 31 => .sepc
  | 32 => .sstatus
  | 33 => .scause
  | _ => .stval

theorem readCsrs_spec (s : Machine) :
    (block readCsrs s).mem = s.mem ∧ (block readCsrs s).csrs = s.csrs ∧
      (block readCsrs s).mode = s.mode ∧ (block readCsrs s).regs .sp = s.regs .sp ∧
      ∀ entry ∈ csrSlots, (block readCsrs s).regs entry.1 = s.csrs (csrOf entry.2) := by
  refine ⟨rfl, rfl, rfl, rfl, ?_⟩
  intro entry member
  simp only [csrSlots, List.mem_cons, List.not_mem_nil, or_false] at member
  rcases member with rfl | rfl | rfl | rfl | rfl <;> rfl

theorem save_generalSlots (s : Machine) :
    Saved .sp generalSlots s (block (saves .sp generalSlots) s) :=
  block_saves (by decide) (by decide)

theorem save_csrSlots (s : Machine) : Saved .sp csrSlots s (block (saves .sp csrSlots) s) :=
  block_saves (by decide) (by decide)

/-- The last instructions before the call. -/
theorem prepare_call_spec (s : Machine) :
    let prepared := block [.csrwZero .sscratch, .addi .a0 .sp 0] s
    prepared.mem = s.mem ∧ prepared.mode = s.mode ∧ prepared.regs .sp = s.regs .sp ∧
      prepared.csrs .sscratch = 0 :=
  ⟨rfl, rfl, rfl, rfl⟩

/-- The whole of `save_context`. -/
theorem save_context_spec (s : Machine) :
    let frame := s.regs .sp - 280
    let entry := block save_context s
    entry.regs .sp = frame ∧ entry.mode = s.mode ∧ entry.csrs .sscratch = 0 ∧
      (∀ r, r ≠ .sp → entry.mem.load (slotAddr frame (slot r)) = s.regs r) ∧
      (∀ pair ∈ csrSlots, entry.mem.load (slotAddr frame pair.2) = s.csrs (csrOf pair.2)) ∧
      ∀ x, (∀ i < 35, 8 ≤ distance (slotAddr frame i) x) → entry.mem x = s.mem x := by
  dsimp only
  rw [save_context_eq, block_cons, block_append, ← readCsrs, block_append, block_append]
  have sp : (s.exec (.addi .sp .sp (-280))).regs .sp = s.regs .sp - 280 :=
    (BitVec.sub_eq_add_neg ..).symm
  have others : ∀ r, r ≠ .sp → (s.exec (.addi .sp .sp (-280))).regs r = s.regs r :=
    fun r other => Function.update_of_ne other ..
  have mem : (s.exec (.addi .sp .sp (-280))).mem = s.mem := rfl
  have csrs : (s.exec (.addi .sp .sp (-280))).csrs = s.csrs := rfl
  have mode : (s.exec (.addi .sp .sp (-280))).mode = s.mode := rfl
  generalize s.exec (.addi .sp .sp (-280)) = lowered at *
  have first := save_generalSlots lowered
  generalize block (saves .sp generalSlots) lowered = stored at *
  obtain ⟨readMem, readCsr, readMode, readSp, values⟩ := readCsrs_spec stored
  generalize block readCsrs stored = read at *
  have second := save_csrSlots read
  generalize block (saves .sp csrSlots) read = complete at *
  obtain ⟨callMem, callMode, callSp, callScratch⟩ := prepare_call_spec complete
  generalize block [.csrwZero .sscratch, .addi .a0 .sp 0] complete = entry at *
  have firstSlots := first.slots
  rw [sp] at firstSlots
  have pointer : read.regs .sp = s.regs .sp - 280 := by rw [readSp, first.regs, sp]
  have secondSlots := second.slots
  have secondOthers := second.otherSlots
  rw [pointer] at secondSlots secondOthers
  refine ⟨?_, ?_, ?_, ?_, ?_, ?_⟩
  · rw [callSp, second.regs, pointer]
  · rw [callMode, second.mode, readMode, first.mode, mode]
  · exact callScratch
  · intro r other
    rw [callMem, secondOthers (slot r) ?_ ?_, readMem, firstSlots _ (mem_generalSlots other),
      others r other]
    · cases r <;> decide
    · cases r with
      | sp => exact absurd rfl other
      | _ => decide
  · intro pair member
    rw [callMem, secondSlots pair member, values pair member, first.csrs, csrs]
  · intro x away
    rw [callMem, second.outside x ?_, readMem, first.outside x ?_, mem]
    · intro pair member
      rw [sp]
      apply away
      revert pair
      decide
    · intro pair member
      rw [pointer]
      apply away
      revert pair
      decide

theorem handle_exception_spec (s : Machine) : Entered s (handle_exception s) := by
  have swapped : handle_exception s = block save_context
      { s with
        regs := Function.update s.regs .sp (stackTop s)
        csrs := Function.update s.csrs .sscratch (s.regs .sp) } := by
    rw [← swap_spec]
    rfl
  obtain ⟨sp, mode, sscratch, registers, csrs, outside⟩ := save_context_spec
    { s with
      regs := Function.update s.regs .sp (stackTop s)
      csrs := Function.update s.csrs .sscratch (s.regs .sp) }
  rw [← swapped] at sp mode sscratch registers csrs outside
  simp only [Function.update_self] at sp registers csrs outside
  constructor
  · exact sp
  · exact mode
  · exact sscratch
  · intro r
    by_cases pointer : r = .sp
    · rw [pointer]
      exact csrs (.s0, 1) (by decide)
    · rw [registers r pointer, Function.update_of_ne pointer]
  · exact csrs (.s1, 31) (by decide)
  · exact csrs (.s2, 32) (by decide)
  · exact csrs (.s3, 33) (by decide)
  · exact csrs (.s4, 34) (by decide)
  · exact outside

/-- The machine after `sret`, for a frame that `sp` points to. -/
structure Left (s done : Machine) : Prop where
  registers : ∀ r, done.regs r = s.mem.load (slotAddr (s.regs .sp) (slot r))
  mem : done.mem = s.mem
  pc : done.pc = s.mem.load (slotAddr (s.regs .sp) 31)
  mode : done.mode = previousMode (s.mem.load (slotAddr (s.regs .sp) 32))
  sscratch : done.csrs .sscratch =
    if done.mode = .supervisor then s.csrs .sscratch else s.regs .sp + 280

/-- The restored `sscratch`: the end of the frame for a trap from user mode. -/
theorem restore_sscratch_spec (s : Machine) :
    let tested := block [.ld .s0 (8 * 32) .sp, .andi .s0 .s0 (1 <<< 8)] s
    let chosen := if tested.regs .s0 ≠ 0 then tested
      else block [.addi .s0 .sp 280, .csrw .sscratch .s0] tested
    chosen.mem = s.mem ∧ chosen.regs .sp = s.regs .sp ∧
      chosen.csrs .sscratch =
        if previousMode (s.mem.load (slotAddr (s.regs .sp) 32)) = .supervisor
        then s.csrs .sscratch else s.regs .sp + 280 := by
  intro tested chosen
  have value : tested.regs .s0 = s.mem.load (slotAddr (s.regs .sp) 32) &&& 0x100 := rfl
  have test := and_spp_ne_zero (s.mem.load (slotAddr (s.regs .sp) 32))
  rw [← value] at test
  by_cases supervisor : tested.regs .s0 ≠ 0
  · have kept : chosen = tested := if_pos supervisor
    rw [kept, if_pos (test.mp supervisor)]
    exact ⟨rfl, rfl, rfl⟩
  · have written : chosen = block [.addi .s0 .sp 280, .csrw .sscratch .s0] tested :=
      if_neg supervisor
    rw [written, if_neg (mt test.mpr supervisor)]
    exact ⟨rfl, rfl, rfl⟩

theorem load_generalSlots (s : Machine) :
    Loaded .sp generalSlots s (block (loads .sp generalSlots) s) :=
  block_loads (by decide) (by decide)

/-- The saved `sepc` and `sstatus` go back to their CSRs. -/
theorem restore_csrs_spec (s : Machine) :
    let restored := block
      [.ld .s1 (8 * 31) .sp, .ld .s2 (8 * 32) .sp, .csrw .sepc .s1, .csrw .sstatus .s2] s
    restored.mem = s.mem ∧ restored.regs .sp = s.regs .sp ∧
      restored.csrs .sscratch = s.csrs .sscratch ∧
      restored.csrs .sepc = s.mem.load (slotAddr (s.regs .sp) 31) ∧
      restored.csrs .sstatus = s.mem.load (slotAddr (s.regs .sp) 32) :=
  ⟨rfl, rfl, rfl, rfl, rfl⟩

/-- The interrupted `sp` is loaded last. -/
theorem restore_sp_spec (s : Machine) :
    let restored := block [.ld .sp (8 * 1) .sp] s
    restored.mem = s.mem ∧ restored.csrs = s.csrs ∧
      restored.regs .sp = s.mem.load (slotAddr (s.regs .sp) 1) ∧
      ∀ r, r ≠ .sp → restored.regs r = s.regs r :=
  ⟨rfl, rfl, rfl, fun _ other => Function.update_of_ne other ..⟩

theorem restore_context_spec (s : Machine) :
    let restored := block restore_context s
    restored.mem = s.mem ∧ restored.csrs .sscratch = s.csrs .sscratch ∧
      restored.csrs .sepc = s.mem.load (slotAddr (s.regs .sp) 31) ∧
      restored.csrs .sstatus = s.mem.load (slotAddr (s.regs .sp) 32) ∧
      ∀ r, restored.regs r = s.mem.load (slotAddr (s.regs .sp) (slot r)) := by
  dsimp only
  rw [restore_context_eq, block_append, block_append]
  obtain ⟨csrMem, csrSp, csrScratch, csrSepc, csrStatus⟩ := restore_csrs_spec s
  generalize block [.ld .s1 (8 * 31) .sp, .ld .s2 (8 * 32) .sp, .csrw .sepc .s1,
    .csrw .sstatus .s2] s = written at *
  have general := load_generalSlots written
  generalize block (loads .sp generalSlots) written = loaded at *
  obtain ⟨lastMem, lastCsrs, lastSp, lastRegs⟩ := restore_sp_spec loaded
  generalize block [.ld .sp (8 * 1) .sp] loaded = restored at *
  have pointer : loaded.regs .sp = s.regs .sp := by rw [general.others .sp (by decide), csrSp]
  refine ⟨?_, ?_, ?_, ?_, ?_⟩
  · rw [lastMem, general.mem, csrMem]
  · rw [lastCsrs, general.csrs, csrScratch]
  · rw [lastCsrs, general.csrs, csrSepc]
  · rw [lastCsrs, general.csrs, csrStatus]
  · intro r
    by_cases base : r = .sp
    · rw [base, lastSp, pointer, general.mem, csrMem]
      rfl
    · rw [lastRegs r base, general.slots _ (mem_generalSlots base), csrSp, csrMem]

theorem sret_spec (s : Machine) :
    (sret s).regs = s.regs ∧ (sret s).mem = s.mem ∧ (sret s).pc = s.csrs .sepc ∧
      (sret s).mode = previousMode (s.csrs .sstatus) ∧
      (sret s).csrs .sscratch = s.csrs .sscratch :=
  ⟨rfl, rfl, rfl, rfl, rfl⟩

theorem ret_from_exception_spec (s : Machine) : Left s (ret_from_exception s) := by
  obtain ⟨mem, sp, sscratch⟩ := restore_sscratch_spec s
  rw [ret_from_exception]
  generalize (if (block [.ld .s0 (8 * 32) .sp, .andi .s0 .s0 (1 <<< 8)] s).regs .s0 ≠ 0
    then block [.ld .s0 (8 * 32) .sp, .andi .s0 .s0 (1 <<< 8)] s
    else block [.addi .s0 .sp 280, .csrw .sscratch .s0]
      (block [.ld .s0 (8 * 32) .sp, .andi .s0 .s0 (1 <<< 8)] s)) = chosen at *
  obtain ⟨restMem, restScratch, restSepc, restStatus, restRegs⟩ := restore_context_spec chosen
  generalize block restore_context chosen = restored at *
  obtain ⟨doneRegs, doneMem, donePc, doneMode, doneScratch⟩ := sret_spec restored
  rw [mem, sp] at restRegs restSepc restStatus
  constructor
  · intro r
    rw [doneRegs, restRegs]
  · rw [doneMem, restMem, mem]
  · rw [donePc, restSepc]
  · rw [doneMode, restStatus]
  · rw [doneScratch, doneMode, restScratch, sscratch, restStatus]

end OscKernel.Traps
