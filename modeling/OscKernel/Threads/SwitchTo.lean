import OscKernel.Riscv.Machine
import OscKernel.Words.Masks

/-!
# The context switch (`ex51/start.S`)

`switch_to` saves a task in its `thread_struct`, the first 14 slots of its `task_struct`, and
loads another task from there.  Its callers are C code and rely on `sp` and `s0` to `s11` being
the same when they run again.
-/

namespace OscKernel.Threads.Context

open Riscv Riscv.Machine

/-- `switch_to` up to `/* Restore context */`. -/
def saveThread : List Instr :=
  [.ld .s0 16 .sp,
    .sd .ra (8 * 0) .a0, .sd .sp (8 * 1) .a0, .sd .s0 (8 * 2) .a0, .sd .s1 (8 * 3) .a0,
    .sd .s2 (8 * 4) .a0, .sd .s3 (8 * 5) .a0, .sd .s4 (8 * 6) .a0, .sd .s5 (8 * 7) .a0,
    .sd .s6 (8 * 8) .a0, .sd .s7 (8 * 9) .a0, .sd .s8 (8 * 10) .a0, .sd .s9 (8 * 11) .a0,
    .sd .s10 (8 * 12) .a0, .sd .s11 (8 * 13) .a0]

/-- `switch_to` from `/* Restore context */` to the jump. -/
def restoreThread : List Instr :=
  [.ld .ra (8 * 0) .a1, .ld .sp (8 * 1) .a1, .ld .s0 (8 * 2) .a1, .ld .s1 (8 * 3) .a1,
    .ld .s2 (8 * 4) .a1, .ld .s3 (8 * 5) .a1, .ld .s4 (8 * 6) .a1, .ld .s5 (8 * 7) .a1,
    .ld .s6 (8 * 8) .a1, .ld .s7 (8 * 9) .a1, .ld .s8 (8 * 10) .a1, .ld .s9 (8 * 11) .a1,
    .ld .s10 (8 * 12) .a1, .ld .s11 (8 * 13) .a1,
    .addi .tp .a1 0]

/-- `switch_to`, up to and with its jump to the next task.  The address `after` is that of the
instruction after the jump; it and `ret` run only in a task that returns to the `ra` it finds. -/
def switchTo (after : BitVec 64) (s : Machine) : Machine :=
  jalr .ra .ra 0 after (block restoreThread (block saveThread s))

/-! ## The effect of a switch -/

/-- `struct thread_struct` -/
def threadSlots : List (Reg × Nat) :=
  [(.ra, 0), (.sp, 1), (.s0, 2), (.s1, 3), (.s2, 4), (.s3, 5), (.s4, 6), (.s5, 7), (.s6, 8),
    (.s7, 9), (.s8, 10), (.s9, 11), (.s10, 12), (.s11, 13)]

theorem threadSlots_lt : ∀ entry ∈ threadSlots, entry.2 < 14 := by decide

theorem saveThread_eq : saveThread = .ld .s0 16 .sp :: saves .a0 threadSlots := by decide

theorem restoreThread_eq : restoreThread = loads .a1 threadSlots ++ [.addi .tp .a1 0] := by
  decide

theorem saveThreadSlots (s : Machine) :
    Saved .a0 threadSlots s (block (saves .a0 threadSlots) s) :=
  block_saves (by decide) (by decide)

theorem load_threadSlots (s : Machine) :
    Loaded .a1 threadSlots s (block (loads .a1 threadSlots) s) :=
  block_loads (by decide) (by decide)

/-- The registers that `switch_to` saves, as it saves them: `s0` is taken from the stack. -/
def savedRegs (s : Machine) : Reg → BitVec 64 :=
  Function.update s.regs .s0 (s.mem.load (s.regs .sp + 16))

/-- What a switch does, from its entry to the jump. -/
structure Switched (s s' : Machine) : Prop where
  pc : s'.pc = s'.mem.load (slotAddr (s.regs .a1) 0) &&& ~~~1
  registers : ∀ entry ∈ threadSlots, entry.1 ≠ .ra →
    s'.regs entry.1 = s'.mem.load (slotAddr (s.regs .a1) entry.2)
  tp : s'.regs .tp = s.regs .a1
  saved : ∀ entry ∈ threadSlots,
    s'.mem.load (slotAddr (s.regs .a0) entry.2) = savedRegs s entry.1
  outside : ∀ x, 112 ≤ distance (s.regs .a0) x → s'.mem x = s.mem x

/-- Bytes after the `thread_struct` are outside of its slots. -/
theorem distance_threadSlot {task x : BitVec 64} {i : Nat} (inside : i < 14)
    (away : 112 ≤ distance task x) : 8 ≤ distance (slotAddr task i) x := by
  rw [distance] at *
  rw [slotAddr]
  bv_omega

theorem saveThread_spec (s : Machine) :
    let saved := block saveThread s
    saved.regs .a1 = s.regs .a1 ∧
      (∀ entry ∈ threadSlots,
        saved.mem.load (slotAddr (s.regs .a0) entry.2) = savedRegs s entry.1) ∧
      ∀ x, 112 ≤ distance (s.regs .a0) x → saved.mem x = s.mem x := by
  dsimp only
  rw [saveThread_eq, block_cons]
  have regs : (s.exec (.ld .s0 16 .sp)).regs = savedRegs s := rfl
  have mem : (s.exec (.ld .s0 16 .sp)).mem = s.mem := rfl
  generalize s.exec (.ld .s0 16 .sp) = loaded at *
  have saved := saveThreadSlots loaded
  generalize block (saves .a0 threadSlots) loaded = stored at *
  have a0 : loaded.regs .a0 = s.regs .a0 := by
    rw [regs]
    rfl
  have slots := saved.slots
  rw [a0, regs] at slots
  refine ⟨?_, slots, ?_⟩
  · rw [saved.regs, regs]
    rfl
  · intro x away
    rw [saved.outside x ?_, mem]
    intro entry member
    rw [a0]
    exact distance_threadSlot (threadSlots_lt entry member) away

theorem restoreThread_spec (s : Machine) :
    let restored := block restoreThread s
    restored.mem = s.mem ∧ restored.regs .tp = s.regs .a1 ∧
      ∀ entry ∈ threadSlots,
        restored.regs entry.1 = s.mem.load (slotAddr (s.regs .a1) entry.2) := by
  dsimp only
  rw [restoreThread_eq, block_append]
  have loaded := load_threadSlots s
  generalize block (loads .a1 threadSlots) s = stored at *
  have a1 : stored.regs .a1 = s.regs .a1 := loaded.others .a1 (by decide)
  have moved : ∀ stored : Machine, (block [.addi .tp .a1 0] stored).mem = stored.mem ∧
      (block [.addi .tp .a1 0] stored).regs .tp = stored.regs .a1 + 0 ∧
      ∀ r, r ≠ .tp → (block [.addi .tp .a1 0] stored).regs r = stored.regs r :=
    fun _ => ⟨rfl, rfl, fun _ other => Function.update_of_ne other ..⟩
  obtain ⟨mem, tp, others⟩ := moved stored
  generalize block [.addi .tp .a1 0] stored = restored at *
  refine ⟨?_, ?_, ?_⟩
  · rw [mem, loaded.mem]
  · rw [tp, a1]
    exact BitVec.add_zero _
  · intro entry member
    rw [others entry.1 ?_, loaded.slots entry member]
    revert entry
    decide

theorem switchTo_spec (after : BitVec 64) (s : Machine) : Switched s (switchTo after s) := by
  obtain ⟨a1, saved, outside⟩ := saveThread_spec s
  have jump : switchTo after s =
      jalr .ra .ra 0 after (block restoreThread (block saveThread s)) := rfl
  generalize block saveThread s = stored at *
  obtain ⟨mem, tp, restored⟩ := restoreThread_spec stored
  generalize block restoreThread stored = loaded at *
  have jumpMem : (switchTo after s).mem = stored.mem := by
    rw [jump, ← mem]
    rfl
  constructor
  · rw [jumpMem, ← a1, ← restored (.ra, 0) (by decide), jump]
    exact congrArg (· &&& ~~~1) (BitVec.add_zero _)
  · intro entry member other
    rw [jumpMem, ← a1, ← restored entry member, jump]
    exact Function.update_of_ne other ..
  · rw [← a1, ← tp, jump]
    rfl
  · rw [jumpMem]
    exact saved
  · rw [jumpMem]
    exact outside

/-! ## Runs -/

/-- A call of `switch_to` for a switch to one of `tasks`: `prev` is the task itself. -/
structure Calls (tasks : Set (BitVec 64)) (s : Machine) : Prop where
  current : s.regs .tp ∈ tasks
  prev : s.regs .a0 = s.regs .tp
  next : s.regs .a1 ∈ tasks
  -- instructions are at even addresses
  even : s.pc.toNat % 2 = 0

/-- Runs of any number of tasks on one hart, with the machine at the last call of `switch_to`
that each task has made.  Between its calls a task may do anything but write the
`thread_struct` of another task that has called. -/
inductive SwitchRun (tasks : Set (BitVec 64)) (after : BitVec 64) (start : Machine) :
    (BitVec 64 → Option Machine) → Machine → Prop where
  | start : SwitchRun tasks after start (fun _ => none) start
  | own {calls : BitVec 64 → Option Machine} {s s' : Machine} :
      SwitchRun tasks after start calls s → s'.regs .tp = s.regs .tp →
      (∀ task ∈ tasks, task ≠ s.regs .tp → (calls task).isSome →
        ∀ x, distance task x < 112 → s'.mem x = s.mem x) →
      SwitchRun tasks after start calls s'
  | switch {calls : BitVec 64 → Option Machine} {s : Machine} :
      SwitchRun tasks after start calls s → Calls tasks s →
      SwitchRun tasks after start (Function.update calls (s.regs .tp) (some s))
        (switchTo after s.call)

/-- Different task structs do not overlap. -/
def Apart (tasks : Set (BitVec 64)) : Prop :=
  ∀ task ∈ tasks, ∀ other ∈ tasks, task ≠ other → 160 ≤ distance task other

/-- The registers that a call has to keep. -/
def keptRegs : List Reg := [.sp, .s0, .s1, .s2, .s3, .s4, .s5, .s6, .s7, .s8, .s9, .s10, .s11]

/-- Each of them has a slot. -/
theorem threadSlots_keptRegs :
    ∀ r ∈ keptRegs, ∃ entry ∈ threadSlots, entry.1 = r ∧ entry.1 ≠ .ra := by
  decide

/-- A task runs again after its call at `c`. -/
structure Resumed (c s : Machine) : Prop where
  pc : s.pc = c.pc + 4
  registers : ∀ r ∈ keptRegs, s.regs r = c.regs r

/-- The `thread_struct` of a task that has called at `c`. -/
def Holds (task : BitVec 64) (c s : Machine) : Prop :=
  ∀ entry ∈ threadSlots, s.mem.load (slotAddr task entry.2) = savedRegs c.call entry.1

section Runs

variable {tasks : Set (BitVec 64)} {after : BitVec 64} {start s s' c : Machine}
variable {calls : BitVec 64 → Option Machine} {task other : BitVec 64}

theorem Apart.outside (apart : Apart tasks) (member : task ∈ tasks) (otherMember : other ∈ tasks)
    (different : task ≠ other) {x : BitVec 64} (inside : distance task x < 112) :
    112 ≤ distance other x := by
  have up := apart task member other otherMember different
  have down := apart other otherMember task member (Ne.symm different)
  rw [distance] at *
  bv_omega

/-- Nobody else writes the `thread_struct`. -/
theorem Holds.frame (holds : Holds task c s)
    (same : ∀ x, distance task x < 112 → s'.mem x = s.mem x) : Holds task c s' := by
  intro entry member
  rw [← holds entry member]
  apply Mem.load_congr
  intro x inside
  apply same
  have bound := threadSlots_lt entry member
  rw [slotAddr, distance] at inside
  rw [distance]
  bv_omega

/-- Every task that has called and does not run has its registers in its `thread_struct`. -/
def Suspended (tasks : Set (BitVec 64)) (calls : BitVec 64 → Option Machine) (s : Machine) : Prop :=
  ∀ task ∈ tasks, task ≠ s.regs .tp → ∀ c, calls task = some c → Holds task c s

/-- After the switch even the task that has called is in its `thread_struct`. -/
theorem Suspended.switch (apart : Apart tasks) (suspended : Suspended tasks calls s)
    (call : Calls tasks s) :
    ∀ task ∈ tasks, ∀ c, Function.update calls (s.regs .tp) (some s) task = some c →
      Holds task c (switchTo after s.call) := by
  have switched := switchTo_spec after s.call
  have a0 : s.call.regs .a0 = s.regs .tp := call.prev
  intro task member c called
  by_cases current : task = s.regs .tp
  · rw [current, Function.update_self] at called
    cases called
    intro entry found
    rw [current, ← a0]
    exact switched.saved entry found
  · rw [Function.update_of_ne current] at called
    apply (suspended task member current c called).frame
    intro x inside
    apply switched.outside
    rw [a0]
    exact apart.outside member call.current current inside

theorem SwitchRun.suspended (apart : Apart tasks)
    (run : SwitchRun tasks after start calls s) : Suspended tasks calls s := by
  induction run with
  | start =>
      intro task _ _ c called
      cases called
  | own _ tp same ih =>
      intro task member other c called
      rw [tp] at other
      apply (ih task member other c called).frame
      exact same task member other (by rw [called]; rfl)
  | switch _ call ih =>
      intro task member _ c called
      exact ih.switch apart call task member c called

theorem SwitchRun.even (run : SwitchRun tasks after start calls s) (called : calls task = some c) :
    c.pc.toNat % 2 = 0 := by
  induction run with
  | start => cases called
  | own _ _ _ ih => exact ih called
  | @switch calls s _ call ih =>
      by_cases current : task = s.regs .tp
      · rw [current, Function.update_self] at called
        cases called
        exact call.even
      · rw [Function.update_of_ne current] at called
        exact ih called

/-- The last bit that `jalr` clears is zero in a return address. -/
theorem even_return (even : c.pc.toNat % 2 = 0) : (c.pc + 4) &&& ~~~1 = c.pc + 4 := by
  apply BitVec.eq_of_toNat_eq
  rw [Words.toNat_and_high (k := 1) (by decide)]
  bv_omega

/-- What a task finds that runs again: all of it is as at its call, but `s0` is what was on its
stack. -/
theorem SwitchRun.resumes (apart : Apart tasks) (run : SwitchRun tasks after start calls s)
    (call : Calls tasks s)
    (earlier : Function.update calls (s.regs .tp) (some s) (s.regs .a1) = some c) :
    (switchTo after s.call).pc = c.pc + 4 ∧
      ∀ r ∈ keptRegs, (switchTo after s.call).regs r = savedRegs c.call r := by
  have switched := switchTo_spec after s.call
  have a1 : s.call.regs .a1 = s.regs .a1 := rfl
  have holds : Holds (s.regs .a1) c (switchTo after s.call) :=
    (run.suspended apart).switch apart call _ call.next c earlier
  constructor
  · rw [switched.pc, a1, holds (.ra, 0) (by decide)]
    exact even_return ((run.switch call).even earlier)
  · intro r member
    obtain ⟨entry, found, rfl, other⟩ := threadSlots_keptRegs r member
    rw [switched.registers entry found other, a1, holds entry found]

/-- `savedRegs` is right for `s0` if its value is on the stack. -/
theorem savedRegs_iff :
    (∀ r ∈ keptRegs, savedRegs c.call r = c.regs r) ↔
      c.regs .s0 = c.mem.load (c.regs .sp + 16) := by
  have s0 : savedRegs c.call .s0 = c.mem.load (c.regs .sp + 16) := Function.update_self ..
  constructor
  · intro same
    rw [← s0, same .s0 (by decide)]
  · intro value r member
    by_cases frame : r = .s0
    · rw [frame, s0, value]
    · have ra : r ≠ .ra := by
        intro equal
        rw [equal] at member
        exact absurd member (by decide)
      rw [savedRegs, Function.update_of_ne frame]
      exact Function.update_of_ne ra ..

/-- There are runs of two tasks that switch to each other. -/
theorem exists_switchRun (tasks : Set (BitVec 64)) (after : BitVec 64) (call : Calls tasks start)
    (second : start.regs .a1 ≠ start.regs .tp) :
    ∃ calls s, SwitchRun tasks after start calls s ∧ Calls tasks s ∧
      Function.update calls (s.regs .tp) (some s) (s.regs .a1) = some start := by
  have switched := switchTo_spec after start.call
  let ready : Machine :=
    { switchTo after start.call with
      regs := Function.update (Function.update (switchTo after start.call).regs .a0
        (start.regs .a1)) .a1 (start.regs .tp)
      pc := 0 }
  have tp : ready.regs .tp = start.regs .a1 := switched.tp
  have a1 : ready.regs .a1 = start.regs .tp := rfl
  have run : SwitchRun tasks after start
      (Function.update (fun _ => none) (start.regs .tp) (some start)) ready :=
    (SwitchRun.start.switch call).own rfl fun _ _ _ _ _ _ => rfl
  refine ⟨_, ready, run, ?_, ?_⟩
  · constructor
    · rw [tp]
      exact call.next
    · rw [tp]
      rfl
    · rw [a1]
      exact call.current
    · rfl
  · rw [a1, tp, Function.update_of_ne (Ne.symm second), Function.update_self]

end Runs

/-- Whenever a task runs again after a call of `switch_to`, it goes on after the call with `sp`
and `s0` to `s11` as they were, exactly if at the call `s0` was on the stack at `sp + 16`. -/
theorem switchTo_resumes_iff {tasks : Set (BitVec 64)} {after : BitVec 64} {start s c : Machine}
    {calls : BitVec 64 → Option Machine} (apart : Apart tasks)
    (run : SwitchRun tasks after start calls s) (call : Calls tasks s)
    (earlier : Function.update calls (s.regs .tp) (some s) (s.regs .a1) = some c) :
    Resumed c (switchTo after s.call) ↔ c.regs .s0 = c.mem.load (c.regs .sp + 16) := by
  obtain ⟨pc, registers⟩ := run.resumes apart call earlier
  rw [← savedRegs_iff]
  constructor
  · intro resumed r member
    rw [← registers r member, resumed.registers r member]
  · intro same
    refine ⟨pc, fun r member => ?_⟩
    rw [registers r member, same r member]

def twoTasks : Set (BitVec 64) := {0x80210000, 0x80211000}

/-- The first of the two tasks calls `switch_to`, with its stack above its `task_struct` and zero
on it. -/
def firstCall (s0 : BitVec 64) : Machine where
  regs
    | .ra => 0x80200104
    | .sp => 0x80210f80
    | .tp => 0x80210000
    | .a0 => 0x80210000
    | .a1 => 0x80211000
    | .s0 => s0
    | .s1 => 0x101
    | .s2 => 0x202
    | .s3 => 0x303
    | .s4 => 0x404
    | .s5 => 0x505
    | .s6 => 0x606
    | .s7 => 0x707
    | .s8 => 0x808
    | .s9 => 0x909
    | .s10 => 0xa0a
    | .s11 => 0xb0b
    | _ => 0
  csrs := fun _ => 0
  mode := .supervisor
  pc := 0x80200200
  mem := fun _ => 0

theorem twoTasks_apart : Apart twoTasks := by
  intro task member other otherMember different
  rcases member with rfl | rfl <;> rcases otherMember with rfl | rfl
  · exact absurd rfl different
  · decide +kernel
  · decide +kernel
  · exact absurd rfl different

theorem firstCall_calls (s0 : BitVec 64) : Calls twoTasks (firstCall s0) := by
  have even : (0x80200200 : BitVec 64).toNat % 2 = 0 := by decide +kernel
  exact ⟨.inl rfl, rfl, .inr rfl, even⟩

/-- The first task keeps everything if its `s0` is the zero on its stack. -/
theorem switchTo_resumes_iff_twoTasks :
    ∃ calls s, SwitchRun twoTasks 0x80200280 (firstCall 0) calls s ∧ Calls twoTasks s ∧
      Resumed (firstCall 0) (switchTo 0x80200280 s.call) := by
  obtain ⟨calls, s, run, call, earlier⟩ :=
    exists_switchRun twoTasks 0x80200280 (firstCall_calls 0) (by decide +kernel)
  have resumed := (switchTo_resumes_iff twoTasks_apart run call earlier).mpr (by decide +kernel)
  exact ⟨calls, s, run, call, resumed⟩

/-- A caller whose `s0` is not on its stack loses it, as a caller whose frame pointer is in
`s0`. -/
theorem frame_pointer_lost :
    ¬ ∀ (tasks : Set (BitVec 64)) (after : BitVec 64) (start s c : Machine)
      (calls : BitVec 64 → Option Machine), Apart tasks → SwitchRun tasks after start calls s →
      Calls tasks s → Function.update calls (s.regs .tp) (some s) (s.regs .a1) = some c →
      Resumed c (switchTo after s.call) := by
  intro resumes
  obtain ⟨calls, s, run, call, earlier⟩ :=
    exists_switchRun twoTasks 0x80200280 (firstCall_calls 1) (by decide +kernel)
  have resumed := resumes _ _ _ _ _ _ twoTasks_apart run call earlier
  have found := (run.resumes twoTasks_apart call earlier).2 .s0 (by decide)
  rw [resumed.registers .s0 (by decide)] at found
  exact absurd found (by decide +kernel)

end OscKernel.Threads.Context
