import OscKernel.Threads.Scheduler
import OscKernel.Threads.SwitchTo

/-!
# The scheduler on the hart (`ex51/main.c`, `ex51/start.S`)

`schedule` ends with a call of `switch_to`.  Of it the scheduler's state has only the new current
task, and the kernel's turns only that this task goes on where it was.  Both are what the
instructions do.
-/

namespace OscKernel.Threads

open Riscv Riscv.Machine Context

/-- The fields of a `task_struct` behind its `thread_struct`. -/
structure Fields (s : Sched) (mem : Mem) (task : BitVec 64) : Prop where
  pid : (mem.load (slotAddr task 14)).setWidth 32 = s.pid task
  stack : mem.load (slotAddr task 17) = s.stack task
  prev : mem.load (slotAddr task 18) = s.links.prev task
  next : mem.load (slotAddr task 19) = s.links.next task

/-- The state of the scheduler in the registers and the memory of the hart. -/
structure OnHart (tasks : Set (BitVec 64)) (s : Sched) (m : Machine) : Prop where
  current : m.regs .tp = s.current
  fields : ∀ task ∈ tasks, Fields s m.mem task

theorem Fields.frame {s : Sched} {mem mem' : Mem} {task : BitVec 64} (fields : Fields s mem task)
    (same : ∀ i, 14 ≤ i → i < 20 →
      mem'.load (slotAddr task i) = mem.load (slotAddr task i)) : Fields s mem' task := by
  constructor
  · rw [same 14 (by decide) (by decide), fields.pid]
  · rw [same 17 (by decide) (by decide), fields.stack]
  · rw [same 18 (by decide) (by decide), fields.prev]
  · rw [same 19 (by decide) (by decide), fields.next]

section Switches

variable {tasks : Set (BitVec 64)} {after : BitVec 64} {start m c : Machine} {s : Sched}
  {calls : BitVec 64 → Option Machine}

/-- A switch writes the `thread_struct` of the current task and no other field. -/
theorem fields_outside (apart : Apart tasks) {current task : BitVec 64} (running : current ∈ tasks)
    (member : task ∈ tasks) {i : Nat} (behind : 14 ≤ i) (inside : i < 20) {x : BitVec 64}
    (within : distance (slotAddr task i) x < 8) : 112 ≤ distance current x := by
  rw [slotAddr, distance] at within
  by_cases same : task = current
  · rw [same] at within
    rw [distance]
    bv_omega
  · have up := apart task member current running same
    have down := apart current running task member (Ne.symm same)
    rw [distance] at *
    bv_omega

theorem OnHart.switchTo (apart : Apart tasks) (hart : OnHart tasks s m) (call : Calls tasks m) :
    OnHart tasks (Threads.switchTo (m.regs .a1) s) (Context.switchTo after m.call) := by
  have switched := switchTo_spec after m.call
  have a0 : m.call.regs .a0 = m.regs .tp := call.prev
  constructor
  · exact switched.tp
  · intro task member
    have before : Fields (Threads.switchTo (m.regs .a1) s) m.mem task := by
      obtain ⟨pid, stack, prev, next⟩ := hart.fields task member
      exact ⟨pid, stack, prev, next⟩
    apply before.frame
    intro i behind inside
    apply Mem.load_congr
    intro x within
    apply switched.outside
    rw [a0]
    exact fields_outside apart call.current member behind inside within

/-- The call of `switch_to` in `schedule`: the hart has the state that `switchTo` gives, and a
task that has called before goes on behind that call, on its own stack. -/
theorem switch_onHart (apart : Apart tasks) (run : SwitchRun tasks after start calls m)
    (hart : OnHart tasks s m) (call : Calls tasks m) (next : m.regs .a1 = s.runQueue) :
    OnHart tasks (Threads.switchTo s.runQueue s) (Context.switchTo after m.call) ∧
      ∀ c, Function.update calls s.current (some m) s.runQueue = some c →
        (Context.switchTo after m.call).pc = c.pc + 4 ∧
          (Context.switchTo after m.call).regs .sp = c.regs .sp := by
  rw [← next]
  refine ⟨hart.switchTo apart call, fun c earlier => ?_⟩
  rw [← hart.current] at earlier
  obtain ⟨pc, registers⟩ := run.resumes apart call earlier
  exact ⟨pc, registers .sp (by decide)⟩

end Switches

end OscKernel.Threads
