import OscKernel.Alloc.Bump
import OscKernel.Lists.Ring

/-!
# Kernel threads (`ex51/main.c`)

The run queue and its two operations as the program computes them.  A `task_struct` is
known by its address; its fields `pid`, `stack`, `prev` and `next` are kept in one map
each.  `switch_to` appears by its effect on `tp`, the register that holds the current task
(`switch_onHart` is about its instructions).
-/

namespace OscKernel.Threads

open Alloc OscKernel.Lists

/-- `sizeof(struct task_struct)` -/
def taskSize : BitVec 64 := 160

/-- The state of the scheduler. -/
structure Sched where
  pid : BitVec 64 → BitVec 32
  stack : BitVec 64 → BitVec 64
  links : Links (BitVec 64)
  runQueue : BitVec 64
  nrThreads : BitVec 32
  /-- the counter of the allocator -/
  curr : BitVec 64
  /-- the register `tp` -/
  current : BitVec 64

/-- `enqueue`: the new value of `*queue`, and the pointers. -/
def enqueue (queue : BitVec 64) (links : Links (BitVec 64)) (task : BitVec 64) :
    BitVec 64 × Links (BitVec 64) :=
  if queue = 0 then
    let links := links.setPrev task task
    let links := links.setNext task task
    (task, links)
  else
    let links := links.setNext task queue
    let links := links.setPrev task (links.prev queue)
    let links := links.setNext (links.prev queue) task
    let links := links.setPrev queue task
    (task, links)

/-- `kthread_create`: the task, and the new state. -/
def kthreadCreate (s : Sched) : BitVec 64 × Sched :=
  let task := (kmalloc s.curr taskSize).1
  let s := { s with curr := (kmalloc s.curr taskSize).2 }
  let s := { s with pid := Function.update s.pid task s.nrThreads, nrThreads := s.nrThreads + 1 }
  let s := { s with stack := Function.update s.stack task (allocPage s.curr).1
                    curr := (allocPage s.curr).2 }
  let queued := enqueue s.runQueue s.links task
  (task, { s with runQueue := queued.1, links := queued.2 })

/-- `switch_to` -/
def switchTo (next : BitVec 64) (s : Sched) : Sched := { s with current := next }

/-- `schedule` -/
def schedule (s : Sched) : Sched :=
  let prev := s.current
  let s :=
    if prev = s.runQueue then { s with runQueue := s.links.next prev }
    else
      let links := s.links
      -- remove itself
      let links := links.setPrev (links.next prev) (links.prev prev)
      let links := links.setNext (links.prev prev) (links.next prev)
      -- push to last
      let links := links.setNext prev s.runQueue
      let links := links.setPrev prev (links.prev s.runQueue)
      let links := links.setNext (links.prev s.runQueue) prev
      let links := links.setPrev s.runQueue prev
      { s with links := links }
  switchTo s.runQueue s

/-- The state when `start_kernel` is entered: `_end`, and memory and registers that hold
anything. -/
structure Boot where
  endAddr : BitVec 64
  pid : BitVec 64 → BitVec 32
  stack : BitVec 64 → BitVec 64
  links : Links (BitVec 64)
  tp : BitVec 64
  endAddr_pos : 0 < endAddr.toNat

/-- The static variables are zero. -/
def Boot.sched (boot : Boot) : Sched where
  pid := boot.pid
  stack := boot.stack
  links := boot.links
  runQueue := 0
  nrThreads := 0
  curr := boot.endAddr
  current := boot.tp

/-- The calls that a task can make. -/
inductive Event where
  | kthreadCreate
  | schedule
  deriving DecidableEq, Repr

/-- The next task and its stack fit below the end of the address space. -/
def Fits (s : Sched) : Prop := s.curr.toNat + 0xf + 160 + 0xfff + 0x1000 < 2 ^ 64

instance (s : Sched) : Decidable (Fits s) := inferInstanceAs (Decidable (_ < _))

/-- One call, with the tasks created so far; a call that does not fit is not considered. -/
def step (state : List (BitVec 64) × Sched) : Event → Option (List (BitVec 64) × Sched)
  | .kthreadCreate =>
      if Fits state.2 then
        some ((kthreadCreate state.2).1 :: state.1, (kthreadCreate state.2).2)
      else none
  | .schedule => some (state.1, schedule state.2)

/-- The start of `start_kernel`: the task `idle` becomes the current one. -/
def start (boot : Boot) : Option (List (BitVec 64) × Sched) :=
  if Fits boot.sched then
    let created := kthreadCreate boot.sched
    some ([created.1], { created.2 with current := created.1 })
  else none

/-- Calls in any order by whichever task is current. -/
def run (boot : Boot) (events : List Event) : Option (List (BitVec 64) × Sched) :=
  (start boot).bind fun state => events.foldlM step state

end OscKernel.Threads
