import OscKernel.Threads.RoundRobin
import OscKernel.Uart.Console

/-!
# The threads of the kernel (`ex51/main.c`)

`start_kernel` creates the idle thread and threads that run `foo`.  They print a line in each turn
until one of them has printed its last line and keeps the hart for itself.
-/

namespace OscKernel.Threads

open Cpio Mmio Riscv Uart

/-- Where a thread goes on: in `idle`, at the test of the loop of `foo`, or in the loop behind. -/
inductive Place where
  | idle
  | foo (i : Nat)
  | spin
  deriving DecidableEq

/-- The scheduler and the places of the threads. -/
structure Kernel where
  sched : Sched
  place : BitVec 64 → Place

namespace Kernel

/-- `kthread_create` of a thread that starts at a place. -/
def create (entry : Place) (k : Kernel) : Option (BitVec 64 × Kernel) :=
  if Fits k.sched then
    let created := kthreadCreate k.sched
    some (created.1, ⟨created.2, Function.update k.place created.1 entry⟩)
  else none

/-- The loop of `start_kernel` that creates `n` threads. -/
def createFoos : Nat → Kernel → Option Kernel
  | 0, k => some k
  | n + 1, k => do
      let created ← k.create (.foo 0)
      createFoos n created.2

/-- The current thread goes on until it calls `schedule`. -/
def turn (base : BitVec 64) (k : Kernel) : Io Kernel :=
  let task := k.sched.current
  match k.place task with
  | .idle => return { k with sched := schedule k.sched }
  | .foo i =>
      if i < 5 then do
        uartPuts base (ascii "Process ID: ")
        uartHex base ((k.sched.pid task).signExtend 64)
        uartPuts base (ascii " ")
        uartHex base (BitVec.ofNat 64 i)
        uartPuts base (ascii "\n")
        return ⟨schedule k.sched, Function.update k.place task (.foo (i + 1))⟩
      else return { k with place := Function.update k.place task .spin }
  | .spin => return k

/-- Some turns. -/
def turns (base : BitVec 64) : Nat → Kernel → Io Unit
  | 0, _ => return
  | n + 1, k => do turns base n (← k.turn base)

end Kernel

/-- `start_kernel` up to its call of `idle`, with `n` threads that run `foo`. -/
def startKernel (boot : Boot) (place : BitVec 64 → Place) (n : Nat) : Option Kernel := do
  let created ← Kernel.create .idle ⟨boot.sched, place⟩
  { created.2 with sched := { created.2.sched with current := created.1 } }.createFoos n

/-- The kernel with a number of turns of its threads. -/
def kernel (base : BitVec 64) (boot : Boot) (place : BitVec 64 → Place) (n fuel : Nat) :
    Io Unit := do
  uartPuts base (ascii "\nStarting kernel ...\n")
  match startKernel boot place n with
  | some k => k.turns base fuel
  | none => return

/-! ## The text -/

/-- The line that `foo` prints. -/
def lineText (pid : BitVec 32) (i : Nat) : List Byte :=
  (ascii "Process ID: ").flatMap putcText ++ (hexNumber (pid.signExtend 64) ++
  ((ascii " ").flatMap putcText ++ (hexNumber (BitVec.ofNat 64 i) ++
  (ascii "\n").flatMap putcText)))

/-- The threads from the last one on. -/
def pids : Nat → List (BitVec 32)
  | 0 => []
  | n + 1 => BitVec.ofNat 32 (n + 1) :: pids n

/-- The lines of all threads from `i` on, for `count` turns. -/
def linesText (ids : List (BitVec 32)) : Nat → Nat → List Byte
  | 0, _ => []
  | count + 1, i => ids.flatMap (fun pid => lineText pid i) ++ linesText ids count (i + 1)

/-- The text that the kernel prints. -/
def kernelText (n : Nat) : List Byte :=
  (ascii "\nStarting kernel ...\n").flatMap putcText ++ linesText (pids n) 5 0

/-! ## Turns -/

variable {base : BitVec 64} {context : Nat} {doTrap : PtRegs → Io Unit} {loop : Io Unit}
  {k : Kernel} {text : List Byte} {n i : Nat}

namespace Kernel

theorem turns_idle (isIdle : k.place k.sched.current = .idle)
    (next : Prints base context doTrap loop ({ k with sched := schedule k.sched }.turns base n)
      text) :
    Prints base context doTrap loop (k.turns base (n + 1)) text := by
  rw [turns, turn, isIdle]
  exact next

theorem turns_foo (inFoo : k.place k.sched.current = .foo i) (more : i < 5)
    (next : Prints base context doTrap loop (turns base n
      ⟨schedule k.sched, Function.update k.place k.sched.current (.foo (i + 1))⟩) text) :
    Prints base context doTrap loop (k.turns base (n + 1))
      (lineText (k.sched.pid k.sched.current) i ++ text) := by
  rw [turns, turn, inFoo]
  simp only [if_pos more, lineText, List.append_assoc, Program.bind_assoc]
  exact (uartPuts_prints _).bind ((uartHex_prints _).bind ((uartPuts_prints _).bind
    ((uartHex_prints _).bind ((uartPuts_prints _).bind next))))

/-- A thread that spins keeps the hart. -/
theorem turns_spin (spins : k.place k.sched.current = .spin) :
    Prints base context doTrap loop (k.turns base n) [] := by
  induction n with
  | zero => exact .nothing
  | succ n ih =>
      rw [turns, turn, spins]
      exact ih

theorem turns_last (inFoo : k.place k.sched.current = .foo 5) :
    Prints base context doTrap loop (k.turns base n) [] := by
  cases n with
  | zero => exact .nothing
  | succ n =>
      rw [turns, turn, inFoo]
      exact turns_spin (Function.update_self ..)

end Kernel

/-- The queue of the kernel, each task with its place, the current task first. -/
structure Queued (k : Kernel) (queue : List (BitVec 64 × Place)) : Prop where
  refines : ∀ entry ∈ queue.head?, Refines k.sched ⟨queue.map Prod.fst, entry.1⟩
  places : ∀ entry ∈ queue, k.place entry.1 = entry.2
  nodup : (queue.map Prod.fst).Nodup

namespace Queued

variable {task : BitVec 64} {place : Place} {rest : List (BitVec 64 × Place)}

theorem current (queued : Queued k ((task, place) :: rest)) : k.sched.current = task :=
  (queued.refines _ rfl).current.symm

theorem place_current (queued : Queued k ((task, place) :: rest)) :
    k.place k.sched.current = place := by
  rw [queued.current]
  exact queued.places _ (List.mem_cons_self ..)

/-- The current task is queued at a new place. -/
theorem schedule (queued : Queued k ((task, place) :: rest)) (next : Place) :
    Queued ⟨Threads.schedule k.sched, Function.update k.place task next⟩
      (rest ++ [(task, next)]) := by
  have tasks_eq : (rest ++ [(task, next)]).map Prod.fst = rest.map Prod.fst ++ [task] := by simp
  obtain ⟨outside, nodup⟩ := List.nodup_cons.mp queued.nodup
  constructor
  · intro entry isHead
    have refines := (queued.refines (task, place) rfl).schedule
    rw [Queue.schedule, List.map_cons, List.erase_cons_head] at refines
    rw [tasks_eq]
    cases rest with
    | nil =>
        cases isHead
        exact refines
    | cons first rest =>
        cases isHead
        exact refines
  · intro entry member
    rcases List.mem_append.mp member with other | isLast
    · have apart : entry.1 ≠ task := by
        intro same
        apply outside
        show task ∈ rest.map Prod.fst
        rw [← same]
        exact List.mem_map_of_mem other
      rw [← queued.places entry (List.mem_cons_of_mem _ other)]
      exact Function.update_of_ne apart ..
    · rw [List.mem_singleton.mp isLast]
      exact Function.update_self ..
  · rw [tasks_eq]
    exact (List.perm_append_singleton _ _).nodup_iff.mpr queued.nodup

end Queued

theorem schedule_pid (s : Sched) : (schedule s).pid = s.pid := by
  rw [schedule]
  split
  · rfl
  · rfl

/-- The entries of threads that are all at one place of `foo`. -/
def atFoo (tasks : List (BitVec 64)) (i : Nat) : List (BitVec 64 × Place) :=
  tasks.map fun task => (task, .foo i)

/-- The threads at the front of the queue have a turn each. -/
theorem turns_front {pid : BitVec 64 → BitVec 32} (more : i < 5) (tasks : List (BitVec 64))
    (back : List (BitVec 64 × Place)) (queued : Queued k (atFoo tasks i ++ back))
    (pids : k.sched.pid = pid)
    (next : ∀ k' : Kernel, Queued k' (back ++ atFoo tasks (i + 1)) → k'.sched.pid = pid →
      Prints base context doTrap loop (k'.turns base n) text) :
    Prints base context doTrap loop (k.turns base (tasks.length + n))
      (tasks.flatMap (fun task => lineText (pid task) i) ++ text) := by
  induction tasks generalizing k back with
  | nil =>
      rw [List.length_nil, Nat.zero_add]
      apply next k _ pids
      simpa [atFoo] using queued
  | cons task tasks ih =>
      have queued : Queued k ((task, .foo i) :: (atFoo tasks i ++ back)) := queued
      rw [List.length_cons, Nat.add_right_comm, List.flatMap_cons, List.append_assoc,
        ← pids, ← queued.current]
      apply Kernel.turns_foo queued.place_current more
      rw [queued.current, pids]
      have moved := queued.schedule (.foo (i + 1))
      rw [List.append_assoc] at moved
      apply ih _ moved
      · rw [← pids]
        exact schedule_pid _
      · intro k' queued' pids'
        apply next k' _ pids'
        simpa [atFoo] using queued'

/-- All threads have a turn. -/
theorem turns_round {pid : BitVec 64 → BitVec 32} {tasks : List (BitVec 64)} {idle : BitVec 64}
    (more : i < 5) (queued : Queued k (atFoo tasks i ++ [(idle, .idle)])) (pids : k.sched.pid = pid)
    (next : ∀ k' : Kernel, Queued k' (atFoo tasks (i + 1) ++ [(idle, .idle)]) →
      k'.sched.pid = pid → Prints base context doTrap loop (k'.turns base n) text) :
    Prints base context doTrap loop (k.turns base (tasks.length + (n + 1)))
      (tasks.flatMap (fun task => lineText (pid task) i) ++ text) := by
  apply turns_front more tasks _ queued pids
  intro k' queued' pids'
  have queued' : Queued k' ((idle, .idle) :: atFoo tasks (i + 1)) := queued'
  apply Kernel.turns_idle queued'.place_current
  have moved := queued'.schedule .idle
  have same : Function.update k'.place idle .idle = k'.place := by
    have isIdle : k'.place idle = .idle := queued'.places _ (List.mem_cons_self ..)
    rw [← isIdle]
    exact Function.update_eq_self idle k'.place
  rw [same] at moved
  exact next _ moved ((schedule_pid _).trans pids')

/-- With no other threads the idle thread goes on. -/
theorem turns_alone {idle : BitVec 64} (queued : Queued k [(idle, .idle)]) :
    Prints base context doTrap loop (k.turns base n) [] := by
  induction n generalizing k with
  | zero => exact .nothing
  | succ n ih =>
      apply Kernel.turns_idle queued.place_current
      have moved := queued.schedule .idle
      have isIdle : k.place idle = .idle := queued.places _ (List.mem_cons_self ..)
      rw [← isIdle, Function.update_eq_self idle k.place] at moved
      exact ih (isIdle ▸ moved)

/-- After the last line nothing is printed. -/
theorem turns_after {tasks : List (BitVec 64)} {idle : BitVec 64}
    (queued : Queued k (atFoo tasks 5 ++ [(idle, .idle)])) :
    Prints base context doTrap loop (k.turns base n) [] := by
  cases tasks with
  | nil => exact turns_alone queued
  | cons task tasks => exact Kernel.turns_last (Queued.place_current queued)

/-- The rounds that remain. -/
theorem turns_rounds {pid : BitVec 64 → BitVec 32} {tasks : List (BitVec 64)} {idle : BitVec 64}
    (count : Nat) (left : i + count = 5) (queued : Queued k (atFoo tasks i ++ [(idle, .idle)]))
    (pids : k.sched.pid = pid) :
    Prints base context doTrap loop (k.turns base (count * (tasks.length + 1) + n))
      (linesText (tasks.map pid) count i) := by
  induction count generalizing k i with
  | zero =>
      obtain rfl : i = 5 := left
      rw [Nat.zero_mul, Nat.zero_add]
      exact turns_after queued
  | succ count ih =>
      have fuel : (count + 1) * (tasks.length + 1) + n =
          tasks.length + (count * (tasks.length + 1) + n + 1) := by ring
      rw [fuel, linesText, List.flatMap_map]
      apply turns_round (by omega) queued pids
      intro k' queued' pids'
      exact ih (by omega) queued' pids'

/-! ## The start -/

/-- The threads that `start_kernel` has created while the idle thread runs. -/
structure Created (k : Kernel) (tasks : List (BitVec 64)) (idle : BitVec 64) : Prop where
  refines : Refines k.sched ⟨tasks ++ [idle], idle⟩
  inv : Inv (tasks ++ [idle]) k.sched
  places : ∀ task ∈ tasks, k.place task = .foo 0
  isIdle : k.place idle = .idle
  pids : tasks.map k.sched.pid = pids tasks.length
  nrThreads : k.sched.nrThreads = BitVec.ofNat 32 (tasks.length + 1)

theorem Created.create {tasks : List (BitVec 64)} {idle : BitVec 64}
    {created : BitVec 64 × Kernel} (before : Created k tasks idle)
    (creates : k.create (.foo 0) = some created) :
    Created created.2 (created.1 :: tasks) idle := by
  rw [Kernel.create] at creates
  split at creates
  next fits =>
    cases creates
    obtain ⟨above, _⟩ := kthreadCreate_bounds fits
    have fresh : (kthreadCreate k.sched).1 ∉ tasks ++ [idle] := by
      intro member
      have below := (before.inv.below _ member).2
      omega
    have nonnull : k.sched.runQueue ≠ 0 := by
      obtain ⟨rest, tasks_eq, _⟩ := before.refines.ring
      have tasks_eq : tasks ++ [idle] = k.sched.runQueue :: rest := tasks_eq
      have member : k.sched.runQueue ∈ tasks ++ [idle] := by
        rw [tasks_eq]
        exact List.mem_cons_self ..
      intro null
      have positive := (before.inv.below _ member).1
      rw [null] at positive
      exact absurd positive (by decide)
    have other : ∀ task ∈ tasks ++ [idle], task ≠ (kthreadCreate k.sched).1 := by
      rintro task member rfl
      exact fresh member
    constructor
    · exact before.refines.create nonnull fresh
    · exact before.inv.create fits
    · intro task member
      rcases List.mem_cons.mp member with rfl | old
      · exact Function.update_self ..
      · rw [← before.places task old]
        exact Function.update_of_ne (other task (List.mem_append_left _ old)) ..
    · rw [← before.isIdle]
      exact Function.update_of_ne (other idle (by simp)) ..
    · have pid_eq : (kthreadCreate k.sched).2.pid =
          Function.update k.sched.pid (kthreadCreate k.sched).1 k.sched.nrThreads := rfl
      rw [pid_eq, List.map_cons, Function.update_self, before.nrThreads, List.length_cons,
        Threads.pids, ← before.pids]
      congr 1
      apply List.map_congr_left
      intro task member
      exact Function.update_of_ne (other task (List.mem_append_left _ member)) ..
    · have next : (kthreadCreate k.sched).2.nrThreads = k.sched.nrThreads + 1 := rfl
      rw [next, before.nrThreads, List.length_cons, BitVec.ofNat_add (tasks.length + 1) 1]
      rfl
  next => cases creates

theorem Created.createFoos {tasks : List (BitVec 64)} {idle : BitVec 64} {k' : Kernel}
    (before : Created k tasks idle) (creates : k.createFoos n = some k') :
    ∃ more : List (BitVec 64), more.length = n ∧ Created k' (more ++ tasks) idle := by
  induction n generalizing k tasks with
  | zero =>
      cases creates
      exact ⟨[], rfl, before⟩
  | succ n ih =>
      rw [Kernel.createFoos, Option.bind_eq_bind, Option.bind_eq_some_iff] at creates
      obtain ⟨created, first, rest⟩ := creates
      obtain ⟨more, length, after⟩ := ih (before.create first) rest
      refine ⟨more ++ [created.1], by simp [length], ?_⟩
      simpa using after

theorem Created.of_startKernel {boot : Boot} {place : BitVec 64 → Place}
    (started : startKernel boot place n = some k) :
    ∃ tasks idle, tasks.length = n ∧ Created k tasks idle := by
  rw [startKernel, Option.bind_eq_bind, Option.bind_eq_some_iff] at started
  obtain ⟨created, first, rest⟩ := started
  rw [Kernel.create] at first
  split at first
  next fits =>
    cases first
    have inv := Inv.start fits
    obtain ⟨⟨queue, current⟩, refines, perm⟩ := inv.queue
    obtain rfl : queue = [_] := List.perm_singleton.mp perm
    obtain rfl : current = _ := refines.current
    have before : Created
        ⟨{ (kthreadCreate boot.sched).2 with current := (kthreadCreate boot.sched).1 },
          Function.update place (kthreadCreate boot.sched).1 .idle⟩ []
        (kthreadCreate boot.sched).1 :=
      ⟨refines, inv, by simp, Function.update_self .., rfl, rfl⟩
    obtain ⟨tasks, length, created⟩ := before.createFoos rest
    rw [List.append_nil] at created
    exact ⟨tasks, _, length, created⟩
  next => cases first

/-- The first turn is that of the idle thread. -/
theorem Created.turns {tasks : List (BitVec 64)} {idle : BitVec 64}
    (created : Created k tasks idle) :
    Prints base context doTrap loop (k.turns base (5 * (tasks.length + 1) + n + 1))
      (linesText (Threads.pids tasks.length) 5 0) := by
  have place_current : k.place k.sched.current = .idle := by
    rw [← created.refines.current]
    exact created.isIdle
  have outside : idle ∉ tasks := by
    have nodup := created.inv.nodup
    rw [List.nodup_append] at nodup
    intro member
    exact nodup.2.2 idle member idle (List.mem_singleton_self _) rfl
  have queued : Queued { k with sched := schedule k.sched }
      (atFoo tasks 0 ++ [(idle, .idle)]) := by
    have tasks_eq : (atFoo tasks 0 ++ [(idle, Place.idle)]).map Prod.fst = tasks ++ [idle] := by
      simp [atFoo, Function.comp_def]
    constructor
    · intro entry isHead
      have refines := created.refines.schedule
      rw [Queue.schedule, List.erase_append_right _ outside, List.erase_cons_head,
        List.append_nil] at refines
      rw [tasks_eq]
      cases tasks with
      | nil =>
          cases isHead
          exact refines
      | cons task tasks =>
          cases isHead
          exact refines
    · intro entry member
      rcases List.mem_append.mp member with isFoo | isLast
      · obtain ⟨task, isTask, rfl⟩ := List.mem_map.mp isFoo
        exact created.places task isTask
      · rw [List.mem_singleton.mp isLast]
        exact created.isIdle
    · rw [tasks_eq]
      exact created.inv.nodup
  rw [← created.pids]
  apply Kernel.turns_idle place_current
  exact turns_rounds 5 rfl queued (schedule_pid _)

/-- In any order of the steps of the UART, the threads print their lines in turn, from the last
thread to the first one, five times, and then nothing more. -/
theorem threads_print {boot : Boot} {place : BitVec 64 → Place}
    (started : startKernel boot place n = some k) (fuel : Nat) {device : ReceiverDevice}
    {start : Board device}
    (fresh : Fresh start)
    {c : Config (board device base context doTrap (.ret ()))}
    (reached : Mmio.Reachable ⟨kernel base boot place n (5 * (n + 1) + fuel + 1), [], start⟩ c) :
    Faithful (start.transmitter.output ++ kernelText n) (fun _ => []) c.state ∧
      Settles (AllPrinted (start.transmitter.output ++ kernelText n)) c := by
  obtain ⟨tasks, idle, rfl, created⟩ := Created.of_startKernel started
  have prints : Prints base context doTrap (.ret ()) (kernel base boot place tasks.length
      (5 * (tasks.length + 1) + fuel + 1)) (kernelText tasks.length) := by
    rw [kernel, started]
    exact (uartPuts_prints _).bind created.turns
  exact prints_all prints fresh reached

/-- The three threads of `start_kernel`. -/
theorem threads_print_three :
    ∃ c : Config (board (fifo 16) 0x10000000 1 (fun _ => .ret ()) (.ret ())),
    Relation.ReflTransGen Step
      ⟨kernel 0x10000000 Boot.linked (fun _ => .spin) 3 (5 * (3 + 1) + 10 + 1), [],
        Board.reset [] (by decide)⟩ c ∧
      AllPrinted (kernelText 3) c.state := by
  have fits : (startKernel Boot.linked (fun _ => .spin) 3).isSome := by decide +kernel
  obtain ⟨k, started⟩ := Option.isSome_iff_exists.mp fits
  exact (threads_print started 10 ⟨rfl, rfl, rfl, rfl⟩ .refl).2.exists_done

/-- The first two lines and the last one of the expected result. -/
example : (lineText 3 0, lineText 2 0, lineText 1 4) =
    (ascii "Process ID: 0x0000000000000003 0x0000000000000000\r\n",
      ascii "Process ID: 0x0000000000000002 0x0000000000000000\r\n",
      ascii "Process ID: 0x0000000000000001 0x0000000000000004\r\n") := by
  decide +kernel

end OscKernel.Threads
