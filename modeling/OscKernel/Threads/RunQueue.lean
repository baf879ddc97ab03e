import OscKernel.Threads.Scheduler

/-!
# The run queue

The pointers of the tasks represent a list that starts at `run_queue`.  Creating a task
puts it at the front of the list, and `schedule` moves the current task to the end and
makes the first task the current one, wherever the current task was.
-/

namespace OscKernel.Threads

open Alloc OscKernel.Lists

universe u

/-- The queue that the pointers stand for, with its first task at the front. -/
structure Queue (α : Type u) where
  tasks : List α
  current : α

namespace Queue

variable {α : Type u}

/-- A new task is put at the front. -/
def create (q : Queue α) (task : α) : Queue α := { q with tasks := task :: q.tasks }

/-- The current task is moved to the end, and the first task runs. -/
def schedule [DecidableEq α] (q : Queue α) : Queue α where
  tasks := q.tasks.erase q.current ++ [q.current]
  current := (q.tasks.erase q.current ++ [q.current]).headD q.current

theorem schedule_perm [DecidableEq α] {q : Queue α} (member : q.current ∈ q.tasks) :
    q.schedule.tasks.Perm q.tasks :=
  (List.perm_append_singleton _ _).trans (List.perm_cons_erase member).symm

end Queue

/-- The state of the scheduler represents the queue. -/
structure Refines (s : Sched) (q : Queue (BitVec 64)) : Prop where
  ring : ∃ rest, q.tasks = s.runQueue :: rest ∧ Ring s.links s.runQueue rest
  current : q.current = s.current
  member : q.current ∈ q.tasks

section Operations

variable {s : Sched} {q : Queue (BitVec 64)}

/-- Queueing the first task makes a ring of one. -/
theorem enqueue_empty (links : Links (BitVec 64)) (task : BitVec 64) :
    (enqueue 0 links task).1 = task ∧ Ring (enqueue 0 links task).2 task [] := by
  constructor
  · rfl
  · apply Ring.single
    · exact Function.update_self ..
    · exact Function.update_self ..

/-- Queueing a further task puts it before the first one. -/
theorem enqueue_ring {queue task : BitVec 64} {links : Links (BitVec 64)}
    {rest : List (BitVec 64)} (ring : Ring links queue rest) (nonnull : queue ≠ 0)
    (fresh : task ∉ queue :: rest) :
    (enqueue queue links task).1 = task ∧
      Ring (enqueue queue links task).2 task (queue :: rest) := by
  have queued : enqueue queue links task = (task, links.insertBefore queue task) := by
    rw [enqueue, if_neg nonnull]
    rfl
  rw [queued]
  exact ⟨rfl, (ring.insertBefore fresh).rotateBack⟩

theorem Refines.create (refines : Refines s q) (nonnull : s.runQueue ≠ 0)
    (fresh : (kthreadCreate s).1 ∉ q.tasks) :
    Refines (kthreadCreate s).2 (q.create (kthreadCreate s).1) := by
  obtain ⟨rest, tasks, ring⟩ := refines.ring
  rw [tasks] at fresh
  obtain ⟨head, queued⟩ := enqueue_ring ring nonnull fresh
  constructor
  · refine ⟨s.runQueue :: rest, ?_, ?_⟩
    · rw [Queue.create, tasks]
      exact congrArg (· :: s.runQueue :: rest) head.symm
    · have front : (kthreadCreate s).2.runQueue = (kthreadCreate s).1 := head
      rw [front]
      exact queued
  · exact refines.current
  · exact List.mem_cons_of_mem _ refines.member

/-- The current task is the first one: the ring is turned by one. -/
theorem schedule_head (first : s.current = s.runQueue) :
    (schedule s).links = s.links ∧ (schedule s).runQueue = s.links.next s.runQueue := by
  rw [schedule]
  dsimp only
  rw [if_pos first]
  exact ⟨rfl, congrArg s.links.next first⟩

/-- The current task is further back: it is taken out and linked in before the first one. -/
theorem schedule_other (other : s.current ≠ s.runQueue) :
    (schedule s).links = (s.links.unlink s.current).insertBefore s.runQueue s.current ∧
      (schedule s).runQueue = s.runQueue := by
  rw [schedule]
  dsimp only
  rw [if_neg other]
  exact ⟨rfl, rfl⟩

/-- The task switched to is the first of the queue. -/
theorem schedule_current (s : Sched) : (schedule s).current = (schedule s).runQueue := rfl

theorem Refines.schedule (refines : Refines s q) : Refines (schedule s) q.schedule := by
  obtain ⟨rest, tasks, ring⟩ := refines.ring
  have member := refines.member
  have ringAfter : ∃ rest, q.schedule.tasks = (Threads.schedule s).runQueue :: rest ∧
      Ring (Threads.schedule s).links (Threads.schedule s).runQueue rest := by
    rw [Queue.schedule, tasks, refines.current]
    by_cases first : s.current = s.runQueue
    · obtain ⟨links, runQueue⟩ := schedule_head first
      rw [links, runQueue, first, List.erase_cons_head]
      rcases ring.next_head with ⟨alone, self⟩ | ⟨tail, second⟩
      · subst alone
        exact ⟨[], by rw [self]; rfl, by rwa [self]⟩
      · refine ⟨tail ++ [s.runQueue], ?_, ?_⟩
        · conv_lhs => rw [second]
          rfl
        · rw [second] at ring
          exact ring.rotate
    · obtain ⟨links, runQueue⟩ := schedule_other first
      rw [refines.current, tasks] at member
      obtain ⟨front, back, split⟩ :=
        List.append_of_mem ((List.mem_cons.mp member).resolve_left first)
      rw [split] at ring ⊢
      have nodup := ring.nodup
      rw [← List.cons_append] at nodup
      have frontFresh : s.current ∉ s.runQueue :: front := fun inFront =>
        (List.nodup_append.mp nodup).2.2 _ inFront _ (List.mem_cons_self ..) rfl
      have backFresh : s.current ∉ back :=
        (List.nodup_cons.mp (List.nodup_append.mp nodup).2.1).1
      have fresh : s.current ∉ s.runQueue :: (front ++ back) := by
        rw [← List.cons_append]
        intro inside
        rcases List.mem_append.mp inside with inFront | inBack
        · exact frontFresh inFront
        · exact backFresh inBack
      refine ⟨front ++ back ++ [s.current], ?_, ?_⟩
      · rw [runQueue, ← List.cons_append, List.erase_append_right _ frontFresh,
          List.erase_cons_head]
        rfl
      · rw [links, runQueue]
        exact ring.unlink.insertBefore fresh
  obtain ⟨restAfter, tasksAfter, ringAfter⟩ := ringAfter
  have currentAfter : q.schedule.current = (Threads.schedule s).runQueue := by
    have head : q.schedule.current = q.schedule.tasks.headD q.current := rfl
    rw [head, tasksAfter]
    rfl
  constructor
  · exact ⟨restAfter, tasksAfter, ringAfter⟩
  · exact currentAfter
  · rw [tasksAfter, currentAfter]
    exact List.mem_cons_self ..

end Operations

/-! ## Runs -/

/-- The invariant of runs: the pointers represent a queue of the created tasks, and the
task structs lie apart from each other below the counter of the allocator. -/
structure Inv (created : List (BitVec 64)) (s : Sched) : Prop where
  queue : ∃ q, Refines s q ∧ q.tasks.Perm created
  below : ∀ task ∈ created, 0 < task.toNat ∧ task.toNat + 160 ≤ s.curr.toNat
  apart : created.Pairwise fun later earlier => earlier.toNat + 160 ≤ later.toNat

section Invariant

variable {created : List (BitVec 64)} {s : Sched} {boot : Boot}

/-- Where a new task is, and where the allocator is after it. -/
theorem kthreadCreate_bounds (fits : Fits s) :
    s.curr.toNat ≤ (kthreadCreate s).1.toNat ∧
      (kthreadCreate s).1.toNat + 160 ≤ (kthreadCreate s).2.curr.toNat := by
  rw [Fits] at fits
  have size : taskSize.toNat = 160 := rfl
  have lower := le_roundUp 4 s.curr.toNat
  have upper := roundUp_lt 4 s.curr.toNat
  have pointer : (kmalloc s.curr taskSize).1.toNat = roundUp 4 s.curr.toNat :=
    kmalloc_fst (by omega)
  have afterTask : (kmalloc s.curr taskSize).2.toNat = roundUp 4 s.curr.toNat + 160 := by
    rw [kmalloc_snd (by omega), size]
  have stack : (allocPage (kmalloc s.curr taskSize).2).2.toNat =
      roundUp 12 (kmalloc s.curr taskSize).2.toNat + 0x1000 := allocPage_snd (by omega)
  have afterStack : (kthreadCreate s).2.curr.toNat =
      roundUp 12 (kmalloc s.curr taskSize).2.toNat + 0x1000 := stack
  have above := le_roundUp 12 (kmalloc s.curr taskSize).2.toNat
  have task : (kthreadCreate s).1 = (kmalloc s.curr taskSize).1 := rfl
  rw [task]
  omega

theorem Inv.nodup (inv : Inv created s) : created.Nodup := by
  apply inv.apart.imp
  intro later earlier before equal
  rw [equal] at before
  omega

theorem Inv.start (fits : Fits boot.sched) :
    Inv [(kthreadCreate boot.sched).1]
      { (kthreadCreate boot.sched).2 with current := (kthreadCreate boot.sched).1 } := by
  have positive := boot.endAddr_pos
  obtain ⟨above, after⟩ := kthreadCreate_bounds fits
  have curr : boot.sched.curr = boot.endAddr := rfl
  rw [curr] at above
  obtain ⟨head, ring⟩ := enqueue_empty boot.links (kthreadCreate boot.sched).1
  constructor
  · refine ⟨⟨[(kthreadCreate boot.sched).1], (kthreadCreate boot.sched).1⟩, ?_,
      List.Perm.refl _⟩
    constructor
    · refine ⟨[], congrArg (fun task => [task]) head.symm, ?_⟩
      have front : (kthreadCreate boot.sched).2.runQueue = (kthreadCreate boot.sched).1 := head
      dsimp only
      rw [front]
      exact ring
    · rfl
    · exact List.mem_singleton_self _
  · intro task member
    rw [List.mem_singleton.mp member]
    exact ⟨by omega, after⟩
  · exact List.pairwise_singleton ..

theorem Inv.create (inv : Inv created s) (fits : Fits s) :
    Inv ((kthreadCreate s).1 :: created) (kthreadCreate s).2 := by
  obtain ⟨q, refines, perm⟩ := inv.queue
  obtain ⟨above, after⟩ := kthreadCreate_bounds fits
  have fresh : (kthreadCreate s).1 ∉ q.tasks := by
    intro member
    have below := (inv.below _ (perm.mem_iff.mp member)).2
    omega
  have nonnull : s.runQueue ≠ 0 := by
    obtain ⟨rest, tasks, _⟩ := refines.ring
    have member : s.runQueue ∈ q.tasks := by
      rw [tasks]
      exact List.mem_cons_self ..
    have positive := (inv.below _ (perm.mem_iff.mp member)).1
    intro null
    rw [null] at positive
    exact absurd positive (by decide)
  constructor
  · exact ⟨_, refines.create nonnull fresh, perm.cons _⟩
  · intro task member
    rcases List.mem_cons.mp member with equal | old
    · rw [equal]
      have positive : 0 < s.curr.toNat := by
        obtain ⟨rest, tasks, _⟩ := refines.ring
        have first : s.runQueue ∈ created := perm.mem_iff.mp (by rw [tasks]; simp)
        have below := (inv.below _ first).2
        omega
      exact ⟨by omega, after⟩
    · have below := inv.below task old
      exact ⟨below.1, by omega⟩
  · apply List.pairwise_cons.mpr
    refine ⟨fun task member => ?_, inv.apart⟩
    have below := inv.below task member
    omega

theorem Inv.schedule (inv : Inv created s) : Inv created (schedule s) := by
  obtain ⟨q, refines, perm⟩ := inv.queue
  have counter : (Threads.schedule s).curr = s.curr := by
    rw [Threads.schedule]
    dsimp only
    split
    · rfl
    · rfl
  constructor
  · exact ⟨_, refines.schedule, (Queue.schedule_perm refines.member).trans perm⟩
  · rw [counter]
    exact inv.below
  · exact inv.apart

theorem Inv.step (inv : Inv created s) {event : Event} {state : List (BitVec 64) × Sched}
    (goes : step (created, s) event = some state) : Inv state.1 state.2 := by
  cases event with
  | kthreadCreate =>
      rw [Threads.step] at goes
      split at goes
      next fits =>
        cases goes
        exact inv.create fits
      next => cases goes
  | schedule =>
      cases goes
      exact inv.schedule

/-- The invariant holds after every run. -/
theorem Inv.run {events : List Event} {state : List (BitVec 64) × Sched}
    (reached : run boot events = some state) : Inv state.1 state.2 := by
  obtain ⟨first, started, runs⟩ := Option.bind_eq_some_iff.mp reached
  have inv : Inv first.1 first.2 := by
    rw [Threads.start] at started
    split at started
    next fits =>
      cases started
      exact Inv.start fits
    next => cases started
  clear started reached
  induction events generalizing first with
  | nil =>
      cases runs
      exact inv
  | cons event events ih =>
      obtain ⟨next, goes, rest⟩ := Option.bind_eq_some_iff.mp runs
      exact ih next rest (inv.step goes)

end Invariant

/-- The run queue is a circular doubly linked list of exactly the created tasks, and the
current task is in it. -/
structure Intact (created : List (BitVec 64)) (s : Sched) : Prop where
  ring : ∃ rest, Ring s.links s.runQueue rest ∧ (s.runQueue :: rest).Perm created
  nodup : created.Nodup
  inverse : ∀ task ∈ created,
    s.links.prev (s.links.next task) = task ∧ s.links.next (s.links.prev task) = task
  current : s.current ∈ created

/-- Whatever calls of `kthread_create` and `schedule` are made, the run queue is intact, and
the next `schedule` switches to its first task. -/
theorem run_queue_intact (boot : Boot) (events : List Event) (created : List (BitVec 64))
    (s : Sched) (reached : run boot events = some (created, s)) :
    Intact created s ∧ Intact created (schedule s) ∧
      (schedule s).current = (schedule s).runQueue := by
  have intact : ∀ {s : Sched}, Inv created s → Intact created s := by
    intro s inv
    obtain ⟨q, refines, perm⟩ := inv.queue
    obtain ⟨rest, tasks, ring⟩ := refines.ring
    rw [tasks] at perm
    constructor
    · exact ⟨rest, ring, perm⟩
    · exact inv.nodup
    · exact fun task member => ring.inverse (perm.mem_iff.mpr member)
    · rw [← refines.current]
      exact perm.mem_iff.mp (tasks ▸ refines.member)
  have inv : Inv created s := Inv.run reached
  exact ⟨intact inv, intact inv.schedule, schedule_current s⟩

/-- The program at the address of the linker script. -/
def Boot.linked : Boot where
  endAddr := 0x80208000
  pid := fun _ => 0
  stack := fun _ => 0
  links := ⟨fun _ => 0, fun _ => 0⟩
  tp := 0
  endAddr_pos := by decide

/-- `start_kernel` with its three tasks, and the first call of `schedule`. -/
theorem run_queue_intact_start_kernel : ∃ created s,
    run Boot.linked [.kthreadCreate, .kthreadCreate, .kthreadCreate, .schedule] =
      some (created, s) ∧ Intact created s := by
  have fits : (run Boot.linked
      [.kthreadCreate, .kthreadCreate, .kthreadCreate, .schedule]).isSome := by decide +kernel
  obtain ⟨state, reached⟩ := Option.isSome_iff_exists.mp fits
  exact ⟨state.1, state.2, reached, (run_queue_intact Boot.linked _ state.1 state.2 reached).1⟩

end OscKernel.Threads
