import OscKernel.Threads.RunQueue
import Mathlib.Data.List.Rotate

/-!
# Round robin

The first `schedule` puts the current task at the end of the queue, wherever it was.  From
then on the current task is the first of the queue and every call turns the queue by one, so
the tasks run in the order of the queue.
-/

namespace OscKernel.Threads

universe u

namespace Queue

variable {α : Type u} [DecidableEq α]

/-- The current task is the first one. -/
def Leading (q : Queue α) : Prop := q.tasks.head? = some q.current

/-- After a call the current task is the first one. -/
theorem schedule_leading (q : Queue α) : q.schedule.Leading := by
  rw [Leading, schedule]
  cases q.tasks.erase q.current with
  | nil => rfl
  | cons head tail => rfl

/-- The queue of a leading task is turned by one. -/
theorem Leading.schedule_tasks {q : Queue α} (leading : q.Leading) :
    q.schedule.tasks = q.tasks.rotate 1 := by
  obtain ⟨tail, tasks⟩ := List.head?_eq_some_iff.mp leading
  rw [schedule, tasks, List.erase_cons_head, List.rotate_cons_succ, List.rotate_zero]

/-- Calls of `schedule` in a row. -/
theorem Leading.iterate {q : Queue α} (leading : q.Leading) (k : Nat) :
    (schedule^[k] q).Leading ∧ (schedule^[k] q).tasks = q.tasks.rotate k := by
  induction k with
  | zero => exact ⟨leading, (List.rotate_zero _).symm⟩
  | succ k ih =>
      rw [Function.iterate_succ_apply']
      refine ⟨schedule_leading _, ?_⟩
      rw [ih.1.schedule_tasks, ih.2, List.rotate_rotate]

/-- The tasks that run in the following calls are those of the queue, in its order. -/
theorem Leading.current_iterate {q : Queue α} (leading : q.Leading) {k : Nat}
    (inside : k < q.tasks.length) : q.tasks[k]? = some (schedule^[k] q).current := by
  have turned := leading.iterate k
  rw [← List.head?_rotate inside, ← turned.2]
  exact turned.1

end Queue

section Calls

variable {s : Sched} {q : Queue (BitVec 64)}

theorem Refines.iterate (refines : Refines s q) (k : Nat) :
    Refines (Threads.schedule^[k] s) (Queue.schedule^[k] q) := by
  induction k with
  | zero => exact refines
  | succ k ih =>
      rw [Function.iterate_succ_apply', Function.iterate_succ_apply']
      exact ih.schedule

/-- The task that the next calls make the current one is the next of the queue. -/
theorem Refines.current_schedule (refines : Refines s q) {k : Nat}
    (inside : k < q.tasks.length) :
    q.schedule.tasks[k]? = some (Threads.schedule^[k + 1] s).current := by
  have same := (refines.iterate (k + 1)).current
  have length := (Queue.schedule_perm refines.member).length_eq
  rw [← same, Function.iterate_succ_apply]
  exact q.schedule_leading.current_iterate (by rwa [length])

end Calls

/-- In as many calls of `schedule` in a row as there are tasks, each task becomes the current
one exactly once. -/
theorem round_robin (boot : Boot) (events : List Event) (created : List (BitVec 64))
    (s : Sched) (reached : run boot events = some (created, s)) :
    ∀ task ∈ created, ∃! k, k < created.length ∧ (schedule^[k + 1] s).current = task := by
  intro task member
  have inv : Inv created s := Inv.run reached
  obtain ⟨q, refines, perm⟩ := inv.queue
  have turned := (Queue.schedule_perm refines.member).trans perm
  have nodup : q.schedule.tasks.Nodup := turned.nodup_iff.mpr inv.nodup
  obtain ⟨k, found⟩ := List.mem_iff_getElem?.mp (turned.mem_iff.mpr member)
  have inside : k < q.schedule.tasks.length := (List.getElem?_eq_some_iff.mp found).1
  refine ⟨k, ⟨?_, ?_⟩, ?_⟩
  · rwa [turned.length_eq] at inside
  · rw [turned.length_eq, ← perm.length_eq] at inside
    have current := refines.current_schedule inside
    rw [found] at current
    exact (Option.some.inj current).symm
  · intro other ⟨bound, current⟩
    rw [← perm.length_eq] at bound
    have place := refines.current_schedule bound
    rw [current, ← found] at place
    rw [perm.length_eq, ← turned.length_eq] at bound
    exact (List.getElem?_inj bound nodup).mp place

/-- `start_kernel` with its three tasks, and the calls of `schedule` in between. -/
theorem round_robin_start_kernel : ∃ created s,
    run Boot.linked [.kthreadCreate, .schedule, .kthreadCreate, .kthreadCreate] =
      some (created, s) ∧
      ∀ task ∈ created, ∃! k, k < created.length ∧ (schedule^[k + 1] s).current = task := by
  have fits : (run Boot.linked
      [.kthreadCreate, .schedule, .kthreadCreate, .kthreadCreate]).isSome := by decide +kernel
  obtain ⟨state, reached⟩ := Option.isSome_iff_exists.mp fits
  exact ⟨state.1, state.2, reached, round_robin Boot.linked _ state.1 state.2 reached⟩

end OscKernel.Threads
