import OscKernel.Mmio.Program

/-!
# Proof outlines with credits

An outline has an assertion before each access of a program, which the hardware and all arrivals
keep.  Assertions count credits, and all that changes something, arrivals apart, pays for it.  So
an outline shows what holds in any order of the steps, and that all comes to rest between two
arrivals.
-/

namespace OscKernel.Mmio

open Relation

variable {ι : Type} {val : ι → Type} {ρ τ : Type} {system : System ι val}

/-- Assertions about a number of credits and the state. -/
abbrev Assertion (system : System ι val) : Type := Nat → system.State → Prop

/-- An assertion holds with fewer credits. -/
def Paid (P : Assertion system) : Assertion system := fun n s => ∃ m < n, P m s

/-- An assertion that the hardware pays for and that arrivals keep. -/
structure Kept (safe : system.State → Prop) (P : Assertion system) : Prop where
  safe {n s} : P n s → safe s
  moves {n s s'} : P n s → system.moves s s' → Paid P n s'
  arrives {n s s'} : P n s → system.arrives s s' → ∃ m, P m s'

/-- An assertion that no interrupt disturbs. -/
structure Steady (safe : system.State → Prop) (P : Assertion system) : Prop
    extends Kept safe P where
  masked {n s handler s'} : P n s → ¬ system.interrupts s handler s'

/-- A program with an assertion before each access.  It may stay at a wait once all is `done`, and
need not be looked at where it is `unreached`. -/
inductive Outline (safe done : system.State → Prop) (Q : ρ → Assertion system) :
    Assertion system → Program ι val ρ → Prop
  | ret (result : ρ) : Outline safe done Q (Q result) (.ret result)
  | unreached {P p} (never : ∀ n s, ¬ P n s) : Outline safe done Q P p
  | read {P reg next} {after : val reg → Assertion system} (steady : Steady safe P)
      (enabled : ∀ n s, P n s → ∃ value s', system.reads s reg value s')
      (reads : ∀ n s value s', P n s → system.reads s reg value s' → Paid (after value) n s')
      (rest : ∀ value, Outline safe done Q (after value) (next value)) :
      Outline safe done Q P (.read reg next)
  | write {P reg value next after} (steady : Steady safe P)
      (enabled : ∀ n s, P n s → ∃ s', system.writes s reg value s')
      (writes : ∀ n s s', P n s → system.writes s reg value s' → Paid after n s')
      (rest : Outline safe done Q after next) : Outline safe done Q P (.write reg value next)
  | wait {P reg ready next after} (steady : Steady safe P)
      (enabled : ∀ n s, P n s → (∃ value s', system.reads s reg value s' ∧ ready value = true) ∨
        (∃ s', system.moves s s') ∨ done s)
      (busy : ∀ n s value s', P n s → system.reads s reg value s' → ready value = false → s' = s)
      (reads : ∀ n s value s', P n s → system.reads s reg value s' → ready value = true →
        Paid after n s')
      (rest : Outline safe done Q after next) : Outline safe done Q P (.wait reg ready next)

variable {safe done : system.State → Prop}

/-- One program after another. -/
theorem Outline.bind {P : Assertion system} {R : ρ → Assertion system} {Q : τ → Assertion system}
    {p : Program ι val ρ} {f : ρ → Program ι val τ} (outline : Outline safe done R P p)
    (rest : ∀ result, Outline safe done Q (R result) (f result)) :
    Outline safe done Q P (p >>= f) := by
  induction outline with
  | ret result => exact rest result
  | unreached never => exact .unreached never
  | read steady enabled reads _ ih => exact .read steady enabled reads ih
  | write steady enabled writes _ ih => exact .write steady enabled writes ih
  | wait steady enabled busy reads _ ih => exact .wait steady enabled busy reads ih

/-! ## Runs -/

/-- A step of the program or of the hardware that changes something. -/
def Progress (c c' : Config system) : Prop := Step c c' ∧ c' ≠ c

/-- Without arrivals only finitely much happens, and `done` holds once nothing more does. -/
inductive Settles (done : system.State → Prop) : Config system → Prop
  | mk {c} (goes : ∀ c', Progress c c' → Settles done c')
      (rests : (∀ c', ¬ Progress c c') → done c.state) : Settles done c

/-- Some steps lead to where nothing more happens. -/
theorem Settles.exists_done {c : Config system} (settles : Settles done c) :
    ∃ c', ReflTransGen Step c c' ∧ done c'.state := by
  induction settles with
  | @mk c _ rests ih =>
      rcases Classical.em (∃ next, Progress c next) with ⟨next, goes⟩ | stuck
      · obtain ⟨last, reached, isDone⟩ := ih next goes
        exact ⟨last, .head goes.1 reached, isDone⟩
      · exact ⟨c, .refl, rests (not_exists.mp stuck)⟩

/-- A configuration in which an outline of the program goes on, with fewer credits than `n`. -/
def GoesOn (safe done : system.State → Prop) (Q : Assertion system) (n : Nat)
    (rest : List (Program ι val Unit)) (c' : Config system) : Prop :=
  ∃ p s P, c' = ⟨p, rest, s⟩ ∧ Outline safe done (fun _ => Q) P p ∧ Paid P n s

section Steps

variable {Q P : Assertion system} {p : Program ι val Unit} {n : Nat} {s : system.State}
  {rest : List (Program ι val Unit)} {c' : Config system}

/-- A step of a program that has not returned stays or pays. -/
theorem Outline.step (outline : Outline safe done (fun _ => Q) P p) (holds : P n s)
    (step : Step ⟨p, rest, s⟩ c') :
    p = .ret () ∧ P = Q ∨ c' = ⟨p, rest, s⟩ ∨ GoesOn safe done Q n rest c' := by
  cases outline with
  | ret => exact .inl ⟨rfl, rfl⟩
  | unreached never => exact absurd holds (never n s)
  | read steady enabled reads next =>
      refine .inr (.inr ?_)
      cases step with
      | read access => exact ⟨_, _, _, rfl, next _, reads _ _ _ _ holds access⟩
      | interrupt taken => exact absurd taken (steady.masked holds)
      | moves moves =>
          exact ⟨_, _, _, rfl, .read steady enabled reads next, steady.moves holds moves⟩
  | write steady enabled writes next =>
      refine .inr (.inr ?_)
      cases step with
      | write access => exact ⟨_, _, _, rfl, next, writes _ _ _ holds access⟩
      | interrupt taken => exact absurd taken (steady.masked holds)
      | moves moves =>
          exact ⟨_, _, _, rfl, .write steady enabled writes next, steady.moves holds moves⟩
  | wait steady enabled busy reads next =>
      cases step with
      | ready access isReady =>
          exact .inr (.inr ⟨_, _, _, rfl, next, reads _ _ _ _ holds access isReady⟩)
      | busy access more => rw [busy _ _ _ _ holds access more]; exact .inr (.inl rfl)
      | interrupt taken => exact absurd taken (steady.masked holds)
      | moves moves =>
          refine .inr (.inr ?_)
          exact ⟨_, _, _, rfl, .wait steady enabled busy reads next, steady.moves holds moves⟩

/-- A program that has not returned goes on, or all is done. -/
theorem Outline.enabled (outline : Outline safe done (fun _ => Q) P p) (holds : P n s) :
    p = .ret () ∧ P = Q ∨ done s ∨
      ∃ c' : Config system, Step ⟨p, rest, s⟩ c' ∧ GoesOn safe done Q n rest c' := by
  cases outline with
  | ret => exact .inl ⟨rfl, rfl⟩
  | unreached never => exact absurd holds (never n s)
  | read steady enabled reads next =>
      obtain ⟨value, s', access⟩ := enabled n s holds
      exact .inr (.inr ⟨_, .read access, _, _, _, rfl, next _, reads _ _ _ _ holds access⟩)
  | write steady enabled writes next =>
      obtain ⟨s', access⟩ := enabled n s holds
      exact .inr (.inr ⟨_, .write access, _, _, _, rfl, next, writes _ _ _ holds access⟩)
  | wait steady enabled busy reads next =>
      rcases enabled n s holds with ⟨value, s', access, isReady⟩ | ⟨s', moves⟩ | isDone
      · refine .inr (.inr ⟨_, .ready access isReady, ?_⟩)
        exact ⟨_, _, _, rfl, next, reads _ _ _ _ holds access isReady⟩
      · refine .inr (.inr ⟨_, .moves moves, ?_⟩)
        exact ⟨_, _, _, rfl, .wait steady enabled busy reads next, steady.moves holds moves⟩
      · exact .inr (.inl isDone)

theorem Outline.isSafe (outline : Outline safe done (fun _ => Q) P p) (kept : Kept safe Q)
    (holds : P n s) : safe s := by
  cases outline with
  | ret => exact kept.safe holds
  | unreached never => exact absurd holds (never n s)
  | read steady => exact steady.safe holds
  | write steady => exact steady.safe holds
  | wait steady => exact steady.safe holds

theorem Outline.arrives {s' : system.State} (outline : Outline safe done (fun _ => Q) P p)
    (kept : Kept safe Q) (holds : P n s) (arrives : system.arrives s s') : ∃ m, P m s' := by
  cases outline with
  | ret => exact kept.arrives holds arrives
  | unreached never => exact absurd holds (never n s)
  | read steady => exact steady.arrives holds arrives
  | write steady => exact steady.arrives holds arrives
  | wait steady => exact steady.arrives holds arrives

end Steps

/-- A kernel that takes interrupts while it is idle.  Its handlers end with `back`. -/
structure Kernel (safe done : system.State → Prop) (idle back : Assertion system) : Prop where
  keeps : Kept safe idle
  again : system.loop = .ret () ∨
    ∃ P, Outline safe done (fun _ => idle) P system.loop ∧ ∀ n s, idle n s → Paid P n s
  rests : system.loop = .ret () → ∀ n s, idle n s →
    (∃ s', system.moves s s') ∨ (∃ handler s', system.interrupts s handler s') ∨ done s
  handles {n s handler s'} : idle n s → system.interrupts s handler s' →
    ∃ P, Outline safe done (fun _ => back) P handler ∧ Paid P n s'
  steady : Steady safe back
  resumes {n s} : back n s → Paid idle n (system.resume s)

/-- What the program that runs will do, and the credits for it. -/
inductive Good (safe done : system.State → Prop) (idle back : Assertion system) :
    Nat → Config system → Prop
  | runs {n s p P} (outline : Outline safe done (fun _ => idle) P p) (holds : P n s) :
      Good safe done idle back n ⟨p, [], s⟩
  | handles {n s p P} (outline : Outline safe done (fun _ => back) P p) (holds : P n s) :
      Good safe done idle back n ⟨p, [.ret ()], s⟩

namespace Good

variable {idle back : Assertion system} {n : Nat} {s : system.State} {c c' : Config system}

theorem of_idle (holds : idle n s) : Good safe done idle back n ⟨.ret (), [], s⟩ :=
  .runs (.ret ()) holds

theorem of_goesOn_idle (goes : GoesOn safe done idle n [] c') :
    ∃ m < n, Good safe done idle back m c' := by
  obtain ⟨p, s, P, rfl, outline, m, less, holds⟩ := goes
  exact ⟨m, less, .runs outline holds⟩

theorem of_goesOn_back (goes : GoesOn safe done back n [.ret ()] c') :
    ∃ m < n, Good safe done idle back m c' := by
  obtain ⟨p, s, P, rfl, outline, m, less, holds⟩ := goes
  exact ⟨m, less, .handles outline holds⟩

/-- Handlers are not interrupted. -/
theorem depth (good : Good safe done idle back n c) : c.suspended.length ≤ 1 := by
  cases good with
  | runs => exact Nat.zero_le 1
  | handles => exact Nat.le_refl 1

variable (kernel : Kernel safe done idle back)

include kernel

theorem idle_step (holds : idle n s) (step : Step ⟨.ret (), [], s⟩ c') :
    c' = ⟨.ret (), [], s⟩ ∨ ∃ m < n, Good safe done idle back m c' := by
  cases step with
  | interrupt taken =>
      obtain ⟨P, outline, m, less, started⟩ := kernel.handles holds taken
      exact .inr ⟨m, less, .handles outline started⟩
  | again =>
      rcases kernel.again with ends | ⟨P, outline, pays⟩
      · rw [ends]; exact .inl rfl
      · obtain ⟨m, less, started⟩ := pays n s holds
        exact .inr ⟨m, less, .runs outline started⟩
  | moves moves =>
      obtain ⟨m, less, still⟩ := kernel.keeps.moves holds moves
      exact .inr ⟨m, less, .of_idle still⟩

theorem back_step (holds : back n s) (step : Step ⟨.ret (), [.ret ()], s⟩ c') :
    ∃ m < n, Good safe done idle back m c' := by
  cases step with
  | interrupt taken => exact absurd taken (kernel.steady.masked holds)
  | resume =>
      obtain ⟨m, less, resumed⟩ := kernel.resumes holds
      exact ⟨m, less, .of_idle resumed⟩
  | moves moves =>
      obtain ⟨m, less, still⟩ := kernel.steady.moves holds moves
      exact ⟨m, less, .handles (.ret ()) still⟩

/-- A step stays or pays. -/
theorem step (good : Good safe done idle back n c) (step : Step c c') :
    c' = c ∨ ∃ m < n, Good safe done idle back m c' := by
  cases good with
  | runs outline holds =>
      rcases outline.step holds step with ⟨rfl, rfl⟩ | stays | goes
      · exact idle_step kernel holds step
      · exact .inl stays
      · exact .inr (of_goesOn_idle goes)
  | handles outline holds =>
      rcases outline.step holds step with ⟨rfl, rfl⟩ | stays | goes
      · exact .inr (back_step kernel holds step)
      · exact .inl stays
      · exact .inr (of_goesOn_back goes)

theorem arrive (good : Good safe done idle back n c) (arrive : Arrive c c') :
    ∃ m, Good safe done idle back m c' := by
  obtain ⟨arrives⟩ := arrive
  cases good with
  | runs outline holds =>
      obtain ⟨m, still⟩ := outline.arrives kernel.keeps holds arrives
      exact ⟨m, .runs outline still⟩
  | handles outline holds =>
      obtain ⟨m, still⟩ := outline.arrives kernel.steady.toKept holds arrives
      exact ⟨m, .handles outline still⟩

theorem isSafe (good : Good safe done idle back n c) : safe c.state := by
  cases good with
  | runs outline holds => exact outline.isSafe kernel.keeps holds
  | handles outline holds => exact outline.isSafe kernel.steady.toKept holds

/-- Something goes on, or all is done. -/
theorem enabled (good : Good safe done idle back n c) :
    done c.state ∨ ∃ c', Step c c' ∧ ∃ m < n, Good safe done idle back m c' := by
  cases good with
  | runs outline holds =>
      rcases outline.enabled holds with ⟨rfl, rfl⟩ | isDone | ⟨c', step, goes⟩
      · rcases kernel.again with ends | ⟨P, outline, pays⟩
        · rcases kernel.rests ends _ _ holds with ⟨s', moves⟩ | ⟨handler, s', taken⟩ | isDone
          · obtain ⟨m, less, still⟩ := kernel.keeps.moves holds moves
            exact .inr ⟨_, .moves moves, m, less, .of_idle still⟩
          · obtain ⟨P, outline, m, less, started⟩ := kernel.handles holds taken
            exact .inr ⟨_, .interrupt taken, m, less, .handles outline started⟩
          · exact .inl isDone
        · obtain ⟨m, less, started⟩ := pays _ _ holds
          exact .inr ⟨_, .again, m, less, .runs outline started⟩
      · exact .inl isDone
      · exact .inr ⟨c', step, of_goesOn_idle goes⟩
  | handles outline holds =>
      rcases outline.enabled holds with ⟨rfl, rfl⟩ | isDone | ⟨c', step, goes⟩
      · obtain ⟨m, less, resumed⟩ := kernel.resumes holds
        exact .inr ⟨_, .resume, m, less, .of_idle resumed⟩
      · exact .inl isDone
      · exact .inr ⟨c', step, of_goesOn_back goes⟩

/-- All configurations that come up have an outline. -/
theorem reachable {start : Config system} (good : Good safe done idle back n start)
    (reached : Reachable start c) : ∃ m, Good safe done idle back m c := by
  apply reached.invariant ⟨n, good⟩
  · rintro c c' ⟨k, good⟩ step
    rcases good.step kernel step with rfl | ⟨m, _, next⟩
    · exact ⟨k, good⟩
    · exact ⟨m, next⟩
  · rintro c c' ⟨k, good⟩ arrive
    exact good.arrive kernel arrive

/-- Between two arrivals all comes to rest. -/
theorem settles (good : Good safe done idle back n c) : Settles done c := by
  induction n using Nat.strongRecOn generalizing c with
  | ind n ih =>
      constructor
      · rintro c' ⟨step, changed⟩
        rcases good.step kernel step with same | ⟨m, less, next⟩
        · exact absurd same changed
        · exact ih m less next
      · intro stuck
        rcases good.enabled kernel with isDone | ⟨c', step, m, less, next⟩
        · exact isDone
        · have same : c' = c :=
            Classical.byContradiction fun changed => stuck c' ⟨step, changed⟩
          subst same
          obtain ⟨_, rests⟩ := ih m less next
          exact rests stuck

end Good

end OscKernel.Mmio
