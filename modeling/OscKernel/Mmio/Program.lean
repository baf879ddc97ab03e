import Mathlib.Logic.Relation

/-!
# Programs that use device registers

A program is a tree of register accesses.  A busy wait is one node of it, so a wait that does not
end is a run that stays at the node.  Next to the program the hardware moves at any time, input
arrives from outside, and interrupts put a handler in front of what runs.
-/

namespace OscKernel.Mmio

open Relation

/-- A program that returns a result.  `wait` reads a register until its value is `ready`. -/
inductive Program (ι : Type) (val : ι → Type) (ρ : Type) where
  | ret (result : ρ)
  | read (reg : ι) (next : val reg → Program ι val ρ)
  | write (reg : ι) (value : val reg) (next : Program ι val ρ)
  | wait (reg : ι) (ready : val reg → Bool) (next : Program ι val ρ)

namespace Program

variable {ι : Type} {val : ι → Type} {ρ τ ω : Type}

def bind : Program ι val ρ → (ρ → Program ι val τ) → Program ι val τ
  | .ret result, f => f result
  | .read reg next, f => .read reg fun value => (next value).bind f
  | .write reg value next, f => .write reg value (next.bind f)
  | .wait reg ready next, f => .wait reg ready (next.bind f)

instance : Monad (Program ι val) where
  pure := .ret
  bind := .bind

/-- Read a register once. -/
def get (reg : ι) : Program ι val (val reg) := .read reg .ret

/-- Write a register. -/
def put (reg : ι) (value : val reg) : Program ι val Unit := .write reg value (.ret ())

/-- Wait for a register. -/
def await (reg : ι) (ready : val reg → Bool) : Program ι val Unit := .wait reg ready (.ret ())

section Bind

variable {reg : ι} {f : ρ → Program ι val τ}

@[simp] theorem pure_eq (result : ρ) : (pure result : Program ι val ρ) = .ret result := rfl

@[simp] theorem ret_bind (result : ρ) : (.ret result : Program ι val ρ) >>= f = f result := rfl

@[simp] theorem read_bind (next : val reg → Program ι val ρ) :
    .read reg next >>= f = .read reg fun value => next value >>= f := rfl

@[simp] theorem write_bind (value : val reg) (next : Program ι val ρ) :
    .write reg value next >>= f = .write reg value (next >>= f) := rfl

@[simp] theorem wait_bind (ready : val reg → Bool) (next : Program ι val ρ) :
    .wait reg ready next >>= f = .wait reg ready (next >>= f) := rfl

@[simp] theorem get_bind (g : val reg → Program ι val τ) : get reg >>= g = .read reg g := rfl

@[simp] theorem put_bind (value : val reg) (g : Unit → Program ι val τ) :
    put reg value >>= g = .write reg value (g ()) := rfl

@[simp] theorem await_bind (ready : val reg → Bool) (g : Unit → Program ι val τ) :
    await reg ready >>= g = .wait reg ready (g ()) := rfl

@[simp] theorem bind_assoc (p : Program ι val ρ) (g : τ → Program ι val ω) :
    p >>= f >>= g = p >>= fun result => f result >>= g := by
  induction p with
  | ret result => rfl
  | read reg next ih => exact congrArg (Program.read reg) (funext ih)
  | write reg value next ih => exact congrArg (Program.write reg value) ih
  | wait reg ready next ih => exact congrArg (Program.wait reg ready) ih

end Bind

end Program

/-- Registers with a state.  Reads may return several values, and writes may lead to several
states. -/
structure Device (ι : Type) (val : ι → Type) where
  State : Type
  reads : State → (reg : ι) → val reg → State → Prop
  writes : State → (reg : ι) → val reg → State → Prop
  /-- what the hardware does by itself -/
  moves : State → State → Prop
  /-- what reaches it from outside -/
  arrives : State → State → Prop

/-- A processor with its devices. -/
structure System (ι : Type) (val : ι → Type) extends Device ι val where
  /-- an interrupt is taken: its handler, and the state in which it starts -/
  interrupts : State → Program ι val Unit → State → Prop
  /-- a handler returns -/
  resume : State → State
  /-- what runs again and again once the main program has returned -/
  loop : Program ι val Unit

variable {ι : Type} {val : ι → Type}

/-- What runs, the programs that were interrupted, and the state of the devices. -/
structure Config (system : System ι val) where
  program : Program ι val Unit
  suspended : List (Program ι val Unit)
  state : system.State

variable {system : System ι val}

/-- A step of the program or of the hardware. -/
inductive Step : Config system → Config system → Prop
  | read {reg : ι} {next : val reg → Program ι val Unit} {rest s value s'}
      (reads : system.reads s reg value s') : Step ⟨.read reg next, rest, s⟩ ⟨next value, rest, s'⟩
  | write {reg : ι} {value : val reg} {next rest s s'} (writes : system.writes s reg value s') :
      Step ⟨.write reg value next, rest, s⟩ ⟨next, rest, s'⟩
  | ready {reg : ι} {ready : val reg → Bool} {next rest s value s'}
      (reads : system.reads s reg value s') (done : ready value = true) :
      Step ⟨.wait reg ready next, rest, s⟩ ⟨next, rest, s'⟩
  | busy {reg : ι} {ready : val reg → Bool} {next rest s value s'}
      (reads : system.reads s reg value s') (more : ready value = false) :
      Step ⟨.wait reg ready next, rest, s⟩ ⟨.wait reg ready next, rest, s'⟩
  | interrupt {p rest s handler s'} (taken : system.interrupts s handler s') :
      Step ⟨p, rest, s⟩ ⟨handler, p :: rest, s'⟩
  | resume {p rest s} : Step ⟨.ret (), p :: rest, s⟩ ⟨p, rest, system.resume s⟩
  | again {s} : Step ⟨.ret (), [], s⟩ ⟨system.loop, [], s⟩
  | moves {p rest s s'} (moves : system.moves s s') : Step ⟨p, rest, s⟩ ⟨p, rest, s'⟩

/-- Something arrives from outside. -/
inductive Arrive : Config system → Config system → Prop
  | mk {p rest s s'} (arrives : system.arrives s s') : Arrive ⟨p, rest, s⟩ ⟨p, rest, s'⟩

/-- A configuration that comes up in some order of the steps. -/
def Reachable (start c : Config system) : Prop :=
  ReflTransGen (fun c c' => Step c c' ∨ Arrive c c') start c

/-- What steps and arrivals keep holds in all configurations that come up. -/
theorem Reachable.invariant {start c : Config system} {good : Config system → Prop}
    (reached : Reachable start c) (first : good start)
    (step : ∀ c c', good c → Step c c' → good c')
    (arrive : ∀ c c', good c → Arrive c c' → good c') : good c := by
  induction reached with
  | refl => exact first
  | tail _ last ih =>
      rcases last with goes | comes
      · exact step _ _ ih goes
      · exact arrive _ _ ih comes

end OscKernel.Mmio
