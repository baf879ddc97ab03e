import OscKernel.Start.ClearBss

/-!
# The kernels that run without translation (`start.S`)

The boot code clears the bss, sets the stack pointer and the trap vector, and leaves the
arguments of the firmware in `a0` and `a1`.
-/

namespace OscKernel.Start

open Loops Paging Riscv Words

/-- Where the linker script puts the lines of the boot code and the symbols.  An empty bss starts
anywhere; one that is not has a doubleword variable (`boot_cpu_hartid` of `ex42`, `run_queue` of
`ex51`), which aligns it. -/
structure Layout (lines : Nat) where
  address : Nat → Nat
  bssStart : Nat
  bssStop : Nat
  stackEnd : Nat
  startKernel : Nat
  handleException : Nat
  increasing : ∀ i, address i < address (i + 1)
  even : ∀ i, 2 ∣ address i
  text_before : address lines ≤ bssStart
  bss_ordered : bssStart ≤ bssStop
  bss_before : bssStop + 0x4000 ≤ stackEnd
  bss_aligned : bssStart < bssStop → 8 ∣ bssStart
  stack_aligned : 16 ∣ stackEnd
  small : stackEnd + 8 < 2 ^ 38
  start_kernel_after : ∀ i < lines, address i ≠ startKernel
  start_kernel_above : address 0 < startKernel
  start_kernel_before : startKernel < bssStart

/-- The lines of `clear_bss` from line `k` on. -/
def clearBss {lines : Nat} (layout : Layout lines) (k : Nat) (r r' : Reg) : List Line :=
  [.la r layout.bssStart,
    .la r' layout.bssStop,
    .ble r' r (layout.address (k + 6)),
    -- clear_bss:
    .sdZero r,
    .addi r r 8,
    .blt r r' (layout.address (k + 3))]

/-- What the boot code has done when it enters `start_kernel`. -/
structure Booted {lines : Nat} (layout : Layout lines) (s t : Hart) : Prop where
  pc : t.pc = BitVec.ofNat 64 layout.startKernel
  mem : t.mem = clearWords layout.bssStart layout.bssStop s.mem
  traps : t.traps = s.traps
  arguments : t.regs .a0 = s.regs .a0 ∧ t.regs .a1 = s.regs .a1

namespace Ex11

/-- `_start` -/
def start (layout : Layout 9) : Text where
  lines := clearBss layout 0 .t0 .t1 ++
    -- clear_bss_done:
    [.la .sp layout.stackEnd,
      .andi .sp .sp 0xffffffffffffff00,
      .tail layout.startKernel]
  address := layout.address
  increasing := layout.increasing

end Ex11

namespace Ex12

/-- `_start`, also of `ex52`. -/
def start (layout : Layout 8) : Text where
  lines := clearBss layout 0 .a3 .a4 ++
    -- clear_bss_done:
    [.la .sp layout.stackEnd,
      .tail layout.startKernel]
  address := layout.address
  increasing := layout.increasing

end Ex12

namespace Ex41

/-- `_start`, also of `ex42` and `ex51`. -/
def start (layout : Layout 10) : Text where
  lines := clearBss layout 0 .a3 .a4 ++
    -- clear_bss_done:
    [.la .a2 layout.handleException,
      .csrwStvec .a2,
      .la .sp layout.stackEnd,
      .tail layout.startKernel]
  address := layout.address
  increasing := layout.increasing

end Ex41

section Bare

variable {lines : Nat} {layout : Layout lines} {text : Text} {before rest : List Line}
  {r r' : Reg} {s t : Hart}

theorem clearBss_code (code : text.lines = before ++ (clearBss layout before.length r r' ++ rest))
    (address : text.address = layout.address) (different : r ≠ r') :
    ClearBss text before.length r r' layout.bssStart layout.bssStop := by
  have line : ∀ i, text.lines[before.length + i]? =
      (clearBss layout before.length r r' ++ rest)[i]? := by
    intro i
    rw [code, List.getElem?_append_right (Nat.le_add_right _ _), Nat.add_sub_cancel_left]
  constructor
  · exact line 0
  · exact line 1
  · rw [address]
    exact line 2
  · exact line 3
  · exact line 4
  · rw [address]
    exact line 5
  · exact different

theorem Layout.address_le (layout : Layout lines) {i j : Nat} (order : i ≤ j) :
    layout.address i ≤ layout.address j := by
  induction j with
  | zero =>
      rw [Nat.le_zero.mp order]
  | succ j ih =>
      have step := layout.increasing j
      by_cases last : i = j + 1
      · rw [last]
      · have earlier := ih (by omega)
        omega

variable (text) in
/-- The loop of the boot code without translation. -/
theorem Layout.clears (code : text.lines = clearBss layout 0 r r' ++ rest)
    (address : text.address = layout.address) (different : r ≠ r') (few : 6 ≤ lines)
    (bare : s.satp.toNat / 2 ^ 60 = 0) (pc : s.pc = BitVec.ofNat 64 (layout.address 0)) :
    ∃ t, text.Reaches s t ∧ t.pc = BitVec.ofNat 64 (layout.address 6) ∧
      t.mem = clearWords layout.bssStart layout.bssStop s.mem ∧ Keeps [r, r'] s t := by
  have text_before := layout.text_before
  have ordered := layout.bss_ordered
  have bss_before := layout.bss_before
  have small := layout.small
  have lastLine := layout.address_le few
  have clearable : Clearable text 0 r r' layout.bssStart layout.bssStop 0 s.satp s.mem 0
      layout.stackEnd := by
    constructor
    · have lines : text.lines = [] ++ (clearBss layout 0 r r' ++ rest) := code
      exact clearBss_code lines address different
    · exact .inl rfl
    · exact layout.bss_aligned
    · exact fun n => window_bare bare (by omega)
    · exact Nat.zero_le _
    · rw [address]
      exact Nat.lt_of_le_of_lt lastLine (by omega)
    · exact Nat.zero_le _
    · exact layout.bss_ordered
    · omega
    · omega
  have entry : s.pc = BitVec.ofNat 64 (text.address 0) + 0 := by
    rw [pc, address]
    exact (BitVec.add_zero _).symm
  obtain ⟨t, reaches, ended, cleared, keeps⟩ := clearable.clears entry
  rw [address] at ended
  exact ⟨t, reaches, ended.trans (BitVec.add_zero _), cleared, keeps⟩

variable (text) in
/-- A line of the boot code without translation. -/
theorem Layout.atLine (address : text.address = layout.address) {i : Nat} (inside : i ≤ lines)
    (bare : s.satp.toNat / 2 ^ 60 = 0) (pc : s.pc = BitVec.ofNat 64 (layout.address i)) :
    AtLine text 0 i s := by
  have text_before := layout.text_before
  have ordered := layout.bss_ordered
  have bss_before := layout.bss_before
  have small := layout.small
  have before := layout.address_le inside
  have entry : s.pc = BitVec.ofNat 64 (text.address i) + 0 := by
    rw [pc, address]
    exact (BitVec.add_zero _).symm
  have window : Window s.satp s.mem 0 0 layout.stackEnd := window_bare bare (by omega)
  apply window.atLine entry (Nat.zero_le _)
  rw [address]
  omega

variable (layout) in
/-- A line that goes on to the next one without translation. -/
theorem Layout.next (address : text.address = layout.address) {i : Nat} (here : AtLine text 0 i s)
    (inside : i + 1 ≤ lines) (bare : t.satp.toNat / 2 ^ 60 = 0) (pc : t.pc = text.after i s) :
    AtLine text 0 (i + 1) t := by
  refine layout.atLine text address inside bare ?_
  rw [pc, here.after, address]
  exact BitVec.add_zero _

/-- The boot code without translation ends at `start_kernel`. -/
theorem Layout.ends (address : text.address = layout.address) (count : text.lines.length = lines)
    (bare : t.satp.toNat / 2 ^ 60 = 0) (pc : t.pc = BitVec.ofNat 64 layout.startKernel)
    (reaches : text.Reaches s t) : Ends text.round s t := by
  have before := layout.start_kernel_before
  have ordered := layout.bss_ordered
  have bss_before := layout.bss_before
  have small := layout.small
  have window : Window t.satp t.mem 0 0 layout.stackEnd := window_bare bare (by omega)
  have fetched := window layout.startKernel (Nat.zero_le _) (by omega) .fetch
  have entered : reach t.satp t.mem .fetch t.pc = some layout.startKernel := by
    rw [pc]
    exact (congrArg _ (BitVec.add_zero _).symm).trans fetched
  apply Text.ends_of_reaches reaches entered
  intro i inside
  rw [address]
  exact layout.start_kernel_after i (count ▸ inside)

end Bare

/-- `_start` clears the bss, sets the stack pointer, and goes on to `start_kernel`. -/
theorem Ex11.start_boots (layout : Layout 9) (s : Hart) (bare : s.satp.toNat / 2 ^ 60 = 0)
    (pc : s.pc = BitVec.ofNat 64 (layout.address 0)) :
    ∃ t, Ends (start layout).round s t ∧ Booted layout s t ∧ t.stvec = s.stvec ∧
      t.regs .sp = BitVec.ofNat 64 (layout.stackEnd / 0x100 * 0x100) := by
  obtain ⟨t, reaches, ended, cleared, keeps⟩ :=
    layout.clears (start layout) rfl rfl (by decide) (by decide) bare pc
  have bareT : t.satp.toNat / 2 ^ 60 = 0 := keeps.satp ▸ bare
  have here := layout.atLine (start layout) rfl (by decide) bareT ended
  let t₁ := (start layout).exec 6 t (.la .sp layout.stackEnd)
  have here₁ := layout.next (t := t₁) rfl here (by decide) bareT rfl
  let t₂ := (start layout).exec 7 t₁ (.andi .sp .sp 0xffffffffffffff00)
  have here₂ := layout.next (t := t₂) rfl here₁ (by decide) bareT rfl
  let t₃ := (start layout).exec 8 t₂ (.tail layout.startKernel)
  have atKernel : t₃.pc = BitVec.ofNat 64 layout.startKernel :=
    (here₂.relative _).trans (BitVec.add_zero _)
  have last : (start layout).Reaches s t₃ := by
    apply reaches.trans
    apply here.reaches rfl
    apply here₁.reaches rfl
    apply here₂.reaches rfl
    exact .refl
  have stack : t₃.regs .sp = BitVec.ofNat 64 layout.stackEnd &&& 0xffffffffffffff00 := by
    have loaded : t₁.regs .sp = BitVec.ofNat 64 layout.stackEnd :=
      (here.relative _).trans (BitVec.add_zero _)
    rw [← loaded]
    rfl
  refine ⟨t₃, layout.ends rfl rfl bareT atKernel last, ⟨atKernel, cleared, keeps.traps, ?_⟩,
    keeps.stvec, ?_⟩
  · exact ⟨keeps.regs .a0 (by decide), keeps.regs .a1 (by decide)⟩
  · have small := layout.small
    rw [stack]
    apply BitVec.eq_of_toNat_eq
    rw [toNat_and_high (k := 8) (by decide), BitVec.toNat_ofNat, BitVec.toNat_ofNat]
    omega

theorem Ex12.start_boots (layout : Layout 8) (s : Hart) (bare : s.satp.toNat / 2 ^ 60 = 0)
    (pc : s.pc = BitVec.ofNat 64 (layout.address 0)) :
    ∃ t, Ends (start layout).round s t ∧ Booted layout s t ∧ t.stvec = s.stvec ∧
      t.regs .sp = BitVec.ofNat 64 layout.stackEnd := by
  obtain ⟨t, reaches, ended, cleared, keeps⟩ :=
    layout.clears (start layout) rfl rfl (by decide) (by decide) bare pc
  have bareT : t.satp.toNat / 2 ^ 60 = 0 := keeps.satp ▸ bare
  have here := layout.atLine (start layout) rfl (by decide) bareT ended
  let t₁ := (start layout).exec 6 t (.la .sp layout.stackEnd)
  have here₁ := layout.next (t := t₁) rfl here (by decide) bareT rfl
  let t₂ := (start layout).exec 7 t₁ (.tail layout.startKernel)
  have atKernel : t₂.pc = BitVec.ofNat 64 layout.startKernel :=
    (here₁.relative _).trans (BitVec.add_zero _)
  have last : (start layout).Reaches s t₂ := by
    apply reaches.trans
    apply here.reaches rfl
    apply here₁.reaches rfl
    exact .refl
  refine ⟨t₂, layout.ends rfl rfl bareT atKernel last, ⟨atKernel, cleared, keeps.traps, ?_⟩,
    keeps.stvec, (here.relative _).trans (BitVec.add_zero _)⟩
  exact ⟨keeps.regs .a0 (by decide), keeps.regs .a1 (by decide)⟩

theorem Ex41.start_boots (layout : Layout 10) (s : Hart) (bare : s.satp.toNat / 2 ^ 60 = 0)
    (pc : s.pc = BitVec.ofNat 64 (layout.address 0)) :
    ∃ t, Ends (start layout).round s t ∧ Booted layout s t ∧
      t.stvec = BitVec.ofNat 64 layout.handleException ∧
      t.regs .sp = BitVec.ofNat 64 layout.stackEnd := by
  obtain ⟨t, reaches, ended, cleared, keeps⟩ :=
    layout.clears (start layout) rfl rfl (by decide) (by decide) bare pc
  have bareT : t.satp.toNat / 2 ^ 60 = 0 := keeps.satp ▸ bare
  have here := layout.atLine (start layout) rfl (by decide) bareT ended
  let t₁ := (start layout).exec 6 t (.la .a2 layout.handleException)
  have here₁ := layout.next (t := t₁) rfl here (by decide) bareT rfl
  let t₂ := (start layout).exec 7 t₁ (.csrwStvec .a2)
  have here₂ := layout.next (t := t₂) rfl here₁ (by decide) bareT rfl
  let t₃ := (start layout).exec 8 t₂ (.la .sp layout.stackEnd)
  have here₃ := layout.next (t := t₃) rfl here₂ (by decide) bareT rfl
  let t₄ := (start layout).exec 9 t₃ (.tail layout.startKernel)
  have atKernel : t₄.pc = BitVec.ofNat 64 layout.startKernel :=
    (here₃.relative _).trans (BitVec.add_zero _)
  have last : (start layout).Reaches s t₄ := by
    apply reaches.trans
    apply here.reaches rfl
    apply here₁.reaches rfl
    apply here₂.reaches rfl
    apply here₃.reaches rfl
    exact .refl
  refine ⟨t₄, layout.ends rfl rfl bareT atKernel last, ⟨atKernel, cleared, keeps.traps, ?_⟩,
    (here.relative _).trans (BitVec.add_zero _), (here₂.relative _).trans (BitVec.add_zero _)⟩
  exact ⟨keeps.regs .a0 (by decide), keeps.regs .a1 (by decide)⟩

/-- The kernels without translation clear the doublewords of the bss and nothing else, take no
trap, and enter `start_kernel` with the arguments of the firmware, their stack and their trap
vector. -/
theorem boots_without_translation (s : Hart) (bare : s.satp.toNat / 2 ^ 60 = 0) :
    (∀ layout : Layout 9, s.pc = BitVec.ofNat 64 (layout.address 0) →
      ∃ t, Ends (Ex11.start layout).round s t ∧ Booted layout s t ∧ t.stvec = s.stvec ∧
        t.regs .sp = BitVec.ofNat 64 (layout.stackEnd / 0x100 * 0x100)) ∧
    (∀ layout : Layout 8, s.pc = BitVec.ofNat 64 (layout.address 0) →
      ∃ t, Ends (Ex12.start layout).round s t ∧ Booted layout s t ∧ t.stvec = s.stvec ∧
        t.regs .sp = BitVec.ofNat 64 layout.stackEnd) ∧
    ∀ layout : Layout 10, s.pc = BitVec.ofNat 64 (layout.address 0) →
      ∃ t, Ends (Ex41.start layout).round s t ∧ Booted layout s t ∧
        t.stvec = BitVec.ofNat 64 layout.handleException ∧
        t.regs .sp = BitVec.ofNat 64 layout.stackEnd := by
  refine ⟨?_, ?_, ?_⟩
  · intro layout pc
    exact Ex11.start_boots layout s bare pc
  · intro layout pc
    exact Ex12.start_boots layout s bare pc
  · intro layout pc
    exact Ex41.start_boots layout s bare pc

/-- A layout at the address of the linker scripts, with lines of four bytes. -/
def linked (lines : Nat) (few : lines ≤ 0x100) : Layout lines where
  address := fun i => 0x80200000 + 4 * i
  bssStart := 0x80206000
  bssStop := 0x80206014
  stackEnd := 0x8020a020
  startKernel := 0x80200400
  handleException := 0x80200800
  increasing := fun i => by omega
  even := fun i => by omega
  text_before := by omega
  bss_ordered := by decide
  bss_before := by decide
  bss_aligned := fun _ => by decide
  stack_aligned := by decide
  small := by decide
  start_kernel_after := fun i inside => by omega
  start_kernel_above := by decide
  start_kernel_before := by decide

/-- The hart at the first line, with a memory that is not zero. -/
def reset : Hart where
  pc := 0x80200000
  regs := fun _ => 0
  stvec := 0
  satp := 0
  traps := []
  mem := fun _ => 1

theorem boots_without_translation_linked :
    ∃ t, Ends (Ex41.start (linked 10 (by decide))).round reset t ∧
      Booted (linked 10 (by decide)) reset t ∧ t.mem 0x80206010 = 0 ∧ t.mem 0x80206018 = 1 := by
  obtain ⟨-, -, boots⟩ := boots_without_translation reset (by decide)
  obtain ⟨t, ends, booted, -, -⟩ := boots (linked 10 (by decide)) rfl
  refine ⟨t, ends, booted, ?_, ?_⟩
  · rw [booted.mem]
    rfl
  · rw [booted.mem]
    rfl

end OscKernel.Start
