import OscKernel.Paging.PageWalk
import OscKernel.Start.HighHalf

/-!
# The start of the kernel with a trap (`ex62/start.S`, `ex62/main.c`)

`setup_vm` maps the higher half only.  The fetch after the write of `satp` faults, and the trap
vector, which the boot code has set to the address of its label in the higher half, makes the
trap the jump.
-/

namespace OscKernel.Start

open Loops Paging Riscv

namespace Ex62

/-- The linked image; its label `1` is aligned as a trap vector. -/
structure Layout extends Start.Layout 20, Boot where
  end_address : endAddr = BitVec.ofNat 64 stackEnd + pageOffset
  pgd_after : address 20 ≤ pgd
  pgd_before : pgd + 2 ^ 12 ≤ bssStart
  label_aligned : 4 ∣ address 6

/-- The statements of `setup_vm` that fill the root table. -/
def tables (boot : Boot) (m : PhysMem) : PhysMem :=
  boot.superPages (0x280000 / 0x40000) (clearPage m boot.pgd)

theorem tables_memory (boot : Boot) : tables boot boot.memory = boot.setupVm := rfl

/-- `setup_vm` -/
def setupVm (layout : Layout) : List Line :=
  [.fill (tables layout.toBoot),
    .csrwSatp layout.pgd,
    .sfence,
    .jr .ra]

/-- `_start` -/
def start (layout : Layout) : Text where
  lines :=
    [.la .a2 (layout.address 6),
      .li .t0 0xffffffc000000000,
      .add .a2 .a2 .t0,
      .csrwStvec .a2,
      .la .sp layout.stackEnd,
      -- call setup_vm
      .call (layout.address 16)] ++
    -- 1:
    (clearBss layout.toLayout 6 .a3 .a4 ++
      -- clear_bss_done:
      [.la .a2 layout.handleException,
        .csrwStvec .a2,
        .la .sp layout.stackEnd,
        .tail layout.startKernel] ++
      setupVm layout)
  address := layout.address
  increasing := layout.increasing

/-! ## Translation -/

section Windows

variable {layout : Layout} {m : PhysMem}

/-- The memory after `setup_vm`, but for the bss. -/
def Grown (layout : Layout) (m : PhysMem) : Prop :=
  ∀ address, m address = layout.toBoot.setupVm address ∨ layout.bssStart ≤ address

theorem pgd_physical (layout : Layout) : layout.pgd < 2 ^ 56 := by
  have before := layout.pgd_before
  have ordered := layout.bss_ordered
  have bssBefore := layout.bss_before
  have small := layout.small
  omega

/-- The image ends in the mapped memory. -/
theorem stackEnd_le (layout : Layout) : layout.stackEnd ≤ memorySize := by
  have inside := layout.end_inside
  have small := layout.small
  rw [layout.end_address, virtToPhys, BitVec.add_sub_cancel, BitVec.toNat_ofNat] at inside
  omega

/-- A walk reads one entry of the root table, which is before the bss. -/
theorem Grown.translate (grown : Grown layout m) (va : BitVec 64) :
    Paging.translate m layout.toBoot.root va =
      Paging.translate layout.toBoot.setupVm layout.toBoot.root va := by
  have before := layout.pgd_before
  have small : index 2 va.toNat < 512 := index_lt
  have entry : m (slot layout.toBoot.root 2 va.toNat) =
      layout.toBoot.setupVm (slot layout.toBoot.root 2 va.toNat) := by
    rcases grown (slot layout.toBoot.root 2 va.toNat) with same | behind
    · exact same
    · rw [layout.toBoot.root_slot, Boot.pgdSlot] at behind
      omega
  have noTable : ∀ next, decode (layout.toBoot.setupVm (slot layout.toBoot.root 2 va.toNat)) ≠
      .table next := by
    intro next
    rw [layout.toBoot.root_slot, layout.toBoot.setupVm_slot small]
    by_cases mapped : 256 ≤ index 2 va.toNat ∧ index 2 va.toNat < 266
    · rw [if_pos mapped, Boot.decode_superPage (by omega)]
      rintro ⟨⟩
    · rw [if_neg mapped, decode_zero]
      rintro ⟨⟩
  have same : walk m 2 layout.toBoot.root va.toNat =
      walk layout.toBoot.setupVm 2 layout.toBoot.root va.toNat := by
    refine (walk_congr ?_).1
    intro address member
    rw [path_of_not_table noTable, List.mem_singleton] at member
    rw [member]
    exact entry
  rw [Paging.translate, Paging.translate, same]

/-- The root table as `csrw satp` gives it to the hardware. -/
theorem satp_root (layout : Layout) :
    (BitVec.ofNat 64 layout.pgd).toNat = layout.pgd := by
  have physical := pgd_physical layout
  rw [BitVec.toNat_ofNat]
  omega

/-- Every access goes through `deref`. -/
theorem Grown.reach (grown : Grown layout m) (access : Access) (va : BitVec 64) :
    Start.reach (makeSatp (BitVec.ofNat 64 layout.pgd)) m access va = deref va := by
  have physical := pgd_physical layout
  have root : (BitVec.ofNat 64 layout.pgd).toNat / 2 ^ 12 = layout.toBoot.root := by
    rw [satp_root]
    rfl
  rw [reach_makeSatp (by rw [satp_root]; exact physical), root, grown.translate,
    layout.toBoot.translate_setupVm]
  cases deref va with
  | none => rfl
  | some pa => rw [Option.map_some, Option.bind_some, permits_kernel, if_pos rfl]

/-- The whole memory is reachable in the higher half. -/
theorem Grown.window (grown : Grown layout m) :
    Window (makeSatp (BitVec.ofNat 64 layout.pgd)) m pageOffset 0 memorySize := by
  intro x _ inside access
  have bound : memorySize < 2 ^ 34 := by decide
  rw [grown.reach, deref, virtToPhys, BitVec.add_sub_cancel, BitVec.toNat_ofNat,
    if_pos (by omega)]
  simp only [Option.some.injEq]
  omega

/-- Nothing is reachable in the lower half. -/
theorem Grown.lower (grown : Grown layout m) {va : BitVec 64} (lower : Lower va)
    (access : Access) :
    Start.reach (makeSatp (BitVec.ofNat 64 layout.pgd)) m access va = none := by
  rw [grown.reach, deref, if_neg]
  rw [Lower] at lower
  rw [virtToPhys, BitVec.toNat_sub, show pageOffset.toNat = 2 ^ 64 - 2 ^ 38 from rfl, memorySize]
  omega

end Windows

/-! ## The run -/

section Run

variable {layout : Layout} {s t : Hart} {off : BitVec 64} {i : Nat}

theorem atLine (window : Window t.satp t.mem off 0 memorySize) (inside : i ≤ 20)
    (pc : t.pc = BitVec.ofNat 64 (layout.address i) + off) : AtLine (start layout) off i t := by
  have ordered := layout.bss_ordered
  have high := layout.toLayout.address_le inside
  have before := layout.text_before
  have bssBefore := layout.bss_before
  have mapped := stackEnd_le layout
  apply window.atLine pc (Nat.zero_le _)
  refine Nat.lt_of_le_of_lt high ?_
  omega

/-- The trap vector goes to a multiple of four as it is. -/
theorem and_not_three {x : BitVec 64} (aligned : 4 ∣ x.toNat) : x &&& ~~~3 = x := by
  apply BitVec.eq_of_toNat_eq
  rw [Words.toNat_and_high (k := 2) (by decide)]
  omega

/-- The hart behind the write of `satp`. -/
structure Prepared (layout : Layout) (s t : Hart) : Prop where
  pc : t.pc = BitVec.ofNat 64 (layout.address 18)
  stvec : t.stvec = BitVec.ofNat 64 (layout.address 6) + pageOffset
  satp : t.satp = makeSatp (BitVec.ofNat 64 layout.pgd)
  mem : t.mem = layout.toBoot.setupVm
  traps : t.traps = s.traps
  arguments : t.regs .a0 = s.regs .a0 ∧ t.regs .a1 = s.regs .a1

/-- The lines without translation set the trap vector and fill the root table. -/
theorem prepares (bare : s.satp.toNat / 2 ^ 60 = 0)
    (pc : s.pc = BitVec.ofNat 64 (layout.address 0)) (loaded : s.mem = layout.memory) :
    ∃ t, (start layout).Reaches s t ∧ Prepared layout s t := by
  have physical : ∀ {t : Hart}, t.satp = s.satp → Window t.satp t.mem 0 0 memorySize := by
    intro t same
    rw [same]
    exact window_bare bare (by decide)
  have here₀ : AtLine (start layout) 0 0 s :=
    atLine (physical rfl) (by decide) (pc.trans (BitVec.add_zero _).symm)
  obtain ⟨t₁, reaches₁, pc₁, mem₁, a2₁, keeps₁⟩ :=
    here₀.sets (l := .la .a2 (layout.address 6)) rfl rfl
  rw [here₀.relative] at a2₁
  have satp₁ := keeps₁.satp
  have here₁ : AtLine (start layout) 0 1 t₁ := atLine (physical satp₁) (by decide) pc₁
  obtain ⟨t₂, reaches₂, pc₂, mem₂, t0₂, keeps₂⟩ :=
    here₁.sets (l := .li .t0 0xffffffc000000000) rfl rfl
  have offset₂ : t₂.regs .t0 = pageOffset := t0₂
  have satp₂ := keeps₂.satp.trans satp₁
  have here₂ : AtLine (start layout) 0 2 t₂ := atLine (physical satp₂) (by decide) pc₂
  obtain ⟨t₃, reaches₃, pc₃, mem₃, a2₃, keeps₃⟩ := here₂.sets (l := .add .a2 .a2 .t0) rfl rfl
  have label : t₃.regs .a2 = BitVec.ofNat 64 (layout.address 6) + pageOffset := by
    rw [a2₃, keeps₂.regs _ (by decide), a2₁, offset₂]
    exact congrArg (· + pageOffset) (BitVec.add_zero _)
  have satp₃ := keeps₃.satp.trans satp₂
  have here₃ : AtLine (start layout) 0 3 t₃ := atLine (physical satp₃) (by decide) pc₃
  let t₄ := (start layout).exec 3 t₃ (.csrwStvec .a2)
  have here₄ : AtLine (start layout) 0 4 t₄ :=
    atLine (t := t₄) (physical satp₃) (by decide) here₃.after
  let t₅ := (start layout).exec 4 t₄ (.la .sp layout.stackEnd)
  have here₅ : AtLine (start layout) 0 5 t₅ :=
    atLine (t := t₅) (physical satp₃) (by decide) here₄.after
  let t₆ := (start layout).exec 5 t₅ (.call (layout.address 16))
  have here₆ : AtLine (start layout) 0 16 t₆ :=
    atLine (t := t₆) (physical satp₃) (by decide) (here₅.relative _)
  let t₇ := (start layout).exec 16 t₆ (.fill (tables layout.toBoot))
  have here₇ : AtLine (start layout) 0 17 t₇ :=
    atLine (t := t₇) (physical satp₃) (by decide) here₆.after
  have filled : t₇.mem = layout.toBoot.setupVm := by
    rw [← tables_memory]
    exact congrArg (tables layout.toBoot) (mem₃.trans (mem₂.trans (mem₁.trans loaded)))
  have satp : makeSatp ((start layout).relative 17 t₇ layout.pgd) =
      makeSatp (BitVec.ofNat 64 layout.pgd) := by
    rw [here₇.relative]
    exact congrArg makeSatp (BitVec.add_zero _)
  have arguments : ∀ r ∉ [Reg.a2, .t0], t₃.regs r = s.regs r := by
    intro r other
    rw [List.mem_cons, List.mem_singleton, not_or] at other
    rw [keeps₃.regs _ (mt List.mem_singleton.mp other.1),
      keeps₂.regs _ (mt List.mem_singleton.mp other.2),
      keeps₁.regs _ (mt List.mem_singleton.mp other.1)]
  refine ⟨(start layout).exec 17 t₇ (.csrwSatp layout.pgd), ?_, ?_⟩
  · apply reaches₁.trans
    apply reaches₂.trans
    apply reaches₃.trans
    apply here₃.reaches rfl
    apply here₄.reaches rfl
    apply here₅.reaches rfl
    apply here₆.reaches rfl
    apply here₇.reaches rfl
    exact .refl
  · constructor
    · exact here₇.after.trans (BitVec.add_zero _)
    · exact label
    · exact satp
    · exact filled
    · exact keeps₃.traps.trans (keeps₂.traps.trans keeps₁.traps)
    · exact ⟨arguments .a0 (by decide), arguments .a1 (by decide)⟩

/-- The fetch of the next line faults, and the trap goes to the label in the higher half. -/
theorem Prepared.traps_to_label (prepared : Prepared layout s t) :
    (start layout).Reaches t (t.trap 12 t.pc) ∧
      (t.trap 12 t.pc).pc = BitVec.ofNat 64 (layout.address 6) + pageOffset := by
  have small := layout.small
  have ordered := layout.bss_ordered
  have before := layout.text_before
  have bssBefore := layout.bss_before
  have inside := layout.toLayout.address_le (show 18 ≤ 20 by decide)
  have grown : Grown layout t.mem := fun address => .inl (congrFun prepared.mem address)
  have lower : Lower t.pc := by
    rw [Lower, prepared.pc, BitVec.toNat_ofNat]
    omega
  constructor
  · have fault := grown.lower lower .fetch
    rw [← prepared.satp] at fault
    apply Relation.ReflTransGen.single
    rw [Text.round, fault]
  · have label : 4 ∣ (BitVec.ofNat 64 (layout.address 6) + pageOffset).toNat := by
      have aligned := layout.label_aligned
      rw [BitVec.toNat_add, BitVec.toNat_ofNat,
        show pageOffset.toNat = 2 ^ 64 - 2 ^ 38 from rfl]
      omega
    show t.stvec &&& ~~~3 = _
    rw [prepared.stvec, and_not_three label]

/-- What the boot code has done when it enters `start_kernel`: the fetch behind the write of
`satp` was the only trap, the whole memory is reachable in the higher half, and nothing is in the
lower half. -/
structure Entered (layout : Layout) (s t : Hart) : Prop where
  pc : t.pc = BitVec.ofNat 64 layout.startKernel + pageOffset
  sp : t.regs .sp = BitVec.ofNat 64 layout.stackEnd + pageOffset
  stvec : t.stvec = BitVec.ofNat 64 layout.handleException + pageOffset
  traps : t.traps = s.traps ++
    [⟨BitVec.ofNat 64 (layout.address 18), 12, BitVec.ofNat 64 (layout.address 18)⟩]
  arguments : t.regs .a0 = s.regs .a0 ∧ t.regs .a1 = s.regs .a1
  mem : t.mem = clearWords layout.bssStart layout.bssStop layout.toBoot.setupVm
  memory : Window t.satp t.mem pageOffset 0 memorySize
  lower : ∀ va, Lower va → ∀ access, reach t.satp t.mem access va = none

/-- The bss is behind the root table. -/
theorem grown_clearWords (layout : Layout) (stop : Nat) :
    Grown layout (clearWords layout.bssStart stop layout.toBoot.setupVm) := by
  intro address
  by_cases inside : InWords layout.bssStart stop address
  · exact .inr inside.1
  · rw [clearWords, if_neg inside]
    exact .inl rfl

/-- The bss is cleared in the higher half. -/
theorem clears (pc : s.pc = BitVec.ofNat 64 (layout.address 6) + pageOffset)
    (satp : s.satp = makeSatp (BitVec.ofNat 64 layout.pgd))
    (mem : s.mem = layout.toBoot.setupVm) :
    ∃ t, (start layout).Reaches s t ∧
      t.pc = BitVec.ofNat 64 (layout.address 12) + pageOffset ∧
      t.mem = clearWords layout.bssStart layout.bssStop layout.toBoot.setupVm ∧
      Keeps [.a3, .a4] s t := by
  have ordered := layout.bss_ordered
  have bssBefore := layout.bss_before
  have before := layout.text_before
  have mapped := stackEnd_le layout
  have high := layout.toLayout.address_le (show 12 ≤ 20 by decide)
  have bound : memorySize + 8 < 2 ^ 38 := by decide
  have clearable : Clearable (start layout) 6 .a3 .a4 layout.bssStart layout.bssStop pageOffset
      s.satp s.mem 0 memorySize := by
    constructor
    · exact ⟨rfl, rfl, rfl, rfl, rfl, rfl, by decide⟩
    · exact .inr rfl
    · exact layout.bss_aligned
    · intro n
      rw [satp, mem]
      exact (grown_clearWords layout _).window
    · exact Nat.zero_le _
    · show layout.address 12 < memorySize
      omega
    · exact Nat.zero_le _
    · exact ordered
    · omega
    · exact bound
  obtain ⟨t, reaches, ended, cleared, keeps⟩ := clearable.clears pc
  rw [mem] at cleared
  exact ⟨t, reaches, ended, cleared, keeps⟩

/-- The hart that has run the lines from `clear_bss_done` on. -/
structure Finished (layout : Layout) (s t : Hart) : Prop where
  pc : t.pc = BitVec.ofNat 64 layout.startKernel + pageOffset
  sp : t.regs .sp = BitVec.ofNat 64 layout.stackEnd + pageOffset
  stvec : t.stvec = BitVec.ofNat 64 layout.handleException + pageOffset
  satp : t.satp = s.satp
  mem : t.mem = s.mem
  traps : t.traps = s.traps
  regs : ∀ r ∉ [Reg.a2, .sp], t.regs r = s.regs r

/-- The lines behind the loop set the trap vector and the stack pointer of the kernel. -/
theorem finishes (window : Window s.satp s.mem pageOffset 0 memorySize)
    (pc : s.pc = BitVec.ofNat 64 (layout.address 12) + pageOffset) :
    ∃ t, (start layout).Reaches s t ∧ Finished layout s t := by
  have here : AtLine (start layout) pageOffset 12 s := atLine window (by decide) pc
  obtain ⟨t₁, reaches₁, pc₁, mem₁, a2₁, keeps₁⟩ :=
    here.sets (l := .la .a2 layout.handleException) rfl rfl
  rw [here.relative] at a2₁
  have window₁ : Window t₁.satp t₁.mem pageOffset 0 memorySize := by
    rw [keeps₁.satp, mem₁]
    exact window
  have here₁ : AtLine (start layout) pageOffset 13 t₁ := atLine window₁ (by decide) pc₁
  let t₂ := (start layout).exec 13 t₁ (.csrwStvec .a2)
  have here₂ : AtLine (start layout) pageOffset 14 t₂ :=
    atLine (t := t₂) window₁ (by decide) here₁.after
  obtain ⟨t₃, reaches₃, pc₃, mem₃, sp₃, keeps₃⟩ :=
    here₂.sets (l := .la .sp layout.stackEnd) rfl rfl
  rw [here₂.relative] at sp₃
  have satp : t₃.satp = s.satp := keeps₃.satp.trans keeps₁.satp
  have mem : t₃.mem = s.mem := mem₃.trans mem₁
  have window₃ : Window t₃.satp t₃.mem pageOffset 0 memorySize := by
    rw [satp, mem]
    exact window
  have here₃ : AtLine (start layout) pageOffset 15 t₃ := atLine window₃ (by decide) pc₃
  refine ⟨(start layout).exec 15 t₃ (.tail layout.startKernel), ?_, ?_⟩
  · apply reaches₁.trans
    apply here₁.reaches rfl
    apply reaches₃.trans
    exact here₃.reaches rfl .refl
  · constructor
    · exact here₃.relative _
    · exact sp₃
    · exact keeps₃.stvec.trans a2₁
    · exact satp
    · exact mem
    · exact keeps₃.traps.trans keeps₁.traps
    · intro r other
      rw [List.mem_cons, List.mem_singleton, not_or] at other
      have second : t₃.regs r = t₁.regs r := keeps₃.regs r (mt List.mem_singleton.mp other.2)
      exact second.trans (keeps₁.regs r (mt List.mem_singleton.mp other.1))

/-- The boot code of the trap: the page fault that the switch of the translation causes is the
jump to the higher half, where the boot code goes on to `start_kernel`. -/
theorem boots_through_trap (layout : Layout) (s : Hart) (bare : s.satp.toNat / 2 ^ 60 = 0)
    (pc : s.pc = BitVec.ofNat 64 (layout.address 0)) (loaded : s.mem = layout.memory) :
    ∃ t, Ends (start layout).round s t ∧ Entered layout s t := by
  obtain ⟨t₁, reaches₁, prepared⟩ := prepares bare pc loaded
  obtain ⟨trapped, label⟩ := prepared.traps_to_label
  obtain ⟨t₂, reaches₂, pc₂, mem₂, keeps₂⟩ := clears label prepared.satp prepared.mem
  have satp₂ : t₂.satp = makeSatp (BitVec.ofNat 64 layout.pgd) :=
    keeps₂.satp.trans prepared.satp
  have grown : Grown layout t₂.mem := by
    rw [mem₂]
    exact grown_clearWords layout _
  have window : Window t₂.satp t₂.mem pageOffset 0 memorySize := by
    rw [satp₂]
    exact grown.window
  obtain ⟨t, reaches₃, finished⟩ := finishes window pc₂
  have final : Window t.satp t.mem pageOffset 0 memorySize := by
    rw [finished.satp, finished.mem]
    exact window
  have reaches : (start layout).Reaches s t :=
    ((reaches₁.trans trapped).trans reaches₂).trans reaches₃
  have before := layout.start_kernel_before
  have ordered := layout.bss_ordered
  have bssBefore := layout.bss_before
  have mapped := stackEnd_le layout
  refine ⟨t, ?_, ?_⟩
  · have fetched : reach t.satp t.mem .fetch t.pc = some layout.startKernel := by
      rw [finished.pc]
      exact final _ (Nat.zero_le _) (by omega) _
    exact Text.ends_of_reaches reaches fetched layout.start_kernel_after
  · constructor
    · exact finished.pc
    · exact finished.sp
    · exact finished.stvec
    · have trap : t₂.traps = t₁.traps ++ [⟨t₁.pc, 12, t₁.pc⟩] := keeps₂.traps
      rw [finished.traps, trap, prepared.traps, prepared.pc]
    · rw [finished.regs _ (by decide), finished.regs _ (by decide), keeps₂.regs _ (by decide),
        keeps₂.regs _ (by decide)]
      exact prepared.arguments
    · exact finished.mem.trans mem₂
    · exact final
    · intro va lower access
      rw [finished.satp, finished.mem, satp₂]
      exact grown.lower lower access

end Run

/-- The image of the linker script, with the root table behind the code. -/
def linked : Layout where
  toLayout := Start.linked 20 (by decide)
  pgd := 0x80201000
  endAddr := 0xffffffc08020a020
  memory := fun _ => 1
  pgd_aligned := by decide
  pgd_below := by decide
  end_inside := by decide
  end_address := by decide
  pgd_after := by decide
  pgd_before := by decide
  label_aligned := by decide

theorem boots_through_trap_linked :
    ∃ t, Ends (start linked).round reset t ∧ Entered linked reset t :=
  boots_through_trap linked reset (by decide) rfl rfl

end Ex62
end OscKernel.Start
