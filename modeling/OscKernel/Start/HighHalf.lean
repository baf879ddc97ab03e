import OscKernel.Paging.IdentityMap
import OscKernel.Start.Bare
import OscKernel.Uart.Console

/-!
# The start of the kernel in the higher half (`ex61/start.S`, `ex61/main.c`)

`setup_vm` switches the translation on while the hart runs at physical addresses; the identity
mapping carries it to the jump.  From there on the hart runs in the higher half, clears the bss
and drops the identity mapping that is still in the root table.
-/

namespace OscKernel.Start

open Loops Paging Riscv

namespace Ex61

/-- The linked image at its load address, in the gigabyte of the load address. -/
structure Layout extends Start.Layout 27, Image where
  start_first : address 0 = start.toNat
  pgd_after : address 27 ≤ pgd.toNat
  pmd_after : address 27 ≤ pmd.toNat
  pgd_before : pgd.toNat + 2 ^ 12 ≤ bssStart
  pmd_before : pmd.toNat + 4 * 2 ^ 12 ≤ bssStart
  end_inside : stackEnd ≤ (start.toNat / 2 ^ 30 + 1) * 2 ^ 30

/-- The statements of `setup_vm` that fill the page tables. -/
def tables (image : Image) (m : PhysMem) : PhysMem :=
  let uartPhy : BitVec 64 := 0x0000000010000000
  let uartVir : BitVec 64 := 0xffffffc010000000
  let pa := image.start &&& superL1
  let va := pa + pageOffset
  -- high-half mapping
  let m := Function.update m (image.pgdSlot (Image.pgdIndex va))
    (makePte (image.pmdTable hhMapIdx) protNonLeaf)
  -- identity mapping
  let m := Function.update m (image.pgdSlot (Image.pgdIndex pa))
    (makePte (image.pmdTable idMapIdx) protNonLeaf)
  let m := (image.fill entriesPerTable ⟨m, va, pa⟩).memory
  -- uart mapping
  let m := Function.update m (image.pgdSlot (Image.pgdIndex uartVir))
    (makePte (image.pmdTable uartMapIdx) protNonLeaf)
  Function.update m (image.pmdSlot uartMapIdx (Image.pmdIndex uartVir))
    (makePte (uartPhy &&& superL1) protKernel)

theorem tables_memory (image : Image) : tables image image.memory = image.setupVm := rfl

/-- `setup_vm` -/
def setupVm (layout : Layout) : List Line :=
  [.fill (tables layout.toImage),
    .csrwSatp layout.pgd.toNat,
    .sfence,
    .jr .ra]

/-- `drop_identity_map`, with `i` in `t0`, from line 19 on. -/
def dropIdentityMap (layout : Layout) : List Line :=
  [.li .t0 0,
    .li .t1 0x100,
    .ble .t1 .t0 (layout.address 25),
    .cleared layout.pgd.toNat .t0,
    .addi .t0 .t0 1,
    .tail (layout.address 21),
    .sfence,
    .jr .ra]

/-- `_start` -/
def start (layout : Layout) : Text where
  lines :=
    [.la .sp layout.stackEnd,
      -- call setup_vm
      .call (layout.address 15),
      .li .a3 0xffffffc000000000,
      .la .a4 (layout.address 6),
      .add .a4 .a4 .a3,
      .jr .a4,
      -- 1:
      .add .sp .sp .a3] ++
    (clearBss layout.toLayout 7 .a3 .a4 ++
      -- clear_bss_done: call drop_identity_map
      [.call (layout.address 19),
        .tail layout.startKernel] ++
      setupVm layout ++ dropIdentityMap layout)
  address := layout.address
  increasing := layout.increasing

end Ex61

/-! ## Translation -/

theorem makeSatp_toNat (pgd : BitVec 64) :
    (makeSatp pgd).toNat = 8 * 2 ^ 60 + pgd.toNat / 2 ^ 12 := by
  have bound := pgd.isLt
  have page : pgd.toNat / 2 ^ 12 < 2 ^ 60 := by omega
  rw [makeSatp, BitVec.toNat_or, BitVec.toNat_ushiftRight, Nat.shiftRight_eq_div_pow,
    show ((8 : BitVec 64) <<< 60).toNat = 8 <<< 60 from rfl, ← Nat.shiftLeft_add_eq_or_of_lt page,
    Nat.shiftLeft_eq]

theorem permits_kernel (access : Access) : permits protKernel.toNat access = true := by
  cases access with
  | load => decide
  | store => decide
  | fetch => decide

/-- Accesses through the tables of the root table at `pgd`. -/
theorem reach_makeSatp {pgd va : BitVec 64} {m : PhysMem} {access : Access}
    (physical : pgd.toNat < 2 ^ 56) : reach (makeSatp pgd) m access va =
      (translate m (pgd.toNat / 2 ^ 12) va).bind fun t =>
        if permits t.flags access then some t.pa else none := by
  have mode : (makeSatp pgd).toNat / 2 ^ 60 = 8 := by
    rw [makeSatp_toNat]
    omega
  have root : (makeSatp pgd).toNat % 2 ^ 44 = pgd.toNat / 2 ^ 12 := by
    rw [makeSatp_toNat]
    omega
  rw [reach, if_neg (by omega), if_pos mode, root]
  cases translate m (pgd.toNat / 2 ^ 12) va with
  | none => rfl
  | some t => rfl

theorem reach_kernel {pgd va : BitVec 64} {m : PhysMem} {access : Access} {pa : Nat}
    (physical : pgd.toNat < 2 ^ 56)
    (translated : translate m (pgd.toNat / 2 ^ 12) va = some ⟨pa, protKernel.toNat⟩) :
    reach (makeSatp pgd) m access va = some pa := by
  rw [reach_makeSatp physical, translated, Option.bind_some, permits_kernel, if_pos rfl]

namespace Ex61

section Windows

variable (layout : Layout)

theorem pgd_physical : layout.pgd.toNat < 2 ^ 56 := by
  have physical := layout.toImage.pgd_physical
  omega

/-- The addresses of the image are translated in both halves. -/
theorem translates_image {x : Nat} (low : layout.start.toNat ≤ x) (high : x < layout.stackEnd)
    {va : BitVec 64} (member : va ∈ [BitVec.ofNat 64 x, BitVec.ofNat 64 x + pageOffset]) :
    layout.toImage.translates va = some ⟨x, protKernel.toNat⟩ := by
  have lower := layout.start_lower
  have upper := layout.start_upper
  have inside := layout.end_inside
  have same : x / 2 ^ 30 = layout.toImage.gib := by
    rw [Image.gib]
    omega
  rw [layout.toImage.translates_linear (by rw [linearBase]; omega)
    (by rw [linearBase, linearSize]; omega) member, if_pos same,
    (layout.toImage.mappedPa_eq_iff same).mpr low]

/-- The identity mapping carries the hart from `csrw satp` to the jump. -/
theorem identity_window :
    Window (makeSatp layout.pgd) layout.toImage.setupVm 0 layout.start.toNat layout.stackEnd := by
  intro x low high access
  apply reach_kernel (pgd_physical layout)
  have plain : BitVec.ofNat 64 x + 0 = BitVec.ofNat 64 x := BitVec.add_zero _
  rw [plain]
  exact translates_image layout low high List.mem_cons_self

/-- The memory after `setup_vm`, but for the bss and the lower half of the root table. -/
def Grown (m : PhysMem) : Prop :=
  ∀ address, m address = layout.toImage.setupVm address ∨ layout.bssStart ≤ address ∨
    Dropped layout.toImage.root address

variable {layout} {m : PhysMem}

/-- What the boot code changes in the higher half is not read by the translation there. -/
theorem Grown.translate (grown : Grown layout m) {va : BitVec 64} (higher : Higher va) :
    Paging.translate m layout.toImage.root va = layout.toImage.translates va := by
  rw [Paging.translate, Image.translates, Paging.translate, if_pos (.inr higher),
    if_pos (.inr higher)]
  refine (walk_congr ?_).1
  intro address member
  have pgdBefore := layout.pgd_before
  have pmdBefore := layout.pmd_before
  have table : address < layout.bssStart := by
    rcases layout.toImage.path_setupVm member with rfl | ⟨k, few, rfl⟩
    · have small : index 2 va.toNat < 512 := index_lt
      rw [Image.pgdSlot]
      omega
    · have small : index 1 va.toNat < 512 := index_lt
      rw [Image.pmdSlot]
      omega
  rcases grown address with same | behind | dropped
  · exact same
  · omega
  · exact absurd dropped (layout.toImage.path_not_dropped higher address member)

theorem Grown.window (grown : Grown layout m) :
    Window (makeSatp layout.pgd) m pageOffset layout.start.toNat layout.stackEnd := by
  intro x low high access
  have small := layout.small
  have higher : Higher (BitVec.ofNat 64 x + pageOffset) := by
    rw [Higher, Image.toNat_add_pageOffset] <;> rw [BitVec.toNat_ofNat] <;> omega
  apply reach_kernel (pgd_physical layout)
  exact (grown.translate higher).trans
    (translates_image layout low high (List.mem_cons_of_mem _ List.mem_cons_self))

end Windows

/-! ## The jump -/

section Run

variable {layout : Layout} {s t : Hart} {off stack : BitVec 64} {i : Nat}

theorem atLine (window : Window t.satp t.mem off layout.start.toNat layout.stackEnd)
    (inside : i ≤ 27) (pc : t.pc = BitVec.ofNat 64 (layout.address i) + off) :
    AtLine (start layout) off i t := by
  have first := layout.start_first
  have ordered := layout.bss_ordered
  have low := layout.toLayout.address_le (Nat.zero_le i)
  have high := layout.toLayout.address_le inside
  have before := layout.text_before
  have bssBefore := layout.bss_before
  apply window.atLine pc
  · rw [← first]
    exact low
  · refine Nat.lt_of_le_of_lt high ?_
    omega

/-- `jr` goes to an even address as it is. -/
theorem and_not_one {x : BitVec 64} (even : 2 ∣ x.toNat) : x &&& ~~~1 = x := by
  apply BitVec.eq_of_toNat_eq
  rw [Words.toNat_and_high (k := 1) (by decide)]
  omega

theorem even_address (layout : Layout) (offset : Offset off) :
    2 ∣ (BitVec.ofNat 64 (layout.address i) + off).toNat := by
  have even := layout.even i
  rcases offset with rfl | rfl
  · rw [BitVec.toNat_add, BitVec.toNat_ofNat, show (0 : BitVec 64).toNat = 0 from rfl]
    omega
  · rw [BitVec.toNat_add, BitVec.toNat_ofNat, show pageOffset.toNat = 2 ^ 64 - 2 ^ 38 from rfl]
    omega

/-- The hart at line `i` after `setup_vm`, at an offset. -/
structure Stage (layout : Layout) (off stack : BitVec 64) (i : Nat) (s t : Hart) : Prop where
  pc : t.pc = BitVec.ofNat 64 (layout.address i) + off
  satp : t.satp = makeSatp layout.pgd
  mem : t.mem = layout.toImage.setupVm
  sp : t.regs .sp = stack
  stvec : t.stvec = s.stvec
  traps : t.traps = s.traps
  arguments : t.regs .a0 = s.regs .a0 ∧ t.regs .a1 = s.regs .a1

/-- From the first line to the return of `setup_vm`, which already is fetched through the new
tables. -/
theorem switches (bare : s.satp.toNat / 2 ^ 60 = 0)
    (pc : s.pc = BitVec.ofNat 64 (layout.address 0)) (loaded : s.mem = layout.memory) :
    ∃ t, (start layout).Reaches s t ∧
      Stage layout 0 (BitVec.ofNat 64 layout.stackEnd) 2 s t := by
  have small := layout.small
  have physical : ∀ m, Window s.satp m 0 layout.start.toNat layout.stackEnd := fun m =>
    window_bare bare (by omega)
  have here₀ : AtLine (start layout) 0 0 s :=
    atLine (physical _) (by decide) (pc.trans (BitVec.add_zero _).symm)
  let s₁ := (start layout).exec 0 s (.la .sp layout.stackEnd)
  have here₁ : AtLine (start layout) 0 1 s₁ :=
    atLine (t := s₁) (physical _) (by decide) here₀.after
  let s₂ := (start layout).exec 1 s₁ (.call (layout.address 15))
  have here₂ : AtLine (start layout) 0 15 s₂ :=
    atLine (t := s₂) (physical _) (by decide) (here₁.relative _)
  -- setup_vm
  let s₃ := (start layout).exec 15 s₂ (.fill (tables layout.toImage))
  have filled : s₃.mem = layout.toImage.setupVm := by
    rw [← tables_memory]
    exact congrArg (tables layout.toImage) loaded
  have here₃ : AtLine (start layout) 0 16 s₃ :=
    atLine (t := s₃) (physical _) (by decide) here₂.after
  let s₄ := (start layout).exec 16 s₃ (.csrwSatp layout.pgd.toNat)
  have satp : s₄.satp = makeSatp layout.pgd := by
    have root : (start layout).relative 16 s₃ layout.pgd.toNat = layout.pgd := by
      rw [here₃.relative, BitVec.ofNat_toNat, BitVec.setWidth_eq]
      exact BitVec.add_zero _
    exact congrArg makeSatp root
  -- The next fetch is translated.
  have identity : Window s₄.satp s₄.mem 0 layout.start.toNat layout.stackEnd := by
    rw [satp]
    exact filled ▸ identity_window layout
  have here₄ : AtLine (start layout) 0 17 s₄ := atLine identity (by decide) here₃.after
  let s₅ := (start layout).exec 17 s₄ .sfence
  have here₅ : AtLine (start layout) 0 18 s₅ := atLine (t := s₅) identity (by decide) here₄.after
  have link : s₅.regs .ra = BitVec.ofNat 64 (layout.address 2) + 0 := here₁.after
  refine ⟨(start layout).exec 18 s₅ (.jr .ra), ?_, ?_, satp, filled, ?_, rfl, rfl, rfl, rfl⟩
  · apply here₀.reaches rfl
    apply here₁.reaches rfl
    apply here₂.reaches rfl
    apply here₃.reaches rfl
    apply here₄.reaches rfl
    apply here₅.reaches rfl
    exact .refl
  · show s₅.regs .ra &&& ~~~1 = _
    rw [link, and_not_one (even_address layout (.inl rfl))]
  · exact (here₀.relative _).trans (BitVec.add_zero _)

namespace Stage

theorem window (stage : Stage layout off stack i s t) (offset : Offset off) :
    Window t.satp t.mem off layout.start.toNat layout.stackEnd := by
  rw [stage.satp, stage.mem]
  rcases offset with rfl | rfl
  · exact identity_window layout
  · have grown : Grown layout layout.toImage.setupVm := fun _ => .inl rfl
    exact grown.window

theorem here (stage : Stage layout off stack i s t) (offset : Offset off) (inside : i ≤ 27) :
    AtLine (start layout) off i t :=
  atLine (stage.window offset) inside stage.pc

/-- A line that sets a register. -/
theorem sets (stage : Stage layout off stack i s t) (offset : Offset off) (inside : i ≤ 27)
    {l : Line} {rd : Reg} {value : BitVec 64} (code : (start layout).lines[i]? = some l)
    (effect : (start layout).exec i t l =
      (t.setReg rd value).goto ((start layout).after i t))
    (free : rd ≠ .sp ∧ rd ≠ .a0 ∧ rd ≠ .a1) :
    ∃ u, (start layout).Reaches t u ∧ Stage layout off stack (i + 1) s u ∧
      u.regs rd = value ∧ ∀ r, r ≠ rd → u.regs r = t.regs r := by
  obtain ⟨u, reaches, pc, mem, set, keeps⟩ := (stage.here offset inside).sets code effect
  have others : ∀ r, r ≠ rd → u.regs r = t.regs r := fun r other =>
    keeps.regs r (mt List.mem_singleton.mp other)
  refine ⟨u, reaches, ?_, set, others⟩
  constructor
  · exact pc
  · exact keeps.satp.trans stage.satp
  · exact mem.trans stage.mem
  · exact (others _ free.1.symm).trans stage.sp
  · exact keeps.stvec.trans stage.stvec
  · exact keeps.traps.trans stage.traps
  · exact ⟨(others _ free.2.1.symm).trans stage.arguments.1,
      (others _ free.2.2.symm).trans stage.arguments.2⟩

/-- A jump to a line at another offset. -/
theorem jumps (stage : Stage layout off stack i s t) (offset : Offset off) (inside : i ≤ 27)
    {rs : Reg} {j : Nat} {off' : BitVec 64} (code : (start layout).lines[i]? = some (.jr rs))
    (target : t.regs rs = BitVec.ofNat 64 (layout.address j) + off') (offset' : Offset off') :
    ∃ u, (start layout).Reaches t u ∧ Stage layout off' stack j s u ∧ u.regs = t.regs := by
  have pc : t.regs rs &&& ~~~1 = BitVec.ofNat 64 (layout.address j) + off' := by
    rw [target, and_not_one (even_address layout offset')]
  exact ⟨_, (stage.here offset inside).reaches code .refl,
    ⟨pc, stage.satp, stage.mem, stage.sp, stage.stvec, stage.traps, stage.arguments⟩, rfl⟩

/-- From the return of `setup_vm` to `clear_bss` in the higher half. -/
theorem lifts (stage : Stage layout 0 (BitVec.ofNat 64 layout.stackEnd) 2 s t) :
    ∃ u, (start layout).Reaches t u ∧
      Stage layout pageOffset (BitVec.ofNat 64 layout.stackEnd + pageOffset) 7 s u := by
  have low : Offset 0 := .inl rfl
  have high : Offset pageOffset := .inr rfl
  obtain ⟨t₁, reaches₁, stage₁, a3₁, -⟩ :=
    stage.sets low (by decide) (l := .li .a3 0xffffffc000000000) rfl rfl (by decide)
  have offset₁ : t₁.regs .a3 = pageOffset := a3₁
  obtain ⟨t₂, reaches₂, stage₂, a4₂, others₂⟩ :=
    stage₁.sets low (by decide) (l := .la .a4 (layout.address 6)) rfl rfl (by decide)
  have label : t₂.regs .a4 = BitVec.ofNat 64 (layout.address 6) := by
    rw [a4₂, (stage₁.here low (by decide)).relative]
    exact BitVec.add_zero _
  obtain ⟨t₃, reaches₃, stage₃, a4₃, others₃⟩ :=
    stage₂.sets low (by decide) (l := .add .a4 .a4 .a3) rfl rfl (by decide)
  have target : t₃.regs .a4 = BitVec.ofNat 64 (layout.address 6) + pageOffset := by
    rw [a4₃, label, others₂ _ (by decide), offset₁]
  obtain ⟨t₄, reaches₄, stage₄, same₄⟩ := stage₃.jumps low (by decide) rfl target high
  have offset₄ : t₄.regs .a3 = pageOffset := by
    rw [same₄, others₃ _ (by decide), others₂ _ (by decide), offset₁]
  have here := stage₄.here high (by decide)
  refine ⟨(start layout).exec 6 t₄ (.add .sp .sp .a3), ?_, here.after, stage₄.satp, stage₄.mem,
    ?_, stage₄.stvec, stage₄.traps, stage₄.arguments⟩
  · apply reaches₁.trans
    apply reaches₂.trans
    apply reaches₃.trans
    apply reaches₄.trans
    exact here.reaches rfl .refl
  · show t₄.regs .sp + t₄.regs .a3 = _
    rw [stage₄.sp, offset₄]

end Stage

end Run

/-! ## The bss and the identity mapping -/

section Drop

variable {layout : Layout} {s t : Hart} {m : PhysMem} {n i : Nat}

theorem root_address (layout : Layout) : layout.toImage.root * 2 ^ 12 = layout.pgd.toNat := by
  have aligned := layout.pgd_aligned
  rw [Image.root]
  omega

/-- The bss is behind the tables. -/
theorem grown_clearWords (layout : Layout) (stop : Nat) :
    Grown layout (clearWords layout.bssStart stop layout.toImage.setupVm) := by
  intro address
  by_cases inside : InWords layout.bssStart stop address
  · exact .inr (.inl inside.1)
  · rw [clearWords, if_neg inside]
    exact .inl rfl

/-- The loop of `drop_identity_map` only changes the lower half of the root table. -/
theorem Grown.clearEntries (grown : Grown layout m) (few : n ≤ 0x100) :
    Grown layout (clearEntries layout.pgd.toNat n m) := by
  intro address
  by_cases entry : ∃ j < n, address = layout.pgd.toNat + 8 * j
  · obtain ⟨j, below, rfl⟩ := entry
    refine .inr (.inr ⟨j, by omega, ?_⟩)
    rw [root_address]
  · have away : ∀ j < n, address ≠ layout.pgd.toNat + 8 * j := fun j below same =>
      entry ⟨j, below, same⟩
    rw [clearEntries_of_ne away]
    exact grown address

/-- The bss is cleared in the higher half. -/
theorem Stage.clears {stack : BitVec 64} (stage : Stage layout pageOffset stack 7 s t) :
    ∃ u, (start layout).Reaches t u ∧
      u.pc = BitVec.ofNat 64 (layout.address 13) + pageOffset ∧
      u.mem = clearWords layout.bssStart layout.bssStop layout.toImage.setupVm ∧
      Keeps [.a3, .a4] t u := by
  have first := layout.start_first
  have ordered := layout.bss_ordered
  have bssBefore := layout.bss_before
  have before := layout.text_before
  have inside := layout.end_inside
  have upper := layout.start_upper
  have low := layout.toLayout.address_le (Nat.zero_le 7)
  have high := layout.toLayout.address_le (show 13 ≤ 27 by decide)
  have all := layout.toLayout.address_le (show 0 ≤ 27 by decide)
  have clearable : Clearable (start layout) 7 .a3 .a4 layout.bssStart layout.bssStop pageOffset
      t.satp t.mem layout.start.toNat layout.stackEnd := by
    constructor
    · exact ⟨rfl, rfl, rfl, rfl, rfl, rfl, by decide⟩
    · exact .inr rfl
    · exact layout.bss_aligned
    · intro n
      rw [stage.satp, stage.mem]
      exact (grown_clearWords layout _).window
    · show layout.start.toNat ≤ layout.address 7
      omega
    · show layout.address 13 < layout.stackEnd
      omega
    · omega
    · exact ordered
    · omega
    · omega
  obtain ⟨u, reaches, ended, cleared, keeps⟩ := clearable.clears stage.pc
  rw [stage.mem] at cleared
  exact ⟨u, reaches, ended, cleared, keeps⟩

/-- The hart at line `i` of `drop_identity_map`, with `i = j` and `n` entries cleared. -/
structure Dropping (layout : Layout) (m : PhysMem) (i j n : Nat) (s t : Hart) : Prop where
  pc : t.pc = BitVec.ofNat 64 (layout.address i) + pageOffset
  counter : t.regs .t0 = BitVec.ofNat 64 j
  bound : t.regs .t1 = BitVec.ofNat 64 0x100
  link : t.regs .ra = BitVec.ofNat 64 (layout.address 14) + pageOffset
  mem : t.mem = clearEntries layout.pgd.toNat n m
  few : n ≤ 0x100
  satp : t.satp = makeSatp layout.pgd
  keeps : Keeps [.ra, .t0, .t1] s t

namespace Dropping

variable {j : Nat}

theorem here (dropping : Dropping layout m i j n s t) (grown : Grown layout m) (inside : i ≤ 27) :
    AtLine (start layout) pageOffset i t := by
  refine atLine ?_ inside dropping.pc
  rw [dropping.satp, dropping.mem]
  exact (grown.clearEntries dropping.few).window

/-- `i < 0x100` -/
theorem branch (dropping : Dropping layout m 21 n n s t) (grown : Grown layout m) :
    Dropping layout m (if n < 0x100 then 22 else 25) n n s
      ((start layout).exec 21 t (.ble .t1 .t0 (layout.address 25))) := by
  have here := dropping.here grown (by decide)
  have few := dropping.few
  have order : (BitVec.ofNat 64 0x100).sle (BitVec.ofNat 64 n) = true ↔ 0x100 ≤ n := by
    rw [BitVec.sle_iff_toInt_le, BitVec.toInt_eq_toNat_cond, BitVec.toInt_eq_toNat_cond,
      BitVec.toNat_ofNat, BitVec.toNat_ofNat]
    omega
  rw [Text.exec, dropping.bound, dropping.counter]
  by_cases more : n < 0x100
  · rw [if_pos more, if_neg (by rw [order]; omega)]
    exact ⟨here.after, dropping.counter, dropping.bound, dropping.link, dropping.mem, few,
      dropping.satp, dropping.keeps.trans (.goto _ _ _)⟩
  · rw [if_neg more, if_pos (by rw [order]; omega)]
    exact ⟨here.relative _, dropping.counter, dropping.bound, dropping.link, dropping.mem, few,
      dropping.satp, dropping.keeps.trans (.goto _ _ _)⟩

/-- `pgd[i] = 0`, through the table that it changes. -/
theorem store (dropping : Dropping layout m 22 n n s t) (grown : Grown layout m)
    (more : n < 0x100) :
    Dropping layout m 23 n (n + 1) s
      ((start layout).exec 22 t (.cleared layout.pgd.toNat .t0)) := by
  have here := dropping.here grown (by decide)
  have first := layout.start_first
  have after := layout.pgd_after
  have before := layout.pgd_before
  have ordered := layout.bss_ordered
  have bssBefore := layout.bss_before
  have all := layout.toLayout.address_le (show 0 ≤ 27 by decide)
  have window : Window t.satp t.mem pageOffset layout.start.toNat layout.stackEnd := by
    rw [dropping.satp, dropping.mem]
    exact (grown.clearEntries dropping.few).window
  have entry : (start layout).relative 22 t layout.pgd.toNat + 8 * t.regs .t0 =
      BitVec.ofNat 64 (layout.pgd.toNat + 8 * n) + pageOffset := by
    rw [here.relative, dropping.counter, BitVec.ofNat_add, BitVec.ofNat_mul, BitVec.add_assoc,
      BitVec.add_assoc, BitVec.add_comm pageOffset]
    rfl
  have whole := layout.pgd_aligned
  have aligned : 8 ∣ (BitVec.ofNat 64 (layout.pgd.toNat + 8 * n) + pageOffset).toNat :=
    dvd_offset (.inr rfl) (by omega)
  have stored : (start layout).exec 22 t (.cleared layout.pgd.toNat .t0) =
      { t with
        mem := clearEntries layout.pgd.toNat (n + 1) m
        pc := (start layout).after 22 t } := by
    rw [Text.exec, entry, Hart.zero_eq aligned (window _ (by omega) (by omega) .store),
      dropping.mem]
    rfl
  rw [stored]
  exact ⟨here.after, dropping.counter, dropping.bound, dropping.link, rfl, by omega,
    dropping.satp, ⟨dropping.keeps.satp, dropping.keeps.stvec, dropping.keeps.traps,
      dropping.keeps.regs⟩⟩

/-- `i++` -/
theorem advanced (dropping : Dropping layout m 23 n (n + 1) s t) (grown : Grown layout m) :
    Dropping layout m 24 (n + 1) (n + 1) s ((start layout).exec 23 t (.addi .t0 .t0 1)) := by
  have here := dropping.here grown (by decide)
  constructor
  · exact here.after
  · show Function.update t.regs .t0 (t.regs .t0 + 1) .t0 = _
    rw [Function.update_self, dropping.counter, BitVec.ofNat_add]
    rfl
  · have other : Reg.t1 ≠ .t0 := by decide
    show Function.update t.regs .t0 (t.regs .t0 + 1) .t1 = _
    rw [Function.update_of_ne other, dropping.bound]
  · have other : Reg.ra ≠ .t0 := by decide
    show Function.update t.regs .t0 (t.regs .t0 + 1) .ra = _
    rw [Function.update_of_ne other, dropping.link]
  · exact dropping.mem
  · exact dropping.few
  · exact dropping.satp
  · exact dropping.keeps.trans (.setReg (by decide) _ _ _)

/-- One round of the loop. -/
theorem round (dropping : Dropping layout m 22 n n s t) (grown : Grown layout m)
    (more : n < 0x100) :
    ∃ u, (start layout).Reaches t u ∧
      Dropping layout m (if n + 1 < 0x100 then 22 else 25) (n + 1) (n + 1) s u := by
  have second := dropping.store grown more
  have third := second.advanced grown
  have here := third.here grown (by decide)
  have fourth : Dropping layout m 21 (n + 1) (n + 1) s
      ((start layout).exec 24 _ (.tail (layout.address 21))) :=
    ⟨here.relative _, third.counter, third.bound, third.link, third.mem, third.few, third.satp,
      third.keeps.trans (.goto _ _ _)⟩
  have fifth := fourth.branch grown
  refine ⟨_, ?_, fifth⟩
  apply (dropping.here grown (by decide)).reaches rfl
  apply (second.here grown (by decide)).reaches rfl
  apply here.reaches rfl
  apply (fourth.here grown (by decide)).reaches rfl
  exact .refl

/-- The rest of the loop. -/
theorem loop (dropping : Dropping layout m (if n < 0x100 then 22 else 25) n n s t)
    (grown : Grown layout m) :
    ∃ u, (start layout).Reaches t u ∧ Dropping layout m 25 0x100 0x100 s u := by
  -- Induction on the entries that are left.
  induction left : 0x100 - n generalizing n t with
  | zero =>
      have few := dropping.few
      have done : n = 0x100 := by omega
      rw [done, if_neg (Nat.lt_irrefl _)] at dropping
      exact ⟨t, .refl, dropping⟩
  | succ left ih =>
      rw [if_pos (by omega)] at dropping
      obtain ⟨u, reaches, next⟩ := dropping.round grown (by omega)
      obtain ⟨v, later, ended⟩ := ih next (by omega)
      exact ⟨v, reaches.trans later, ended⟩

end Dropping

/-- `call drop_identity_map` and the statements before its loop. -/
theorem enters (grown : Grown layout m)
    (pc : s.pc = BitVec.ofNat 64 (layout.address 13) + pageOffset) (mem : s.mem = m)
    (satp : s.satp = makeSatp layout.pgd) :
    ∃ t, (start layout).Reaches s t ∧ Dropping layout m 21 0 0 s t := by
  have window : Window s.satp s.mem pageOffset layout.start.toNat layout.stackEnd := by
    rw [satp, mem]
    exact grown.window
  have here₁ : AtLine (start layout) pageOffset 13 s := atLine window (by decide) pc
  let s₁ := (start layout).exec 13 s (.call (layout.address 19))
  have here₂ : AtLine (start layout) pageOffset 19 s₁ :=
    atLine (t := s₁) window (by decide) (here₁.relative _)
  let s₂ := (start layout).exec 19 s₁ (.li .t0 0)
  have here₃ : AtLine (start layout) pageOffset 20 s₂ :=
    atLine (t := s₂) window (by decide) here₂.after
  let s₃ := (start layout).exec 20 s₂ (.li .t1 0x100)
  refine ⟨s₃, ?_, ?_⟩
  · apply here₁.reaches rfl
    apply here₂.reaches rfl
    apply here₃.reaches rfl
    exact .refl
  · constructor
    · exact here₃.after
    · rfl
    · rfl
    · exact here₁.after
    · exact mem
    · exact Nat.zero_le _
    · exact satp
    · have called : Keeps [.ra, .t0, .t1] s s₁ := .setReg (by decide) _ _ _
      have first : Keeps [.ra, .t0, .t1] s₁ s₂ := .setReg (by decide) _ _ _
      have second : Keeps [.ra, .t0, .t1] s₂ s₃ := .setReg (by decide) _ _ _
      exact (called.trans first).trans second

/-- The identity mapping is dropped, and the hart goes on to `start_kernel`. -/
theorem drops (grown : Grown layout m)
    (pc : s.pc = BitVec.ofNat 64 (layout.address 13) + pageOffset) (mem : s.mem = m)
    (satp : s.satp = makeSatp layout.pgd) :
    ∃ t, (start layout).Reaches s t ∧
      t.pc = BitVec.ofNat 64 layout.startKernel + pageOffset ∧
      t.mem = Paging.dropIdentityMap layout.toImage.root m ∧ Keeps [.ra, .t0, .t1] s t := by
  obtain ⟨t₁, entered, before⟩ := enters grown pc mem satp
  have compared := before.branch grown
  obtain ⟨t₂, looped, after⟩ := compared.loop grown
  have here₂ := after.here grown (by decide)
  let t₃ := (start layout).exec 25 t₂ .sfence
  have window : Window t₂.satp t₂.mem pageOffset layout.start.toNat layout.stackEnd := by
    rw [after.satp, after.mem]
    exact (grown.clearEntries after.few).window
  have here₃ : AtLine (start layout) pageOffset 26 t₃ :=
    atLine (t := t₃) window (by decide) here₂.after
  obtain ⟨t₄, returned, pc₄, same⟩ : ∃ u, (start layout).Reaches t₂ u ∧
      u.pc = BitVec.ofNat 64 (layout.address 14) + pageOffset ∧ u = t₂.goto u.pc := by
    refine ⟨(start layout).exec 26 t₃ (.jr .ra), ?_, ?_, rfl⟩
    · apply here₂.reaches rfl
      apply here₃.reaches rfl
      exact .refl
    · show t₂.regs .ra &&& ~~~1 = _
      rw [after.link, and_not_one (even_address layout (.inr rfl))]
  have window₄ : Window t₄.satp t₄.mem pageOffset layout.start.toNat layout.stackEnd := by
    rw [same]
    exact window
  have here₄ : AtLine (start layout) pageOffset 14 t₄ := atLine window₄ (by decide) pc₄
  refine ⟨(start layout).exec 14 t₄ (.tail layout.startKernel), ?_, here₄.relative _, ?_, ?_⟩
  · apply entered.trans
    apply (before.here grown (by decide)).reaches rfl
    apply looped.trans
    apply returned.trans
    exact here₄.reaches rfl .refl
  · show t₄.mem = _
    rw [same, Paging.dropIdentityMap, root_address]
    exact after.mem
  · have returns : Keeps [.ra, .t0, .t1] t₂ t₄ := by
      rw [same]
      exact .goto _ _ _
    exact (after.keeps.trans returns).trans (.goto _ _ _)

end Drop

/-! ## The whole boot -/

/-- What the boot code has done when it enters `start_kernel`: the image and the UART are
reachable in the higher half, and nothing is in the lower half. -/
structure Entered (layout : Layout) (s t : Hart) : Prop where
  pc : t.pc = BitVec.ofNat 64 layout.startKernel + pageOffset
  sp : t.regs .sp = BitVec.ofNat 64 layout.stackEnd + pageOffset
  traps : t.traps = s.traps
  arguments : t.regs .a0 = s.regs .a0 ∧ t.regs .a1 = s.regs .a1
  mem : t.mem = Paging.dropIdentityMap layout.toImage.root
    (clearWords layout.bssStart layout.bssStop layout.toImage.setupVm)
  image : Window t.satp t.mem pageOffset layout.start.toNat layout.stackEnd
  uart : Window t.satp t.mem pageOffset 0x10000000 0x10200000
  lower : ∀ va, Lower va → ∀ access, reach t.satp t.mem access va = none

section Boot

variable {layout : Layout} {m : PhysMem}

/-- The UART is reachable in the higher half. -/
theorem Grown.uart (grown : Grown layout m) :
    Window (makeSatp layout.pgd) m pageOffset 0x10000000 0x10200000 := by
  intro x low high access
  have address : (BitVec.ofNat 64 x + pageOffset).toNat = 2 ^ 64 - 2 ^ 38 + x := by
    rw [Image.toNat_add_pageOffset] <;> rw [BitVec.toNat_ofNat] <;> omega
  have higher : Higher (BitVec.ofNat 64 x + pageOffset) := by
    rw [Higher, address]
    omega
  have rootIndex : index 2 (2 ^ 64 - 2 ^ 38 + x) = 256 := by
    rw [index, span]
    omega
  have pageIndex : index 1 (2 ^ 64 - 2 ^ 38 + x) = 128 := by
    rw [index, span]
    omega
  have inside : 0x10000000 + (2 ^ 64 - 2 ^ 38 + x) % 2 ^ 21 = x := by omega
  apply reach_kernel (pgd_physical layout)
  refine (grown.translate higher).trans ?_
  rw [Image.translates, Paging.translate, if_pos (.inr higher), address, Image.walk_setupVm,
    rootIndex, pageIndex, if_pos rfl, if_pos rfl, inside]

/-- The boot code takes no trap: every fetch and every store is translated to the address that
it is meant for, before and after the jump.  It ends at `start_kernel` in the higher half. -/
theorem boots (layout : Layout) (s : Hart) (bare : s.satp.toNat / 2 ^ 60 = 0)
    (pc : s.pc = BitVec.ofNat 64 (layout.address 0)) (loaded : s.mem = layout.memory) :
    ∃ t, Ends (start layout).round s t ∧ Entered layout s t := by
  obtain ⟨t₁, switched, stage₁⟩ := switches bare pc loaded
  obtain ⟨t₂, lifted, stage₂⟩ := stage₁.lifts
  obtain ⟨t₃, cleared, pc₃, mem₃, keeps₃⟩ := stage₂.clears
  have grown := grown_clearWords layout layout.bssStop
  have satp₃ : t₃.satp = makeSatp layout.pgd := keeps₃.satp.trans stage₂.satp
  obtain ⟨t, dropped, pc, mem, keeps⟩ := drops grown pc₃ mem₃ satp₃
  have satp : t.satp = makeSatp layout.pgd := keeps.satp.trans satp₃
  have mapped : Grown layout t.mem := by
    rw [mem, Paging.dropIdentityMap, root_address]
    exact grown.clearEntries (Nat.le_refl _)
  have image : Window t.satp t.mem pageOffset layout.start.toNat layout.stackEnd := by
    rw [satp]
    exact mapped.window
  have reaches : (start layout).Reaches s t :=
    ((switched.trans lifted).trans cleared).trans dropped
  have first := layout.start_first
  have above := layout.start_kernel_above
  have before := layout.start_kernel_before
  have ordered := layout.bss_ordered
  have bssBefore := layout.bss_before
  refine ⟨t, ?_, ?_⟩
  · have fetched : reach t.satp t.mem .fetch t.pc = some layout.startKernel := by
      rw [pc]
      exact image _ (by omega) (by omega) _
    exact Text.ends_of_reaches reaches fetched layout.start_kernel_after
  · constructor
    · exact pc
    · rw [keeps.regs _ (by decide), keeps₃.regs _ (by decide), stage₂.sp]
    · rw [keeps.traps, keeps₃.traps, stage₂.traps]
    · rw [keeps.regs _ (by decide), keeps.regs _ (by decide), keeps₃.regs _ (by decide),
        keeps₃.regs _ (by decide)]
      exact stage₂.arguments
    · exact mem
    · exact image
    · rw [satp]
      exact mapped.uart
    · intro va lower access
      have fault := drop_identity_map_exact.1
        (clearWords layout.bssStart layout.bssStop layout.toImage.setupVm)
        layout.toImage.root va lower
      rw [← mem] at fault
      rw [satp, reach_makeSatp (pgd_physical layout)]
      have root : layout.pgd.toNat / 2 ^ 12 = layout.toImage.root := rfl
      rw [root, fault, Option.bind_none]

end Boot

/-- The image of the linker script, with the tables behind the code. -/
def linked : Layout where
  toLayout := Start.linked 27 (by decide)
  toImage := Image.linked
  start_first := rfl
  pgd_after := by decide
  pmd_after := by decide
  pgd_before := by decide
  pmd_before := by decide
  end_inside := by decide

/-- The hart at the first line of the loaded image. -/
def loaded : Hart := { reset with mem := Image.linked.memory }

/-! ## The console in the higher half -/

/-- `UART_BASE` -/
def uartBase : BitVec 64 := 0xffffffc010000000

/-- What `start_kernel` prints, before `uart_putc` puts in the carriage returns. -/
def banner (address : BitVec 64) : List Byte :=
  (ascii "\nStarting kernel at : ").flatMap Uart.putcText ++
    (Uart.hexNumber address ++ (ascii "\n").flatMap Uart.putcText)

theorem startKernel_prints {context : Nat} {doTrap : Uart.PtRegs → Uart.Io Unit}
    {loop : Uart.Io Unit} (address : BitVec 64) :
    Uart.Prints uartBase context doTrap loop (Uart.Ex61.startKernel uartBase address)
      (banner address) :=
  (Uart.uartPuts_prints _).bind ((Uart.uartHex_prints _).bind (Uart.uartPuts_prints _))

/-- From the first line to the console: the kernel that the boot code enters shows the address in
the higher half where it runs, through the mapping of the UART, and then echoes all input, in any
order of its steps, of the UART and of arrivals, with any receiver that is not overrun. -/
theorem boots_in_higher_half (layout : Layout) (s : Hart) (bare : s.satp.toNat / 2 ^ 60 = 0)
    (pc : s.pc = BitVec.ofNat 64 (layout.address 0)) (loaded : s.mem = layout.memory)
    {context : Nat} {doTrap : Uart.PtRegs → Uart.Io Unit} {device : Uart.ReceiverDevice}
    {board : Uart.Board device}
    (fresh : Uart.Fresh board) :
    ∃ t, Ends (start layout).round s t ∧ Entered layout s t ∧
      ∀ c : Mmio.Config (Uart.board device uartBase context doTrap (Uart.echo uartBase)),
        Mmio.Reachable ⟨Uart.Ex61.startKernel uartBase t.pc, [], board⟩ c →
          Uart.Faithful (board.transmitter.output ++
            banner (BitVec.ofNat 64 layout.startKernel + pageOffset)) Uart.Ex12.echoText c.state ∧
          Mmio.Settles (Uart.AllAnswered (board.transmitter.output ++
            banner (BitVec.ofNat 64 layout.startKernel + pageOffset)) Uart.Ex12.echoText) c := by
  obtain ⟨t, ends, entered⟩ := boots layout s bare pc loaded
  refine ⟨t, ends, entered, ?_⟩
  intro c reached
  rw [entered.pc] at reached
  exact Uart.answers_all
    (f := fun c => Uart.uartPutc uartBase (if c = Uart.carriageReturn then Uart.newline else c))
    (fun _ => Uart.uartPutc_prints _) (startKernel_prints _) fresh reached

theorem boots_in_higher_half_linked :
    ∃ t, Ends (start linked).round Ex61.loaded t ∧ Entered linked Ex61.loaded t ∧
      Mmio.Settles (Uart.AllAnswered (banner 0xffffffc080200400) Uart.Ex12.echoText)
        (⟨Uart.Ex61.startKernel uartBase t.pc, [], Uart.Board.reset (ascii "a") (by decide)⟩ :
          Mmio.Config (Uart.board (Uart.fifo 1) uartBase 1 (fun _ => .ret ())
            (Uart.echo uartBase))) := by
  have fresh : Uart.Fresh (Uart.Board.reset (ascii "a") (by decide) :
      Uart.Board (Uart.fifo 1)) := ⟨rfl, rfl, rfl, rfl⟩
  obtain ⟨t, ends, entered, runs⟩ :=
    boots_in_higher_half linked Ex61.loaded (by decide) rfl rfl fresh
  exact ⟨t, ends, entered, (runs _ .refl).2⟩

end Ex61
end OscKernel.Start
