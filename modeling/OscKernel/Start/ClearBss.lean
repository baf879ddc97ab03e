import OscKernel.Paging.KernelMapping
import OscKernel.Start.Hart

/-!
# The start of the kernels without translation (`start.S`)

Every `start.S` fills the bss with zero doublewords in the same loop, with signed comparisons of
the addresses, and goes on to `start_kernel`.
-/

namespace OscKernel.Start

open Loops Paging Riscv

/-- The doublewords from `start` on that begin before `stop`. -/
def InWords (start stop address : Nat) : Prop :=
  start ≤ address ∧ address < stop ∧ 8 ∣ address - start

instance decidableInWords (start stop address : Nat) : Decidable (InWords start stop address) :=
  inferInstanceAs (Decidable (_ ∧ _))

/-- The memory with these doublewords zero. -/
def clearWords (start stop : Nat) (m : PhysMem) : PhysMem := fun address =>
  if InWords start stop address then 0 else m address

section Words

variable {start stop n : Nat} {m : PhysMem}

theorem clearWords_empty (empty : stop ≤ start) : clearWords start stop m = m := by
  funext address
  rw [clearWords, if_neg]
  rintro ⟨low, high, -⟩
  omega

/-- One more doubleword. -/
theorem clearWords_succ : clearWords start (start + 8 * (n + 1)) m =
    Function.update (clearWords start (start + 8 * n) m) (start + 8 * n) 0 := by
  funext address
  by_cases last : address = start + 8 * n
  · have inside : InWords start (start + 8 * (n + 1)) address := by
      refine ⟨by omega, by omega, by omega⟩
    rw [last] at inside ⊢
    rw [Function.update_self, clearWords, if_pos inside]
  · have same : InWords start (start + 8 * (n + 1)) address ↔
        InWords start (start + 8 * n) address := by
      constructor
      · rintro ⟨low, high, whole⟩
        refine ⟨low, by omega, whole⟩
      · rintro ⟨low, high, whole⟩
        refine ⟨low, by omega, whole⟩
    rw [Function.update_of_ne last, clearWords, clearWords]
    exact if_congr same rfl rfl

/-- The last doubleword may go on behind the end. -/
theorem clearWords_round (most : start + 8 * n < stop) (all : stop ≤ start + 8 * (n + 1)) :
    clearWords start stop m = clearWords start (start + 8 * (n + 1)) m := by
  funext address
  have same : InWords start stop address ↔ InWords start (start + 8 * (n + 1)) address := by
    constructor
    · rintro ⟨low, high, whole⟩
      refine ⟨low, by omega, whole⟩
    · rintro ⟨low, high, whole⟩
      refine ⟨low, by omega, whole⟩
  rw [clearWords, clearWords]
  exact if_congr same rfl rfl

end Words

/-! ## Signed addresses -/

/-- The offsets at which the kernels run. -/
def Offset (off : BitVec 64) : Prop := off = 0 ∨ off = pageOffset

section Signed

variable {off : BitVec 64} {x y : Nat}

theorem toInt_offset (offset : Offset off) (small : x < 2 ^ 38) :
    (BitVec.ofNat 64 x + off).toInt = (x : Int) - (if off = 0 then 0 else 2 ^ 38 : Nat) := by
  rcases offset with rfl | rfl
  · rw [if_pos rfl, BitVec.toInt_eq_toNat_cond, BitVec.toNat_add, BitVec.toNat_ofNat,
      show (0 : BitVec 64).toNat = 0 from rfl]
    omega
  · rw [if_neg (by decide), BitVec.toInt_eq_toNat_cond, BitVec.toNat_add, BitVec.toNat_ofNat,
      show pageOffset.toNat = 2 ^ 64 - 2 ^ 38 from rfl]
    omega

/-- At both offsets the signed order of the addresses is that of the physical ones. -/
theorem slt_offset (offset : Offset off) (left : x < 2 ^ 38) (right : y < 2 ^ 38) :
    (BitVec.ofNat 64 x + off).slt (BitVec.ofNat 64 y + off) = true ↔ x < y := by
  rw [BitVec.slt_iff_toInt_lt, toInt_offset offset left, toInt_offset offset right]
  omega

theorem sle_offset (offset : Offset off) (left : x < 2 ^ 38) (right : y < 2 ^ 38) :
    (BitVec.ofNat 64 x + off).sle (BitVec.ofNat 64 y + off) = true ↔ x ≤ y := by
  rw [BitVec.sle_iff_toInt_le, toInt_offset offset left, toInt_offset offset right]
  omega

/-- Both offsets are aligned. -/
theorem dvd_offset (offset : Offset off) (aligned : 8 ∣ x) :
    8 ∣ (BitVec.ofNat 64 x + off).toNat := by
  rw [BitVec.toNat_add, BitVec.toNat_ofNat]
  rcases offset with rfl | rfl
  · rw [show (0 : BitVec 64).toNat = 0 from rfl]
    omega
  · rw [show pageOffset.toNat = 2 ^ 64 - 2 ^ 38 from rfl]
    omega

end Signed

/-! ## The loop -/

/-- What a part of the boot code keeps: everything but the program counter, the memory and some
registers. -/
structure Keeps (changed : List Reg) (s t : Hart) : Prop where
  satp : t.satp = s.satp
  stvec : t.stvec = s.stvec
  traps : t.traps = s.traps
  regs : ∀ r ∉ changed, t.regs r = s.regs r

/-- The lines of `clear_bss` from line `k` on, with the two registers that hold the addresses. -/
structure ClearBss (text : Text) (k : Nat) (r r' : Reg) (start stop : Nat) : Prop where
  first : text.lines[k]? = some (.la r start)
  last : text.lines[k + 1]? = some (.la r' stop)
  empty : text.lines[k + 2]? = some (.ble r' r (text.address (k + 6)))
  zero : text.lines[k + 3]? = some (.sdZero r)
  advance : text.lines[k + 4]? = some (.addi r r 8)
  again : text.lines[k + 5]? = some (.blt r r' (text.address (k + 3)))
  different : r ≠ r'

/-- The lines and the bss are in a window, which lasts while the bss is filled. -/
structure Clearable (text : Text) (k : Nat) (r r' : Reg) (start stop : Nat) (off satp : BitVec 64)
    (m : PhysMem) (lo hi : Nat) : Prop extends ClearBss text k r r' start stop where
  offset : Offset off
  aligned : start < stop → 8 ∣ start
  window : ∀ n, Window satp (clearWords start (start + 8 * n) m) off lo hi
  text_low : lo ≤ text.address k
  text_high : text.address (k + 6) < hi
  bss_low : lo ≤ start
  ordered : start ≤ stop
  bss_high : stop ≤ hi
  small : hi + 8 < 2 ^ 38

/-- The hart at line `i` after `n` doublewords, with the address of doubleword `p`. -/
structure Clearing (text : Text) (r r' : Reg) (start stop : Nat) (off : BitVec 64) (m : PhysMem)
    (i p n : Nat) (s t : Hart) : Prop where
  pc : t.pc = BitVec.ofNat 64 (text.address i) + off
  pointer : t.regs r = BitVec.ofNat 64 (start + 8 * p) + off
  stop : t.regs r' = BitVec.ofNat 64 stop + off
  mem : t.mem = clearWords start (start + 8 * n) m
  keeps : Keeps [r, r'] s t

section Loop

variable {text : Text} {k start stop p n lo hi : Nat} {r r' : Reg} {off : BitVec 64}
  {s t : Hart} {m : PhysMem}

theorem Keeps.trans {changed : List Reg} {u : Hart} (first : Keeps changed s t)
    (second : Keeps changed t u) : Keeps changed s u := by
  constructor
  · exact second.satp.trans first.satp
  · exact second.stvec.trans first.stvec
  · exact second.traps.trans first.traps
  · intro q other
    exact (second.regs q other).trans (first.regs q other)

/-- A register is set. -/
theorem Keeps.setReg {changed : List Reg} {rd : Reg} (member : rd ∈ changed) (s : Hart)
    (value pc : BitVec 64) : Keeps changed s ((s.setReg rd value).goto pc) := by
  constructor
  · rfl
  · rfl
  · rfl
  · intro q other
    have different : q ≠ rd := fun same => other (same ▸ member)
    exact Function.update_of_ne different _ _

theorem Keeps.goto (changed : List Reg) (s : Hart) (pc : BitVec 64) :
    Keeps changed s (s.goto pc) :=
  ⟨rfl, rfl, rfl, fun _ _ => rfl⟩

/-- A line that sets a register. -/
theorem AtLine.sets {i : Nat} {l : Line} {rd : Reg} {value : BitVec 64}
    (here : AtLine text off i s) (code : text.lines[i]? = some l)
    (effect : text.exec i s l = (s.setReg rd value).goto (text.after i s)) :
    ∃ t, text.Reaches s t ∧ t.pc = BitVec.ofNat 64 (text.address (i + 1)) + off ∧
      t.mem = s.mem ∧ t.regs rd = value ∧ Keeps [rd] s t := by
  refine ⟨(s.setReg rd value).goto (text.after i s), ?_, here.after, rfl, ?_, ?_⟩
  · apply here.reaches code
    rw [effect]
    exact .refl
  · exact Function.update_self ..
  · exact .setReg (List.mem_singleton_self _) _ _ _

namespace Clearable

variable (clearable : Clearable text k r r' start stop off s.satp m lo hi)

include clearable

theorem inside {i : Nat} (few : i ≤ 6) :
    lo ≤ text.address (k + i) ∧ text.address (k + i) < hi := by
  have low := clearable.text_low
  have high := clearable.text_high
  have first : text.address k ≤ text.address (k + i) := by
    by_cases same : i = 0
    · rw [same, Nat.add_zero]
    · exact Nat.le_of_lt (text.address_lt (by omega))
  have last : text.address (k + i) ≤ text.address (k + 6) := by
    by_cases same : i = 6
    · rw [same]
    · exact Nat.le_of_lt (text.address_lt (by omega))
  omega

theorem atLine {i : Nat} (few : i ≤ 6)
    (clearing : Clearing text r r' start stop off m (k + i) p n s t) :
    AtLine text off (k + i) t := by
  have window := clearable.window n
  rw [← clearing.mem, ← clearing.keeps.satp] at window
  obtain ⟨low, high⟩ := clearable.inside few
  exact window.atLine clearing.pc low high

/-- `sd zero, (a3)` -/
theorem store (clearing : Clearing text r r' start stop off m (k + 3) n n s t)
    (more : start + 8 * n < stop) :
    Clearing text r r' start stop off m (k + 4) n (n + 1) s (text.exec (k + 3) t (.sdZero r)) := by
  have low := clearable.bss_low
  have high := clearable.bss_high
  have here := clearable.atLine (by decide) clearing
  have window := clearable.window n
  rw [← clearing.mem, ← clearing.keeps.satp] at window
  have whole : 8 ∣ start := clearable.aligned (by omega)
  have aligned : 8 ∣ (BitVec.ofNat 64 (start + 8 * n) + off).toNat :=
    dvd_offset clearable.offset (by omega)
  have stored : text.exec (k + 3) t (.sdZero r) =
      { t with mem := clearWords start (start + 8 * (n + 1)) m, pc := text.after (k + 3) t } := by
    rw [Text.exec, clearing.pointer, Hart.zero_eq aligned (window _ (by omega) (by omega) .store),
      clearing.mem, ← clearWords_succ]
  rw [stored]
  constructor
  · exact here.after
  · exact clearing.pointer
  · exact clearing.stop
  · rfl
  · exact ⟨clearing.keeps.satp, clearing.keeps.stvec, clearing.keeps.traps, clearing.keeps.regs⟩

/-- `add a3, a3, 8` -/
theorem advanced (clearing : Clearing text r r' start stop off m (k + 4) n (n + 1) s t) :
    Clearing text r r' start stop off m (k + 5) (n + 1) (n + 1) s
      (text.exec (k + 4) t (.addi r r 8)) := by
  have here := clearable.atLine (by decide) clearing
  constructor
  · exact here.after
  · show Function.update t.regs r (t.regs r + 8) r = _
    rw [Function.update_self, clearing.pointer]
    apply BitVec.eq_of_toNat_eq
    simp only [BitVec.toNat_add, BitVec.toNat_ofNat, show (8 : BitVec 64).toNat = 8 from rfl]
    omega
  · exact (Function.update_of_ne clearable.different.symm _ _).trans clearing.stop
  · exact clearing.mem
  · exact clearing.keeps.trans (.setReg List.mem_cons_self _ _ _)

/-- `blt a3, a4, clear_bss` -/
theorem branch (clearing : Clearing text r r' start stop off m (k + 5) (n + 1) (n + 1) s t)
    (more : start + 8 * n < stop) :
    Clearing text r r' start stop off m
      (if start + 8 * (n + 1) < stop then k + 3 else k + 6) (n + 1) (n + 1) s
      (text.exec (k + 5) t (.blt r r' (text.address (k + 3)))) := by
  have high := clearable.bss_high
  have small := clearable.small
  have here := clearable.atLine (by decide) clearing
  have order := slt_offset (x := start + 8 * (n + 1)) (y := stop) clearable.offset (by omega)
    (by omega)
  rw [Text.exec, clearing.pointer, clearing.stop]
  by_cases again : start + 8 * (n + 1) < stop
  · rw [if_pos again, if_pos (order.mpr again)]
    exact ⟨here.relative _, clearing.pointer, clearing.stop, clearing.mem,
      clearing.keeps.trans (.goto _ _ _)⟩
  · rw [if_neg again, if_neg (mt order.mp again)]
    exact ⟨here.after, clearing.pointer, clearing.stop, clearing.mem,
      clearing.keeps.trans (.goto _ _ _)⟩

/-- One round of the loop. -/
theorem round (clearing : Clearing text r r' start stop off m (k + 3) n n s t)
    (more : start + 8 * n < stop) :
    ∃ u, text.Reaches t u ∧ Clearing text r r' start stop off m
      (if start + 8 * (n + 1) < stop then k + 3 else k + 6) (n + 1) (n + 1) s u := by
  have second := clearable.store clearing more
  have third := clearable.advanced second
  have fourth := clearable.branch third more
  refine ⟨_, ?_, fourth⟩
  apply (clearable.atLine (by decide) clearing).reaches clearable.zero
  apply (clearable.atLine (by decide) second).reaches clearable.advance
  apply (clearable.atLine (by decide) third).reaches clearable.again
  exact .refl

/-- The rest of the loop. -/
theorem loop (clearing : Clearing text r r' start stop off m (k + 3) n n s t)
    (more : start + 8 * n < stop) :
    ∃ u n, text.Reaches t u ∧ Clearing text r r' start stop off m (k + 6) n n s u ∧
      u.mem = clearWords start stop m := by
  -- Induction on the bytes that are left.
  induction left : stop - (start + 8 * n) using Nat.strongRecOn generalizing n t with
  | ind left ih =>
      obtain ⟨u, reaches, next⟩ := clearable.round clearing more
      by_cases again : start + 8 * (n + 1) < stop
      · rw [if_pos again] at next
        obtain ⟨v, count, later, ended, all⟩ := ih _ (by omega) next again rfl
        exact ⟨v, count, reaches.trans later, ended, all⟩
      · rw [if_neg again] at next
        have all := clearWords_round (m := m) more (by omega)
        exact ⟨u, n + 1, reaches, next, next.mem.trans all.symm⟩

end Clearable

/-- The lines before the loop load the addresses of the bss and skip the loop if it is empty. -/
theorem Clearable.prepare (clearable : Clearable text k r r' start stop off s.satp s.mem lo hi)
    (pc : s.pc = BitVec.ofNat 64 (text.address k) + off) :
    ∃ t, text.Reaches s t ∧ Clearing text r r' start stop off s.mem
      (if start < stop then k + 3 else k + 6) 0 0 s t := by
  have low := clearable.bss_low
  have high := clearable.bss_high
  have small := clearable.small
  have ordered := clearable.ordered
  have order := sle_offset (x := stop) (y := start + 8 * 0) clearable.offset (by omega) (by omega)
  have blank : clearWords start (start + 8 * 0) s.mem = s.mem :=
    clearWords_empty (Nat.le_refl _)
  have window := clearable.window 0
  rw [blank] at window
  obtain ⟨low₀, high₀⟩ := clearable.inside (i := 0) (by decide)
  obtain ⟨low₁, high₁⟩ := clearable.inside (i := 1) (by decide)
  have here : AtLine text off k s := window.atLine pc low₀ high₀
  let s₁ := text.exec k s (.la r start)
  have here₁ : AtLine text off (k + 1) s₁ :=
    Window.atLine (s := s₁) window here.after low₁ high₁
  let s₂ := text.exec (k + 1) s₁ (.la r' stop)
  have loaded : Clearing text r r' start stop off s.mem (k + 2) 0 0 s s₂ := by
    constructor
    · exact here₁.after
    · refine (Function.update_of_ne clearable.different _ _).trans ?_
      exact (Function.update_self ..).trans (here.relative start)
    · exact (Function.update_self ..).trans (here₁.relative stop)
    · exact blank.symm
    · exact (Keeps.setReg List.mem_cons_self _ _ _).trans
        (.setReg (List.mem_cons_of_mem _ List.mem_cons_self) _ _ _)
  have here₂ := clearable.atLine (by decide) loaded
  refine ⟨text.exec (k + 2) s₂ (.ble r' r (text.address (k + 6))), ?_, ?_⟩
  · apply here.reaches clearable.first
    apply here₁.reaches clearable.last
    apply here₂.reaches clearable.empty
    exact .refl
  · rw [Text.exec, loaded.pointer, loaded.stop]
    by_cases more : start < stop
    · rw [if_pos more, if_neg (by rw [order]; omega)]
      exact ⟨here₂.after, loaded.pointer, loaded.stop, loaded.mem,
        loaded.keeps.trans (.goto _ _ _)⟩
    · rw [if_neg more, if_pos (by rw [order]; omega)]
      exact ⟨here₂.relative _, loaded.pointer, loaded.stop, loaded.mem,
        loaded.keeps.trans (.goto _ _ _)⟩

/-- `clear_bss` zeroes the doublewords of the bss and ends behind the loop, also when the bss is
empty. -/
theorem Clearable.clears (clearable : Clearable text k r r' start stop off s.satp s.mem lo hi)
    (pc : s.pc = BitVec.ofNat 64 (text.address k) + off) :
    ∃ t, text.Reaches s t ∧ t.pc = BitVec.ofNat 64 (text.address (k + 6)) + off ∧
      t.mem = clearWords start stop s.mem ∧ Keeps [r, r'] s t := by
  obtain ⟨t, reaches, clearing⟩ := clearable.prepare pc
  by_cases more : start < stop
  · rw [if_pos more] at clearing
    obtain ⟨u, n, later, ended, all⟩ := clearable.loop clearing (by omega)
    exact ⟨u, reaches.trans later, ended.pc, all, ended.keeps⟩
  · rw [if_neg more] at clearing
    refine ⟨t, reaches, clearing.pc, ?_, clearing.keeps⟩
    rw [clearing.mem, clearWords_empty (by omega), clearWords_empty (by omega)]

end Loop

end OscKernel.Start
