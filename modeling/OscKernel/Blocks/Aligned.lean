import Mathlib.Order.Minimal
import Mathlib.Order.UpperLower.Basic
import Mathlib.Algebra.Order.Group.Nat
import Mathlib.Data.Nat.Bitwise
import Mathlib.Tactic.Linarith

/-!
# Naturally aligned power-of-two blocks

The blocks of a buddy system form a laminar family: two blocks that share a frame
are nested.  This module describes that family on its own, without reference to any
allocator.  A block is stored by its order and its index among the blocks of that
order, so alignment holds by construction, and the order relation is inclusion of
frames.
-/

namespace OscKernel.Blocks

/-- A naturally aligned block of `2 ^ order` frames, the `index`-th of its order. -/
@[ext] structure Block where
  order : Nat
  index : Nat
  deriving DecidableEq, Repr

namespace Block

/-- First frame of a block. -/
def base (block : Block) : Nat := block.index * 2 ^ block.order

instance : Membership Nat Block where
  mem block frame := frame / 2 ^ block.order = block.index

instance (frame : Nat) (block : Block) : Decidable (frame ∈ block) :=
  inferInstanceAs (Decidable (frame / 2 ^ block.order = block.index))

theorem mem_def {frame : Nat} {block : Block} :
    frame ∈ block ↔ frame / 2 ^ block.order = block.index := Iff.rfl

/-- The frames of a block. -/
def frames (block : Block) : Set Nat := {frame | frame ∈ block}

@[simp] theorem mem_frames {frame : Nat} {block : Block} :
    frame ∈ block.frames ↔ frame ∈ block := Iff.rfl

/-- The block of order `order` around a frame. -/
def containing (order frame : Nat) : Block := ⟨order, frame / 2 ^ order⟩

@[simp] theorem containing_order (order frame : Nat) :
    (containing order frame).order = order := rfl

@[simp] theorem mem_containing (order frame : Nat) :
    frame ∈ containing order frame := rfl

theorem containing_eq_of_mem {frame : Nat} {block : Block} (member : frame ∈ block) :
    containing block.order frame = block := by
  ext
  · rfl
  · exact member

theorem mem_iff_range {frame : Nat} {block : Block} :
    frame ∈ block ↔ block.base ≤ frame ∧ frame < block.base + 2 ^ block.order := by
  have positive : 0 < 2 ^ block.order := Nat.two_pow_pos _
  rw [mem_def, Nat.div_eq_iff positive, base]
  constructor
  · rintro ⟨lower, upper⟩
    exact ⟨lower, by omega⟩
  · rintro ⟨lower, upper⟩
    exact ⟨lower, by omega⟩

@[simp] theorem base_mem (block : Block) : block.base ∈ block := by
  rw [mem_def, base]
  exact Nat.mul_div_cancel _ (Nat.two_pow_pos _)

theorem aligned (block : Block) : 2 ^ block.order ∣ block.base :=
  Dvd.intro_left block.index rfl

/-- An aligned frame is the first frame of the block around it. -/
theorem base_containing_of_dvd {order frame : Nat} (divides : 2 ^ order ∣ frame) :
    (containing order frame).base = frame :=
  Nat.div_mul_cancel divides

theorem base_containing (order frame : Nat) :
    (containing order frame).base = frame - frame % 2 ^ order := by
  have division := Nat.div_add_mod frame (2 ^ order)
  change frame / 2 ^ order * 2 ^ order = _
  rw [Nat.mul_comm]
  omega

/-! ## Inclusion of frames -/

instance : LE Block where
  le inner outer := ∀ frame, frame ∈ inner → frame ∈ outer

/-- Inclusion is decided by the orders and one frame. -/
theorem le_iff {inner outer : Block} :
    inner ≤ outer ↔ inner.order ≤ outer.order ∧ inner.base ∈ outer := by
  constructor
  · intro inside
    refine ⟨?_, inside _ inner.base_mem⟩
    by_contra larger
    have grows : 2 ^ outer.order < 2 ^ inner.order :=
      Nat.pow_lt_pow_right (by omega) (by omega)
    have first := mem_iff_range.mp (inside _ inner.base_mem)
    have last := mem_iff_range.mp (inside (inner.base + 2 ^ inner.order - 1)
      (mem_iff_range.mpr ⟨by omega, by omega⟩))
    omega
  · rintro ⟨orders, first⟩ frame member
    obtain ⟨gap, gapEq⟩ := Nat.exists_eq_add_of_le orders
    rw [mem_def] at member first ⊢
    rw [gapEq, Nat.pow_add, ← Nat.div_div_eq_div_mul] at first ⊢
    rw [member, ← first]
    have index : inner.base / 2 ^ inner.order = inner.index := inner.base_mem
    rw [index]

instance : PartialOrder Block where
  le_refl _ _ member := member
  le_trans _ _ _ first second frame member := second frame (first frame member)
  le_antisymm left right forward backward := by
    have forward' := le_iff.mp forward
    have backward' := le_iff.mp backward
    have orders : left.order = right.order := le_antisymm forward'.1 backward'.1
    have sameIndex : left.base / 2 ^ right.order = right.index := forward'.2
    rw [← orders, left.base_mem] at sameIndex
    exact Block.ext orders sameIndex

theorem order_le_of_le {inner outer : Block} (inside : inner ≤ outer) :
    inner.order ≤ outer.order := (le_iff.mp inside).1

theorem eq_of_le_of_order_le {inner outer : Block} (inside : inner ≤ outer)
    (orders : outer.order ≤ inner.order) : inner = outer :=
  le_antisymm inside (by
    have sameOrder : inner.order = outer.order := le_antisymm (order_le_of_le inside) orders
    have member : inner.base ∈ outer := inside _ inner.base_mem
    rw [← containing_eq_of_mem member, ← sameOrder, containing_eq_of_mem inner.base_mem])

theorem order_lt_of_lt {inner outer : Block} (inside : inner < outer) :
    inner.order < outer.order := by
  by_contra larger
  exact inside.ne (eq_of_le_of_order_le inside.le (not_lt.mp larger))

theorem containing_mono {small large : Nat} (orders : small ≤ large) (frame : Nat) :
    containing small frame ≤ containing large frame := by
  intro other member
  obtain ⟨gap, rfl⟩ := Nat.exists_eq_add_of_le orders
  have same : other / 2 ^ small = frame / 2 ^ small := member
  change other / 2 ^ (small + gap) = frame / 2 ^ (small + gap)
  rw [Nat.pow_add, ← Nat.div_div_eq_div_mul, ← Nat.div_div_eq_div_mul, same]

/-- Laminarity, with the direction of the nesting read off from the orders. -/
theorem le_of_mem_of_order_le {left right : Block} {frame : Nat} (inLeft : frame ∈ left)
    (inRight : frame ∈ right) (orders : left.order ≤ right.order) : left ≤ right := by
  rw [← containing_eq_of_mem inLeft, ← containing_eq_of_mem inRight]
  exact containing_mono orders frame

/-- Two blocks that share a frame are nested. -/
theorem comparable_of_mem {left right : Block} {frame : Nat} (inLeft : frame ∈ left)
    (inRight : frame ∈ right) : left ≤ right ∨ right ≤ left := by
  rcases le_total left.order right.order with orders | orders
  · exact .inl (le_of_mem_of_order_le inLeft inRight orders)
  · exact .inr (le_of_mem_of_order_le inRight inLeft orders)

theorem eq_of_base_eq {left right : Block} (orders : left.order = right.order)
    (bases : left.base = right.base) : left = right := by
  rw [← containing_eq_of_mem left.base_mem, ← containing_eq_of_mem right.base_mem, orders, bases]

theorem base_eq_of_le_of_mem {inner outer : Block} (inside : inner ≤ outer)
    (member : outer.base ∈ inner) : inner.base = outer.base := by
  have first := (mem_iff_range.mp (inside _ inner.base_mem)).1
  have last := (mem_iff_range.mp member).1
  omega

/-- Two blocks that share no frame. -/
def Apart (left right : Block) : Prop := ∀ frame, frame ∈ left → frame ∉ right

theorem Apart.symm {left right : Block} (apart : left.Apart right) : right.Apart left :=
  fun frame inRight inLeft => apart frame inLeft inRight

theorem Apart.mono {inner outer right : Block} (apart : outer.Apart right)
    (inside : inner ≤ outer) : inner.Apart right :=
  fun frame member => apart frame (inside frame member)

theorem apart_or_comparable (left right : Block) :
    left.Apart right ∨ left ≤ right ∨ right ≤ left := by
  by_cases apart : left.Apart right
  · exact .inl apart
  · simp only [Apart, not_forall, not_not] at apart
    obtain ⟨frame, inLeft, inRight⟩ := apart
    exact .inr (comparable_of_mem inLeft inRight)

theorem Apart.not_le {left right : Block} (apart : left.Apart right) : ¬ left ≤ right :=
  fun inside => apart _ left.base_mem (inside _ left.base_mem)

/-! ## Parent and buddy -/

/-- The block of the next order around a block. -/
def parent (block : Block) : Block := ⟨block.order + 1, block.index / 2⟩

/-- The other half of the parent. -/
def buddy (block : Block) : Block := ⟨block.order, block.index ^^^ 1⟩

@[simp] theorem parent_order (block : Block) : block.parent.order = block.order + 1 := rfl

@[simp] theorem buddy_order (block : Block) : block.buddy.order = block.order := rfl

private theorem xor_one_eq (index : Nat) :
    index ^^^ 1 = if index % 2 = 0 then index + 1 else index - 1 := by
  split
  next even => exact Nat.xor_one_of_even (Nat.even_iff.mpr even)
  next odd => exact Nat.xor_one_of_odd (Nat.odd_iff.mpr (by omega))

@[simp] theorem buddy_buddy (block : Block) : block.buddy.buddy = block := by
  ext
  · rfl
  · simp [buddy]

@[simp] theorem parent_buddy (block : Block) : block.buddy.parent = block.parent := by
  ext
  · rfl
  · simp only [parent, buddy, xor_one_eq]
    split <;> omega

/-- The buddy's first frame differs in the single bit of the block's order. -/
theorem buddy_base (block : Block) : block.buddy.base = block.base ^^^ 2 ^ block.order := by
  have shifted : (block.index ^^^ 1) <<< block.order =
      block.index <<< block.order ^^^ 1 <<< block.order := Nat.shiftLeft_xor_distrib
  simpa [base, buddy, Nat.shiftLeft_eq] using shifted

/-- The parent starts where the lower of the two halves starts. -/
theorem parent_base (block : Block) :
    block.parent.base = if block.base > block.buddy.base then block.buddy.base else block.base := by
  have positive : 0 < 2 ^ block.order := Nat.two_pow_pos _
  simp only [base, parent, buddy, xor_one_eq, Nat.pow_succ]
  split
  next even =>
    rw [if_neg (by rw [Nat.add_mul]; omega)]
    have half : block.index / 2 * 2 = block.index := by omega
    rw [Nat.mul_comm (2 ^ block.order), ← Nat.mul_assoc, half]
  next odd =>
    have half : block.index / 2 * 2 = block.index - 1 := by omega
    have smaller : (block.index - 1) * 2 ^ block.order < block.index * 2 ^ block.order :=
      Nat.mul_lt_mul_of_pos_right (by omega) positive
    rw [if_pos smaller, Nat.mul_comm (2 ^ block.order), ← Nat.mul_assoc, half]

theorem mem_parent {frame : Nat} {block : Block} :
    frame ∈ block.parent ↔ frame ∈ block ∨ frame ∈ block.buddy := by
  simp only [mem_def, parent, buddy, xor_one_eq, Nat.pow_succ, ← Nat.div_div_eq_div_mul]
  split <;> omega

theorem parent_containing (order frame : Nat) :
    (containing order frame).parent = containing (order + 1) frame := by
  ext
  · rfl
  · change frame / 2 ^ order / 2 = frame / 2 ^ (order + 1)
    rw [Nat.div_div_eq_div_mul, Nat.pow_succ]

theorem le_parent (block : Block) : block ≤ block.parent :=
  fun _ member => mem_parent.mpr (.inl member)

theorem lt_parent (block : Block) : block < block.parent :=
  lt_of_le_of_ne block.le_parent fun equal => by
    have orders := congrArg order equal
    simp at orders

theorem buddy_le_parent (block : Block) : block.buddy ≤ block.parent :=
  fun _ member => mem_parent.mpr (.inr member)

theorem buddy_ne (block : Block) : block.buddy ≠ block := by
  intro equal
  have indices : block.index ^^^ 1 = block.index := congrArg index equal
  rw [xor_one_eq] at indices
  split at indices <;> omega

theorem apart_buddy (block : Block) : block.Apart block.buddy := by
  intro frame member inBuddy
  have equal : block.buddy = block :=
    (containing_eq_of_mem inBuddy).symm.trans (containing_eq_of_mem member)
  exact block.buddy_ne equal

/-- Every block strictly around another contains its parent. -/
theorem parent_le_of_lt {inner outer : Block} (inside : inner < outer) :
    inner.parent ≤ outer :=
  le_of_mem_of_order_le (inner.le_parent _ inner.base_mem) (inside.le _ inner.base_mem)
    (order_lt_of_lt inside)

/-- A block strictly inside the parent lies in one of the halves. -/
theorem le_or_le_buddy_of_lt_parent {inner block : Block} (inside : inner < block.parent) :
    inner ≤ block ∨ inner ≤ block.buddy := by
  have small : inner.order ≤ block.order := Nat.lt_succ_iff.mp (order_lt_of_lt inside)
  rcases mem_parent.mp (inside.le _ inner.base_mem) with member | member
  · exact .inl (le_of_mem_of_order_le inner.base_mem member small)
  · exact .inr (le_of_mem_of_order_le inner.base_mem member small)

end Block

end OscKernel.Blocks
