import Mathlib.Logic.Function.Basic
import OscKernel.Blocks.Tops

/-!
# Free lists that represent a set of blocks

An allocator stores its free blocks on one list per order, each block by its first
frame.  `Represents` says that the lists hold every block of a given set exactly once
and nothing else.  The three list operations an allocator uses are related here to the
corresponding set operations.
-/

namespace OscKernel.Blocks

open Block

/-- One list of first frames per order. -/
abbrev FreeLists := Nat → List Nat

namespace FreeLists

variable (lists : FreeLists) (order page : Nat)

/-- Put a page at the front of the list of `order`. -/
def pushFront : FreeLists := Function.update lists order (page :: lists order)

/-- Drop the first page of the list of `order`. -/
def popFront : FreeLists := Function.update lists order (lists order).tail

/-- Drop every occurrence of a page from the list of `order`. -/
def remove : FreeLists := Function.update lists order ((lists order).filter (· ≠ page))

@[simp] theorem pushFront_same : lists.pushFront order page order = page :: lists order := by
  simp [pushFront]

@[simp] theorem popFront_same : lists.popFront order order = (lists order).tail := by
  simp [popFront]

@[simp] theorem remove_same :
    lists.remove order page order = (lists order).filter (· ≠ page) := by
  simp [remove]

variable {order} {other : Nat}

@[simp] theorem pushFront_other (different : other ≠ order) :
    lists.pushFront order page other = lists other := by
  simp [pushFront, different]

@[simp] theorem popFront_other (different : other ≠ order) :
    lists.popFront order other = lists other := by
  simp [popFront, different]

@[simp] theorem remove_other (different : other ≠ order) :
    lists.remove order page other = lists other := by
  simp [remove, different]

/-- On a list without duplicates, popping its head is removing it. -/
theorem popFront_eq_remove {rest : List Nat} (front : lists order = page :: rest)
    (nodup : (lists order).Nodup) : lists.popFront order = lists.remove order page := by
  rw [front] at nodup
  have fresh : page ∉ rest := (List.nodup_cons.mp nodup).1
  have kept : rest.filter (· ≠ page) = rest := by
    apply List.filter_eq_self.mpr
    intro candidate member
    exact decide_eq_true fun equal => fresh (equal ▸ member)
  have filtered : (page :: rest).filter (· ≠ page) = rest := by
    rw [List.filter_cons_of_neg (by simp), kept]
  rw [popFront, remove, front, filtered, List.tail_cons]

end FreeLists

/-- The lists of the orders up to `bound` hold exactly the blocks of `blocks`, each
once. -/
structure Represents (bound : Nat) (lists : FreeLists) (blocks : Set Block) : Prop where
  nodup : ∀ order ≤ bound, (lists order).Nodup
  aligned : ∀ order ≤ bound, ∀ page ∈ lists order, 2 ^ order ∣ page
  mem_iff : ∀ block : Block, block.order ≤ bound →
    (block.base ∈ lists block.order ↔ block ∈ blocks)

namespace Represents

variable {bound : Nat} {lists : FreeLists} {blocks : Set Block}

/-- Every listed page is the first frame of a block of the set. -/
theorem containing_mem (rep : Represents bound lists blocks) {order page : Nat}
    (small : order ≤ bound) (member : page ∈ lists order) :
    containing order page ∈ blocks ∧ (containing order page).base = page := by
  have start := base_containing_of_dvd (rep.aligned order small page member)
  refine ⟨(rep.mem_iff (containing order page) small).mp ?_, start⟩
  rw [start]
  exact member

theorem remove (rep : Represents bound lists blocks) (block : Block) :
    Represents bound (lists.remove block.order block.base) (blocks \ {block}) where
  nodup order small := by
    by_cases same : order = block.order
    · subst same
      rw [FreeLists.remove_same]
      exact (rep.nodup _ small).filter _
    · rw [FreeLists.remove_other _ _ same]
      exact rep.nodup order small
  aligned order small page member := by
    apply rep.aligned order small page
    by_cases same : order = block.order
    · subst same
      rw [FreeLists.remove_same] at member
      exact (List.mem_filter.mp member).1
    · rwa [FreeLists.remove_other _ _ same] at member
  mem_iff other small := by
    rw [Set.mem_sdiff, Set.mem_singleton_iff, ← rep.mem_iff other small]
    by_cases same : other.order = block.order
    · have bases : other.base ≠ block.base ↔ other ≠ block :=
        not_congr ⟨eq_of_base_eq same, fun equal => equal ▸ rfl⟩
      rw [same, FreeLists.remove_same, List.mem_filter, decide_eq_true_iff, bases]
    · have different : other ≠ block := fun equal => same (equal ▸ rfl)
      simp [FreeLists.remove_other _ _ same, different]

theorem pushFront (rep : Represents bound lists blocks) (block : Block)
    (fresh : block ∉ blocks) :
    Represents bound (lists.pushFront block.order block.base) (insert block blocks) where
  nodup order small := by
    by_cases same : order = block.order
    · subst same
      rw [FreeLists.pushFront_same, List.nodup_cons, rep.mem_iff block small]
      exact ⟨fresh, rep.nodup _ small⟩
    · rw [FreeLists.pushFront_other _ _ same]
      exact rep.nodup order small
  aligned order small page member := by
    by_cases same : order = block.order
    · subst same
      rw [FreeLists.pushFront_same, List.mem_cons] at member
      rcases member with equal | member
      · exact equal ▸ block.aligned
      · exact rep.aligned _ small page member
    · rw [FreeLists.pushFront_other _ _ same] at member
      exact rep.aligned order small page member
  mem_iff other small := by
    rw [Set.mem_insert_iff, ← rep.mem_iff other small]
    by_cases same : other.order = block.order
    · have bases : other.base = block.base ↔ other = block :=
        ⟨eq_of_base_eq same, fun equal => equal ▸ rfl⟩
      rw [same, FreeLists.pushFront_same, List.mem_cons, bases]
    · have different : other ≠ block := fun equal => same (equal ▸ rfl)
      simp [FreeLists.pushFront_other _ _ same, different]

theorem congr (rep : Represents bound lists blocks) {others : Set Block}
    (same : blocks = others) : Represents bound lists others := same ▸ rep

/-- Taking the two halves of a listed block in its place. -/
theorem split (rep : Represents bound lists blocks) {half : Block}
    (absent : half ∉ blocks) (buddyAbsent : half.buddy ∉ blocks) :
    Represents bound
      (((lists.remove half.parent.order half.parent.base).pushFront
        half.buddy.order half.buddy.base).pushFront half.order half.base)
      ((blocks \ {half.parent}) ∪ {half, half.buddy}) := by
  have removed := rep.remove half.parent
  have first := removed.pushFront half.buddy (fun member => buddyAbsent member.1)
  have second := first.pushFront half (by
    intro member
    rcases member with equal | member
    · exact half.buddy_ne equal.symm
    · exact absent member.1)
  refine second.congr ?_
  ext other
  simp only [Set.mem_insert_iff, Set.mem_union, Set.mem_sdiff, Set.mem_singleton_iff]
  tauto

end Represents

/-! ## Lists restricted to some pages -/

/-- The part of the lists made of the pages that satisfy `keep`. -/
def FreeLists.restrict (keep : Nat → Bool) (lists : FreeLists) : FreeLists :=
  fun order => (lists order).filter keep

namespace FreeLists

variable {keep : Nat → Bool} (lists : FreeLists) (order : Nat) {page : Nat}

theorem mem_restrict {other : Nat} :
    page ∈ lists.restrict keep other ↔ page ∈ lists other ∧ keep page = true :=
  List.mem_filter

@[simp] theorem restrict_true : lists.restrict (fun _ => true) = lists := by
  funext other
  exact List.filter_eq_self.mpr fun _ _ => rfl

theorem restrict_pushFront (kept : keep page = true) :
    (lists.pushFront order page).restrict keep = (lists.restrict keep).pushFront order page := by
  funext other
  by_cases same : other = order
  · subst same
    simp [restrict, kept]
  · simp [restrict, same]

theorem restrict_pushFront_of_not (dropped : keep page = false) :
    (lists.pushFront order page).restrict keep = lists.restrict keep := by
  funext other
  by_cases same : other = order
  · subst same
    simp [restrict, dropped]
  · simp [restrict, same]

theorem restrict_remove :
    (lists.remove order page).restrict keep = (lists.restrict keep).remove order page := by
  funext other
  by_cases same : other = order
  · subst same
    simp only [restrict, remove_same, List.filter_filter]
    congr 1
    funext candidate
    exact Bool.and_comm _ _
  · simp [restrict, same]

theorem restrict_remove_of_not (dropped : keep page = false) :
    (lists.remove order page).restrict keep = lists.restrict keep := by
  rw [restrict_remove]
  funext other
  by_cases same : other = order
  · subst same
    rw [remove_same]
    apply List.filter_eq_self.mpr
    intro candidate member
    apply decide_eq_true
    intro equal
    have kept := ((mem_restrict lists).mp member).2
    rw [equal, dropped] at kept
    exact Bool.noConfusion kept
  · exact remove_other _ _ same

end FreeLists

end OscKernel.Blocks
