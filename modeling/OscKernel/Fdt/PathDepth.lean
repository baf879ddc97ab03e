import OscKernel.Fdt.Search

/-!
# The array `path_idx` (`ex21/main.c`)

`fdt_path_offset` stores a start for every slash of the path and reads one for every level
that it compares, into and from an array of ten.  A path with more slashes writes past it.  A
path without a slash is compared at every level, so the tree decides how far it is read.  And
a path that an `int` does not count has starts that overflow.
-/

namespace OscKernel.Fdt

open Alloc Riscv Loops Words

/-- `fdt_path_offset` stays inside `path_idx`, and rejects what is deeper than it. -/
def DepthSafe (m : Mem) (fdt : BitVec 64) (path : List Byte) : Prop :=
  ∃ result, PathOffset m fdt path (.ok result) ∧ (10 < path.count slash → result = -1)

/-- The descent into the first accepted child, for the number of levels that are left, comes to
a child that is compared below them. -/
def Items.passes (path : List Byte) : Items → Nat → Bool
  | nil, _ => false
  | nop rest, left => rest.passes path left
  | prop _ _ rest, left => rest.passes path left
  | node _ _ _, 0 => true
  | node name body rest, left + 1 =>
      if accepts name path then body.passes path left else rest.passes path (left + 1)

section Scan

variable {path rest : List Byte} {idx : PathIdx} {i : Nat}

theorem PathIdx.push_fault (full : idx.depth = 10) (start : Nat) :
    idx.push start = .error (.pathIdx 10) := by
  rw [push, dif_neg (by omega), full]

/-- The eleventh slash is written past the array, unless the index overflows before. -/
theorem scanPath_fault (inside : idx.depth ≤ 10) (deep : 10 < idx.depth + path.count slash) :
    ∃ fault, scanPath i path idx = .error fault := by
  induction path generalizing i idx with
  | nil =>
      rw [List.count_nil] at deep
      omega
  | cons c path ih =>
      rw [scanPath]
      rw [List.count_cons] at deep
      by_cases room : i < intMax
      · rw [if_pos room]
        by_cases isSlash : c = slash
        · rw [if_pos isSlash]
          rw [if_pos (by rw [isSlash, beq_self_eq_true])] at deep
          by_cases full : idx.depth = 10
          · rw [PathIdx.push_fault full]
            exact ⟨_, rfl⟩
          · obtain ⟨idx', pushed, depth, -, -⟩ := @PathIdx.push_ok idx (i + 1) (by omega)
            rw [pushed]
            exact ih (by omega) (by omega)
        · rw [if_neg isSlash]
          rw [if_neg (by rwa [beq_iff_eq])] at deep
          exact ih inside deep
      · exact ⟨_, if_neg room⟩

/-- Without a slash nothing is written. -/
theorem scanPath_slashless (none : path.count slash = 0) (counted : i + path.length ≤ intMax) :
    scanPath i path idx = .ok idx := by
  induction path generalizing i with
  | nil => rfl
  | cons c path ih =>
      rw [List.count_cons] at none
      rw [List.length_cons] at counted
      have other : c ≠ slash := by
        rintro rfl
        rw [if_pos (beq_self_eq_true _)] at none
        omega
      rw [scanPath, if_pos (by omega), if_neg other]
      exact ih (by omega) (by omega)

/-- The entries that are not written are 0. -/
theorem PathIdx.get_init (inside : i < 10) : PathIdx.init.get i = .ok 0 := by
  rw [get, dif_pos inside, init]
  exact congrArg Except.ok (Vector.getElem_replicate ..)

theorem PathIdx.get_outside {depth : Nat} (outside : 10 ≤ depth) :
    idx.get depth = .error (.pathIdx depth) :=
  dif_neg (Nat.not_lt.mpr outside)

end Scan

section Walk

variable {m : Mem} {fdt : BitVec 64} {path name more : List Byte} {idx : PathIdx}
variable {off matched left : Nat} {depth : Int} {items : Items} {tree : Tree}

/-- A node that is compared below the array. -/
theorem round_begin_fault (placed : Placed m fdt off (beginToken name ++ more))
    (levels : 4 * (depth + 2) ≤ off) (same : depth + 1 = (10 : Nat)) :
    pathOffsetRound m fdt path idx ⟨BitVec.ofNat 32 off, depth, 10⟩ =
      .stop (.error (.pathIdx 10)) := by
  have outside : ∀ nodeName, componentAccepts m nodeName path idx 10 = .error (.pathIdx 10) := by
    intro nodeName
    rw [componentAccepts, PathIdx.get_outside (Nat.le_refl 10)]
    rfl
  rw [pathOffsetRound]
  dsimp only
  rw [placed.begins, if_pos rfl, if_pos (depth_lt_intMax placed levels), if_pos same, outside]

/-- A path without a slash is compared level by level, and no level is the last. -/
theorem ends_slashless (placed : Placed m fdt off (items.encode ++ (word fdtEndNode ++ more)))
    (named : items.Named) (short : path.length ≤ intMax) (levels : 4 * (depth + 2) ≤ off)
    (level : depth + 1 = matched) (leftLevels : matched + left = 10) :
    Ends (pathOffsetRound m fdt path .init) ⟨BitVec.ofNat 32 off, depth, matched⟩
      (if items.passes path left then .error (.pathIdx 10) else .ok (-1)) := by
  induction items generalizing off depth matched more left with
  | nil =>
      apply Ends.of_stop
      rw [round_end placed, if_pos (by omega)]
      rfl
  | nop rest ih =>
      obtain ⟨token, after⟩ := placed.nop
      exact Ends.of_next (round_nop token) (ih after named (by omega) level leftLevels)
  | prop nameoff value rest ih =>
      obtain ⟨token, after⟩ := placed.prop
      exact Ends.of_next (round_prop token) (ih after named (by omega) level leftLevels)
  | node name body rest ihBody ih =>
      obtain ⟨noNul, bodyNamed, restNamed⟩ := named
      obtain ⟨start, inside, close, after⟩ := placed.node
      have entered := four_le_beginSize name
      cases left with
      | zero =>
          rw [Nat.add_zero] at leftLevels
          subst leftLevels
          exact Ends.of_stop (round_begin_fault start levels level)
      | succ left =>
          have round : pathOffsetRound m fdt path .init ⟨BitVec.ofNat 32 off, depth, matched⟩ = _ :=
            round_begin_compared start noNul levels level (PathIdx.get_init (by omega))
              (atCounted_drop short 0)
          have notLast : matched + 1 ≠ PathIdx.init.depth := Nat.succ_ne_zero matched
          rw [List.drop_zero, if_neg notLast] at round
          rw [Items.passes]
          by_cases accepted : accepts name path = true
          · rw [if_pos accepted] at round ⊢
            exact Ends.of_next round (ihBody inside bodyNamed (by omega) (by omega) (by omega))
          · rw [if_neg accepted] at round ⊢
            apply Ends.of_next round
            apply ends_skip inside bodyNamed (by omega) (by omega)
            apply Ends.of_next (round_leave close (by omega))
            exact ih after restNamed (by omega) level leftLevels

/-- The walk for a path without a slash. -/
theorem pathOffset_slashless (blob : Blob m fdt tree) (short : path.length ≤ intMax)
    (none : path.count slash = 0) :
    PathOffset m fdt path
      (if tree.body.passes path 10 then .error (.pathIdx 10) else .ok (-1)) := by
  have placed := blob.placed
  have start := eq_ofNat_toNat (offDtStruct m fdt)
  rw [pathOffset_iff_ends (scanPath_slashless none (by omega))]
  generalize (offDtStruct m fdt).toNat = off at *
  rw [start]
  apply ends_nops placed
  intro root
  obtain ⟨root, body, -, -⟩ := root.node
  have entered := four_le_beginSize []
  apply Ends.of_next (round_begin_other root List.not_mem_nil (by omega) (by decide))
  exact ends_slashless body blob.named short (by omega) rfl rfl

/-- A path with more slashes than the array has entries. -/
theorem pathOffset_deep (deep : 10 < path.count slash) :
    ∃ fault, PathOffset m fdt path (.error fault) := by
  obtain ⟨fault, scanned⟩ : ∃ fault, scanPath 0 path .init = .error fault :=
    scanPath_fault (Nat.zero_le 10) (by rwa [show PathIdx.init.depth = 0 from rfl, Nat.zero_add])
  exact ⟨fault, pathOffset_fault scanned⟩

theorem not_depthSafe_of_fault (faults : ∃ fault, PathOffset m fdt path (.error fault)) :
    ¬ DepthSafe m fdt path := by
  rintro ⟨result, returns, -⟩
  obtain ⟨fault, faults⟩ := faults
  cases returns.unique faults

/-- A path that is counted, with at most ten slashes. -/
theorem depthSafe_iff_passes (blob : Blob m fdt tree) (short : path.length ≤ intMax)
    (few : path.count slash ≤ 10) :
    DepthSafe m fdt path ↔ (path.count slash = 0 → tree.body.passes path 10 = false) := by
  by_cases none : path.count slash = 0
  · have returns := pathOffset_slashless blob short none
    cases passes : tree.body.passes path 10 with
    | true =>
        rw [passes, if_pos rfl] at returns
        refine iff_of_false (not_depthSafe_of_fault ⟨_, returns⟩) ?_
        intro stays
        cases stays none
    | false =>
        rw [passes, if_neg Bool.false_ne_true] at returns
        exact iff_of_true ⟨_, returns, fun _ => rfl⟩ fun _ => rfl
  · have returns := (pathOffset_iff blob short ⟨Nat.one_le_iff_ne_zero.mpr none, few⟩ _).mpr rfl
    exact iff_of_true ⟨_, returns, fun more => absurd few (Nat.not_le.mpr more)⟩
      fun no => absurd no none

theorem depthSafe_iff (blob : Blob m fdt tree) :
    DepthSafe m fdt path ↔ path.length ≤ intMax ∧ path.count slash ≤ 10 ∧
      (path.count slash = 0 → tree.body.passes path 10 = false) := by
  by_cases short : path.length ≤ intMax
  · by_cases few : path.count slash ≤ 10
    · rw [depthSafe_iff_passes blob short few]
      simp only [short, few, true_and]
    · refine iff_of_false (not_depthSafe_of_fault (pathOffset_deep (Nat.not_le.mp few))) ?_
      exact fun condition => few condition.2.1
  · refine iff_of_false (not_depthSafe_of_fault (pathOffset_long (Nat.not_le.mp short))) ?_
    exact fun condition => short condition.1

end Walk

/-- `fdt_path_offset` stays inside `path_idx` exactly for the paths of at most ten slashes that an
`int` counts; one without a slash must in addition be rejected by the tree within ten levels. -/
theorem path_idx_safe_iff (m : Mem) (fdt : BitVec 64) (tree : Tree) (path : List Byte)
    (blob : Blob m fdt tree) :
    DepthSafe m fdt path ↔ path.length ≤ intMax ∧ path.count slash ≤ 10 ∧
      (path.count slash = 0 → tree.body.passes path 10 = false) :=
  depthSafe_iff blob

theorem path_idx_safe_memory : DepthSafe (blobMem machine) blobBase (ascii "/memory") := by
  obtain ⟨blob, -⟩ := @blob_blobMem machine (by decide) (by decide +kernel)
  exact (path_idx_safe_iff _ _ _ _ blob).mpr (by decide)

/-- Nodes of one name inside one another. -/
def nest (name : List Byte) : Nat → Items
  | 0 => .nil
  | levels + 1 => .node name (nest name levels) .nil

/-- A path with eleven slashes, and one without a slash in a tree of eleven levels. -/
theorem path_idx_overrun :
    (¬ DepthSafe (blobMem machine) blobBase (ascii "/a/a/a/a/a/a/a/a/a/a/a")) ∧
      ¬ DepthSafe (blobMem ⟨0, nest (ascii "a") 11, 0⟩) blobBase (ascii "a") := by
  constructor
  · exact not_depthSafe_of_fault (pathOffset_deep (by decide))
  · obtain ⟨blob, -⟩ := @blob_blobMem ⟨0, nest (ascii "a") 11, 0⟩ (by decide) (by decide +kernel)
    rw [depthSafe_iff blob]
    decide

end OscKernel.Fdt
