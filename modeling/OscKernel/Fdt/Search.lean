import OscKernel.Fdt.PathOffset

/-!
# The search as a recursion on the tree (`ex21/main.c`)

`fdt_path_offset` finds what a recursive search finds that descends into the first child accepted
for each component.
-/

namespace OscKernel.Fdt

open Riscv Loops Words

/-- The rest of a path behind each slash. -/
def suffixes : List Byte → List (List Byte)
  | [] => []
  | c :: path => if c = slash then path :: suffixes path else suffixes path

namespace Items

/-- The first child that is accepted for `suffix` is entered with the later suffixes; the offset of
the child for the last one is the result. -/
def search : Items → Nat → List Byte → List (List Byte) → Option Nat
  | nil, _, _, _ => none
  | nop rest, off, suffix, later => rest.search (off + 4) suffix later
  | prop _ value rest, off, suffix, later => rest.search (off + propSize value) suffix later
  | node name body rest, off, suffix, later =>
      if accepts name suffix then
        match later with
        | [] => some off
        | next :: later => body.search (off + beginSize name) next later
      else rest.search (off + beginSize name + body.size + 4) suffix later

section Search

variable {name suffix next : List Byte} {body rest : Items} {off : Nat} {later : List (List Byte)}

theorem search_found (accepted : accepts name suffix = true) :
    (node name body rest).search off suffix [] = some off := by
  simp [search, accepted]

theorem search_enter (accepted : accepts name suffix = true) :
    (node name body rest).search off suffix (next :: later) =
      body.search (off + beginSize name) next later := by
  simp [search, accepted]

theorem search_other (rejected : ¬ accepts name suffix = true) :
    (node name body rest).search off suffix later =
      rest.search (off + beginSize name + body.size + 4) suffix later := by
  simp [search, rejected]

end Search

end Items

/-- Offset of the first item of the root node in the structure block. -/
def Tree.bodyOffset (tree : Tree) : Nat := 4 * tree.before + beginSize []

/-- The search from the children of the root node. -/
def Tree.search (tree : Tree) (off : Nat) : List (List Byte) → Option Nat
  | [] => none
  | suffix :: later => tree.body.search (off + tree.bodyOffset) suffix later

/-- An offset, or -1. -/
def resultOf : Option Nat → BitVec 32
  | some off => BitVec.ofNat 32 off
  | none => -1

/-! ## Components -/

/-- `path_idx` has the starts of the suffixes. -/
structure Indexed (idx : PathIdx) (path : List Byte) (rests : List (List Byte)) : Prop where
  depth : idx.depth = rests.length
  starts : ∀ i (inside : i < rests.length), ∃ start,
    idx.get i = .ok start ∧ path.drop start = rests[i]

section Components

variable {idx idx' : PathIdx} {path : List Byte} {rests : List (List Byte)} {i start : Nat}

theorem PathIdx.push_ok (room : idx.depth < 10) : ∃ idx', idx.push start = .ok idx' ∧
    idx'.depth = idx.depth + 1 ∧ idx'.get idx.depth = .ok start ∧
    ∀ i < idx.depth, idx'.get i = idx.get i := by
  refine ⟨_, by rw [push, dif_pos room], rfl, ?_, ?_⟩
  · rw [get, dif_pos room, Vector.getElem_set_self]
  · intro i below
    rw [get, get, dif_pos (by omega), dif_pos (by omega), Vector.getElem_set_ne _ _ (by omega)]

theorem Indexed.init (path : List Byte) : Indexed .init path [] := by
  constructor
  · rfl
  · nofun

/-- One more slash. -/
theorem Indexed.push (indexed : Indexed idx path rests) (room : rests.length < 10)
    (start : Nat) : ∃ idx', idx.push start = .ok idx' ∧
      Indexed idx' path (rests ++ [path.drop start]) := by
  rw [← indexed.depth] at room
  obtain ⟨idx', pushed, depth, last, others⟩ := @PathIdx.push_ok idx start room
  refine ⟨idx', pushed, ?_, ?_⟩
  · rw [depth, indexed.depth, List.length_append, List.length_singleton]
  · intro i inside
    rw [List.length_append, List.length_singleton, ← indexed.depth] at inside
    by_cases earlier : i < rests.length
    · obtain ⟨old, found, same⟩ := indexed.starts i earlier
      refine ⟨old, ?_, ?_⟩
      · rw [others i (indexed.depth ▸ earlier), found]
      · rw [same, List.getElem_append_left earlier]
    · have new : i = idx.depth := by
        have depth := indexed.depth
        omega
      subst new
      refine ⟨start, last, ?_⟩
      simp [indexed.depth]

/-- The loop over the path finds every suffix. -/
theorem scanPath_indexed {rest : List Byte} (here : path.drop i = rest)
    (counted : i + rest.length ≤ intMax) (few : rests.length + (suffixes rest).length ≤ 10)
    (indexed : Indexed idx path rests) :
    ∃ idx', scanPath i rest idx = .ok idx' ∧ Indexed idx' path (rests ++ suffixes rest) := by
  induction rest generalizing i idx rests with
  | nil =>
      refine ⟨idx, rfl, ?_⟩
      rwa [suffixes, List.append_nil]
  | cons c rest ih =>
      have next : path.drop (i + 1) = rest := by
        rw [← List.tail_drop, here, List.tail_cons]
      rw [List.length_cons] at counted
      rw [scanPath, if_pos (by omega)]
      rw [suffixes] at few ⊢
      by_cases isSlash : c = slash
      · rw [if_pos isSlash, List.length_cons] at few
        obtain ⟨idx₁, pushed, indexed₁⟩ := indexed.push (by omega) (i + 1)
        rw [next] at indexed₁
        have length : (rests ++ [rest]).length = rests.length + 1 := by
          rw [List.length_append, List.length_singleton]
        obtain ⟨idx', scanned, indexed'⟩ := ih next (by omega) (by omega) indexed₁
        rw [List.append_assoc, List.singleton_append] at indexed'
        rw [if_pos isSlash, if_pos isSlash, pushed]
        exact ⟨idx', scanned, indexed'⟩
      · rw [if_neg isSlash] at few
        rw [if_neg isSlash, if_neg isSlash]
        exact ih next (by omega) few indexed

end Components

/-! ## The walk over the items of a node -/

section Walk

variable {m : Mem} {fdt : BitVec 64} {path : List Byte} {idx : PathIdx} {off matched : Nat}
variable {depth : Int} {items : Items} {more : List Byte} {result : Except Fault (BitVec 32)}
variable {suffix : List Byte} {later rests : List (List Byte)}

/-- The token and the items behind it. -/
theorem Placed.nop {rest : Items} (placed : Placed m fdt off ((Items.nop rest).encode ++ more)) :
    Placed m fdt off (word fdtNop ++ (rest.encode ++ more)) ∧
      Placed m fdt (off + 4) (rest.encode ++ more) := by
  rw [Items.encode, List.append_assoc] at placed
  exact ⟨placed, placed.right rfl⟩

theorem Placed.prop {nameoff : BitVec 32} {value : List Byte} {rest : Items}
    (placed : Placed m fdt off ((Items.prop nameoff value rest).encode ++ more)) :
    Placed m fdt off (propToken nameoff value ++ (rest.encode ++ more)) ∧
      Placed m fdt (off + propSize value) (rest.encode ++ more) := by
  rw [Items.encode, List.append_assoc] at placed
  have after := placed.right (by rw [propToken_length, propSize_mod])
  rw [propToken_length] at after
  exact ⟨placed, after⟩

/-- The parts of a node. -/
theorem Placed.node {name : List Byte} {body rest : Items}
    (placed : Placed m fdt off ((Items.node name body rest).encode ++ more)) :
    Placed m fdt off
        (beginToken name ++ (body.encode ++ (word fdtEndNode ++ (rest.encode ++ more)))) ∧
      Placed m fdt (off + beginSize name)
        (body.encode ++ (word fdtEndNode ++ (rest.encode ++ more))) ∧
      Placed m fdt (off + beginSize name + body.size) (word fdtEndNode ++ (rest.encode ++ more)) ∧
      Placed m fdt (off + beginSize name + body.size + 4) (rest.encode ++ more) := by
  rw [Items.encode, List.append_assoc, List.append_assoc, List.append_assoc] at placed
  have inside := placed.right (by rw [beginToken_length, beginSize_mod])
  rw [beginToken_length] at inside
  have close := inside.right (by rw [Items.encode_length, Items.size_mod])
  rw [Items.encode_length] at close
  have after := close.right rfl
  rw [word_length] at after
  exact ⟨placed, inside, close, after⟩

/-- The end of a node that is not matched. -/
theorem round_leave (placed : Placed m fdt off (word fdtEndNode ++ more))
    (deep : matched ≤ depth + 1) :
    pathOffsetRound m fdt path idx ⟨BitVec.ofNat 32 off, depth + 1, matched⟩ =
      .next ⟨BitVec.ofNat 32 (off + 4), depth, matched⟩ := by
  rw [round_end placed, if_neg (by omega), Int.add_sub_cancel]

/-- Items below the depth of the next component are passed over. -/
theorem ends_skip (placed : Placed m fdt off (items.encode ++ more)) (named : items.Named)
    (levels : 4 * (depth + 2) ≤ off) (deep : matched ≤ depth)
    (ends : Ends (pathOffsetRound m fdt path idx)
      ⟨BitVec.ofNat 32 (off + items.size), depth, matched⟩ result) :
    Ends (pathOffsetRound m fdt path idx) ⟨BitVec.ofNat 32 off, depth, matched⟩ result := by
  induction items generalizing off depth more with
  | nil => exact ends
  | nop rest ih =>
      obtain ⟨token, after⟩ := placed.nop
      rw [Items.size, ← Nat.add_assoc] at ends
      exact Ends.of_next (round_nop token) (ih after named (by omega) deep ends)
  | prop nameoff value rest ih =>
      obtain ⟨token, after⟩ := placed.prop
      rw [Items.size, ← Nat.add_assoc] at ends
      exact Ends.of_next (round_prop token) (ih after named (by omega) deep ends)
  | node name body rest ihBody ih =>
      obtain ⟨noNul, bodyNamed, restNamed⟩ := named
      obtain ⟨start, inside, close, after⟩ := placed.node
      have sizes : off + (Items.node name body rest).size =
          off + beginSize name + body.size + 4 + rest.size := by
        rw [Items.size]
        omega
      rw [sizes] at ends
      have entered := four_le_beginSize name
      apply Ends.of_next (round_begin_other start noNul levels (by omega))
      apply ihBody inside bodyNamed (by omega) (by omega)
      apply Ends.of_next (round_leave close (by omega))
      exact ih after restNamed (by omega) deep ends

/-- Items at the depth of the next component are searched.  The node around them is matched, so
that the walk gives up where it ends. -/
theorem ends_search (placed : Placed m fdt off (items.encode ++ (word fdtEndNode ++ more)))
    (named : items.Named) (short : path.length ≤ intMax) (indexed : Indexed idx path rests)
    (levels : 4 * (depth + 2) ≤ off) (level : depth + 1 = matched)
    (remaining : rests.drop matched = suffix :: later) :
    Ends (pathOffsetRound m fdt path idx) ⟨BitVec.ofNat 32 off, depth, matched⟩
      (.ok (resultOf (items.search off suffix later))) := by
  induction items generalizing off depth matched more suffix later with
  | nil =>
      apply Ends.of_stop
      rw [round_end placed, if_pos (by omega)]
      rfl
  | nop rest ih =>
      obtain ⟨token, after⟩ := placed.nop
      exact Ends.of_next (round_nop token) (ih after named (by omega) level remaining)
  | prop nameoff value rest ih =>
      obtain ⟨token, after⟩ := placed.prop
      exact Ends.of_next (round_prop token) (ih after named (by omega) level remaining)
  | node name body rest ihBody ih =>
      obtain ⟨noNul, bodyNamed, restNamed⟩ := named
      obtain ⟨start, inside, close, after⟩ := placed.node
      have few : matched < rests.length :=
        List.length_lt_of_drop_ne_nil (remaining ▸ List.cons_ne_nil suffix later)
      rw [List.drop_eq_getElem_cons few, List.cons.injEq] at remaining
      obtain ⟨isSuffix, isLater⟩ := remaining
      obtain ⟨first, found, component⟩ := indexed.starts matched few
      have entered := four_le_beginSize name
      have round : pathOffsetRound m fdt path idx ⟨BitVec.ofNat 32 off, depth, matched⟩ = _ :=
        round_begin_compared start noNul levels level found (atCounted_drop short first)
      rw [component, isSuffix, indexed.depth] at round
      by_cases accepted : accepts name suffix = true
      · rw [if_pos accepted] at round
        cases later with
        | nil =>
            have last : matched + 1 = rests.length := by
              have covered := List.drop_eq_nil_iff.mp isLater
              omega
            rw [if_pos last] at round
            rw [Items.search_found accepted]
            exact Ends.of_stop round
        | cons next later =>
            have notLast : matched + 1 ≠ rests.length := by
              have more := List.length_lt_of_drop_ne_nil (isLater ▸ List.cons_ne_nil next later)
              omega
            rw [if_neg notLast] at round
            rw [Items.search_enter accepted]
            exact Ends.of_next round (ihBody inside bodyNamed (by omega) (by omega) isLater)
      · rw [if_neg accepted] at round
        rw [Items.search_other accepted]
        apply Ends.of_next round
        apply ends_skip inside bodyNamed (by omega) (by omega)
        apply Ends.of_next (round_leave close (by omega))
        apply ih after restNamed (by omega) level
        rw [List.drop_eq_getElem_cons few, isSuffix, isLater]

end Walk

/-! ## The whole walk -/

section Blob

variable {m : Mem} {fdt : BitVec 64} {tree : Tree} {path : List Byte} {idx : PathIdx} {off : Nat}
variable {suffix : List Byte} {later : List (List Byte)}

theorem ends_nops {count : Nat} {depth : Int} {matched : Nat} {rest : Items} {more : List Byte}
    {result : Except Fault (BitVec 32)}
    (placed : Placed m fdt off ((Items.nops count rest).encode ++ more))
    (ends : Placed m fdt (off + 4 * count) (rest.encode ++ more) →
      Ends (pathOffsetRound m fdt path idx) ⟨BitVec.ofNat 32 (off + 4 * count), depth, matched⟩
        result) :
    Ends (pathOffsetRound m fdt path idx) ⟨BitVec.ofNat 32 off, depth, matched⟩ result := by
  induction count generalizing off with
  | zero => exact ends placed
  | succ count ih =>
      have next : off + 4 * (count + 1) = off + 4 + 4 * count := by omega
      rw [next] at ends
      obtain ⟨token, after⟩ := Placed.nop placed
      exact Ends.of_next (round_nop token) (ih after ends)

/-- The items of the root node are inside the blob. -/
theorem Blob.body_small (blob : Blob m fdt tree) :
    (offDtStruct m fdt).toNat + tree.bodyOffset + tree.body.size < 2 ^ 31 := by
  have small := blob.small
  rw [Tree.encode, List.length_append, Items.encode_length, Tree.items, Items.size_nops,
    Items.size] at small
  rw [Tree.bodyOffset]
  omega

/-- The walk enters the root node without a comparison and searches what is in it. -/
theorem ends_tree (placed : Placed m fdt (offDtStruct m fdt).toNat tree.encode)
    (named : tree.body.Named) (short : path.length ≤ intMax)
    (indexed : Indexed idx path (suffix :: later)) :
    Ends (pathOffsetRound m fdt path idx) ⟨offDtStruct m fdt, -2, 0⟩
      (.ok (resultOf (tree.search (offDtStruct m fdt).toNat (suffix :: later)))) := by
  have start := eq_ofNat_toNat (offDtStruct m fdt)
  generalize (offDtStruct m fdt).toNat = off at *
  rw [start]
  apply ends_nops placed
  intro root
  obtain ⟨root, body, -, -⟩ := root.node
  have entered := four_le_beginSize []
  apply Ends.of_next (round_begin_other root List.not_mem_nil (by omega) (by decide))
  rw [Tree.search, Tree.bodyOffset, ← Nat.add_assoc]
  exact ends_search body named short indexed (by omega) rfl rfl

theorem suffixes_length (path : List Byte) : (suffixes path).length = path.count slash := by
  induction path with
  | nil => rfl
  | cons c path ih =>
      rw [suffixes, List.count_cons]
      by_cases isSlash : c = slash
      · simp [isSlash, ih]
      · simp [isSlash, ih]

theorem pathOffset_iff_ends (scanned : scanPath 0 path .init = .ok idx)
    {result : Except Fault (BitVec 32)} :
    PathOffset m fdt path result ↔
      Ends (pathOffsetRound m fdt path idx) ⟨offDtStruct m fdt, -2, 0⟩ result := by
  simp only [PathOffset, fdtPathOffset, scanned, Ends]

theorem PathOffset.unique {result other : Except Fault (BitVec 32)}
    (returns : PathOffset m fdt path result) (otherReturns : PathOffset m fdt path other) :
    result = other := by
  cases scanned : scanPath 0 path .init with
  | error fault =>
      obtain ⟨fuel, ended⟩ := returns
      obtain ⟨otherFuel, otherEnded⟩ := otherReturns
      rw [fdtPathOffset, scanned] at ended otherEnded
      exact Option.some.inj (ended.symm.trans otherEnded)
  | ok idx =>
      rw [pathOffset_iff_ends scanned] at returns otherReturns
      exact Ends.unique returns otherReturns

/-- The walk returns what the recursive search finds. -/
theorem pathOffset_iff_search (placed : Placed m fdt (offDtStruct m fdt).toNat tree.encode)
    (named : tree.body.Named) (short : path.length ≤ intMax)
    (slashes : 1 ≤ path.count slash ∧ path.count slash ≤ 10) (result : Except Fault (BitVec 32)) :
    PathOffset m fdt path result ↔
      result = .ok (resultOf (tree.search (offDtStruct m fdt).toNat (suffixes path))) := by
  rw [← suffixes_length] at slashes
  have whole : path.drop 0 = path := List.drop_zero
  have few : ([] : List (List Byte)).length + (suffixes path).length ≤ 10 := by
    rw [List.length_nil, Nat.zero_add]
    exact slashes.2
  obtain ⟨idx, scanned, indexed⟩ := scanPath_indexed whole (by omega) few (Indexed.init path)
  rw [List.nil_append] at indexed
  rw [pathOffset_iff_ends scanned]
  cases rests : suffixes path with
  | nil =>
      rw [rests, List.length_nil] at slashes
      omega
  | cons suffix later =>
      rw [rests] at indexed
      have ends := ends_tree placed named short indexed
      constructor
      · intro other
        exact Ends.unique other ends
      · rintro rfl
        exact ends

theorem pathOffset_iff (blob : Blob m fdt tree) (short : path.length ≤ intMax)
    (slashes : 1 ≤ path.count slash ∧ path.count slash ≤ 10) (result : Except Fault (BitVec 32)) :
    PathOffset m fdt path result ↔
      result = .ok (resultOf (tree.search (offDtStruct m fdt).toNat (suffixes path))) :=
  pathOffset_iff_search blob.placed blob.named short slashes result

theorem PathIdx.push_error_or_ok : (∃ fault, idx.push off = .error fault) ∨
    ∃ idx', idx.push off = .ok idx' := by
  cases idx.push off with
  | error fault => exact .inl ⟨fault, rfl⟩
  | ok idx' => exact .inr ⟨idx', rfl⟩

/-- The index of a long path overflows, unless `path_idx` is overrun before. -/
theorem scanPath_long {i : Nat} (long : intMax < i + path.length) (counted : i ≤ intMax) :
    ∃ fault, scanPath i path idx = .error fault := by
  induction path generalizing i idx with
  | nil =>
      rw [List.length_nil] at long
      omega
  | cons c path ih =>
      rw [List.length_cons] at long
      rw [scanPath]
      by_cases room : i < intMax
      · rw [if_pos room]
        by_cases isSlash : c = slash
        · rw [if_pos isSlash]
          rcases @PathIdx.push_error_or_ok idx (i + 1) with ⟨fault, full⟩ | ⟨idx', pushed⟩
          · exact ⟨fault, by rw [full]; rfl⟩
          · rw [pushed]
            exact ih (by omega) (by omega)
        · rw [if_neg isSlash]
          exact ih (by omega) (by omega)
      · exact ⟨_, if_neg room⟩

theorem pathOffset_fault {fault : Fault} (scanned : scanPath 0 path .init = .error fault) :
    PathOffset m fdt path (.error fault) :=
  ⟨0, by rw [fdtPathOffset, scanned]⟩

/-- A path that is too long for an `int`. -/
theorem pathOffset_long (long : intMax < path.length) :
    ∃ fault, PathOffset m fdt path (.error fault) := by
  obtain ⟨fault, scanned⟩ : ∃ fault, scanPath 0 path .init = .error fault :=
    scanPath_long (by rwa [Nat.zero_add]) (Nat.zero_le _)
  exact ⟨fault, pathOffset_fault scanned⟩

/-- For each absolute path with at most ten slashes, `fdt_path_offset` is the recursive search
exactly if an `int` counts the characters of the path. -/
theorem pathOffset_refines_search (blob : Blob m fdt tree) (absolute : path.head? = some slash)
    (few : path.count slash ≤ 10) :
    (∀ result, PathOffset m fdt path result ↔
      result = .ok (resultOf (tree.search (offDtStruct m fdt).toNat (suffixes path)))) ↔
        path.length ≤ intMax := by
  constructor
  · intro refines
    by_contra long
    obtain ⟨fault, faults⟩ := @pathOffset_long m fdt path (Nat.not_le.mp long)
    cases (refines _).mp faults
  · intro short
    apply pathOffset_iff blob short
    constructor
    · exact List.count_pos_iff.mpr (List.mem_of_mem_head? absolute)
    · exact few

end Blob

/-- A machine with two processors and a memory. -/
def machine : Tree where
  before := 1
  body :=
    .prop 0 (word 2) (.nop
      (.node (ascii "cpus")
        (.node (ascii "cpu@0") (.prop 15 (ascii "riscv") .nil)
          (.node (ascii "cpu@1") .nil .nil))
        (.node (ascii "memory@80000000")
          (.prop 26 (word 0x80000000 ++ word fdtEndNode) .nil) .nil)))
  after := 1

/-- The blob of a tree without property names, in memory. -/
def blobMem (tree : Tree) : Mem := Mem.image blobBase (tree.blob [])

theorem blob_blobMem {tree : Tree} (named : tree.body.Named) (small : tree.encode.length ≤ 2 ^ 20) :
    Blob (blobMem tree) blobBase tree ∧ offDtStruct (blobMem tree) blobBase = 56 := by
  obtain ⟨blob, struct, -⟩ := @blob_image tree [] named small
  exact ⟨blob, struct⟩

theorem pathOffset_memory :
    PathOffset (blobMem machine) blobBase (ascii "/memory") (.ok 156) := by
  obtain ⟨blob, struct⟩ := @blob_blobMem machine (by decide) (by decide +kernel)
  apply ((pathOffset_refines_search blob (by decide) (by decide)).mpr (by decide) _).mpr
  rw [struct]
  decide

/-- A slash, and 2 GiB of one component less one character. -/
def longPath : List Byte := slash :: List.replicate intMax 0x61

/-- The index of the path overflows, so the function does not do what the search does. -/
theorem long_path_overflows :
    Blob (blobMem machine) blobBase machine ∧ longPath.head? = some slash ∧
      longPath.count slash = 1 ∧
      ¬ ∀ result, PathOffset (blobMem machine) blobBase longPath result ↔ result =
        .ok (resultOf (machine.search (offDtStruct (blobMem machine) blobBase).toNat
          (suffixes longPath))) := by
  obtain ⟨blob, -⟩ := @blob_blobMem machine (by decide) (by decide +kernel)
  have length : longPath.length = intMax + 1 := by
    rw [longPath, List.length_cons, List.length_replicate]
  have count : longPath.count slash = 1 := by
    rw [longPath, List.count_cons_self, List.count_replicate, if_neg (by decide)]
  refine ⟨blob, rfl, count, ?_⟩
  intro refines
  obtain ⟨fault, faults⟩ := @pathOffset_long (blobMem machine) blobBase longPath (by omega)
  cases (refines _).mp faults

end OscKernel.Fdt
