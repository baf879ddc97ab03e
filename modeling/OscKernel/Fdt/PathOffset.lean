import OscKernel.Fdt.Blob
import OscKernel.Loops.Iterate
import OscKernel.Words.Masks

/-!
# The search for a path (`ex21/main.c`)

`fdt_path_offset` walks over the tokens of the structure block with two counters: the depth of the
node that it is in, and the number of path components that it has matched.
-/

namespace OscKernel.Fdt

open Alloc Riscv Loops Words

def slash : Byte := 0x2f

def atSign : Byte := 0x40

/-- `align_up` -/
def alignUp (ptr align : BitVec 64) : BitVec 64 := (ptr + align - 1) &&& ~~~(align - 1)

/-- An access outside `path_idx`, or an `int` that is counted past `INT_MAX`. -/
inductive Fault where
  | pathIdx (index : Nat)
  | counterOverflow
  deriving DecidableEq, Repr

/-- The first loop of `strncmp2`, from character `i` on. -/
def haveAtLoop : Nat → List Byte → Except Fault Bool
  | _, [] => .ok false
  | i, c :: path =>
      if c = atSign then .ok true
      else if i < intMax then haveAtLoop (i + 1) path
      else .error .counterOverflow

/-- The second loop of `strncmp2`, from character `i` on.  The character behind the path is NUL. -/
def strncmp2Loop (haveAt : Bool) (nodeName : Nat → Byte) (path : List Byte) : Nat → Nat → Bool
  | 0, _ => true
  | n + 1, i =>
      let c := path.getD i 0
      if nodeName i ≠ c then
        !haveAt && (nodeName i == atSign && (c == slash || c == 0))
      else strncmp2Loop haveAt nodeName path n (i + 1)

/-- `strncmp2`; its `len` is an `int`. -/
def strncmp2 (nodeName : Nat → Byte) (path : List Byte) (len : BitVec 32) : Except Fault Bool := do
  let haveAt ← haveAtLoop 0 path
  return strncmp2Loop haveAt nodeName path len.toInt.toNat 0

/-- `path_idx` and `path_depth` -/
structure PathIdx where
  entries : Vector Nat 10
  depth : Nat
  deriving DecidableEq

namespace PathIdx

def init : PathIdx := ⟨Vector.replicate 10 0, 0⟩

/-- `path_idx[path_depth++] = start` -/
def push (idx : PathIdx) (start : Nat) : Except Fault PathIdx :=
  if inside : idx.depth < 10 then .ok ⟨idx.entries.set idx.depth start, idx.depth + 1⟩
  else .error (.pathIdx idx.depth)

/-- `path_idx[depth]` -/
def get (idx : PathIdx) (depth : Nat) : Except Fault Nat :=
  if inside : depth < 10 then .ok idx.entries[depth] else .error (.pathIdx depth)

end PathIdx

/-- The loop over the path, from character `i` on. -/
def scanPath : Nat → List Byte → PathIdx → Except Fault PathIdx
  | _, [], idx => .ok idx
  | i, c :: path, idx =>
      if i < intMax then
        if c = slash then do
          let idx ← idx.push (i + 1)
          scanPath (i + 1) path idx
        else scanPath (i + 1) path idx
      else .error .counterOverflow

/-- The walk over the tokens: `cur_off`, `cur_depth` and `matching_depth`. -/
structure Cursor where
  curOff : BitVec 32
  curDepth : Int
  matchingDepth : Nat
  deriving DecidableEq

/-- `cur_off` behind `n` bytes at a pointer, rounded up to the next token. -/
def nextToken (fdt pointer : BitVec 64) : BitVec 32 := (alignUp pointer 4 - fdt).setWidth 32

/-- `strncmp2(node_name, path+path_idx[cur_depth], strlen(node_name))` -/
def componentAccepts (m : Mem) (nodeName : BitVec 64) (path : List Byte) (idx : PathIdx)
    (depth : Nat) : Except Fault Bool := do
  let start ← idx.get depth
  strncmp2 (fun i => m (nodeName + BitVec.ofNat 64 i)) (path.drop start)
    (BitVec.ofNat 32 (m.strlen nodeName))

/-- One token of `fdt_path_offset`. -/
def pathOffsetRound (m : Mem) (fdt : BitVec 64) (path : List Byte) (idx : PathIdx) (s : Cursor) :
    Round Cursor (Except Fault (BitVec 32)) :=
  let token := fdt + s.curOff.setWidth 64
  if bswap32 (load32 m token) = fdtBeginNode then
    if s.curDepth < intMax then
      let curDepth := s.curDepth + 1
      let nodeName := token + 4
      let len := m.strlen nodeName
      let curOff := nextToken fdt (nodeName + BitVec.ofNat 64 len + 1)
      -- check in correspond depth dir/dev
      if curDepth = s.matchingDepth then
        match componentAccepts m nodeName path idx s.matchingDepth with
        | .error fault => .stop (.error fault)
        | .ok same =>
            -- check the same dir/dev name
            if same then
              if s.matchingDepth + 1 = idx.depth then .stop (.ok s.curOff)
              else .next ⟨curOff, curDepth, s.matchingDepth + 1⟩
            else .next ⟨curOff, curDepth, s.matchingDepth⟩
      else .next ⟨curOff, curDepth, s.matchingDepth⟩
    else .stop (.error .counterOverflow)
  else if bswap32 (load32 m token) = fdtEndNode then
    let curDepth := s.curDepth - 1
    -- device not found
    if curDepth + 1 < s.matchingDepth then .stop (.ok (-1))
    else .next { s with curOff := s.curOff + 4, curDepth }
  else if bswap32 (load32 m token) = fdtProp then
    let valueLen := bswap32 (load32 m (token + 4))
    .next { s with curOff := nextToken fdt (token + 0xc + valueLen.setWidth 64) }
  else if bswap32 (load32 m token) = fdtNop then .next { s with curOff := s.curOff + 4 }
  else .stop (.ok (-1))

/-- `fdt_path_offset`, for at most `fuel` tokens. -/
def fdtPathOffset (fuel : Nat) (m : Mem) (fdt : BitVec 64) (path : List Byte) :
    Option (Except Fault (BitVec 32)) :=
  match scanPath 0 path .init with
  | .error fault => some (.error fault)
  | .ok idx => iterate (pathOffsetRound m fdt path idx) fuel ⟨offDtStruct m fdt, -2, 0⟩

/-- `fdt_path_offset` returns `result`. -/
def PathOffset (m : Mem) (fdt : BitVec 64) (path : List Byte) (result : Except Fault (BitVec 32)) :
    Prop :=
  ∃ fuel, fdtPathOffset fuel m fdt path = some result

/-! ## Names -/

/-- What `strncmp2` answers for the whole name of a node, if it comes to the `@` or to the end of
the path. -/
def accepts (name suffix : List Byte) : Bool :=
  strncmp2Loop (suffix.contains atSign) (fun i => name.getD i 0) suffix
    (BitVec.ofNat 32 name.length).toInt.toNat 0

/-- There is an `@`, or the end, within `INT_MAX` characters. -/
def AtCounted (path : List Byte) : Prop := (path.takeWhile (· ≠ atSign)).length ≤ intMax

instance (path : List Byte) : Decidable (AtCounted path) := inferInstanceAs (Decidable (_ ≤ _))

section Names

variable {nodeName other : Nat → Byte} {path : List Byte} {flag : Bool} {n i : Nat}
variable {len : BitVec 32}

/-- The first loop ends within the characters that an `int` counts, or not at all. -/
theorem haveAtLoop_eq (counted : i ≤ intMax) : haveAtLoop i path =
    if i + (path.takeWhile (· ≠ atSign)).length ≤ intMax then .ok (path.contains atSign)
    else .error .counterOverflow := by
  induction path generalizing i with
  | nil => simp [haveAtLoop, counted]
  | cons c path ih =>
      rw [haveAtLoop]
      by_cases isAt : c = atSign
      · simp [isAt, counted]
      · rw [if_neg isAt, List.takeWhile_cons_of_pos (by simpa using isAt), List.length_cons]
        by_cases room : i < intMax
        · rw [if_pos room, ih room, Nat.add_assoc i 1, Nat.add_comm 1]
          simp [Ne.symm isAt]
        · rw [if_neg room, if_neg (by omega)]

/-- `strncmp2` answers if its first loop ends. -/
theorem strncmp2_eq : strncmp2 nodeName path len =
    if AtCounted path then
      .ok (strncmp2Loop (path.contains atSign) nodeName path len.toInt.toNat 0)
    else .error .counterOverflow := by
  have search : haveAtLoop 0 path =
      if AtCounted path then .ok (path.contains atSign) else .error .counterOverflow := by
    rw [haveAtLoop_eq (Nat.zero_le _), Nat.zero_add]
    rfl
  rw [strncmp2, search]
  by_cases counted : AtCounted path
  · rw [if_pos counted, if_pos counted]
    rfl
  · rw [if_neg counted, if_neg counted]
    rfl

/-- What is left of a path that is counted. -/
theorem atCounted_drop (short : path.length ≤ intMax) (start : Nat) :
    AtCounted (path.drop start) :=
  ((List.takeWhile_sublist _).length_le.trans (List.drop_sublist start path).length_le).trans short

/-- Only the first `len` characters of the name are read. -/
theorem strncmp2Loop_congr (agree : ∀ j, i ≤ j → j < i + n → other j = nodeName j) :
    strncmp2Loop flag other path n i = strncmp2Loop flag nodeName path n i := by
  induction n generalizing i with
  | zero => rfl
  | succ n ih =>
      rw [strncmp2Loop, strncmp2Loop, agree i (Nat.le_refl _) (by omega),
        ih fun j above below => agree j (by omega) (by omega)]

theorem toInt_ofNat (small : n < 2 ^ 31) : (BitVec.ofNat 32 n).toInt.toNat = n := by
  rw [BitVec.toInt_eq_toNat_of_lt, BitVec.toNat_ofNat]
  · omega
  · rw [BitVec.toNat_ofNat]
    omega

/-- The length that is passed to `strncmp2` is at most that of the name. -/
theorem toInt_ofNat_le (n : Nat) : (BitVec.ofNat 32 n).toInt.toNat ≤ n := by
  rw [BitVec.toInt_eq_toNat_cond, BitVec.toNat_ofNat]
  have reduced := Nat.mod_le n (2 ^ 32)
  split
  · omega
  · omega

/-- The name of a node in memory is compared as its characters. -/
theorem strncmp2_stored {m : Mem} {a : BitVec 64} {name suffix : List Byte}
    (string : m.CString a name) (counted : AtCounted suffix) :
    strncmp2 (fun i => m (a + BitVec.ofNat 64 i)) suffix (BitVec.ofNat 32 name.length) =
      .ok (accepts name suffix) := by
  have atMost := toInt_ofNat_le name.length
  rw [strncmp2_eq, if_pos counted, accepts]
  congr 1
  apply strncmp2Loop_congr
  intro j _ inside
  have stored := string.2.left.byte (i := j) (by omega)
  rw [stored, List.getD_eq_getElem?_getD, List.getElem?_eq_getElem, Option.getD_some]

end Names

/-! ## One token -/

section Tokens

variable {m : Mem} {fdt : BitVec 64} {path : List Byte} {idx : PathIdx} {off matched : Nat}
variable {depth : Int} {name value more : List Byte} {nameoff : BitVec 32}

/-- Every level has taken the bytes of a token, so the depth does not overflow in a blob. -/
theorem depth_lt_intMax (placed : Placed m fdt off (beginToken name ++ more))
    (levels : 4 * (depth + 2) ≤ off) : depth < intMax := by
  have small := placed.small
  rw [intMax]
  omega

/-- The next token is behind the padding. -/
theorem nextToken_eq (base : fdt.toNat % 4 = 0) (aligned : off % 4 = 0) {n : Nat}
    (fits : fdt.toNat + off + roundUp 2 n < 2 ^ 64) :
    nextToken fdt (fdt + BitVec.ofNat 64 off + BitVec.ofNat 64 n) =
      BitVec.ofNat 32 (off + roundUp 2 n) := by
  have above := le_roundUp 2 n
  have whole := dvd_roundUp 2 n
  have start : (fdt + BitVec.ofNat 64 off).toNat = fdt.toNat + off := toNat_pointer (by omega)
  have pointer : (fdt + BitVec.ofNat 64 off + BitVec.ofNat 64 n).toNat = fdt.toNat + off + n := by
    rw [toNat_pointer (by omega), start]
  have rounded := @toNat_align_four (fdt + BitVec.ofNat 64 off + BitVec.ofNat 64 n) (by omega)
  rw [pointer, roundUp_add (by omega)] at rounded
  apply BitVec.eq_of_toNat_eq
  rw [nextToken, alignUp, BitVec.toNat_setWidth, BitVec.toNat_sub, rounded, BitVec.toNat_ofNat]
  omega

theorem round_nop (placed : Placed m fdt off (word fdtNop ++ more)) :
    pathOffsetRound m fdt path idx ⟨BitVec.ofNat 32 off, depth, matched⟩ =
      .next ⟨BitVec.ofNat 32 (off + 4), depth, matched⟩ := by
  rw [pathOffsetRound]
  dsimp only
  rw [placed.token, if_neg (by decide), if_neg (by decide), if_neg (by decide), if_pos rfl,
    BitVec.ofNat_add]
  rfl

theorem round_end (placed : Placed m fdt off (word fdtEndNode ++ more)) :
    pathOffsetRound m fdt path idx ⟨BitVec.ofNat 32 off, depth, matched⟩ =
      if depth < matched then .stop (.ok (-1))
      else .next ⟨BitVec.ofNat 32 (off + 4), depth - 1, matched⟩ := by
  rw [pathOffsetRound]
  dsimp only
  rw [placed.token, if_neg (by decide), if_pos rfl, Int.sub_add_cancel, BitVec.ofNat_add]
  rfl

/-- What is read at `FDT_PROP`. -/
structure PropAt (m : Mem) (fdt : BitVec 64) (off : Nat) (nameoff : BitVec 32)
    (value : List Byte) : Prop where
  token : bswap32 (load32 m (fdt + BitVec.ofNat 64 off)) = fdtProp
  length : bswap32 (load32 m (fdt + BitVec.ofNat 64 off + 4)) = BitVec.ofNat 32 value.length
  nameOff : bswap32 (load32 m (fdt + BitVec.ofNat 64 off + 8)) = nameoff
  stored : m.Stored (fdt + BitVec.ofNat 64 off + 0xc) value
  next : nextToken fdt
      (fdt + BitVec.ofNat 64 off + 0xc + (BitVec.ofNat 32 value.length).setWidth 64) =
    BitVec.ofNat 32 (off + propSize value)

theorem Placed.propAt (placed : Placed m fdt off (propToken nameoff value ++ more)) :
    off < 2 ^ 32 ∧ PropAt m fdt off nameoff value := by
  have bytes := placed.small
  have fits := placed.fits
  have above := le_roundUp 2 value.length
  rw [List.length_append, propToken_length, propSize] at bytes fits
  have layout : propToken nameoff value ++ more =
      word fdtProp ++ (word (BitVec.ofNat 32 value.length) ++ (word nameoff ++
        (value ++ (padding value.length ++ more)))) := by
    simp only [propToken, List.append_assoc]
  rw [layout] at placed
  have atLength := placed.stored.right
  have atNameoff := atLength.right
  have atValue := atNameoff.right
  rw [add_ofNat_add] at atNameoff atValue
  rw [add_ofNat_add] at atValue
  have start : fdt + BitVec.ofNat 64 off + 0xc = fdt + BitVec.ofNat 64 (off + 12) := by
    rw [BitVec.ofNat_add, BitVec.add_assoc]
    rfl
  have aligned := placed.aligned
  refine ⟨by omega, ?_⟩
  constructor
  · exact bswap32_load32 placed.stored.left
  · exact bswap32_load32 atLength.left
  · exact bswap32_load32 atNameoff.left
  · exact atValue.left
  · rw [start, pointer_eq (by omega), nextToken_eq placed.base (by omega) (by omega), propSize,
      Nat.add_assoc]

theorem round_prop (placed : Placed m fdt off (propToken nameoff value ++ more)) :
    pathOffsetRound m fdt path idx ⟨BitVec.ofNat 32 off, depth, matched⟩ =
      .next ⟨BitVec.ofNat 32 (off + propSize value), depth, matched⟩ := by
  obtain ⟨small, prop⟩ := placed.propAt
  rw [pathOffsetRound]
  dsimp only
  rw [pointer_eq small, prop.token, if_neg (by decide), if_neg (by decide), if_pos rfl,
    prop.length, prop.next]

theorem beginToken_append (name more : List Byte) :
    beginToken name ++ more = word fdtBeginNode ++ ((name ++ [0]) ++
      (padding (name.length + 1) ++ more)) := by
  simp only [beginToken, List.append_assoc]

/-- The name behind `FDT_BEGIN_NODE`. -/
theorem Placed.cstring (placed : Placed m fdt off (beginToken name ++ more)) (noNul : 0 ∉ name) :
    m.CString (fdt + BitVec.ofNat 64 off + 4) name := by
  have stored := placed.stored
  rw [beginToken_append] at stored
  exact ⟨noNul, stored.right.left⟩

/-- The token behind the name. -/
theorem Placed.behindName (placed : Placed m fdt off (beginToken name ++ more)) :
    nextToken fdt (fdt + BitVec.ofNat 64 off + 4 + BitVec.ofNat 64 name.length + 1) =
      BitVec.ofNat 32 (off + beginSize name) := by
  have fits := placed.fits
  have aligned := placed.aligned
  rw [List.length_append, beginToken_length, beginSize] at fits
  have start : fdt + BitVec.ofNat 64 off + 4 = fdt + BitVec.ofNat 64 (off + 4) := by
    rw [BitVec.ofNat_add, BitVec.add_assoc]
    rfl
  have nul : BitVec.ofNat 64 name.length + 1 = BitVec.ofNat 64 (name.length + 1) := by
    rw [BitVec.ofNat_add]
    rfl
  rw [start, BitVec.add_assoc _ _ 1, nul, nextToken_eq placed.base (by omega) (by omega),
    beginSize, Nat.add_assoc]

theorem Placed.begins (placed : Placed m fdt off (beginToken name ++ more)) :
    bswap32 (load32 m (fdt + (BitVec.ofNat 32 off).setWidth 64)) = fdtBeginNode := by
  rw [beginToken_append] at placed
  exact placed.token

/-- The length of a name that is in the blob. -/
theorem Placed.name_lt (placed : Placed m fdt off (beginToken name ++ more)) :
    off < 2 ^ 32 ∧ name.length < 2 ^ 32 := by
  have bytes := placed.small
  have short := lt_beginSize name
  rw [List.length_append, beginToken_length] at bytes
  omega

/-- A node at another depth than that of the next component. -/
theorem round_begin_other (placed : Placed m fdt off (beginToken name ++ more)) (noNul : 0 ∉ name)
    (levels : 4 * (depth + 2) ≤ off) (other : depth + 1 ≠ matched) :
    pathOffsetRound m fdt path idx ⟨BitVec.ofNat 32 off, depth, matched⟩ =
      .next ⟨BitVec.ofNat 32 (off + beginSize name), depth + 1, matched⟩ := by
  obtain ⟨small, nameSmall⟩ := placed.name_lt
  have length : m.strlen (fdt + BitVec.ofNat 64 off + 4) = name.length :=
    (placed.cstring noNul).strlen (by omega)
  rw [pathOffsetRound]
  dsimp only
  rw [placed.begins, if_pos rfl, if_pos (depth_lt_intMax placed levels), pointer_eq small, length,
    placed.behindName, if_neg other]

/-- A node that is compared with the next component. -/
theorem round_begin_compared (placed : Placed m fdt off (beginToken name ++ more))
    (noNul : 0 ∉ name) (levels : 4 * (depth + 2) ≤ off) (same : depth + 1 = matched)
    {start : Nat} (component : idx.get matched = .ok start)
    (counted : AtCounted (path.drop start)) :
    pathOffsetRound m fdt path idx ⟨BitVec.ofNat 32 off, depth, matched⟩ =
      if accepts name (path.drop start) then
        if matched + 1 = idx.depth then .stop (.ok (BitVec.ofNat 32 off))
        else .next ⟨BitVec.ofNat 32 (off + beginSize name), depth + 1, matched + 1⟩
      else .next ⟨BitVec.ofNat 32 (off + beginSize name), depth + 1, matched⟩ := by
  obtain ⟨small, nameSmall⟩ := placed.name_lt
  have string := placed.cstring noNul
  have length : m.strlen (fdt + BitVec.ofNat 64 off + 4) = name.length :=
    string.strlen (by omega)
  have compared : componentAccepts m (fdt + BitVec.ofNat 64 off + 4) path idx matched =
      .ok (accepts name (path.drop start)) := by
    rw [componentAccepts, component, length]
    exact strncmp2_stored string counted
  rw [pathOffsetRound]
  dsimp only
  rw [placed.begins, if_pos rfl, if_pos (depth_lt_intMax placed levels), pointer_eq small, length,
    placed.behindName, if_pos same, compared]

end Tokens

end OscKernel.Fdt
