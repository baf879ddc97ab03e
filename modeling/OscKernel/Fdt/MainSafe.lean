import OscKernel.Fdt.Main

/-!
# When the main program is safe (`ex21/main.c`)

On a blob `main` stays inside the buffer and prints the properties, or fails, exactly if the
property that it checks is not there or the two that it does not check are, with the doublewords
that it prints.
-/

namespace OscKernel.Fdt

open Alloc Riscv Loops Words

/-! ## What is printed -/

/-- A big-endian doubleword. -/
def dword (bytes : List Byte) (i : Nat) : BitVec 64 :=
  bytes.getD i 0 ++ bytes.getD (i + 1) 0 ++ bytes.getD (i + 2) 0 ++ bytes.getD (i + 3) 0 ++
    bytes.getD (i + 4) 0 ++ bytes.getD (i + 5) 0 ++ bytes.getD (i + 6) 0 ++ bytes.getD (i + 7) 0

section Printed

variable {m : Mem} {a : BitVec 64} {value : List Byte} {i : Nat}

/-- A doubleword of a stored value is printed. -/
theorem bswap64_load64 (stored : m.Stored a value) (inside : i + 8 ≤ value.length) :
    bswap64 (load64 m (a + BitVec.ofNat 64 i)) = dword value i := by
  have byte : ∀ k < 8, m (a + BitVec.ofNat 64 i + BitVec.ofNat 64 k) = value.getD (i + k) 0 := by
    intro k small
    rw [add_ofNat_add, stored.byte (by omega), List.getD_eq_getElem?_getD,
      List.getElem?_eq_getElem, Option.getD_some]
  have first : m (a + BitVec.ofNat 64 i) = value.getD i 0 := by
    rw [← Nat.add_zero i, ← byte 0 (by decide), Nat.add_zero, BitVec.add_zero]
  have second : m (a + BitVec.ofNat 64 i + 1) = value.getD (i + 1) 0 := byte 1 (by decide)
  have third : m (a + BitVec.ofNat 64 i + 2) = value.getD (i + 2) 0 := byte 2 (by decide)
  have fourth : m (a + BitVec.ofNat 64 i + 3) = value.getD (i + 3) 0 := byte 3 (by decide)
  have fifth : m (a + BitVec.ofNat 64 i + 4) = value.getD (i + 4) 0 := byte 4 (by decide)
  have sixth : m (a + BitVec.ofNat 64 i + 5) = value.getD (i + 5) 0 := byte 5 (by decide)
  have seventh : m (a + BitVec.ofNat 64 i + 6) = value.getD (i + 6) 0 := byte 6 (by decide)
  have eighth : m (a + BitVec.ofNat 64 i + 7) = value.getD (i + 7) 0 := byte 7 (by decide)
  rw [load64, bswap64_append, dword, first, second, third, fourth, fifth, sixth, seventh, eighth]

/-- The text of a value with a NUL behind it. -/
theorem cstring_value (stored : m.Stored a (value ++ [0])) :
    m.CString a (value.takeWhile (· ≠ 0)) := by
  have string := stored.cstring (List.mem_append_right value List.mem_cons_self)
  rw [List.takeWhile_append] at string
  split at string
  · rename_i whole
    have all : value.takeWhile (· ≠ 0) = value :=
      (List.takeWhile_prefix _).eq_of_length whole
    rw [all]
    simpa using string
  · exact string

theorem length_takeWhile_le (value : List Byte) :
    (value.takeWhile (· ≠ 0)).length ≤ value.length :=
  (List.takeWhile_prefix _).length_le

theorem printedText_value (stored : m.Stored a (value ++ [0])) (small : value.length < 2 ^ 32) :
    printedText m a (BitVec.ofNat 32 value.length) = value.takeWhile (· ≠ 0) := by
  have string := cstring_value stored
  have short := length_takeWhile_le value
  have length : m.strlen a = (value.takeWhile (· ≠ 0)).length := string.strlen (by omega)
  have all : printedLength m a (BitVec.ofNat 32 value.length) =
      (value.takeWhile (· ≠ 0)).length := by
    rw [printedLength, length, BitVec.toNat_ofNat, Nat.mod_eq_of_lt small]
    split
    · rfl
    · exact Nat.min_eq_right short
  apply List.ext_getElem
  · rw [printedText, List.length_map, List.length_range, all]
  · intro i inside inside'
    have stored := string.2.left.byte inside'
    simpa [printedText] using stored

theorem printedRead_value (stored : m.Stored a (value ++ [0])) (small : value.length < 2 ^ 32) :
    printedRead m a (BitVec.ofNat 32 value.length) ⊆ bytesAt a (value.length + 1) := by
  have string := cstring_value stored
  have short := length_takeWhile_le value
  have length : m.strlen a = (value.takeWhile (· ≠ 0)).length := string.strlen (by omega)
  apply bytesAt_mono
  rw [length]
  split
  · omega
  · omega

end Printed

/-! ## Safety -/

/-- The output is a message, or has the first string of `compatible` and the first doublewords of
`reg` and `linux,initrd-start`. -/
def Reports (tree : Tree) (strings : List Byte) (off : Nat) : Output → Prop
  | .failed _ => True
  | .printed compatible base size initrdStart =>
      (∃ p, tree.lookup strings off controllerPath (ascii "compatible") = some p ∧
        compatible = p.value.takeWhile (· ≠ 0)) ∧
      (∃ p, tree.lookup strings off (ascii "/memory") (ascii "reg") = some p ∧
        16 ≤ p.value.length ∧ base = dword p.value 0 ∧ size = dword p.value 8) ∧
      ∃ p, tree.lookup strings off (ascii "/chosen") (ascii "linux,initrd-start") = some p ∧
        8 ≤ p.value.length ∧ initrdStart = dword p.value 0

/-- `main` reads the buffer only, and fails or prints the properties. -/
structure MainSafe (m : Mem) (buffer : Buffer) (tree : Tree) (strings : List Byte) : Prop where
  inside : mainRead m buffer.base ⊆ buffer.inside
  output : ∃ output, Main m buffer.base output ∧
    Reports tree strings (offDtStruct m buffer.base).toNat output

namespace Tree

variable (tree : Tree) (strings : List Byte) (off : Nat)

/-- The property that is checked is there, and the offset of its node is an `int`. -/
def Checked : Prop := ∃ node p, tree.find off controllerPath = some node ∧
  node.offset < 2 ^ 31 ∧ node.find strings (ascii "compatible") = some p

/-- The properties that are not checked are there, with the doublewords that are printed. -/
structure Printable : Prop where
  reg : ∃ p, tree.lookup strings off (ascii "/memory") (ascii "reg") = some p ∧
    16 ≤ p.value.length
  initrdStart : ∃ p,
    tree.lookup strings off (ascii "/chosen") (ascii "linux,initrd-start") = some p ∧
    8 ≤ p.value.length

end Tree

section Safety

variable {m : Mem} {buffer : Buffer} {tree : Tree} {strings path name : List Byte}

/-- The value of a property that is looked up is inside the buffer. -/
theorem LoadedBlob.lookup_inside {p : Property} (loaded : LoadedBlob m buffer tree strings)
    (found : tree.lookup strings (offDtStruct m buffer.base).toNat path name = some p) :
    p.offset + 12 + p.value.length + 1 ≤ buffer.size ∧
      m.Stored (buffer.base + BitVec.ofNat 64 (p.offset + 12)) (p.value ++ [0]) := by
  rw [Tree.lookup, Option.bind_eq_some_iff] at found
  obtain ⟨node, isFound, first⟩ := found
  exact loaded.value_inside (Tree.find_eq_some isFound).1 first

/-- The calls for a property that is there. -/
theorem LoadedBlob.lookup_calls {p : Property} (loaded : LoadedBlob m buffer tree strings)
    (counted : path.length ≤ intMax) (slashes : 1 ≤ path.count slash ∧ path.count slash ≤ 10)
    (noNul : 0 ∉ name)
    (found : tree.lookup strings (offDtStruct m buffer.base).toNat path name = some p) :
    ∃ offset, PathOffset m buffer.base path (.ok offset) ∧
      GetProp m buffer.base offset name (some (p.found buffer.base)) := by
  rw [Tree.lookup, Option.bind_eq_some_iff] at found
  obtain ⟨node, isFound, first⟩ := found
  refine ⟨BitVec.ofNat 32 node.offset, ?_, ?_⟩
  · rw [loaded.pathOffset_iff counted slashes, isFound]
    rfl
  · rw [loaded.getProp_iff (Tree.find_eq_some isFound).1 noNul, first]
    rfl

/-- The null pointer is read outside. -/
theorem null_outside (buffer : Buffer) {n : Nat} (positive : 0 < n) :
    ¬ bytesAt (pointer none) n ⊆ buffer.inside := by
  intro inside
  exact buffer.zero_notMem (inside (self_mem_bytesAt positive))

/-- The lookups that are not checked stay inside for properties that are there. -/
theorem LoadedBlob.chosenRead_subset_iff (loaded : LoadedBlob m buffer tree strings) :
    chosenRead m buffer.base ⊆ buffer.inside ↔ ∃ p,
      tree.lookup strings (offDtStruct m buffer.base).toNat (ascii "/chosen")
        (ascii "linux,initrd-start") = some p ∧ p.offset + 12 + 8 ≤ buffer.size := by
  rw [chosenRead, loaded.lookupRead_subset_iff (by decide) (by decide) (by decide)
    (null_outside buffer (by decide))]
  apply exists_congr
  intro p
  apply and_congr_right
  intro found
  have inside := (loaded.lookup_inside found).1
  have size := loaded.size_lt
  rw [Property.found, pointer, buffer.bytesAt_subset_iff (by omega)]
  omega

theorem LoadedBlob.memoryRead_subset_iff (loaded : LoadedBlob m buffer tree strings) :
    memoryRead m buffer.base ⊆ buffer.inside ↔
      (∃ p, tree.lookup strings (offDtStruct m buffer.base).toNat (ascii "/memory")
        (ascii "reg") = some p ∧ p.offset + 12 + 16 ≤ buffer.size) ∧
      chosenRead m buffer.base ⊆ buffer.inside := by
  have null : ¬ (bytesAt (pointer none) 16 ∪ chosenRead m buffer.base ⊆ buffer.inside) := by
    intro inside
    exact null_outside buffer (by decide) (Set.subset_union_left.trans inside)
  rw [memoryRead, loaded.lookupRead_subset_iff (by decide) (by decide) (by decide) null,
    ← exists_and_right]
  apply exists_congr
  intro p
  rw [and_assoc]
  apply and_congr_right
  intro found
  have inside := (loaded.lookup_inside found).1
  have size := loaded.size_lt
  rw [Set.union_subset_iff, Property.found, pointer, buffer.bytesAt_subset_iff (by omega)]
  apply and_congr_left
  intro _
  omega

/-- The offset of a node as an `int`. -/
theorem LoadedBlob.toInt_offset {node : Node} (loaded : LoadedBlob m buffer tree strings)
    (isNode : node ∈ tree.nodes (offDtStruct m buffer.base).toNat) :
    (BitVec.ofNat 32 node.offset).toInt < 0 ↔ ¬ node.offset < 2 ^ 31 := by
  have inside := loaded.node_inside isNode
  have size := loaded.size_lt
  rw [BitVec.toInt_eq_toNat_cond, BitVec.toNat_ofNat, Nat.mod_eq_of_lt (by omega)]
  split
  · omega
  · omega

/-- The calls for the property that is checked. -/
theorem LoadedBlob.checked_calls (loaded : LoadedBlob m buffer tree strings)
    (checked : tree.Checked strings (offDtStruct m buffer.base).toNat) :
    ∃ offset p, PathOffset m buffer.base controllerPath (.ok offset) ∧ ¬ offset.toInt < 0 ∧
      getpropRead m buffer.base offset (ascii "compatible") ⊆ buffer.inside ∧
      GetProp m buffer.base offset (ascii "compatible") (some (p.found buffer.base)) ∧
      tree.lookup strings (offDtStruct m buffer.base).toNat controllerPath (ascii "compatible") =
        some p := by
  obtain ⟨node, p, found, small, first⟩ := checked
  have isNode := (Tree.find_eq_some found).1
  refine ⟨BitVec.ofNat 32 node.offset, p, ?_, ?_, ?_, ?_, ?_⟩
  · rw [loaded.pathOffset_iff (by decide) (by decide), found]
    rfl
  · rw [loaded.toInt_offset isNode, not_not]
    exact small
  · exact loaded.getprop_found (by decide) (by decide) found (by decide)
  · rw [loaded.getProp_iff isNode (by decide), first]
    rfl
  · rw [Tree.lookup, found, Option.bind_some, first]

/-- A negative offset ends the program. -/
theorem LoadedBlob.negative_fails {offset : BitVec 32}
    (loaded : LoadedBlob m buffer tree strings)
    (node : PathOffset m buffer.base controllerPath (.ok offset)) (negative : offset.toInt < 0) :
    mainRead m buffer.base ⊆ buffer.inside ∧ ∃ message, Runs m buffer.base (.failed message) := by
  refine ⟨?_, _, .noNode node negative⟩
  rintro x (inWalk | ⟨other, otherNode, nonnegative, -⟩)
  · exact loaded.pathOffset_inside controllerPath inWalk
  · cases node.unique otherNode
    exact absurd negative nonnegative

/-- So does a node without the property. -/
theorem LoadedBlob.no_property_fails {offset : BitVec 32}
    (loaded : LoadedBlob m buffer tree strings)
    (node : PathOffset m buffer.base controllerPath (.ok offset)) (nonnegative : ¬ offset.toInt < 0)
    (inside : getpropRead m buffer.base offset (ascii "compatible") ⊆ buffer.inside)
    (property : GetProp m buffer.base offset (ascii "compatible") none) :
    mainRead m buffer.base ⊆ buffer.inside ∧ ∃ message, Runs m buffer.base (.failed message) := by
  refine ⟨?_, _, .noProperty node nonnegative property⟩
  rintro x (inWalk | ⟨other, otherNode, -, inNode | ⟨prop, len, gets, -⟩⟩)
  · exact loaded.pathOffset_inside controllerPath inWalk
  · cases node.unique otherNode
    exact inside inNode
  · cases node.unique otherNode
    cases property.unique gets

/-- Without the property that is checked `main` fails inside the buffer. -/
theorem LoadedBlob.not_checked_fails (loaded : LoadedBlob m buffer tree strings)
    (notChecked : ¬ tree.Checked strings (offDtStruct m buffer.base).toNat) :
    mainRead m buffer.base ⊆ buffer.inside ∧ ∃ message, Runs m buffer.base (.failed message) := by
  have returns := @LoadedBlob.pathOffset_iff _ _ _ _ controllerPath loaded (by decide) (by decide)
  cases found : tree.find (offDtStruct m buffer.base).toNat controllerPath with
  | none =>
      rw [found] at returns
      exact loaded.negative_fails ((returns _).mpr rfl) (by decide)
  | some node =>
      rw [found] at returns
      have isNode := (Tree.find_eq_some found).1
      have here := (returns _).mpr rfl
      have sign := loaded.toInt_offset isNode
      by_cases small : node.offset < 2 ^ 31
      · have noNul : 0 ∉ ascii "compatible" := by decide
        have property := (loaded.getProp_iff isNode noNul _).mpr rfl
        cases first : node.find strings (ascii "compatible") with
        | none =>
            rw [first] at property
            exact loaded.no_property_fails here (fun negative => sign.mp negative small)
              (loaded.getprop_found (by decide) (by decide) found noNul) property
        | some p => exact absurd ⟨node, p, found, small, first⟩ notChecked
      · exact loaded.negative_fails here (sign.mpr small)

/-- `main` stays inside the buffer of a blob exactly if it fails at the property that is checked or
the lookups that are not checked do. -/
theorem LoadedBlob.mainRead_subset_iff (loaded : LoadedBlob m buffer tree strings) :
    mainRead m buffer.base ⊆ buffer.inside ↔
      (tree.Checked strings (offDtStruct m buffer.base).toNat →
        memoryRead m buffer.base ⊆ buffer.inside) := by
  constructor
  · intro inside checked x member
    obtain ⟨offset, p, node, nonnegative, -, property, -⟩ := loaded.checked_calls checked
    exact inside (.inr ⟨offset, node, nonnegative, .inr ⟨_, _, property, .inr member⟩⟩)
  · intro memory
    by_cases checked : tree.Checked strings (offDtStruct m buffer.base).toNat
    · obtain ⟨offset, p, node, -, nodeInside, property, found⟩ := loaded.checked_calls checked
      obtain ⟨short, stored⟩ := loaded.lookup_inside found
      have size := loaded.size_lt
      rintro x (inWalk | ⟨other, otherNode, -, inNode | ⟨prop, len, gets, inText | later⟩⟩)
      · exact loaded.pathOffset_inside controllerPath inWalk
      · cases node.unique otherNode
        exact nodeInside inNode
      · cases node.unique otherNode
        cases property.unique gets
        have value : bytesAt (buffer.base + BitVec.ofNat 64 (p.offset + 12)) (p.value.length + 1) ⊆
            buffer.inside := (buffer.bytesAt_subset_iff (by omega)).mpr (.inr (by omega))
        exact value (printedRead_value stored (by omega) inText)
      · exact memory checked later
    · exact (loaded.not_checked_fails checked).1

/-- With the property that is checked a run comes to its end. -/
theorem LoadedBlob.runs_checked (loaded : LoadedBlob m buffer tree strings)
    (checked : tree.Checked strings (offDtStruct m buffer.base).toNat) {output : Output}
    (runs : Runs m buffer.base output) :
    ∃ compatible base size initrdStart, output = .printed compatible base size initrdStart := by
  obtain ⟨offset, p, node, nonnegative, -, property, -⟩ := loaded.checked_calls checked
  cases runs with
  | noNode other negative =>
      cases node.unique other
      exact absurd negative nonnegative
  | noProperty other _ none =>
      cases node.unique other
      cases property.unique none
  | printed => exact ⟨_, _, _, _, rfl⟩

/-- The properties are printed if they are there. -/
theorem LoadedBlob.runs_printable (loaded : LoadedBlob m buffer tree strings)
    (checked : tree.Checked strings (offDtStruct m buffer.base).toNat)
    (printable : tree.Printable strings (offDtStruct m buffer.base).toNat) :
    ∃ output, Runs m buffer.base output ∧
      Reports tree strings (offDtStruct m buffer.base).toNat output := by
  have size := loaded.size_lt
  obtain ⟨offset, p, node, nonnegative, -, property, found⟩ := loaded.checked_calls checked
  obtain ⟨reg, regFound, regLong⟩ := printable.reg
  obtain ⟨initrd, initrdFound, initrdLong⟩ := printable.initrdStart
  obtain ⟨memory, memoryNode, memoryReg⟩ :=
    loaded.lookup_calls (by decide) (by decide) (by decide) regFound
  obtain ⟨chosen, chosenNode, chosenInitrd⟩ :=
    loaded.lookup_calls (by decide) (by decide) (by decide) initrdFound
  obtain ⟨short, text⟩ := loaded.lookup_inside found
  obtain ⟨-, regStored⟩ := loaded.lookup_inside regFound
  obtain ⟨-, initrdStored⟩ := loaded.lookup_inside initrdFound
  have first : ∀ {a : BitVec 64} {value : List Byte}, m.Stored a (value ++ [0]) →
      8 ≤ value.length → bswap64 (load64 m a) = dword value 0 := by
    intro a value stored long
    have doubleword := bswap64_load64 stored.left (Nat.zero_add 8 ▸ long)
    rwa [BitVec.add_zero] at doubleword
  exact ⟨_, .printed node nonnegative property memoryNode memoryReg chosenNode chosenInitrd,
    ⟨p, found, printedText_value text (by omega)⟩,
    ⟨reg, regFound, regLong, first regStored (by omega), bswap64_load64 regStored.left regLong⟩,
    initrd, initrdFound, initrdLong, first initrdStored initrdLong⟩

end Safety

/-- On a blob `main` is safe exactly if the property that it checks is missing, or the two that it
does not check are there with the doublewords that it prints. -/
theorem main_safe_iff (m : Mem) (buffer : Buffer) (tree : Tree) (strings : List Byte)
    (loaded : LoadedBlob m buffer tree strings) :
    MainSafe m buffer tree strings ↔
      (tree.Checked strings (offDtStruct m buffer.base).toNat →
        tree.Printable strings (offDtStruct m buffer.base).toNat) := by
  constructor
  · rintro ⟨-, output, ends, reports⟩ checked
    obtain ⟨compatible, base, size, initrdStart, rfl⟩ :=
      loaded.runs_checked checked (main_iff_runs.mp ends)
    obtain ⟨-, ⟨reg, regFound, regLong, -, -⟩, initrd, initrdFound, initrdLong, -⟩ := reports
    exact ⟨⟨reg, regFound, regLong⟩, initrd, initrdFound, initrdLong⟩
  · intro printable
    by_cases checked : tree.Checked strings (offDtStruct m buffer.base).toNat
    · obtain ⟨reg, regFound, regLong⟩ := (printable checked).reg
      obtain ⟨initrd, initrdFound, initrdLong⟩ := (printable checked).initrdStart
      have regInside := (loaded.lookup_inside regFound).1
      have initrdInside := (loaded.lookup_inside initrdFound).1
      obtain ⟨output, runs, reports⟩ := loaded.runs_printable checked (printable checked)
      refine ⟨loaded.mainRead_subset_iff.mpr fun _ => ?_, output, main_iff_runs.mpr runs, reports⟩
      rw [loaded.memoryRead_subset_iff, loaded.chosenRead_subset_iff]
      exact ⟨⟨reg, regFound, by omega⟩, initrd, initrdFound, by omega⟩
    · obtain ⟨inside, message, runs⟩ := loaded.not_checked_fails checked
      exact ⟨inside, _, main_iff_runs.mpr runs, trivial⟩

/-! ## Two boards -/

/-- The blob of a tree in a buffer. -/
theorem loadedBlob_image {tree : Tree} {strings : List Byte} (named : tree.body.Named)
    (namesIn : tree.body.NamesIn strings) (short : (tree.blob strings).length ≤ 2 ^ 20) :
    LoadedBlob (Mem.image blobBase (tree.blob strings)) (loaded (tree.blob strings) short) tree
        strings ∧
      offDtStruct (Mem.image blobBase (tree.blob strings)) blobBase = 56 := by
  have length : (tree.blob strings).length = 56 + tree.encode.length + strings.length := by
    rw [Tree.blob, List.length_append, List.length_append]
    rfl
  obtain ⟨blob, struct, stringsStored⟩ := @blob_image tree strings named (by omega)
  have stored : (Mem.image blobBase (tree.blob strings)).Stored blobBase (tree.blob strings) :=
    Mem.stored_image _ (by omega)
  have size : (loaded (tree.blob strings) short).size = (tree.blob strings).length := rfl
  have base : (loaded (tree.blob strings) short).base = blobBase := rfl
  generalize Mem.image blobBase (tree.blob strings) = m at *
  rw [Tree.blob, List.append_assoc] at stored
  have total := bswap32_load32 stored.left.left.right
  have offset : offDtStrings m blobBase = BitVec.ofNat 32 (56 + tree.encode.length) :=
    bswap32_load32 stored.left.right.right.left
  have totalSize : (bswap32 (load32 m (blobBase + 4))).toNat = (tree.blob strings).length := by
    rw [show blobBase + 4 = blobBase + BitVec.ofNat 64 4 from rfl]
    rw [word_length] at total
    rw [total, BitVec.toNat_ofNat]
    omega
  refine ⟨⟨⟨blob.placed, named, stringsStored, namesIn⟩, ?_, ?_, ?_, ?_⟩, struct⟩
  · rw [base, size, totalSize]
  · omega
  · rw [base, size, struct, show (56 : BitVec 32).toNat = 56 from rfl]
    omega
  · rw [base, size, offset, BitVec.toNat_ofNat]
    omega

/-- The names of the properties. -/
def boardStrings : List Byte :=
  ascii "compatible" ++ [0] ++ (ascii "reg" ++ [0]) ++ (ascii "linux,initrd-start" ++ [0])

/-- A board with an interrupt controller and other nodes. -/
def board (others : Items) : Tree where
  before := 0
  body := .node (ascii "cpus")
    (.node (ascii "cpu@0")
      (.node (ascii "interrupt-controller") (.prop 0 (ascii "riscv,cpu-intc" ++ [0]) .nil) .nil)
      .nil)
    others
  after := 0

/-- A memory, and an initial ramdisk. -/
def boardMemory : Items :=
  .node (ascii "memory@80000000")
    (.prop 11 (word 0 ++ word 0x80000000 ++ (word 0 ++ word 0x8000000)) .nil)
    (.node (ascii "chosen") (.prop 15 (word 0 ++ word 0x88200000) .nil) .nil)

/-- The blob of a board in memory, and its buffer. -/
def boardMem (others : Items) : Mem := Mem.image blobBase ((board others).blob boardStrings)

def boardBuffer (others : Items) (short : ((board others).blob boardStrings).length ≤ 2 ^ 20) :
    Buffer :=
  loaded ((board others).blob boardStrings) short

theorem main_safe_board :
    MainSafe (boardMem boardMemory) (boardBuffer boardMemory (by decide +kernel))
      (board boardMemory) boardStrings := by
  obtain ⟨blob, struct⟩ := @loadedBlob_image (board boardMemory) boardStrings (by decide)
    (by decide) (by decide +kernel)
  have offset : (offDtStruct (boardMem boardMemory) blobBase).toNat = 56 :=
    congrArg BitVec.toNat struct
  apply (main_safe_iff _ _ _ _ blob).mpr
  intro _
  constructor
  · refine ⟨⟨176, 11, word 0 ++ word 0x80000000 ++ (word 0 ++ word 0x8000000)⟩, ?_, by decide⟩
    exact offset ▸ by decide +kernel
  · refine ⟨⟨220, 15, word 0 ++ word 0x88200000⟩, ?_, by decide⟩
    exact offset ▸ by decide +kernel

/-- Without a memory `main` reads outside the blob. -/
theorem missing_memory_overrun :
    LoadedBlob (boardMem .nil) (boardBuffer .nil (by decide +kernel)) (board .nil) boardStrings ∧
      ¬ mainRead (boardMem .nil) blobBase ⊆ (boardBuffer .nil (by decide +kernel)).inside ∧
      ¬ MainSafe (boardMem .nil) (boardBuffer .nil (by decide +kernel)) (board .nil)
        boardStrings := by
  obtain ⟨blob, struct⟩ := @loadedBlob_image (board .nil) boardStrings (by decide) (by decide)
    (by decide +kernel)
  have offset : (offDtStruct (boardMem .nil) blobBase).toNat = 56 := congrArg BitVec.toNat struct
  have checked : (board .nil).Checked boardStrings 56 :=
    ⟨⟨88, ascii "interrupt-controller", .prop 0 (ascii "riscv,cpu-intc" ++ [0]) .nil⟩,
      ⟨116, 0, ascii "riscv,cpu-intc" ++ [0]⟩, by decide +kernel, by decide, by decide +kernel⟩
  have missing : (board .nil).lookup boardStrings 56 (ascii "/memory") (ascii "reg") = none := by
    decide +kernel
  have overrun : ¬ mainRead (boardMem .nil) blobBase ⊆
      (boardBuffer .nil (by decide +kernel)).inside := by
    intro inside
    have memory := blob.mainRead_subset_iff.mp inside (offset ▸ checked)
    obtain ⟨⟨p, found, -⟩, -⟩ := blob.memoryRead_subset_iff.mp memory
    have none : some p = none := found.symm.trans (offset ▸ missing)
    cases none
  exact ⟨blob, overrun, fun safe => overrun safe.inside⟩

end OscKernel.Fdt
