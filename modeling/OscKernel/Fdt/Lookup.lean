import OscKernel.Fdt.OwnProperties
import OscKernel.Fdt.FullPath
import OscKernel.Fdt.Tokens

/-!
# Lookups that are not checked (`ex21/main.c`)

The -1 of `fdt_path_offset` is passed to `fdt_getprop` as an offset of 4 GiB less one byte, and the
`NULL` of `fdt_getprop` is a pointer like any other.  So a chain of the two calls stays inside the
buffer of a blob exactly if the property is found, and its value is used inside.
-/

namespace OscKernel.Fdt

open Alloc Riscv Loops Words

/-! ## Lookups in a tree -/

/-- The node that is found for a path. -/
def Tree.find (tree : Tree) (off : Nat) (path : List Byte) : Option Node :=
  (tree.search off (suffixes path)).bind fun offset =>
    (tree.nodes off).find? fun node => node.offset == offset

/-- The first property with the name before any other token of a node. -/
def Node.find (node : Node) (strings name : List Byte) : Option Property :=
  (node.body.leadingAt (node.offset + beginSize node.name)).find? (Property.hasName strings name)

/-- The property of the node that is found for a path. -/
def Tree.lookup (tree : Tree) (strings : List Byte) (off : Nat) (path name : List Byte) :
    Option Property :=
  (tree.find off path).bind fun node => node.find strings name

section Find

variable {items : Items} {tree : Tree} {off result : Nat} {suffix path : List Byte}
variable {later : List (List Byte)} {node : Node}

/-- The search finds a node. -/
theorem exists_node_of_search (found : items.search off suffix later = some result) :
    ∃ node ∈ items.nodes off, node.offset = result := by
  induction items generalizing off suffix later with
  | nil => cases found
  | nop rest ih => exact ih found
  | prop nameoff value rest ih => exact ih found
  | node name body rest ihBody ih =>
      rw [Items.nodes]
      by_cases accepted : accepts name suffix = true
      · cases later with
        | nil =>
            rw [Items.search_found accepted] at found
            cases found
            exact ⟨_, List.mem_cons_self, rfl⟩
        | cons next later =>
            rw [Items.search_enter accepted] at found
            obtain ⟨node, isNode, same⟩ := ihBody found
            exact ⟨node, .tail _ (List.mem_append_left _ isNode), same⟩
      · rw [Items.search_other accepted] at found
        obtain ⟨node, isNode, same⟩ := ih found
        exact ⟨node, .tail _ (List.mem_append_right _ isNode), same⟩

theorem Tree.exists_node_of_search {rests : List (List Byte)}
    (found : tree.search off rests = some result) :
    ∃ node ∈ tree.nodes off, node.offset = result := by
  cases rests with
  | nil => cases found
  | cons suffix later =>
      obtain ⟨node, isNode, same⟩ := Fdt.exists_node_of_search found
      refine ⟨node, ?_, same⟩
      rw [Tree.nodes, Tree.items, Items.nodes_nops, Items.nodes]
      rw [Tree.bodyOffset, ← Nat.add_assoc] at isNode
      exact .tail _ (List.mem_append_left _ isNode)

theorem Tree.find_eq_none : tree.find off path = none ↔ tree.search off (suffixes path) = none := by
  rw [Tree.find]
  cases found : tree.search off (suffixes path) with
  | none => simp
  | some result =>
      obtain ⟨node, isNode, same⟩ := Tree.exists_node_of_search found
      simp only [Option.bind_some, List.find?_eq_none, reduceCtorEq, iff_false]
      intro none
      exact none node isNode (by simp [same])

theorem Tree.find_eq_some (found : tree.find off path = some node) :
    node ∈ tree.nodes off ∧ tree.search off (suffixes path) = some node.offset := by
  rw [Tree.find, Option.bind_eq_some_iff] at found
  obtain ⟨offset, searched, first⟩ := found
  have same : node.offset = offset := by simpa using List.find?_some first
  rw [searched, same]
  exact ⟨List.mem_of_find?_eq_some first, rfl⟩

end Find

/-! ## Values -/

section Values

variable {m : Mem} {fdt : BitVec 64} {items : Items} {off : Nat} {more : List Byte} {p : Property}

/-- A value is followed by a NUL, of its padding or of the next token. -/
theorem zero_behind (items : Items) (n : Nat) (more : List Byte) :
    ∃ rest, padding n ++ (items.encode ++ (word fdtEndNode ++ more)) = [0] ++ rest := by
  rw [padding]
  cases roundUp 2 n - n with
  | zero =>
      cases items with
      | nil => exact ⟨_, rfl⟩
      | nop rest => exact ⟨_, rfl⟩
      | prop nameoff value rest => exact ⟨_, rfl⟩
      | node name body rest => exact ⟨_, rfl⟩
  | succ k =>
      rw [List.replicate_succ]
      exact ⟨_, rfl⟩

theorem leadingAt_terminated
    (placed : Placed m fdt off (items.encode ++ (word fdtEndNode ++ more)))
    (member : p ∈ items.leadingAt off) : p.offset + propSize p.value ≤ off + items.size ∧
      m.Stored (fdt + BitVec.ofNat 64 (p.offset + 12)) (p.value ++ [0]) := by
  induction items generalizing off with
  | nil => cases member
  | nop rest ih => cases member
  | prop nameoff value rest ih =>
      obtain ⟨token, after⟩ := placed.prop
      rw [Items.size]
      rcases List.mem_cons.mp member with rfl | later
      · refine ⟨by dsimp only; omega, ?_⟩
        obtain ⟨behind, zero⟩ := zero_behind rest value.length more
        have layout : propToken nameoff value ++ (rest.encode ++ (word fdtEndNode ++ more)) =
            word fdtProp ++ word (BitVec.ofNat 32 value.length) ++ word nameoff ++
              ((value ++ [0]) ++ behind) := by
          rw [propToken, List.append_assoc, zero]
          simp only [List.append_assoc]
        have stored := token.stored
        rw [layout] at stored
        have bytes := stored.right.left
        rw [add_ofNat_add] at bytes
        exact bytes
      · obtain ⟨inside, value⟩ := ih after later
        exact ⟨by omega, value⟩
  | node child body rest ihBody ih => cases member

end Values

section Loaded

variable {m : Mem} {buffer : Buffer} {tree : Tree} {strings name path : List Byte} {node : Node}
variable {p : Property}

/-- The bytes of a node are inside the buffer. -/
theorem LoadedBlob.node_inside (loaded : LoadedBlob m buffer tree strings)
    (isNode : node ∈ tree.nodes (offDtStruct m buffer.base).toNat) :
    node.offset + beginSize node.name + node.body.size + 4 ≤ buffer.size := by
  have inside := Items.node_inside isNode
  have block := loaded.struct
  have length : tree.encode.length = tree.items.size + 4 := by
    rw [Tree.encode, List.length_append, Items.encode_length, word_length]
  omega

theorem LoadedBlob.size_lt (loaded : LoadedBlob m buffer tree strings) : buffer.size < 2 ^ 32 := by
  rw [← loaded.totalSize]
  exact BitVec.isLt _

/-- A value with the NUL behind it is inside the buffer. -/
theorem LoadedBlob.value_inside (loaded : LoadedBlob m buffer tree strings)
    (isNode : node ∈ tree.nodes (offDtStruct m buffer.base).toNat)
    (found : node.find strings name = some p) :
    p.offset + 12 + p.value.length + 1 ≤ buffer.size ∧
      m.Stored (buffer.base + BitVec.ofNat 64 (p.offset + 12)) (p.value ++ [0]) := by
  obtain ⟨⟨behind, placed⟩, -, -⟩ := loaded.blob.nodes_placed isNode
  have inside := loaded.node_inside isNode
  have above := le_roundUp 2 p.value.length
  obtain ⟨short, stored⟩ := leadingAt_terminated placed.inside (List.mem_of_find?_eq_some found)
  rw [propSize] at short
  exact ⟨by omega, stored⟩

/-- `fdt_path_offset` on a blob that is loaded. -/
theorem LoadedBlob.pathOffset_iff (loaded : LoadedBlob m buffer tree strings)
    (counted : path.length ≤ intMax)
    (slashes : 1 ≤ path.count slash ∧ path.count slash ≤ 10) (result : Except Fault (BitVec 32)) :
    PathOffset m buffer.base path result ↔ result =
      .ok (resultOf ((tree.find (offDtStruct m buffer.base).toNat path).map Node.offset)) := by
  rw [pathOffset_iff_search loaded.blob.placed loaded.blob.named counted slashes]
  cases found : tree.find (offDtStruct m buffer.base).toNat path with
  | none => rw [Tree.find_eq_none.mp found, Option.map_none]
  | some node => rw [(Tree.find_eq_some found).2, Option.map_some]

/-- `fdt_getprop` on a blob that is loaded. -/
theorem LoadedBlob.getProp_iff (loaded : LoadedBlob m buffer tree strings)
    (isNode : node ∈ tree.nodes (offDtStruct m buffer.base).toNat) (noNul : 0 ∉ name)
    (result : Option (BitVec 64 × BitVec 32)) :
    GetProp m buffer.base (BitVec.ofNat 32 node.offset) name result ↔
      result = (node.find strings name).map (Property.found buffer.base) := by
  obtain ⟨⟨behind, placed⟩, nodeNamed, namesIn⟩ := loaded.blob.nodes_placed isNode
  have ends := ends_getprop_at placed.inside loaded.blob.stringsStored namesIn noNul
  have returns := (getProp_iff_ends placed nodeNamed).mpr ends
  constructor
  · intro other
    exact other.unique returns
  · rintro rfl
    exact returns

/-- The offset of a node is not mistaken for -1. -/
theorem LoadedBlob.offset_ne (loaded : LoadedBlob m buffer tree strings)
    (isNode : node ∈ tree.nodes (offDtStruct m buffer.base).toNat) :
    BitVec.ofNat 32 node.offset ≠ -1 := by
  intro same
  have size := loaded.size_lt
  have inside := loaded.node_inside isNode
  have value := congrArg BitVec.toNat same
  rw [BitVec.toNat_ofNat, Nat.mod_eq_of_lt (by omega)] at value
  have negative : (-1 : BitVec 32).toNat = 2 ^ 32 - 1 := rfl
  omega

/-- For the offset of a node that is returned, `fdt_getprop` stays inside the buffer. -/
theorem LoadedBlob.getprop_found (loaded : LoadedBlob m buffer tree strings)
    (counted : path.length ≤ intMax)
    (slashes : 1 ≤ path.count slash ∧ path.count slash ≤ 10)
    (found : tree.find (offDtStruct m buffer.base).toNat path = some node) (noNul : 0 ∉ name) :
    getpropRead m buffer.base (BitVec.ofNat 32 node.offset) name ⊆ buffer.inside := by
  have isNode := (Tree.find_eq_some found).1
  have returns : PathOffset m buffer.base path (.ok (BitVec.ofNat 32 node.offset)) := by
    rw [loaded.pathOffset_iff counted slashes, found]
    rfl
  obtain ⟨atToken, begins⟩ := loaded.returned returns (loaded.offset_ne isNode)
  exact loaded.getprop_inside atToken loaded.struct begins noNul

/-- For -1 it does not. -/
theorem LoadedBlob.getprop_minus_one (loaded : LoadedBlob m buffer tree strings)
    (name : List Byte) : ¬ getpropRead m buffer.base (-1) name ⊆ buffer.inside := by
  intro inside
  obtain ⟨-, nodeName, -⟩ := getpropRead_subset_iff.mp inside
  have size := loaded.size_lt
  have first := nodeName (self_mem_bytesAt (Nat.zero_lt_succ _))
  have address : buffer.base + (-1 : BitVec 32).setWidth 64 + 4 =
      buffer.base + BitVec.ofNat 64 (2 ^ 32 + 3) := by
    rw [BitVec.add_assoc]
    rfl
  rw [address, buffer.offset_mem_inside (by decide)] at first
  omega

end Loaded

/-! ## Chains of the two calls -/

/-- What is read when the node is looked up, the property in it, and its value then used. -/
def lookupRead (m : Mem) (fdt : BitVec 64) (path name : List Byte)
    (use : Option (BitVec 64 × BitVec 32) → Set (BitVec 64)) : Set (BitVec 64) :=
  {x | x ∈ pathOffsetRead m fdt path ∨ ∃ offset, PathOffset m fdt path (.ok offset) ∧
    (x ∈ getpropRead m fdt offset name ∨
      ∃ prop, GetProp m fdt offset name prop ∧ x ∈ use prop)}

/-- A chain without checks stays inside the buffer exactly if the property is there and its value
is used inside. -/
theorem LoadedBlob.lookupRead_subset_iff {m : Mem} {buffer : Buffer} {tree : Tree}
    {strings path name : List Byte} {use : Option (BitVec 64 × BitVec 32) → Set (BitVec 64)}
    (loaded : LoadedBlob m buffer tree strings) (counted : path.length ≤ intMax)
    (slashes : 1 ≤ path.count slash ∧ path.count slash ≤ 10) (noNul : 0 ∉ name)
    (null : ¬ use none ⊆ buffer.inside) :
    lookupRead m buffer.base path name use ⊆ buffer.inside ↔
      ∃ p, tree.lookup strings (offDtStruct m buffer.base).toNat path name = some p ∧
        use (some (p.found buffer.base)) ⊆ buffer.inside := by
  have walk := loaded.pathOffset_inside path
  have returns := loaded.pathOffset_iff counted slashes
  rw [Tree.lookup]
  cases found : tree.find (offDtStruct m buffer.base).toNat path with
  | none =>
      rw [found] at returns
      refine iff_of_false ?_ (by simp)
      intro inside
      apply loaded.getprop_minus_one name
      intro x member
      exact inside (.inr ⟨_, (returns _).mpr rfl, .inl member⟩)
  | some node =>
      have isNode := (Tree.find_eq_some found).1
      have props := loaded.getProp_iff isNode noNul
      rw [found] at returns
      rw [Option.bind_some]
      constructor
      · intro inside
        have used : ∀ prop, GetProp m buffer.base (BitVec.ofNat 32 node.offset) name prop →
            use prop ⊆ buffer.inside := by
          intro prop gets x member
          exact inside (.inr ⟨_, (returns _).mpr rfl, .inr ⟨prop, gets, member⟩⟩)
        have result := used _ ((props _).mpr rfl)
        cases first : node.find strings name with
        | none =>
            rw [first] at result
            exact absurd result null
        | some p =>
            rw [first] at result
            exact ⟨p, rfl, result⟩
      · rintro ⟨p, first, result⟩ x (inWalk | ⟨offset, node', inNode | ⟨prop, gets, inUse⟩⟩)
        · exact walk inWalk
        · cases (returns _).mp node'
          exact loaded.getprop_found counted slashes found noNul inNode
        · cases (returns _).mp node'
          rw [(props _).mp gets, first] at inUse
          exact result inUse

end OscKernel.Fdt
