import OscKernel.Fdt.Nops

/-!
# The properties of a node (`ex21/main.c`)

In a flattened device tree the properties of a node stand before its children.  Without
`FDT_NOP` they are then exactly what the loop of `fdt_getprop` looks at: it finds the first
property of the node with the name, at its address, and none of a child, sibling or parent.
-/

namespace OscKernel.Fdt

open Riscv Loops

namespace Items

/-- All properties between the tokens of a node that are not inside a child. -/
def properties : Items → Nat → List Property
  | nil, _ => []
  | nop rest, off => rest.properties (off + 4)
  | prop nameoff value rest, off => ⟨off, nameoff, value⟩ :: rest.properties (off + propSize value)
  | node name body rest, off => rest.properties (off + beginSize name + body.size + 4)

/-- There is no `FDT_NOP`. -/
def NopFree : Items → Prop
  | nil => True
  | nop _ => False
  | prop _ _ rest => rest.NopFree
  | node _ body rest => body.NopFree ∧ rest.NopFree

/-- In every node the properties are before the children. -/
def PropsFirst : Items → Prop
  | nil => True
  | nop rest => rest.PropsFirst
  | prop _ _ rest => rest.PropsFirst
  | node _ body rest => body.PropsFirst ∧ rest.properties 0 = [] ∧ rest.PropsFirst

instance decidableNopFree : (items : Items) → Decidable items.NopFree
  | nil => isTrue trivial
  | nop _ => isFalse id
  | prop _ _ rest => rest.decidableNopFree
  | node _ body rest =>
      have := body.decidableNopFree
      have := rest.decidableNopFree
      inferInstanceAs (Decidable (body.NopFree ∧ rest.NopFree))

instance decidablePropsFirst : (items : Items) → Decidable items.PropsFirst
  | nil => isTrue trivial
  | nop rest => rest.decidablePropsFirst
  | prop _ _ rest => rest.decidablePropsFirst
  | node _ body rest =>
      have := body.decidablePropsFirst
      have := rest.decidablePropsFirst
      inferInstanceAs (Decidable (body.PropsFirst ∧ rest.properties 0 = [] ∧ rest.PropsFirst))

section Properties

variable {items : Items} {off other count : Nat} {node : Node}

/-- Whether there is a property does not depend on the offset. -/
theorem properties_eq_nil (none : items.properties off = []) : items.properties other = [] := by
  induction items generalizing off other with
  | nil => rfl
  | nop rest ih => exact ih none
  | prop nameoff value rest _ => cases none
  | node name body rest _ ih => exact ih none

/-- The loop looks at all properties of the node. -/
theorem leadingAt_eq_properties (nopFree : items.NopFree) (propsFirst : items.PropsFirst) :
    items.leadingAt off = items.properties off := by
  induction items generalizing off with
  | nil => rfl
  | nop rest _ => cases nopFree
  | prop nameoff value rest ih => rw [leadingAt, properties, ih nopFree propsFirst]
  | node name body rest _ _ => exact (properties_eq_nil propsFirst.2.1).symm

theorem body_of_mem_nodes (isNode : node ∈ items.nodes off) (nopFree : items.NopFree)
    (propsFirst : items.PropsFirst) : node.body.NopFree ∧ node.body.PropsFirst := by
  induction items generalizing off with
  | nil => cases isNode
  | nop rest _ => cases nopFree
  | prop nameoff value rest ih => exact ih isNode nopFree propsFirst
  | node name body rest ihBody ih =>
      rw [nodes, List.mem_cons, List.mem_append] at isNode
      rcases isNode with rfl | inBody | inRest
      · exact ⟨nopFree.1, propsFirst.1⟩
      · exact ihBody inBody nopFree.1 propsFirst.1
      · exact ih inRest nopFree.2 propsFirst.2.2

theorem nodes_nops : (nops count items).nodes off = items.nodes (off + 4 * count) := by
  induction count generalizing off with
  | zero => rfl
  | succ count ih =>
      rw [nops, nodes, ih]
      congr 1
      omega

/-- A node lies inside the items. -/
theorem node_inside (isNode : node ∈ items.nodes off) :
    node.offset + beginSize node.name + node.body.size + 4 ≤ off + items.size := by
  induction items generalizing off with
  | nil => cases isNode
  | nop rest ih =>
      have inside := ih isNode
      rw [size]
      omega
  | prop nameoff value rest ih =>
      have inside := ih isNode
      rw [size]
      omega
  | node name body rest ihBody ih =>
      rw [size]
      rw [nodes, List.mem_cons, List.mem_append] at isNode
      rcases isNode with rfl | inBody | inRest
      · dsimp only
        omega
      · have inside := ihBody inBody
        omega
      · have inside := ih inRest
        omega

end Properties

end Items

/-- The properties of a node. -/
def Node.properties (node : Node) : List Property :=
  node.body.properties (node.offset + beginSize node.name)

section Blob

variable {m : Mem} {fdt : BitVec 64} {tree : Tree} {strings name : List Byte} {node : Node}

/-- The nodes of the tree are the root and the nodes in it. -/
theorem Tree.body_of_mem_nodes {off : Nat} (isNode : node ∈ tree.nodes off)
    (nopFree : tree.body.NopFree) (propsFirst : tree.body.PropsFirst) :
    node.body.NopFree ∧ node.body.PropsFirst := by
  rw [Tree.nodes, Tree.items, Items.nodes_nops, Items.nodes, List.mem_cons, List.mem_append,
    Items.nodes_nops] at isNode
  rcases isNode with rfl | inBody | behind
  · exact ⟨nopFree, propsFirst⟩
  · exact Items.body_of_mem_nodes inBody nopFree propsFirst
  · cases behind

/-- `fdt_getprop` returns the address and the length of the value of the node's first own property
with the name, or `NULL` if the node has none. -/
theorem getprop_exact (blob : StringsBlob m fdt tree strings)
    (small : (offDtStruct m fdt).toNat + tree.encode.length < 2 ^ 31)
    (nopFree : tree.body.NopFree) (propsFirst : tree.body.PropsFirst)
    (isNode : node ∈ tree.nodes (offDtStruct m fdt).toNat) (noNul : 0 ∉ name) :
    ∃ result, GetProp m fdt (BitVec.ofNat 32 node.offset) name result ∧
      (result = none ↔ ∀ p ∈ node.properties, nameAt strings p.nameoff ≠ name) ∧
      ∀ p, node.properties.find? (Property.hasName strings name) = some p →
        ∃ len : BitVec 32, result = some (fdt + BitVec.ofNat 64 (p.offset + 12), len) ∧
          len.toInt = p.value.length ∧
          m.Stored (fdt + BitVec.ofNat 64 (p.offset + 12)) p.value := by
  obtain ⟨⟨behind, placed⟩, nodeNamed, namesIn⟩ := blob.nodes_placed isNode
  obtain ⟨bodyNopFree, bodyPropsFirst⟩ := tree.body_of_mem_nodes isNode nopFree propsFirst
  have own : node.body.leadingAt (node.offset + beginSize node.name) = node.properties :=
    Items.leadingAt_eq_properties bodyNopFree bodyPropsFirst
  have ends := ends_getprop_at placed.inside blob.stringsStored namesIn noNul
  rw [own] at ends
  refine ⟨_, (getProp_iff_ends placed nodeNamed).mpr ends, ?_, ?_⟩
  · simp [Property.hasName]
  · intro p first
    have member := List.mem_of_find?_eq_some first
    rw [← own] at member
    obtain ⟨inside, value⟩ := leadingAt_stored placed.inside member
    have nodeInside := Items.node_inside isNode
    have length : tree.encode.length = tree.items.size + 4 := by
      rw [Tree.encode, List.length_append, Items.encode_length, word_length]
    refine ⟨_, by rw [first, Option.map_some, Property.found], ?_, value⟩
    have short : p.value.length < 2 ^ 31 := by omega
    rw [BitVec.toInt_eq_toNat_of_lt, BitVec.toNat_ofNat]
    · omega
    · rw [BitVec.toNat_ofNat]
      omega

/-- A node with two properties. -/
def uartNode : Node := ⟨64, ascii "uart", uartBody⟩

theorem getprop_exact_uart :
    ∃ result, GetProp (uartMem uartBody) blobBase (BitVec.ofNat 32 uartNode.offset)
        (ascii "status") result ∧
      (result = none ↔ ∀ p ∈ uartNode.properties, nameAt uartStrings p.nameoff ≠ ascii "status") ∧
      ∀ p, uartNode.properties.find? (Property.hasName uartStrings (ascii "status")) = some p →
        ∃ len : BitVec 32, result = some (blobBase + BitVec.ofNat 64 (p.offset + 12), len) ∧
          len.toInt = p.value.length ∧
          (uartMem uartBody).Stored (blobBase + BitVec.ofNat 64 (p.offset + 12)) p.value := by
  obtain ⟨blob, isNode⟩ := @uart_blob uartBody (by decide) (by decide) (by decide +kernel)
  obtain ⟨-, struct, -⟩ := @blob_image (uart uartBody) uartStrings (by decide) (by decide +kernel)
  have start : offDtStruct (uartMem uartBody) blobBase = 56 := struct
  have small : (offDtStruct (uartMem uartBody) blobBase).toNat +
      (uart uartBody).encode.length < 2 ^ 31 := by
    rw [start]
    decide +kernel
  have member : uartNode ∈ (uart uartBody).nodes (offDtStruct (uartMem uartBody) blobBase).toNat :=
    List.mem_of_getElem? isNode
  exact getprop_exact blob small (by decide) (by decide) member (by decide)

end Blob

end OscKernel.Fdt
