import Mathlib.Data.List.Forall2
import OscKernel.Fdt.GetProp

/-!
# `FDT_NOP` between the tokens (`ex21/README.md`)

The table of tokens says that `FDT_NOP` is ignored.  `fdt_path_offset` passes over it, but the loop
of `fdt_getprop` ends at any token other than `FDT_PROP`.  What it reads is the same with more
`FDT_NOP` exactly as long as none of them is before the property that it looks for.
-/

namespace OscKernel.Fdt

open Riscv Loops

/-- The tokens of the first list with more `FDT_NOP` between them. -/
inductive NopInserted : Items → Items → Prop where
  | nil : NopInserted .nil .nil
  | insert {items items' : Items} :
      NopInserted items items' → NopInserted items (.nop items')
  | nop {rest rest' : Items} : NopInserted rest rest' → NopInserted (.nop rest) (.nop rest')
  | prop {nameoff : BitVec 32} {value : List Byte} {rest rest' : Items} :
      NopInserted rest rest' → NopInserted (.prop nameoff value rest) (.prop nameoff value rest')
  | node {name : List Byte} {body body' rest rest' : Items} :
      NopInserted body body' → NopInserted rest rest' →
        NopInserted (.node name body rest) (.node name body' rest')

/-- A node with the offset of its `FDT_BEGIN_NODE`. -/
structure Node where
  offset : Nat
  name : List Byte
  body : Items
  deriving DecidableEq

/-- All nodes, in the order of the block. -/
def Items.nodes : Items → Nat → List Node
  | nil, _ => []
  | nop rest, off => rest.nodes (off + 4)
  | prop _ value rest, off => rest.nodes (off + propSize value)
  | node name body rest, off =>
      ⟨off, name, body⟩ :: (body.nodes (off + beginSize name) ++
        rest.nodes (off + beginSize name + body.size + 4))

/-- The nodes of the structure block at `off`; the root node is the first. -/
def Tree.nodes (tree : Tree) (off : Nat) : List Node := tree.items.nodes off

/-- Both lookups found the same bytes, or neither found the property. -/
def SameProperty (m m' : Mem) :
    Option (BitVec 64 × BitVec 32) → Option (BitVec 64 × BitVec 32) → Prop
  | none, none => True
  | some (p, len), some (p', len') =>
      len = len' ∧ ∀ i < len.toNat, m (p + BitVec.ofNat 64 i) = m' (p' + BitVec.ofNat 64 i)
  | _, _ => False

/-- `fdt_getprop` returns the same for a node of each of two blobs. -/
def GetPropAgrees (m : Mem) (fdt : BitVec 64) (node : Node) (m' : Mem) (fdt' : BitVec 64)
    (node' : Node) (name : List Byte) : Prop :=
  ∃ result result', GetProp m fdt (BitVec.ofNat 32 node.offset) name result ∧
    GetProp m' fdt' (BitVec.ofNat 32 node'.offset) name result' ∧
      SameProperty m m' result result'

/-- As many properties stand at the start of the second list as the first has there up to the one
with the name. -/
def NoNopBefore (strings name : List Byte) (items items' : Items) : Prop :=
  let index := items.leading.findIdx (Items.hasName strings name)
  index < items.leading.length → index < items'.leading.length

instance (strings name : List Byte) (items items' : Items) :
    Decidable (NoNopBefore strings name items items') :=
  inferInstanceAs (Decidable (_ → _))

/-! ## Nodes -/

section Nodes

variable {m : Mem} {fdt : BitVec 64} {items items' : Items} {off off' count i : Nat}
variable {more strings : List Byte} {node node' : Node}

/-- Each node in memory. -/
theorem Items.nodes_placed (placed : Placed m fdt off (items.encode ++ more))
    (named : items.Named) (namesIn : items.NamesIn strings) (isNode : node ∈ items.nodes off) :
    (∃ behind, Placed m fdt node.offset
      (beginToken node.name ++ (node.body.encode ++ (word fdtEndNode ++ behind)))) ∧
      0 ∉ node.name ∧ node.body.NamesIn strings := by
  induction items generalizing off more with
  | nil => exact absurd isNode List.not_mem_nil
  | nop rest ih => exact ih placed.nop.2 named namesIn isNode
  | prop nameoff value rest ih => exact ih placed.prop.2 named namesIn.2 isNode
  | node name body rest ihBody ih =>
      obtain ⟨noNul, bodyNamed, restNamed⟩ := named
      obtain ⟨bodyNames, restNames⟩ := namesIn
      obtain ⟨start, inside, -, after⟩ := placed.node
      rw [nodes, List.mem_cons, List.mem_append] at isNode
      rcases isNode with rfl | inBody | inRest
      · exact ⟨⟨_, start⟩, noNul, bodyNames⟩
      · exact ihBody inside bodyNamed bodyNames inBody
      · exact ih after restNamed restNames inRest

theorem Items.named_nops : (nops count items).Named ↔ items.Named := by
  induction count with
  | zero => rfl
  | succ count ih => exact ih

theorem Items.namesIn_nops : (nops count items).NamesIn strings ↔ items.NamesIn strings := by
  induction count with
  | zero => rfl
  | succ count ih => exact ih

theorem StringsBlob.nodes_placed {tree : Tree} (blob : StringsBlob m fdt tree strings)
    (isNode : node ∈ tree.nodes (offDtStruct m fdt).toNat) :
    (∃ behind, Placed m fdt node.offset
      (beginToken node.name ++ (node.body.encode ++ (word fdtEndNode ++ behind)))) ∧
      0 ∉ node.name ∧ node.body.NamesIn strings := by
  apply Items.nodes_placed blob.placed _ _ isNode
  · exact Items.named_nops.mpr ⟨List.not_mem_nil, blob.named, Items.named_nops.mpr trivial⟩
  · exact Items.namesIn_nops.mpr ⟨blob.namesIn, Items.namesIn_nops.mpr trivial⟩

/-- The nodes are the same but for the inserted tokens. -/
theorem NopInserted.nodes (inserted : NopInserted items items') :
    List.Forall₂ (fun node node' => node.name = node'.name ∧ NopInserted node.body node'.body)
      (items.nodes off) (items'.nodes off') := by
  induction inserted generalizing off off' with
  | nil => exact .nil
  | insert _ ih => exact ih
  | nop _ ih => exact ih
  | prop _ ih => exact ih
  | node inBody _ ihBody ih => exact .cons ⟨rfl, inBody⟩ (List.rel_append ihBody ih)

/-- Corresponding nodes have the same place in the order. -/
theorem NopInserted.body (inserted : NopInserted items items')
    (isNode : (items.nodes off)[i]? = some node)
    (isNode' : (items'.nodes off')[i]? = some node') : NopInserted node.body node'.body := by
  obtain ⟨inside, rfl⟩ := List.getElem?_eq_some_iff.mp isNode
  obtain ⟨inside', rfl⟩ := List.getElem?_eq_some_iff.mp isNode'
  exact (inserted.nodes.get inside inside').2

/-- An inserted token only ends the properties at the start earlier. -/
theorem NopInserted.leading (inserted : NopInserted items items') :
    items'.leading <+: items.leading := by
  induction inserted with
  | nil => exact List.nil_prefix
  | insert _ _ => exact List.nil_prefix
  | nop _ _ => exact List.nil_prefix
  | prop _ ih => exact List.prefix_cons_inj _ |>.mpr ih
  | node _ _ _ _ => exact List.nil_prefix

end Nodes

/-! ## Both lookups -/

section Lookups

variable {m m' : Mem} {fdt fdt' : BitVec 64} {tree tree' : Tree} {strings name : List Byte}
variable {items items' : Items} {node node' : Node} {i : Nat}
variable {result result' : Option (BitVec 64 × BitVec 32)} {found found' : Option (List Byte)}

theorem findIdx_lt_iff {α : Type} {p : α → Bool} {l : List α} :
    l.findIdx p < l.length ↔ (l.find? p).isSome = true :=
  List.findIdx_lt_length.trans List.find?_isSome.symm

/-- A prefix has the first match exactly if it is long enough for it. -/
theorem find?_prefix_eq_iff {α : Type} {p : α → Bool} {short long : List α}
    (isPrefix : short <+: long) :
    short.find? p = long.find? p ↔
      (long.findIdx p < long.length → long.findIdx p < short.length) := by
  obtain ⟨more, rfl⟩ := isPrefix
  rw [findIdx_lt_iff, List.find?_append, List.findIdx_append]
  cases found : short.find? p with
  | some first =>
      have inShort : short.findIdx p < short.length := findIdx_lt_iff.mpr (by rw [found]; rfl)
      simp [inShort]
  | none =>
      have notInShort : ¬ short.findIdx p < short.length := by
        rw [findIdx_lt_iff, found]
        exact Bool.false_ne_true
      rw [if_neg notInShort, Option.none_or]
      cases foundLater : more.find? p with
      | none => simp
      | some first => simp

/-- A property that is found in spite of the inserted tokens. -/
theorem NopInserted.lookup {value : List Byte} (inserted : NopInserted items items')
    (found : items'.lookup strings name = some value) : items.lookup strings name = some value := by
  rw [Items.lookup, Option.map_eq_some_iff] at found ⊢
  obtain ⟨p, first, isValue⟩ := found
  exact ⟨p, inserted.leading.find?_eq_some first, isValue⟩

theorem NopInserted.lookup_eq_iff (inserted : NopInserted items items') :
    items'.lookup strings name = items.lookup strings name ↔
      NoNopBefore strings name items items' := by
  rw [NoNopBefore, ← find?_prefix_eq_iff inserted.leading]
  constructor
  · intro same
    rw [Items.lookup, Items.lookup] at same
    cases found : items'.leading.find? (Items.hasName strings name) with
    | none =>
        rw [found, Option.map_none, eq_comm, Option.map_eq_none_iff] at same
        exact same.symm
    | some p => exact (inserted.leading.find?_eq_some found).symm
  · intro same
    rw [Items.lookup, Items.lookup, same]

/-- `fdt_getprop` looks a property up, for each node of a blob. -/
theorem StringsBlob.returned (blob : StringsBlob m fdt tree strings)
    (isNode : node ∈ tree.nodes (offDtStruct m fdt).toNat) (noNul : 0 ∉ name) :
    ∃ result, GetProp m fdt (BitVec.ofNat 32 node.offset) name result ∧
      Returned m (node.body.lookup strings name) result := by
  obtain ⟨⟨behind, placed⟩, nodeNamed, namesIn⟩ := blob.nodes_placed isNode
  exact getProp_returned placed nodeNamed blob.stringsStored namesIn noNul

theorem sameProperty_none (returned : Returned m none result)
    (returned' : Returned m' found' result') :
    SameProperty m m' result result' ↔ found' = none := by
  subst returned
  cases found' with
  | none =>
      subst returned'
      exact iff_of_true trivial rfl
  | some value =>
      obtain ⟨p, rfl, -, -⟩ := returned'
      exact iff_of_false id (Option.some_ne_none value)

/-- Where the same value is found, the bytes are the same. -/
theorem sameProperty_some {value : List Byte} (returned : Returned m (some value) result)
    (returned' : Returned m' found' result') (same : ∀ other, found' = some other → other = value) :
    SameProperty m m' result result' ↔ found' = some value := by
  obtain ⟨p, rfl, small, stored⟩ := returned
  cases found' with
  | none =>
      subst returned'
      exact iff_of_false id (Option.some_ne_none value).symm
  | some other =>
      obtain rfl := same other rfl
      obtain ⟨p', rfl, -, stored'⟩ := returned'
      apply iff_of_true _ rfl
      constructor
      · rfl
      · intro i inside
        have length : (BitVec.ofNat 32 other.length).toNat = other.length := by
          rw [BitVec.toNat_ofNat]
          omega
        rw [length] at inside
        rw [stored.byte inside, stored'.byte inside]

/-- The lookups agree exactly if the same value is to be found. -/
theorem getPropAgrees_iff_lookup (blob : StringsBlob m fdt tree strings)
    (blob' : StringsBlob m' fdt' tree' strings) (inserted : NopInserted tree.items tree'.items)
    (isNode : (tree.nodes (offDtStruct m fdt).toNat)[i]? = some node)
    (isNode' : (tree'.nodes (offDtStruct m' fdt').toNat)[i]? = some node') (noNul : 0 ∉ name) :
    GetPropAgrees m fdt node m' fdt' node' name ↔
      node'.body.lookup strings name = node.body.lookup strings name := by
  obtain ⟨result, returns, returned⟩ := blob.returned (List.mem_of_getElem? isNode) noNul
  obtain ⟨result', returns', returned'⟩ := blob'.returned (List.mem_of_getElem? isNode') noNul
  have agrees : GetPropAgrees m fdt node m' fdt' node' name ↔ SameProperty m m' result result' := by
    constructor
    · rintro ⟨other, other', otherReturns, otherReturns', same⟩
      rwa [returns.unique otherReturns, returns'.unique otherReturns']
    · intro same
      exact ⟨result, result', returns, returns', same⟩
  have moved := inserted.body isNode isNode'
  rw [agrees]
  cases found : node.body.lookup strings name with
  | none =>
      rw [found] at returned
      exact sameProperty_none returned returned'
  | some value =>
      rw [found] at returned
      apply sameProperty_some returned returned'
      intro other foundOther
      exact Option.some.inj ((moved.lookup foundOther).symm.trans found)

/-- More `FDT_NOP` do not change what is read exactly if none is before the property. -/
theorem getProp_nops_iff (blob : StringsBlob m fdt tree strings)
    (blob' : StringsBlob m' fdt' tree' strings) (inserted : NopInserted tree.items tree'.items)
    (isNode : (tree.nodes (offDtStruct m fdt).toNat)[i]? = some node)
    (isNode' : (tree'.nodes (offDtStruct m' fdt').toNat)[i]? = some node') (noNul : 0 ∉ name) :
    GetPropAgrees m fdt node m' fdt' node' name ↔
      NoNopBefore strings name node.body node'.body := by
  rw [getPropAgrees_iff_lookup blob blob' inserted isNode isNode' noNul]
  exact (inserted.body isNode isNode').lookup_eq_iff

end Lookups

/-! ## A node with two properties -/

/-- The names of two properties. -/
def uartStrings : List Byte := ascii "reg" ++ [0] ++ ascii "status" ++ [0]

/-- The root node with one node in it. -/
def uart (body : Items) : Tree where
  before := 0
  body := .node (ascii "uart") body .nil
  after := 0

/-- `reg` and `status` -/
def uartBody : Items := .prop 0 (word 0x10000000) (.prop 4 (ascii "okay") .nil)

/-- The properties with an `FDT_NOP` between them. -/
def uartSplit : Items := .prop 0 (word 0x10000000) (.nop (.prop 4 (ascii "okay") .nil))

/-- The blob of the node, in memory. -/
def uartMem (body : Items) : Mem := Mem.image blobBase ((uart body).blob uartStrings)

theorem uart_blob {body : Items} (named : (uart body).body.Named)
    (namesIn : (uart body).body.NamesIn uartStrings)
    (small : (uart body).encode.length + uartStrings.length ≤ 2 ^ 20) :
    StringsBlob (uartMem body) blobBase (uart body) uartStrings ∧
      ((uart body).nodes (offDtStruct (uartMem body) blobBase).toNat)[1]? =
        some ⟨64, ascii "uart", body⟩ := by
  obtain ⟨blob, struct, stored⟩ := blob_image named small
  refine ⟨⟨blob.placed, blob.named, stored, namesIn⟩, ?_⟩
  rw [uartMem, struct]
  rfl

/-- An `FDT_NOP` between the two properties is harmless for the first. -/
theorem getProp_nops_reg :
    GetPropAgrees (uartMem uartBody) blobBase ⟨64, ascii "uart", uartBody⟩
      (uartMem uartSplit) blobBase ⟨64, ascii "uart", uartSplit⟩ (ascii "reg") := by
  obtain ⟨blob, isNode⟩ := @uart_blob uartBody (by decide) (by decide) (by decide +kernel)
  obtain ⟨blob', isNode'⟩ := @uart_blob uartSplit (by decide) (by decide) (by decide +kernel)
  have inserted : NopInserted (uart uartBody).items (uart uartSplit).items :=
    .node (.node (.prop (.insert (.prop .nil))) .nil) .nil
  exact (getProp_nops_iff blob blob' inserted isNode isNode' (by decide)).mpr (by decide)

/-- With an `FDT_NOP` before the first property neither of the two is found. -/
theorem nop_hides_properties :
    StringsBlob (uartMem uartBody) blobBase (uart uartBody) uartStrings ∧
    StringsBlob (uartMem (.nop uartBody)) blobBase (uart (.nop uartBody)) uartStrings ∧
    NopInserted (uart uartBody).items (uart (.nop uartBody)).items ∧
    ((uart uartBody).nodes (offDtStruct (uartMem uartBody) blobBase).toNat)[1]? =
      some ⟨64, ascii "uart", uartBody⟩ ∧
    ((uart (.nop uartBody)).nodes (offDtStruct (uartMem (.nop uartBody)) blobBase).toNat)[1]? =
      some ⟨64, ascii "uart", .nop uartBody⟩ ∧
    ¬ GetPropAgrees (uartMem uartBody) blobBase ⟨64, ascii "uart", uartBody⟩
      (uartMem (.nop uartBody)) blobBase ⟨64, ascii "uart", .nop uartBody⟩ (ascii "reg") ∧
    ¬ GetPropAgrees (uartMem uartBody) blobBase ⟨64, ascii "uart", uartBody⟩
      (uartMem (.nop uartBody)) blobBase ⟨64, ascii "uart", .nop uartBody⟩ (ascii "status") := by
  obtain ⟨blob, isNode⟩ := @uart_blob uartBody (by decide) (by decide) (by decide +kernel)
  obtain ⟨blob', isNode'⟩ :=
    @uart_blob (.nop uartBody) (by decide) (by decide) (by decide +kernel)
  have inserted : NopInserted (uart uartBody).items (uart (.nop uartBody)).items :=
    .node (.node (.insert (.prop (.prop .nil))) .nil) .nil
  refine ⟨blob, blob', inserted, isNode, isNode', ?_, ?_⟩
  · rw [getPropAgrees_iff_lookup blob blob' inserted isNode isNode' (by decide)]
    decide
  · rw [getPropAgrees_iff_lookup blob blob' inserted isNode isNode' (by decide)]
    decide

end OscKernel.Fdt
