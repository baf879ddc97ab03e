import Mathlib.Data.List.TakeWhile
import OscKernel.Fdt.Search

/-!
# Reading a property (`ex21/main.c`)

`fdt_getprop` looks for a name among the properties that stand directly behind `FDT_BEGIN_NODE`.
It stops at any other token.
-/

namespace OscKernel.Fdt

open Alloc Riscv Loops

/-- One token of `fdt_getprop`: the address of the value and `*lenp`. -/
def getpropRound (m : Mem) (fdt : BitVec 64) (name : List Byte) (curOff : BitVec 32) :
    Round (BitVec 32) (Option (BitVec 64 × BitVec 32)) :=
  let token := fdt + curOff.setWidth 64
  if bswap32 (load32 m token) = fdtProp then
    let valueLen := bswap32 (load32 m (token + 4))
    let nameOff := bswap32 (load32 m (token + 8))
    if m.strcmp name (fdt + (offDtStrings m fdt).setWidth 64 + nameOff.setWidth 64) = 0 then
      .stop (some (token + 0xc, valueLen))
    else .next (nextToken fdt (token + 0xc + valueLen.setWidth 64))
  else .stop none

/-- `fdt_getprop`, for at most `fuel` properties. -/
def fdtGetprop (fuel : Nat) (m : Mem) (fdt : BitVec 64) (nodeoffset : BitVec 32)
    (name : List Byte) : Option (Option (BitVec 64 × BitVec 32)) :=
  let nodeName := fdt + nodeoffset.setWidth 64 + 4
  iterate (getpropRound m fdt name) fuel
    (nextToken fdt (nodeName + BitVec.ofNat 64 (m.strlen nodeName) + 1))

/-- `fdt_getprop` returns `result`. -/
def GetProp (m : Mem) (fdt : BitVec 64) (nodeoffset : BitVec 32) (name : List Byte)
    (result : Option (BitVec 64 × BitVec 32)) : Prop :=
  ∃ fuel, fdtGetprop fuel m fdt nodeoffset name = some result

/-! ## Property names -/

/-- The name at an offset of the strings block. -/
def nameAt (strings : List Byte) (nameoff : BitVec 32) : List Byte :=
  (strings.drop nameoff.toNat).takeWhile (· ≠ 0)

/-- A property with the offset of its `FDT_PROP`. -/
structure Property where
  offset : Nat
  nameoff : BitVec 32
  value : List Byte
  deriving DecidableEq

namespace Property

/-- Whether the property has the name. -/
def hasName (strings name : List Byte) (p : Property) : Bool := nameAt strings p.nameoff == name

/-- What is returned for the property: the address of its value, and its length. -/
def found (fdt : BitVec 64) (p : Property) : BitVec 64 × BitVec 32 :=
  (fdt + BitVec.ofNat 64 (p.offset + 12), BitVec.ofNat 32 p.value.length)

end Property

namespace Items

/-- The properties before the first other token: the offset of the name, and the value. -/
def leading : Items → List (BitVec 32 × List Byte)
  | prop nameoff value rest => (nameoff, value) :: rest.leading
  | _ => []

/-- Whether a property has the name. -/
def hasName (strings name : List Byte) (p : BitVec 32 × List Byte) : Bool :=
  nameAt strings p.1 == name

/-- The value of the first of these properties that has the name. -/
def lookup (items : Items) (strings name : List Byte) : Option (List Byte) :=
  (items.leading.find? (hasName strings name)).map Prod.snd

/-- The same properties, with their offsets. -/
def leadingAt : Items → Nat → List Property
  | prop nameoff value rest, off => ⟨off, nameoff, value⟩ :: rest.leadingAt (off + propSize value)
  | _, _ => []

theorem leading_eq_map (items : Items) (off : Nat) :
    items.leading = (items.leadingAt off).map fun p => (p.nameoff, p.value) := by
  induction items generalizing off with
  | nil => rfl
  | nop rest _ => rfl
  | prop nameoff value rest ih => rw [leading, leadingAt, List.map_cons, ih]
  | node name body rest _ _ => rfl

/-- The names of properties are C strings of the strings block. -/
def NamesIn (strings : List Byte) : Items → Prop
  | nil => True
  | nop rest => rest.NamesIn strings
  | prop nameoff _ rest => 0 ∈ strings.drop nameoff.toNat ∧ rest.NamesIn strings
  | node _ body rest => body.NamesIn strings ∧ rest.NamesIn strings

instance decidableNamesIn (strings : List Byte) :
    (items : Items) → Decidable (items.NamesIn strings)
  | nil => isTrue trivial
  | nop rest => rest.decidableNamesIn strings
  | prop nameoff _ rest =>
      have := rest.decidableNamesIn strings
      inferInstanceAs (Decidable (0 ∈ strings.drop nameoff.toNat ∧ rest.NamesIn strings))
  | node _ body rest =>
      have := body.decidableNamesIn strings
      have := rest.decidableNamesIn strings
      inferInstanceAs (Decidable (body.NamesIn strings ∧ rest.NamesIn strings))

end Items

/-- A blob below 4 GiB with its strings block. -/
structure StringsBlob (m : Mem) (fdt : BitVec 64) (tree : Tree) (strings : List Byte) : Prop where
  placed : Placed m fdt (offDtStruct m fdt).toNat tree.encode
  named : tree.body.Named
  stringsStored : m.Stored (fdt + (offDtStrings m fdt).setWidth 64) strings
  namesIn : tree.body.NamesIn strings

section Names

variable {m : Mem} {a : BitVec 64} {strings : List Byte} {nameoff : BitVec 32}

theorem exists_nul_append {bytes : List Byte} (terminated : 0 ∈ bytes) :
    ∃ rest, bytes = bytes.takeWhile (· ≠ 0) ++ [0] ++ rest := by
  induction bytes with
  | nil => cases terminated
  | cons b bytes ih =>
      by_cases isNul : b = 0
      · refine ⟨bytes, ?_⟩
        simp [isNul]
      · have later : 0 ∈ bytes := (List.mem_cons.mp terminated).resolve_left (Ne.symm isNul)
        obtain ⟨rest, same⟩ := ih later
        have first : (b :: bytes).takeWhile (· ≠ 0) = b :: bytes.takeWhile (· ≠ 0) := by
          simpa [List.takeWhile_cons] using isNul
        exact ⟨rest, by rw [first, List.cons_append, List.cons_append, ← same]⟩

/-- The name of a property in memory. -/
theorem cstring_nameAt (stored : m.Stored a strings)
    (terminated : 0 ∈ strings.drop nameoff.toNat) :
    m.CString (a + nameoff.setWidth 64) (nameAt strings nameoff) := by
  constructor
  · intro isIn
    rw [nameAt] at isIn
    have nonzero := List.mem_takeWhile_imp isIn
    exact absurd rfl (of_decide_eq_true nonzero)
  · have inside : nameoff.toNat ≤ strings.length := by
      have nonempty := List.length_pos_of_mem terminated
      rw [List.length_drop] at nonempty
      omega
    obtain ⟨rest, same⟩ := exists_nul_append terminated
    rw [← List.take_append_drop nameoff.toNat strings] at stored
    have name := stored.right
    rw [List.length_take, Nat.min_eq_left inside, BitVec.ofNat_toNat, same] at name
    exact name.left

end Names

/-! ## The loop -/

section Loop

variable {m : Mem} {fdt : BitVec 64} {name nodeName value more strings : List Byte} {off : Nat}
variable {nameoff : BitVec 32} {items : Items} {result : Option (BitVec 64 × BitVec 32)}

theorem getpropRound_prop (placed : Placed m fdt off (propToken nameoff value ++ more))
    (propName : m.CString (fdt + (offDtStrings m fdt).setWidth 64 + nameoff.setWidth 64)
      (nameAt strings nameoff)) (noNul : 0 ∉ name) :
    getpropRound m fdt name (BitVec.ofNat 32 off) =
      if nameAt strings nameoff = name then
        .stop (some (fdt + BitVec.ofNat 64 off + 0xc, BitVec.ofNat 32 value.length))
      else .next (BitVec.ofNat 32 (off + propSize value)) := by
  obtain ⟨small, prop⟩ := placed.propAt
  have compared := propName.strcmp_eq_zero noNul
  rw [getpropRound]
  dsimp only
  rw [pointer_eq small, prop.token, if_pos rfl, prop.length, prop.nameOff, prop.next]
  by_cases same : nameAt strings nameoff = name
  · rw [if_pos same, if_pos (compared.mpr same.symm)]
  · rw [if_neg same, if_neg (fun zero => same (compared.mp zero).symm)]

/-- Another token ends the loop. -/
theorem getpropRound_other {v : BitVec 32} (placed : Placed m fdt off (word v ++ more))
    (other : v ≠ fdtProp) : getpropRound m fdt name (BitVec.ofNat 32 off) = .stop none := by
  rw [getpropRound]
  dsimp only
  rw [placed.token, if_neg other]

/-- The result for a property with the value, if there is one. -/
def Returned (m : Mem) : Option (List Byte) → Option (BitVec 64 × BitVec 32) → Prop
  | none, result => result = none
  | some value, result => ∃ p, result = some (p, BitVec.ofNat 32 value.length) ∧
      value.length < 2 ^ 32 ∧ m.Stored p value

/-- The loop finds the first property with the name that is before any other token. -/
theorem ends_getprop_at (placed : Placed m fdt off (items.encode ++ (word fdtEndNode ++ more)))
    (stored : m.Stored (fdt + (offDtStrings m fdt).setWidth 64) strings)
    (namesIn : items.NamesIn strings) (noNul : 0 ∉ name) :
    Ends (getpropRound m fdt name) (BitVec.ofNat 32 off)
      (((items.leadingAt off).find? (Property.hasName strings name)).map (Property.found fdt)) := by
  induction items generalizing off with
  | nil => exact Ends.of_stop (getpropRound_other placed (by decide))
  | nop rest ih => exact Ends.of_stop (getpropRound_other placed.nop.1 (by decide))
  | prop nameoff value rest ih =>
      obtain ⟨terminated, restNames⟩ := namesIn
      obtain ⟨token, after⟩ := placed.prop
      have round := getpropRound_prop token (cstring_nameAt stored terminated) noNul
      by_cases named : nameAt strings nameoff = name
      · have found : Property.hasName strings name ⟨off, nameoff, value⟩ = true := by
          simp [Property.hasName, named]
        rw [Items.leadingAt, List.find?_cons_of_pos found, Option.map_some, Property.found,
          BitVec.ofNat_add, ← BitVec.add_assoc]
        rw [if_pos named] at round
        exact Ends.of_stop round
      · have other : ¬ Property.hasName strings name ⟨off, nameoff, value⟩ = true := by
          simp [Property.hasName, named]
        rw [Items.leadingAt, List.find?_cons_of_neg other]
        rw [if_neg named] at round
        exact Ends.of_next round (ih after restNames)
  | node child body rest ihBody ih =>
      have token := placed.node.1
      rw [beginToken_append] at token
      exact Ends.of_stop (getpropRound_other token (by decide))

/-- The value of a property in memory. -/
theorem leadingAt_stored {p : Property}
    (placed : Placed m fdt off (items.encode ++ (word fdtEndNode ++ more)))
    (member : p ∈ items.leadingAt off) : p.offset + p.value.length < off + items.size ∧
      m.Stored (fdt + BitVec.ofNat 64 (p.offset + 12)) p.value := by
  induction items generalizing off with
  | nil => cases member
  | nop rest ih => cases member
  | prop nameoff value rest ih =>
      obtain ⟨token, after⟩ := placed.prop
      have above := le_roundUp 2 value.length
      rw [Items.size, propSize]
      rcases List.mem_cons.mp member with rfl | later
      · obtain ⟨small, prop⟩ := token.propAt
        have value := prop.stored
        rw [BitVec.ofNat_add, ← BitVec.add_assoc]
        exact ⟨by dsimp only; omega, value⟩
      · obtain ⟨inside, value⟩ := ih after later
        rw [propSize] at inside
        exact ⟨by omega, value⟩
  | node child body rest ihBody ih => cases member

/-- The result holds the value that is looked up. -/
theorem ends_getprop (placed : Placed m fdt off (items.encode ++ (word fdtEndNode ++ more)))
    (stored : m.Stored (fdt + (offDtStrings m fdt).setWidth 64) strings)
    (namesIn : items.NamesIn strings) (noNul : 0 ∉ name) :
    ∃ result, Ends (getpropRound m fdt name) (BitVec.ofNat 32 off) result ∧
      Returned m (items.lookup strings name) result := by
  refine ⟨_, ends_getprop_at placed stored namesIn noNul, ?_⟩
  have sameName : Items.hasName strings name ∘ (fun p : Property => (p.nameoff, p.value)) =
      Property.hasName strings name := rfl
  rw [Items.lookup, items.leading_eq_map off, List.find?_map, sameName]
  cases search : (items.leadingAt off).find? (Property.hasName strings name) with
  | none => rfl
  | some p =>
      obtain ⟨inside, value⟩ := leadingAt_stored placed (List.mem_of_find?_eq_some search)
      have bytes := placed.small
      rw [List.length_append, Items.encode_length] at bytes
      exact ⟨_, rfl, by dsimp only; omega, value⟩

/-- The loop of `fdt_getprop` starts behind the name of the node. -/
theorem getProp_iff_ends (placed : Placed m fdt off (beginToken nodeName ++ more))
    (nodeNamed : 0 ∉ nodeName) :
    GetProp m fdt (BitVec.ofNat 32 off) name result ↔
      Ends (getpropRound m fdt name) (BitVec.ofNat 32 (off + beginSize nodeName)) result := by
  obtain ⟨small, nameSmall⟩ := placed.name_lt
  have length : m.strlen (fdt + BitVec.ofNat 64 off + 4) = nodeName.length :=
    (placed.cstring nodeNamed).strlen (by omega)
  simp only [GetProp, fdtGetprop, Ends, pointer_eq small, length, placed.behindName]

/-- The body of a node. -/
theorem Placed.inside
    (placed : Placed m fdt off
      (beginToken nodeName ++ (items.encode ++ (word fdtEndNode ++ more)))) :
    Placed m fdt (off + beginSize nodeName) (items.encode ++ (word fdtEndNode ++ more)) := by
  have inside := placed.right (by rw [beginToken_length, beginSize_mod])
  rwa [beginToken_length] at inside

/-- `fdt_getprop` on a node of a blob. -/
theorem getProp_returned
    (placed : Placed m fdt off
      (beginToken nodeName ++ (items.encode ++ (word fdtEndNode ++ more))))
    (nodeNamed : 0 ∉ nodeName)
    (stored : m.Stored (fdt + (offDtStrings m fdt).setWidth 64) strings)
    (namesIn : items.NamesIn strings) (noNul : 0 ∉ name) :
    ∃ result, GetProp m fdt (BitVec.ofNat 32 off) name result ∧
      Returned m (items.lookup strings name) result := by
  obtain ⟨result, ends, returned⟩ := ends_getprop placed.inside stored namesIn noNul
  exact ⟨result, (getProp_iff_ends placed nodeNamed).mpr ends, returned⟩

theorem GetProp.unique {nodeoffset : BitVec 32} {other : Option (BitVec 64 × BitVec 32)}
    (returns : GetProp m fdt nodeoffset name result)
    (otherReturns : GetProp m fdt nodeoffset name other) : result = other :=
  Ends.unique returns otherReturns

end Loop

end OscKernel.Fdt
