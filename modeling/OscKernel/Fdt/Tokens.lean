import OscKernel.Fdt.Inside
import OscKernel.Fdt.Nops

/-!
# The walks keep to the tokens (`ex21/main.c`)

The structure block of a tree is a row of tokens.  A walk that starts at one of them is at one of
them after every round, so on a blob whose blocks are in the buffer nothing is read outside as
long as `fdt_getprop` is given the offset of a node.
-/

namespace OscKernel.Fdt

open Alloc Riscv Loops Words Relation

/-! ## Rows of tokens -/

inductive Token where
  | beginNode (name : List Byte)
  | endNode
  | prop (nameoff : BitVec 32) (value : List Byte)
  | nop
  deriving DecidableEq

namespace Token

def encode : Token → List Byte
  | beginNode name => beginToken name
  | endNode => word fdtEndNode
  | prop nameoff value => propToken nameoff value
  | nop => word fdtNop

/-- The bytes of a token. -/
def size : Token → Nat
  | beginNode name => beginSize name
  | endNode => 4
  | prop _ value => propSize value
  | nop => 4

/-- Names are C strings. -/
def Named (strings : List Byte) : Token → Prop
  | beginNode name => 0 ∉ name
  | prop nameoff _ => 0 ∈ strings.drop nameoff.toNat
  | _ => True

theorem encode_length (token : Token) : token.encode.length = token.size := by
  cases token with
  | beginNode name => exact beginToken_length name
  | endNode => rfl
  | prop nameoff value => exact propToken_length nameoff value
  | nop => rfl

theorem size_mod (token : Token) : token.size % 4 = 0 := by
  cases token with
  | beginNode name => exact beginSize_mod name
  | endNode => rfl
  | prop nameoff value => exact propSize_mod value
  | nop => rfl

end Token

namespace Items

def tokens : Items → List Token
  | nil => []
  | nop rest => .nop :: rest.tokens
  | prop nameoff value rest => .prop nameoff value :: rest.tokens
  | node name body rest => .beginNode name :: (body.tokens ++ .endNode :: rest.tokens)

theorem encode_eq_flatMap (items : Items) : items.encode = items.tokens.flatMap Token.encode := by
  induction items with
  | nil => rfl
  | nop rest ih => rw [encode, tokens, List.flatMap_cons, ih, Token.encode]
  | prop nameoff value rest ih => rw [encode, tokens, List.flatMap_cons, ih, Token.encode]
  | node name body rest ihBody ih =>
      rw [encode, tokens, List.flatMap_cons, List.flatMap_append, List.flatMap_cons, ihBody, ih,
        Token.encode, Token.encode, List.append_assoc, List.append_assoc]

theorem tokens_named {items : Items} {strings : List Byte} (named : items.Named)
    (namesIn : items.NamesIn strings) : ∀ token ∈ items.tokens, token.Named strings := by
  induction items with
  | nil => simp [tokens]
  | nop rest ih =>
      intro token member
      rcases List.mem_cons.mp member with rfl | later
      · trivial
      · exact ih named namesIn token later
  | prop nameoff value rest ih =>
      intro token member
      rcases List.mem_cons.mp member with rfl | later
      · exact namesIn.1
      · exact ih named namesIn.2 token later
  | node name body rest ihBody ih =>
      obtain ⟨noNul, bodyNamed, restNamed⟩ := named
      intro token member
      rw [tokens, List.mem_cons, List.mem_append, List.mem_cons] at member
      rcases member with rfl | inBody | rfl | later
      · exact noNul
      · exact ihBody bodyNamed namesIn.1 token inBody
      · trivial
      · exact ih restNamed namesIn.2 token later

end Items

/-- The rest of the structure block is at the offset, and ends with `FDT_END` at the limit. -/
structure Rest (m : Mem) (fdt : BitVec 64) (strings : List Byte) (limit off : Nat)
    (tokens : List Token) : Prop where
  named : ∀ token ∈ tokens, token.Named strings
  placed : Placed m fdt off (tokens.flatMap Token.encode ++ word fdtEnd)
  ends : off + (tokens.flatMap Token.encode).length + 4 = limit

/-- A token, or `FDT_END`, is at the offset. -/
def AtToken (m : Mem) (fdt : BitVec 64) (strings : List Byte) (limit : Nat) (off : BitVec 32) :
    Prop :=
  ∃ tokens, Rest m fdt strings limit off.toNat tokens

section Tokens

variable {m : Mem} {fdt : BitVec 64} {strings more : List Byte} {limit off : Nat} {token : Token}
variable {tokens : List Token} {next here : BitVec 32}

/-- The first word of a token. -/
def Token.first : Token → BitVec 32
  | beginNode _ => fdtBeginNode
  | endNode => fdtEndNode
  | prop _ _ => fdtProp
  | nop => fdtNop

theorem Token.exists_of_first_prop (isProp : token.first = fdtProp) :
    ∃ nameoff value, token = .prop nameoff value := by
  cases token with
  | beginNode name => simp [first, fdtBeginNode, fdtProp] at isProp
  | endNode => simp [first, fdtEndNode, fdtProp] at isProp
  | prop nameoff value => exact ⟨nameoff, value, rfl⟩
  | nop => simp [first, fdtNop, fdtProp] at isProp

theorem tokenAt_placed (placed : Placed m fdt off (token.encode ++ more)) :
    tokenAt m fdt (BitVec.ofNat 32 off) = token.first := by
  cases token with
  | beginNode name => exact placed.begins
  | endNode => exact Placed.token placed
  | prop nameoff value =>
      obtain ⟨small, prop⟩ := Placed.propAt placed
      rw [tokenAt, pointer_eq small]
      exact prop.token
  | nop => exact Placed.token placed

/-- The next token is behind the bytes of this one. -/
theorem behind_placed (placed : Placed m fdt off (token.encode ++ more))
    (named : token.Named strings) :
    behind m fdt (BitVec.ofNat 32 off) = some (BitVec.ofNat 32 (off + token.size)) := by
  have first := tokenAt_placed placed
  rw [behind, first]
  cases token with
  | beginNode name =>
      obtain ⟨small, nameSmall⟩ := Placed.name_lt placed
      have length : m.strlen (fdt + BitVec.ofNat 64 off + 4) = name.length :=
        (Placed.cstring placed named).strlen (by omega)
      rw [Token.first, if_pos rfl, pointer_eq small, length, Placed.behindName placed, Token.size]
  | endNode =>
      rw [Token.first, if_neg (by decide), if_pos rfl, Token.size, BitVec.ofNat_add]
      rfl
  | prop nameoff value =>
      obtain ⟨small, prop⟩ := Placed.propAt placed
      rw [Token.first, if_neg (by decide), if_neg (by decide), if_pos rfl, pointer_eq small,
        prop.length, prop.next, Token.size]
  | nop =>
      rw [Token.first, if_neg (by decide), if_neg (by decide), if_neg (by decide), if_pos rfl,
        Token.size, BitVec.ofNat_add]
      rfl

/-- The bytes of a token without its padding. -/
theorem tokenBytes_placed (placed : Placed m fdt off (token.encode ++ more))
    (named : token.Named strings) :
    (tokenBytes m fdt (BitVec.ofNat 32 off)).map (roundUp 2) = some token.size := by
  have first := tokenAt_placed placed
  rw [tokenBytes, first]
  cases token with
  | beginNode name =>
      obtain ⟨small, nameSmall⟩ := Placed.name_lt placed
      have length : m.strlen (fdt + BitVec.ofNat 64 off + 4) = name.length :=
        (Placed.cstring placed named).strlen (by omega)
      rw [Token.first, if_pos rfl, pointer_eq small, length, Option.map_some, Token.size, beginSize,
        Nat.add_assoc, roundUp_add (by decide)]
  | endNode =>
      rw [Token.first, if_neg (by decide), if_pos rfl]
      rfl
  | prop nameoff value =>
      obtain ⟨small, prop⟩ := Placed.propAt placed
      have bytes := placed.small
      rw [Token.encode, List.length_append, propToken_length, propSize] at bytes
      have above := le_roundUp 2 value.length
      rw [Token.first, if_neg (by decide), if_neg (by decide), if_pos rfl, pointer_eq small,
        prop.length, Option.map_some, Token.size, propSize, BitVec.toNat_ofNat,
        Nat.mod_eq_of_lt (by omega), roundUp_add (by decide)]
  | nop =>
      rw [Token.first, if_neg (by decide), if_neg (by decide), if_neg (by decide), if_pos rfl]
      rfl

theorem Rest.first (rest : Rest m fdt strings limit off (token :: tokens)) :
    Placed m fdt off (token.encode ++ (tokens.flatMap Token.encode ++ word fdtEnd)) := by
  have placed := rest.placed
  rwa [List.flatMap_cons, List.append_assoc] at placed

/-- The tokens behind the first one. -/
theorem Rest.tail (rest : Rest m fdt strings limit off (token :: tokens)) :
    Rest m fdt strings limit (off + token.size) tokens := by
  have later := rest.first.right (by rw [Token.encode_length, Token.size_mod])
  have ends := rest.ends
  rw [Token.encode_length] at later
  rw [List.flatMap_cons, List.length_append, Token.encode_length] at ends
  exact ⟨fun other member => rest.named other (.tail _ member), later, by omega⟩

/-- At the end there is `FDT_END`. -/
theorem Rest.tokenAt_end (rest : Rest m fdt strings limit off []) :
    tokenAt m fdt (BitVec.ofNat 32 off) = fdtEnd := by
  have placed := rest.placed
  rw [List.flatMap_nil, List.nil_append, ← List.append_nil (word fdtEnd)] at placed
  exact placed.token

theorem Rest.small (rest : Rest m fdt strings limit off tokens) : off < 2 ^ 32 := by
  have small := rest.placed.small
  rw [List.length_append, word_length] at small
  omega

/-- A walk goes on from a token to the next one. -/
theorem AtToken.follows (atToken : AtToken m fdt strings limit here)
    (follows : Follows m fdt here next) : AtToken m fdt strings limit next := by
  obtain ⟨tokens, rest⟩ := atToken
  have offset := eq_ofNat_toNat here
  rw [Follows, offset] at follows
  cases tokens with
  | nil =>
      rw [behind, rest.tokenAt_end, if_neg (by decide), if_neg (by decide), if_neg (by decide),
        if_neg (by decide)] at follows
      cases follows
  | cons token tokens =>
      rw [behind_placed rest.first (rest.named token List.mem_cons_self)] at follows
      cases follows
      have tail := rest.tail
      have small := tail.small
      refine ⟨tokens, ?_⟩
      rwa [BitVec.toNat_ofNat, Nat.mod_eq_of_lt small]

theorem AtToken.of_chain (atToken : AtToken m fdt strings limit here)
    (chain : ReflTransGen (Follows m fdt) here next) : AtToken m fdt strings limit next := by
  induction chain with
  | refl => exact atToken
  | tail _ follows ih => exact ih.follows follows

end Tokens

/-! ## Blobs in a buffer -/

/-- A buffer that holds a blob of its `totalsize`, with both blocks. -/
structure LoadedBlob (m : Mem) (buffer : Buffer) (tree : Tree) (strings : List Byte) : Prop where
  blob : StringsBlob m buffer.base tree strings
  totalSize : (bswap32 (load32 m (buffer.base + 4))).toNat = buffer.size
  header : 40 ≤ buffer.size
  struct : (offDtStruct m buffer.base).toNat + tree.encode.length ≤ buffer.size
  strings : (offDtStrings m buffer.base).toNat + strings.length ≤ buffer.size

section Loaded

variable {m : Mem} {buffer : Buffer} {tree : Tree} {strings name path : List Byte} {limit : Nat}
variable {off : BitVec 32} {token : Token} {idx : PathIdx}

/-- The walk starts at a token. -/
theorem LoadedBlob.start (loaded : LoadedBlob m buffer tree strings) :
    AtToken m buffer.base strings
      ((offDtStruct m buffer.base).toNat + tree.encode.length) (offDtStruct m buffer.base) := by
  have blob := loaded.blob
  have placed := blob.placed
  have named : tree.items.Named :=
    Items.named_nops.mpr ⟨List.not_mem_nil, blob.named, Items.named_nops.mpr trivial⟩
  have namesIn : tree.items.NamesIn strings :=
    Items.namesIn_nops.mpr ⟨blob.namesIn, Items.namesIn_nops.mpr trivial⟩
  rw [Tree.encode, Items.encode_eq_flatMap] at placed ⊢
  refine ⟨tree.items.tokens, Items.tokens_named named namesIn, placed, ?_⟩
  rw [List.length_append, word_length]
  omega

/-- A token of a row, or the end of the row. -/
theorem AtToken.exists_token (atToken : AtToken m buffer.base strings limit off) :
    (tokenAt m buffer.base off = fdtEnd ∧ off.toNat + 4 ≤ limit) ∨
      ∃ (token : Token) (more : List Byte), token.Named strings ∧
        tokenAt m buffer.base off = token.first ∧
        Placed m buffer.base off.toNat (token.encode ++ more) ∧
        off.toNat + token.size + 4 ≤ limit := by
  obtain ⟨tokens, rest⟩ := atToken
  have offset := eq_ofNat_toNat off
  cases tokens with
  | nil =>
      left
      have ends := rest.ends
      have last := rest.tokenAt_end
      rw [← offset] at last
      exact ⟨last, by omega⟩
  | cons token tokens =>
      right
      have ends := rest.tail.ends
      have first := tokenAt_placed rest.first
      rw [← offset] at first
      exact ⟨token, _, rest.named token List.mem_cons_self, first, rest.first, by omega⟩

/-- Of other tokens only the word is read. -/
theorem tokenInside_of_word (notBegin : tokenAt m buffer.base off ≠ fdtBeginNode)
    (notProp : tokenAt m buffer.base off ≠ fdtProp) (word : off.toNat + 4 ≤ buffer.size) :
    TokenInside m buffer off :=
  ⟨word, fun begins => absurd begins notBegin, fun prop => absurd prop notProp⟩

/-- The token at an offset of the blob is inside its buffer. -/
theorem AtToken.inside (atToken : AtToken m buffer.base strings limit off)
    (short : limit ≤ buffer.size) : TokenInside m buffer off := by
  rcases atToken.exists_token with ⟨last, ends⟩ | ⟨token, more, named, first, placed, ends⟩
  · apply tokenInside_of_word
    · simp [last, fdtEnd, fdtBeginNode]
    · simp [last, fdtEnd, fdtProp]
    · omega
  · cases token with
    | beginNode name =>
        have above := le_roundUp 2 (name.length + 1)
        have nul := (Placed.cstring placed named).2.byte (i := name.length) (by simp)
        rw [Token.size, beginSize] at ends
        refine ⟨by omega, fun _ => ⟨name.length, by omega, ?_⟩, ?_⟩
        · rw [BitVec.ofNat_add, BitVec.ofNat_add, ← BitVec.add_assoc, ← BitVec.add_assoc]
          exact nul.trans (by simp)
        · simp [first, Token.first, fdtBeginNode, fdtProp]
    | endNode =>
        rw [Token.size] at ends
        apply tokenInside_of_word
        · simp [first, Token.first, fdtEndNode, fdtBeginNode]
        · simp [first, Token.first, fdtEndNode, fdtProp]
        · omega
    | prop nameoff value =>
        rw [Token.size, propSize] at ends
        refine ⟨by omega, ?_, fun _ => by omega⟩
        simp [first, Token.first, fdtBeginNode, fdtProp]
    | nop =>
        rw [Token.size] at ends
        apply tokenInside_of_word
        · simp [first, Token.first, fdtNop, fdtBeginNode]
        · simp [first, Token.first, fdtNop, fdtProp]
        · omega

/-- The name of a property is compared inside the strings block. -/
theorem nameOffset_inside {fdt : BitVec 64} {nameoff : BitVec 32}
    (stored : m.Stored (fdt + (offDtStrings m fdt).setWidth 64) strings)
    (terminated : 0 ∈ strings.drop nameoff.toNat) (noNul : 0 ∉ name) :
    nameoff.toNat + m.strcmpReads name (fdt + (offDtStrings m fdt).setWidth 64 +
      nameoff.setWidth 64) ≤ strings.length := by
  have string := cstring_nameAt stored terminated
  have reads := string.strcmpReads_le noNul
  obtain ⟨rest, same⟩ := exists_nul_append terminated
  have length := congrArg List.length same
  rw [List.length_drop, List.length_append, List.length_append, List.length_singleton] at length
  rw [nameAt] at reads
  omega

/-- The token at an offset of the blob is inside its buffer, with the name of a property. -/
theorem AtToken.propInside (loaded : LoadedBlob m buffer tree strings)
    (atToken : AtToken m buffer.base strings limit off) (short : limit ≤ buffer.size)
    (noNul : 0 ∉ name) : PropInside m buffer name off := by
  have inside := atToken.inside short
  by_cases isProp : tokenAt m buffer.base off = fdtProp
  · rcases atToken.exists_token with ⟨last, ends⟩ | ⟨token, more, named, first, placed, ends⟩
    · rw [last] at isProp
      exact absurd isProp (by decide)
    · obtain ⟨nameoff, value, rfl⟩ := Token.exists_of_first_prop (first.symm.trans isProp)
      obtain ⟨small, prop⟩ := Placed.propAt placed
      have nameOff := prop.nameOff
      have compared := nameOffset_inside loaded.blob.stringsStored named noNul
      have block := loaded.strings
      rw [Token.size, propSize] at ends
      rw [← setWidth_eq_ofNat] at nameOff
      refine ⟨inside.token, fun _ => by omega, fun _ => ?_⟩
      rw [nameOffset, propName, nameOff]
      omega
  · exact ⟨inside.token, fun prop => absurd prop isProp, fun prop => absurd prop isProp⟩

/-! ## The walks over a blob -/

/-- The tokens of the search for a path. -/
theorem LoadedBlob.walk (loaded : LoadedBlob m buffer tree strings) {n : Nat} {place : Place}
    (searched : Searched m buffer.base path n place) :
    AtToken m buffer.base strings
      ((offDtStruct m buffer.base).toNat + tree.encode.length) place.off :=
  loaded.start.of_chain (layout_follows searched.isPlace)

/-- The tokens that `fdt_getprop` comes to behind a node. -/
theorem AtToken.body (atToken : AtToken m buffer.base strings limit off)
    (begins : tokenAt m buffer.base off = fdtBeginNode) {k : Nat} {next : BitVec 32}
    (searched : PropSearched m buffer.base off name k next) :
    AtToken m buffer.base strings limit next := by
  have first : AtToken m buffer.base strings limit (bodyStart m buffer.base off) := by
    apply atToken.follows
    rw [Follows, behind, if_pos begins]
    rfl
  exact first.of_chain (propLayout_follows searched.isPlace)

/-- `fdt_path_offset` reads inside the buffer of a blob. -/
theorem LoadedBlob.pathOffset_inside (loaded : LoadedBlob m buffer tree strings)
    (path : List Byte) : pathOffsetRead m buffer.base path ⊆ buffer.inside := by
  have header := loaded.header
  rintro x ⟨idx, scanned, member⟩
  have inside : pathOffsetRead m buffer.base path ⊆ buffer.inside := by
    rw [pathOffsetRead_subset_iff scanned, header_subset_iff]
    refine ⟨by omega, ?_⟩
    intro s reached
    obtain ⟨n, place, searched, rfl⟩ := searched_of_reached (scanned_of_ok scanned) reached
    exact pathOffsetReads_subset_iff.mpr ((loaded.walk searched).inside loaded.struct)
  exact inside ⟨idx, scanned, member⟩

/-- `fdt_getprop` reads inside the buffer of a blob for the offset of a node. -/
theorem LoadedBlob.getprop_inside (loaded : LoadedBlob m buffer tree strings)
    (atToken : AtToken m buffer.base strings limit off) (short : limit ≤ buffer.size)
    (begins : tokenAt m buffer.base off = fdtBeginNode) (noNul : 0 ∉ name) :
    getpropRead m buffer.base off name ⊆ buffer.inside := by
  have header := loaded.header
  rw [getpropRead_inside_iff (by omega) (atToken.inside short) begins]
  intro k next searched
  exact (atToken.body begins searched).propInside loaded short noNul

/-- What `fdt_path_offset` returns on a blob is -1 or the offset of a node. -/
theorem LoadedBlob.returned (loaded : LoadedBlob m buffer tree strings)
    (returns : PathOffset m buffer.base path (.ok off)) (found : off ≠ -1) :
    AtToken m buffer.base strings ((offDtStruct m buffer.base).toNat + tree.encode.length) off ∧
      tokenAt m buffer.base off = fdtBeginNode := by
  obtain ⟨n, place, searched, isNode, rfl⟩ := returns.found found
  exact ⟨loaded.walk searched, isNode.begins⟩

/-- On a blob in a buffer the readers stay inside, for every name and every path that is counted
and has one to ten slashes. -/
theorem LoadedBlob.readsInside (loaded : LoadedBlob m buffer tree strings)
    (counted : path.length ≤ intMax) (slashes : 1 ≤ path.count slash ∧ path.count slash ≤ 10)
    (noNul : 0 ∉ name) : ReadsInside m buffer path name := by
  refine ⟨?_, loaded.pathOffset_inside path, ?_⟩
  · intro fault faults
    cases (pathOffset_iff_search loaded.blob.placed loaded.blob.named counted slashes _).mp faults
  · intro off returns small
    obtain ⟨atToken, begins⟩ := loaded.returned returns (ne_minus_one small)
    exact loaded.getprop_inside atToken loaded.struct begins noNul

/-- A token of a blob ends before 4 GiB. -/
theorem AtToken.fits (atToken : AtToken m buffer.base strings limit off) :
    Fits m buffer.base off := by
  intro bytes isToken
  rcases atToken.exists_token with ⟨last, ends⟩ | ⟨token, more, named, first, placed, ends⟩
  · rw [tokenBytes, last, if_neg (by decide), if_neg (by decide), if_neg (by decide),
      if_neg (by decide)] at isToken
    cases isToken
  · have size := tokenBytes_placed placed named
    rw [← eq_ofNat_toNat, isToken, Option.map_some, Option.some.injEq] at size
    have base := placed.base
    have aligned := placed.aligned
    have small := placed.small
    rw [List.length_append, Token.encode_length] at small
    rw [roundUp_add (by omega)]
    omega

/-- On a blob both searches meet the condition under which they return. -/
theorem LoadedBlob.fits (loaded : LoadedBlob m buffer tree strings) :
    (∀ n place, Searched m buffer.base path n place → Fits m buffer.base place.off) ∧
      ∀ n place, Searched m buffer.base path n place → Found m buffer.base path place →
        ∀ k off, PropSearched m buffer.base place.off name k off → Fits m buffer.base off := by
  constructor
  · intro n place searched
    exact (loaded.walk searched).fits
  · intro n place searched found k off propSearched
    exact ((loaded.walk searched).body found.begins propSearched).fits

end Loaded

end OscKernel.Fdt
