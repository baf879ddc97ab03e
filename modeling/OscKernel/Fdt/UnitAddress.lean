import OscKernel.Fdt.FullPath

/-!
# Components without a unit address (`ex21/main.c`)

`strncmp2` looks for `@` in the whole rest of the path, not in the component that it compares.  A
component without a unit address therefore stands for a node with one only as long as no later
component has a unit address, and a path without `@` has to be one that an `int` counts.
-/

namespace OscKernel.Fdt

open Riscv Words

/-! ## The rest of the path -/

/-- The characters of a name that `strncmp2` compares: all of them, unless the `int` length is
reduced. -/
def compared (name : List Byte) : List Byte := name.take (BitVec.ofNat 32 name.length).toInt.toNat

theorem not_prefix_of_longer {name component : List Byte} {c : Byte}
    (longer : component ++ [c] <+: name) : ¬ name <+: component := by
  intro shorter
  have lengths := longer.length_le.trans shorter.length_le
  rw [List.length_append, List.length_singleton] at lengths
  omega

section Tails

variable {name component tail tail₁ tail₂ : List Byte}

theorem accepts_eq_compare (name path : List Byte) :
    accepts name path = compare (path.contains atSign) (compared name) path := by
  have short := toInt_ofNat_le name.length
  have length : (compared name).length = (BitVec.ofNat 32 name.length).toInt.toNat := by
    rw [compared, List.length_take, Nat.min_eq_left short]
  rw [accepts, ← length, ← strncmp2Loop_eq]
  apply strncmp2Loop_congr
  intro i _ inside
  rw [Nat.zero_add, length] at inside
  simp [compared, List.getD_eq_getElem?_getD, inside]

/-- What is accepted for a component, whatever follows it. -/
theorem accepts_tail_iff (nameSlash : slash ∉ name) (nameNul : 0 ∉ name)
    (noSlash : slash ∉ component) (noNul : 0 ∉ component)
    (ended : tail = [] ∨ tail.head? = some slash) :
    accepts name (component ++ tail) = true ↔ compared name <+: component ∨
      (component ++ [atSign] <+: compared name ∧ atSign ∉ component ++ tail) := by
  have behind : tail.headD 0 = slash ∨ tail.headD 0 = 0 := by
    rcases ended with rfl | first
    · exact .inr rfl
    · left
      rw [List.headD_eq_head?_getD, first, Option.getD_some]
  have comparedSlash : slash ∉ compared name := fun member =>
    nameSlash (List.mem_of_mem_take member)
  have comparedNul : 0 ∉ compared name := fun member => nameNul (List.mem_of_mem_take member)
  rw [accepts_eq_compare, compare_iff comparedSlash comparedNul noSlash noNul behind,
    ← Bool.not_eq_true, List.contains_iff_mem]

/-- Two tails make a difference exactly if the name is the component with a unit address, the
component has none, and one of the tails has an `@` and the other has not. -/
theorem accepts_tails_iff (nameSlash : slash ∉ name) (nameNul : 0 ∉ name)
    (noSlash : slash ∉ component) (noNul : 0 ∉ component)
    (ended₁ : tail₁ = [] ∨ tail₁.head? = some slash)
    (ended₂ : tail₂ = [] ∨ tail₂.head? = some slash) :
    accepts name (component ++ tail₁) = accepts name (component ++ tail₂) ↔
      ¬ (component ++ [atSign] <+: compared name ∧ atSign ∉ component ∧
        ¬ (atSign ∈ tail₁ ↔ atSign ∈ tail₂)) := by
  rw [Bool.eq_iff_iff, accepts_tail_iff nameSlash nameNul noSlash noNul ended₁,
    accepts_tail_iff nameSlash nameNul noSlash noNul ended₂, List.mem_append, List.mem_append]
  by_cases longer : component ++ [atSign] <+: compared name
  · have notShorter : ¬ compared name <+: component := not_prefix_of_longer longer
    by_cases inside : atSign ∈ component
    · simp [inside]
    · simp [longer, notShorter, inside, not_iff_not]
  · simp [longer]

/-- `strncmp2` answers for a component with either tail, and gives the same answer. -/
def SameAnswer (name component tail₁ tail₂ : List Byte) : Prop :=
  ∃ answer, strncmp2 (fun i => name.getD i 0) (component ++ tail₁)
      (BitVec.ofNat 32 name.length) = .ok answer ∧
    strncmp2 (fun i => name.getD i 0) (component ++ tail₂)
      (BitVec.ofNat 32 name.length) = .ok answer

/-- The answers are those of `accepts` if both searches for an `@` end. -/
theorem sameAnswer_iff : SameAnswer name component tail₁ tail₂ ↔
    AtCounted (component ++ tail₁) ∧ AtCounted (component ++ tail₂) ∧
      accepts name (component ++ tail₁) = accepts name (component ++ tail₂) := by
  rw [SameAnswer, strncmp2_eq, strncmp2_eq, ← accepts, ← accepts]
  by_cases first : AtCounted (component ++ tail₁)
  · by_cases second : AtCounted (component ++ tail₂)
    · simp [first, second, eq_comm]
    · simp [second]
  · simp [first]

end Tails

/-! ## Paths with omitted unit addresses -/

/-- A component of a path with the name of the node that it stands for: the name itself, or the
name without its unit address. -/
structure Component where
  spelled : List Byte
  name : List Byte
  stands : spelled = name ∨ (atSign ∉ spelled ∧ spelled ++ [atSign] <+: name)

/-- The path that is written. -/
def spelledPath (route : List Component) : List Byte := fullPath (route.map Component.spelled)

/-- Behind every component without its unit address there is no `@`. -/
def NoLaterAt : List Component → Prop
  | [] => True
  | component :: route =>
      (component.spelled ≠ component.name → atSign ∉ spelledPath route) ∧ NoLaterAt route

/-- The components stand for the nodes on the way to `target`, and no sibling before these nodes
is accepted. -/
inductive Reaches : Items → Nat → Component → List Component → Nat → Prop where
  | here {component : Component} {body rest : Items} {off : Nat} :
      Reaches (.node component.name body rest) off component [] off
  | inside {component next : Component} {route : List Component} {body rest : Items}
      {off target : Nat} :
      Reaches body (off + beginSize component.name) next route target →
      Reaches (.node component.name body rest) off component (next :: route) target
  | behindNode {component : Component} {route : List Component} {other : List Byte}
      {body rest : Items} {off target : Nat} :
      ¬ accepts other (component.spelled ++ spelledPath route) = true →
      Reaches rest (off + beginSize other + body.size + 4) component route target →
      Reaches (.node other body rest) off component route target
  | behindProp {component : Component} {route : List Component} {nameoff : BitVec 32}
      {value : List Byte} {rest : Items} {off target : Nat} :
      Reaches rest (off + propSize value) component route target →
      Reaches (.prop nameoff value rest) off component route target
  | behindNop {component : Component} {route : List Component} {rest : Items} {off target : Nat} :
      Reaches rest (off + 4) component route target →
      Reaches (.nop rest) off component route target

section Routes

variable {items body rest : Items} {off target : Nat} {component : Component}
variable {route : List Component}

theorem Component.spelled_free {byte : Byte} (free : byte ∉ component.name) :
    byte ∉ component.spelled := by
  rcases component.stands with same | ⟨_, longer⟩
  · rwa [same]
  · exact fun member => free (longer.subset (List.mem_append_left _ member))

/-- A node is accepted for its component exactly if the unit address is written or no `@`
follows. -/
theorem accepts_component (nameSlash : slash ∉ component.name) (nameNul : 0 ∉ component.name)
    (small : component.name.length < 2 ^ 31) :
    accepts component.name (component.spelled ++ spelledPath route) = true ↔
      (component.spelled ≠ component.name → atSign ∉ spelledPath route) := by
  rw [spelledPath, accepts_iff nameSlash nameNul (component.spelled_free nameSlash)
    (component.spelled_free nameNul) small, ← spelledPath]
  rcases component.stands with same | ⟨noAt, longer⟩
  · simp [Shorter, same]
  · have notShorter : ¬ Shorter component.name component.spelled := not_prefix_of_longer longer
    have different : component.spelled ≠ component.name :=
      fun same => notShorter (same ▸ List.prefix_refl _)
    simp [notShorter, Abbreviated, longer, noAt, different, spelledPath]

theorem Reaches.bounds (reaches : Reaches items off component route target) :
    off ≤ target ∧ target < off + items.size := by
  induction reaches with
  | here =>
      simp only [Items.size, beginSize]
      omega
  | inside _ ih =>
      simp only [Items.size]
      omega
  | behindNode _ _ ih =>
      simp only [Items.size]
      omega
  | behindProp _ ih =>
      simp only [Items.size]
      omega
  | behindNop _ ih =>
      simp only [Items.size]
      omega

theorem Component.spelled_length (component : Component) :
    component.spelled.length ≤ component.name.length := by
  rcases component.stands with same | ⟨_, longer⟩
  · rw [same]
  · have length := longer.length_le
    rw [List.length_append] at length
    omega

/-- The path of a node is no longer than the tokens that it names. -/
theorem Reaches.spelledPath_length (reaches : Reaches items off component route target) :
    (spelledPath (component :: route)).length ≤ items.size := by
  induction reaches with
  | @here component body rest off =>
      have short := lt_beginSize component.name
      have spelled := component.spelled_length
      simp only [spelledPath, fullPath, List.map_cons, List.map_nil, List.flatMap_cons,
        List.flatMap_nil, List.length_append, List.length_cons, List.length_nil, Items.size]
      omega
  | @inside component next route body rest off target _ ih =>
      have short := lt_beginSize component.name
      have spelled := component.spelled_length
      rw [spelledPath, fullPath] at ih
      rw [spelledPath, fullPath, List.map_cons, List.flatMap_cons, List.length_append,
        List.length_cons, Items.size]
      omega
  | behindNode _ _ ih =>
      rw [Items.size]
      omega
  | behindProp _ ih =>
      rw [Items.size]
      omega
  | behindNop _ ih =>
      rw [Items.size]
      omega

/-- Names on the way are well formed. -/
theorem Reaches.wellFormed (reaches : Reaches items off component route target)
    (wellFormed : items.WellFormed) : ∀ other ∈ component :: route,
    0 ∉ other.name ∧ slash ∉ other.name := by
  induction reaches with
  | here =>
      intro other member
      rw [List.mem_singleton.mp member]
      exact ⟨wellFormed.1.2.1, wellFormed.1.2.2.1⟩
  | inside _ ih =>
      exact List.forall_mem_cons.mpr
        ⟨⟨wellFormed.1.2.1, wellFormed.1.2.2.1⟩, ih wellFormed.2.1⟩
  | behindNode _ _ ih => exact ih wellFormed.2.2
  | behindProp _ ih => exact ih wellFormed
  | behindNop _ ih => exact ih wellFormed

/-- The suffixes of a written path. -/
theorem suffixes_spelledPath (free : slash ∉ component.name) :
    suffixes (spelledPath (component :: route)) =
      (component.spelled ++ spelledPath route) :: suffixes (spelledPath route) :=
  suffixes_fullPath (component.spelled_free free)

/-- A search that passes a node does not find anything inside it. -/
theorem search_behind {name suffix : List Byte} {later : List (List Byte)}
    (rejected : ¬ accepts name suffix = true) (before : target < off + beginSize name + body.size) :
    (Items.node name body rest).search off suffix later ≠ some target := by
  intro found
  rw [Items.search_other rejected] at found
  have bounds := search_bounds found
  omega

/-- The search finds the node exactly if every omitted unit address has no `@` behind it.  The
induction follows the way to the node. -/
theorem Reaches.search_iff (reaches : Reaches items off component route target)
    (wellFormed : items.WellFormed) (small : items.size < 2 ^ 31) :
    items.search off (component.spelled ++ spelledPath route) (suffixes (spelledPath route)) =
      some target ↔ NoLaterAt (component :: route) := by
  induction reaches with
  | @here component body rest off =>
      obtain ⟨⟨-, noNul, noSlash, -⟩, -, -⟩ := wellFormed
      have short := lt_beginSize component.name
      rw [Items.size] at small
      have accepted : accepts component.name (component.spelled ++ spelledPath []) = true ↔ _ :=
        accepts_component noSlash noNul (by omega)
      have nothing : suffixes (spelledPath []) = [] := rfl
      rw [NoLaterAt, ← accepted, nothing]
      by_cases taken : accepts component.name (component.spelled ++ spelledPath []) = true
      · rw [Items.search_found taken]
        simp [taken, NoLaterAt]
      · have missed := @search_behind body rest off off _ _ [] taken (by omega)
        simp [missed, taken]
  | @inside component next route body rest off target inner ih =>
      obtain ⟨⟨-, noNul, noSlash, -⟩, bodyWellFormed, -⟩ := wellFormed
      have short := lt_beginSize component.name
      have bounds := inner.bounds
      have free := (inner.wellFormed bodyWellFormed next (List.mem_cons_self ..)).2
      rw [Items.size] at small
      have accepted : accepts component.name
          (component.spelled ++ spelledPath (next :: route)) = true ↔ _ :=
        accepts_component noSlash noNul (by omega)
      rw [NoLaterAt, ← accepted, ← ih bodyWellFormed (by omega), suffixes_spelledPath free]
      by_cases taken : accepts component.name
          (component.spelled ++ spelledPath (next :: route)) = true
      · rw [Items.search_enter taken]
        simp [taken]
      · have missed := @search_behind body rest off target _ _
          ((next.spelled ++ spelledPath route) :: suffixes (spelledPath route)) taken bounds.2
        simp [missed, taken]
  | behindNode rejected _ ih =>
      rw [Items.size] at small
      rw [Items.search_other rejected]
      exact ih wellFormed.2.2 (by omega)
  | behindProp _ ih =>
      rw [Items.size] at small
      exact ih wellFormed (by omega)
  | behindNop _ ih =>
      rw [Items.size] at small
      exact ih wellFormed (by omega)

end Routes

section Blob

variable {m : Mem} {fdt : BitVec 64} {tree : Tree} {target : Nat} {component : Component}
variable {route : List Component}

/-- The path finds the node that its components stand for exactly if every omitted unit address
has no `@` behind it. -/
theorem pathOffset_spelledPath (blob : Blob m fdt tree) (wellFormed : tree.body.WellFormed)
    (reaches : Reaches tree.body ((offDtStruct m fdt).toNat + tree.bodyOffset) component route
      target) (depth : (component :: route).length ≤ 10) :
    PathOffset m fdt (spelledPath (component :: route)) (.ok (BitVec.ofNat 32 target)) ↔
      NoLaterAt (component :: route) := by
  have small := blob.body_small
  have names := reaches.wellFormed wellFormed
  have bounds := reaches.bounds
  have spelledFree : ∀ spelled ∈ (component :: route).map Component.spelled, slash ∉ spelled := by
    intro spelled member
    obtain ⟨other, otherMember, rfl⟩ := List.mem_map.mp member
    exact other.spelled_free (names other otherMember).2
  have count : (spelledPath (component :: route)).count slash = (component :: route).length := by
    rw [spelledPath, count_fullPath spelledFree, List.length_map]
  have length : (component :: route).length = route.length + 1 := rfl
  have pathLength := reaches.spelledPath_length
  have counted : (spelledPath (component :: route)).length ≤ intMax := by
    rw [intMax]
    omega
  rw [← reaches.search_iff wellFormed (by omega), pathOffset_iff blob counted (by omega),
    suffixes_spelledPath (names component (List.mem_cons_self ..)).2, Tree.search, Except.ok.injEq]
  apply resultOf_eq_iff
  · omega
  · intro off searched
    have inside := search_bounds searched
    omega

end Blob

/-- What follows a component makes a difference to its match exactly if the name is the component
with a unit address, the component has none, and `@` follows in one case only, or if it has too
many characters before the first `@`.  A path with omitted unit addresses finds its node exactly
if no `@` follows any of them. -/
theorem component_match_iff (name part tail₁ tail₂ : List Byte) (m : Mem) (fdt : BitVec 64)
    (tree : Tree) (component : Component) (route : List Component) (target : Nat) :
    (slash ∉ name → 0 ∉ name → slash ∉ part → 0 ∉ part →
      (tail₁ = [] ∨ tail₁.head? = some slash) → (tail₂ = [] ∨ tail₂.head? = some slash) →
      (SameAnswer name part tail₁ tail₂ ↔
        AtCounted (part ++ tail₁) ∧ AtCounted (part ++ tail₂) ∧
          ¬ (part ++ [atSign] <+: compared name ∧ atSign ∉ part ∧
            ¬ (atSign ∈ tail₁ ↔ atSign ∈ tail₂)))) ∧
    (Blob m fdt tree → tree.body.WellFormed →
      Reaches tree.body ((offDtStruct m fdt).toNat + tree.bodyOffset) component route target →
      (component :: route).length ≤ 10 →
      (PathOffset m fdt (spelledPath (component :: route)) (.ok (BitVec.ofNat 32 target)) ↔
        NoLaterAt (component :: route))) := by
  constructor
  · intro nameSlash nameNul noSlash noNul ended₁ ended₂
    rw [sameAnswer_iff, accepts_tails_iff nameSlash nameNul noSlash noNul ended₁ ended₂]
  · intro blob wellFormed reaches depth
    exact pathOffset_spelledPath blob wellFormed reaches depth

/-! ## A device behind a bus -/

/-- A bus with one device, both with unit addresses. -/
def bus : Tree where
  before := 0
  body := .node (ascii "soc@0") (.node (ascii "uart@1") .nil .nil) .nil
  after := 0

/-- `soc` for `soc@0` -/
def soc : Component := ⟨ascii "soc", ascii "soc@0", .inr (by decide)⟩

theorem bus_reaches (device : Component) (uart : device.name = ascii "uart@1") :
    Reaches bus.body 64 soc [device] 76 := by
  have inner : Reaches (.node device.name .nil .nil) 76 device [] 76 := .here
  rw [uart] at inner
  have place : 64 + beginSize soc.name = 76 := by decide
  rw [← place] at inner ⊢
  exact .inside inner

theorem component_match_soc :
    SameAnswer (ascii "soc@0") (ascii "soc") [] (ascii "/uart") ∧
    PathOffset (blobMem bus) blobBase (ascii "/soc/uart") (.ok 76) ∧
    ¬ PathOffset (blobMem bus) blobBase (ascii "/soc/uart@1") (.ok 76) := by
  obtain ⟨blob, struct⟩ := @blob_blobMem bus (by decide) (by decide +kernel)
  have place : (offDtStruct (blobMem bus) blobBase).toNat + bus.bodyOffset = 64 := by
    rw [struct]
    decide
  have short := bus_reaches ⟨ascii "uart", ascii "uart@1", .inr (by decide)⟩ rfl
  have long := bus_reaches ⟨ascii "uart@1", ascii "uart@1", .inl rfl⟩ rfl
  rw [← place] at short long
  have works := component_match_iff (ascii "soc@0") (ascii "soc") [] (ascii "/uart")
    (blobMem bus) blobBase bus soc [⟨ascii "uart", ascii "uart@1", .inr (by decide)⟩] 76
  have fails := component_match_iff (ascii "soc@0") (ascii "soc") [] (ascii "/uart")
    (blobMem bus) blobBase bus soc [⟨ascii "uart@1", ascii "uart@1", .inl rfl⟩] 76
  refine ⟨?_, ?_, ?_⟩
  · exact (works.1 (by decide) (by decide) (by decide) (by decide) (by decide)
      (by decide)).mpr (by decide)
  · exact (works.2 blob (by decide) short (by decide)).mpr
      ⟨fun _ => by decide, fun _ => by decide, trivial⟩
  · intro found
    have noLater := (fails.2 blob (by decide) long (by decide)).mp found
    exact absurd (noLater.1 (by decide)) (by decide)

/-- `soc@0` is accepted for `soc`, but not with `/uart@1` behind it. -/
theorem later_unit_address_matters :
    ¬ ∀ name component tail₁ tail₂ : List Byte, slash ∉ name → 0 ∉ name → slash ∉ component →
      0 ∉ component → (tail₁ = [] ∨ tail₁.head? = some slash) →
      (tail₂ = [] ∨ tail₂.head? = some slash) → SameAnswer name component tail₁ tail₂ := by
  intro independent
  have same := independent (ascii "soc@0") (ascii "soc") [] (ascii "/uart@1") (by decide)
    (by decide) (by decide) (by decide) (by decide) (by decide)
  rw [sameAnswer_iff] at same
  exact absurd same.2.2 (by decide)

end OscKernel.Fdt
