import OscKernel.Fdt.Search

/-!
# Looking up full paths (`ex21/main.c`)

`strncmp2` compares as many characters as the node has in its name, and accepts a node with a unit
address for a component without one.  The full path of a node finds that node as long as no
sibling before it is accepted for the same component.
-/

namespace OscKernel.Fdt

open Alloc Riscv Words

/-- A node with its path: its offset `target`, the components that lead to it, among items at
`off`. -/
inductive NodeAt : Items → Nat → List Byte → List (List Byte) → Nat → Prop where
  | here {name : List Byte} {body rest : Items} {off : Nat} :
      NodeAt (.node name body rest) off name [] off
  | inside {name next : List Byte} {body rest : Items} {off target : Nat}
      {names : List (List Byte)} :
      NodeAt body (off + beginSize name) next names target →
      NodeAt (.node name body rest) off name (next :: names) target
  | behindNode {other name : List Byte} {body rest : Items} {off target : Nat}
      {names : List (List Byte)} :
      NodeAt rest (off + beginSize other + body.size + 4) name names target →
      NodeAt (.node other body rest) off name names target
  | behindProp {nameoff : BitVec 32} {value name : List Byte} {rest : Items} {off target : Nat}
      {names : List (List Byte)} :
      NodeAt rest (off + propSize value) name names target →
      NodeAt (.prop nameoff value rest) off name names target
  | behindNop {name : List Byte} {rest : Items} {off target : Nat} {names : List (List Byte)} :
      NodeAt rest (off + 4) name names target →
      NodeAt (.nop rest) off name names target

/-- `/` and the components, each behind a slash. -/
def fullPath (names : List (List Byte)) : List Byte := names.flatMap (slash :: ·)

namespace Items

/-- The names of the children. -/
def childNames : Items → List (List Byte)
  | nil => []
  | nop rest => rest.childNames
  | prop _ _ rest => rest.childNames
  | node name _ rest => name :: rest.childNames

/-- Names are not empty and have neither NUL nor `/`, and siblings have different names. -/
def WellFormed : Items → Prop
  | nil => True
  | nop rest => rest.WellFormed
  | prop _ _ rest => rest.WellFormed
  | node name body rest =>
      (name ≠ [] ∧ 0 ∉ name ∧ slash ∉ name ∧ name ∉ rest.childNames) ∧
        body.WellFormed ∧ rest.WellFormed

instance decidableWellFormed : (items : Items) → Decidable items.WellFormed
  | nil => isTrue trivial
  | nop rest => rest.decidableWellFormed
  | prop _ _ rest => rest.decidableWellFormed
  | node name body rest =>
      have := body.decidableWellFormed
      have := rest.decidableWellFormed
      inferInstanceAs (Decidable ((name ≠ [] ∧ 0 ∉ name ∧ slash ∉ name ∧ name ∉ rest.childNames) ∧
        body.WellFormed ∧ rest.WellFormed))

/-- A property of every sibling before the nodes on the path, with the component and the ones
behind it. -/
def BeforePath (property : List Byte → List Byte → List (List Byte) → Prop) :
    Items → List Byte → List (List Byte) → Prop
  | nil, _, _ => True
  | nop rest, name, names => rest.BeforePath property name names
  | prop _ _ rest, name, names => rest.BeforePath property name names
  | node other body rest, name, names =>
      if other = name then
        match names with
        | [] => True
        | next :: names => body.BeforePath property next names
      else property other name names ∧ rest.BeforePath property name names

section BeforePath

variable {property : List Byte → List Byte → List (List Byte) → Prop}
variable {other name next : List Byte} {names : List (List Byte)} {body rest : Items}

@[simp] theorem beforePath_here (same : other = name) :
    (node other body rest).BeforePath property name [] := by
  simp [BeforePath, same]

@[simp] theorem beforePath_inside (same : other = name) :
    (node other body rest).BeforePath property name (next :: names) ↔
      body.BeforePath property next names := by
  simp [BeforePath, same]

theorem beforePath_other (different : other ≠ name) :
    (node other body rest).BeforePath property name names ↔
      property other name names ∧ rest.BeforePath property name names := by
  simp [BeforePath, different]

end BeforePath

instance decidableBeforePath (property : List Byte → List Byte → List (List Byte) → Prop)
    [∀ other name names, Decidable (property other name names)] :
    (items : Items) → (name : List Byte) → (names : List (List Byte)) →
      Decidable (items.BeforePath property name names)
  | nil, _, _ => isTrue trivial
  | nop rest, name, names => rest.decidableBeforePath property name names
  | prop _ _ rest, name, names => rest.decidableBeforePath property name names
  | node other body rest, name, names =>
      if same : other = name then
        match names with
        | [] => isTrue (beforePath_here same)
        | next :: names =>
            have := body.decidableBeforePath property next names
            decidable_of_iff _ (beforePath_inside same).symm
      else
        have := rest.decidableBeforePath property name names
        decidable_of_iff _ (beforePath_other same).symm

end Items

/-- The sibling's name starts the component. -/
def Shorter (other name : List Byte) : Prop := other <+: name

/-- The sibling's name is the component with a unit address, and no unit address follows in the
path. -/
def Abbreviated (other name : List Byte) (names : List (List Byte)) : Prop :=
  name ++ [atSign] <+: other ∧ atSign ∉ name ++ fullPath names

/-! ## `strncmp2` -/

section Accepts

variable {name other path tail : List Byte} {flag : Bool} {n i : Nat} {nodeName : Nat → Byte}

/-- The second loop of `strncmp2` on the characters of the name. -/
def compare (haveAt : Bool) : List Byte → List Byte → Bool
  | [], _ => true
  | c :: name, path =>
      if c ≠ path.headD 0 then
        !haveAt && (c == atSign && (path.headD 0 == slash || path.headD 0 == 0))
      else compare haveAt name path.tail

theorem strncmp2Loop_tail :
    strncmp2Loop flag nodeName path n (i + 1) =
      strncmp2Loop flag (fun j => nodeName (j + 1)) path.tail n i := by
  induction n generalizing i with
  | zero => rfl
  | succ n ih =>
      have same : path.tail.getD i 0 = path.getD (i + 1) 0 := by
        cases path with
        | nil => rfl
        | cons c path => rfl
      rw [strncmp2Loop, strncmp2Loop, ih, same]

theorem strncmp2Loop_eq : strncmp2Loop flag (fun i => name.getD i 0) path name.length 0 =
    compare flag name path := by
  induction name generalizing path with
  | nil => rfl
  | cons c name ih =>
      have first : path.getD 0 0 = path.headD 0 := by
        cases path with
        | nil => rfl
        | cons d path => rfl
      rw [List.length_cons, strncmp2Loop, strncmp2Loop_tail, compare, first]
      simp only [List.getD_cons_zero, List.getD_cons_succ, ih]

/-- A name is accepted for a component if it starts the component, or starts with the component and
`@` in a path without `@`. -/
theorem compare_iff (otherSlash : slash ∉ other) (otherNul : 0 ∉ other) (noSlash : slash ∉ name)
    (noNul : 0 ∉ name) (ended : tail.headD 0 = slash ∨ tail.headD 0 = 0) :
    compare flag other (name ++ tail) = true ↔
      other <+: name ∨ (name ++ [atSign] <+: other ∧ flag = false) := by
  induction other generalizing name with
  | nil => simp [compare]
  | cons c other ih =>
      obtain ⟨notSlash, otherSlash⟩ := List.ne_and_not_mem_of_not_mem_cons otherSlash
      obtain ⟨notNul, otherNul⟩ := List.ne_and_not_mem_of_not_mem_cons otherNul
      cases name with
      | nil =>
          have different : c ≠ tail.headD 0 := by
            rcases ended with isSlash | isNul
            · rw [isSlash]
              exact notSlash.symm
            · rw [isNul]
              exact notNul.symm
          have last : (tail.headD 0 == slash || tail.headD 0 == 0) = true := by
            simpa using ended
          rw [List.nil_append, compare, if_pos different, last, List.nil_append,
            List.cons_prefix_cons]
          constructor
          · intro accepted
            simp only [Bool.and_true, Bool.and_eq_true, Bool.not_eq_true', beq_iff_eq] at accepted
            exact .inr ⟨⟨accepted.2.symm, List.nil_prefix⟩, accepted.1⟩
          · rintro (starts | ⟨⟨isAt, -⟩, free⟩)
            · exact absurd starts.length_le (Nat.not_succ_le_zero _)
            · simp [isAt, free]
      | cons d name =>
          obtain ⟨slashFree, noSlash⟩ := List.ne_and_not_mem_of_not_mem_cons noSlash
          obtain ⟨nulFree, noNul⟩ := List.ne_and_not_mem_of_not_mem_cons noNul
          have head : (d :: name ++ tail).headD 0 = d := rfl
          have rest : (d :: name ++ tail).tail = name ++ tail := rfl
          rw [compare, head, rest, List.cons_append, List.cons_prefix_cons, List.cons_prefix_cons]
          by_cases same : c = d
          · rw [if_neg (not_not.mpr same), ih otherSlash otherNul noSlash noNul]
            simp [same]
          · have inside : (d == slash || d == 0) = false := by
              rw [beq_false_of_ne slashFree.symm, beq_false_of_ne nulFree.symm, Bool.or_false]
            rw [if_pos same, inside]
            simp [same, Ne.symm same]

/-- The path behind a component. -/
theorem fullPath_headD (names : List (List Byte)) :
    (fullPath names).headD 0 = slash ∨ (fullPath names).headD 0 = 0 := by
  cases names with
  | nil => exact .inr rfl
  | cons name names => exact .inl rfl

/-- What is accepted for a component of a full path. -/
theorem accepts_iff {names : List (List Byte)} (otherSlash : slash ∉ other) (otherNul : 0 ∉ other)
    (noSlash : slash ∉ name) (noNul : 0 ∉ name) (small : other.length < 2 ^ 31) :
    accepts other (name ++ fullPath names) = true ↔
      Shorter other name ∨ Abbreviated other name names := by
  rw [accepts, toInt_ofNat small, strncmp2Loop_eq,
    compare_iff otherSlash otherNul noSlash noNul (fullPath_headD names), Shorter, Abbreviated,
    ← Bool.not_eq_true, List.contains_iff_mem]

end Accepts

/-! ## The search for a full path -/

section Search

variable {items : Items} {off target result : Nat} {name suffix : List Byte}
variable {names later : List (List Byte)}

theorem NodeAt.mem_childNames (found : NodeAt items off name names target) :
    name ∈ items.childNames := by
  induction found with
  | here => exact List.mem_cons_self ..
  | inside => exact List.mem_cons_self ..
  | behindNode _ ih => exact List.mem_cons_of_mem _ ih
  | behindProp _ ih => exact ih
  | behindNop _ ih => exact ih

theorem NodeAt.bounds (found : NodeAt items off name names target) :
    off ≤ target ∧ target < off + items.size := by
  induction found with
  | here =>
      simp only [Items.size, beginSize]
      omega
  | inside _ ih =>
      simp only [Items.size]
      omega
  | behindNode _ ih =>
      simp only [Items.size]
      omega
  | behindProp _ ih =>
      simp only [Items.size]
      omega
  | behindNop _ ih =>
      simp only [Items.size]
      omega

/-- The path of a node is no longer than the tokens that it names. -/
theorem NodeAt.fullPath_length (found : NodeAt items off name names target) :
    (fullPath (name :: names)).length ≤ items.size := by
  induction found with
  | @here name body rest off =>
      have short := lt_beginSize name
      simp only [fullPath, List.flatMap_cons, List.flatMap_nil, List.length_append,
        List.length_cons, List.length_nil, Items.size]
      omega
  | @inside name next body rest off target names _ ih =>
      have short := lt_beginSize name
      rw [fullPath] at ih
      rw [fullPath, List.flatMap_cons, List.length_append, List.length_cons, Items.size]
      omega
  | behindNode _ ih =>
      rw [Items.size]
      omega
  | behindProp _ ih =>
      rw [Items.size]
      omega
  | behindNop _ ih =>
      rw [Items.size]
      omega

/-- A found node is among the items. -/
theorem search_bounds (found : items.search off suffix later = some result) :
    off ≤ result ∧ result < off + items.size := by
  induction items generalizing off suffix later with
  | nil => cases found
  | nop rest ih =>
      have inside := ih found
      rw [Items.size]
      omega
  | prop nameoff value rest ih =>
      have inside := ih found
      rw [Items.size]
      omega
  | node name body rest ihBody ih =>
      rw [Items.size]
      by_cases accepted : accepts name suffix = true
      · cases later with
        | nil =>
            rw [Items.search_found accepted] at found
            cases found
            rw [beginSize]
            omega
        | cons next later =>
            rw [Items.search_enter accepted] at found
            have inside := ihBody found
            omega
      · rw [Items.search_other accepted] at found
        have inside := ih found
        omega

theorem suffixes_append (noSlash : slash ∉ name) (path : List Byte) :
    suffixes (name ++ path) = suffixes path := by
  induction name with
  | nil => rfl
  | cons c name ih =>
      obtain ⟨different, noSlash⟩ := List.ne_and_not_mem_of_not_mem_cons noSlash
      rw [List.cons_append, suffixes, if_neg different.symm, ih noSlash]

theorem suffixes_fullPath (noSlash : slash ∉ name) :
    suffixes (fullPath (name :: names)) =
      (name ++ fullPath names) :: suffixes (fullPath names) := by
  rw [fullPath, List.flatMap_cons, List.cons_append, suffixes, if_pos rfl, ← fullPath,
    suffixes_append noSlash]

/-- The components of a node. -/
theorem NodeAt.wellFormed (found : NodeAt items off name names target)
    (wellFormed : items.WellFormed) : ∀ component ∈ name :: names,
    0 ∉ component ∧ slash ∉ component := by
  induction found with
  | here =>
      intro component member
      rw [List.mem_singleton.mp member]
      exact ⟨wellFormed.1.2.1, wellFormed.1.2.2.1⟩
  | inside _ ih =>
      exact List.forall_mem_cons.mpr
        ⟨⟨wellFormed.1.2.1, wellFormed.1.2.2.1⟩, ih wellFormed.2.1⟩
  | behindNode _ ih => exact ih wellFormed.2.2
  | behindProp _ ih => exact ih wellFormed
  | behindNop _ ih => exact ih wellFormed

/-- A node is accepted for its own name. -/
theorem accepts_self {body rest : Items} (wellFormed : (Items.node name body rest).WellFormed)
    (small : (Items.node name body rest).size < 2 ^ 31) (names : List (List Byte)) :
    accepts name (name ++ fullPath names) = true := by
  obtain ⟨⟨-, noNul, noSlash, -⟩, -, -⟩ := wellFormed
  have above := le_roundUp 2 (name.length + 1)
  rw [Items.size, beginSize] at small
  exact (accepts_iff noSlash noNul noSlash noNul (by omega)).mpr (.inl (List.prefix_refl _))

/-- A search that enters another node does not find what is behind it. -/
theorem search_before {other : List Byte} {body rest : Items}
    (taken : accepts other suffix = true)
    (behind : off + beginSize other + body.size + 4 ≤ target) :
    (Items.node other body rest).search off suffix later ≠ some target := by
  intro found
  cases later with
  | nil =>
      rw [Items.search_found taken] at found
      cases found
      rw [beginSize] at behind
      omega
  | cons next later =>
      rw [Items.search_enter taken] at found
      have inside := search_bounds found
      omega

/-- The search finds the node if and only if no sibling before its path is accepted.  The induction
follows the way to the node. -/
theorem search_fullPath_iff (found : NodeAt items off name names target)
    (wellFormed : items.WellFormed) (small : items.size < 2 ^ 31) :
    items.search off (name ++ fullPath names) (suffixes (fullPath names)) = some target ↔
      items.BeforePath
        (fun other name names => ¬ Shorter other name ∧ ¬ Abbreviated other name names)
        name names := by
  induction found with
  | here =>
      have nothing : suffixes (fullPath []) = [] := rfl
      rw [nothing, Items.search_found (accepts_self wellFormed small [])]
      simp
  | inside inner ih =>
      have accepted := accepts_self wellFormed small
      obtain ⟨-, bodyWellFormed, -⟩ := wellFormed
      have components := inner.wellFormed bodyWellFormed
      rw [Items.size] at small
      rw [suffixes_fullPath (components _ (List.mem_cons_self ..)).2,
        Items.search_enter (accepted _), Items.beforePath_inside rfl]
      exact ih bodyWellFormed (by omega)
  | @behindNode other name body rest off target names inner ih =>
      obtain ⟨⟨-, otherNul, otherSlash, new⟩, -, restWellFormed⟩ := wellFormed
      have different : other ≠ name := fun same => new (same ▸ inner.mem_childNames)
      obtain ⟨noNul, noSlash⟩ := inner.wellFormed restWellFormed _ (List.mem_cons_self ..)
      have behind := inner.bounds.1
      rw [Items.size, beginSize] at small
      have above := le_roundUp 2 (other.length + 1)
      have accepted : accepts other (name ++ fullPath names) = true ↔
          Shorter other name ∨ Abbreviated other name names :=
        accepts_iff otherSlash otherNul noSlash noNul (by omega)
      rw [Items.beforePath_other different, ← not_or, ← accepted]
      by_cases taken : accepts other (name ++ fullPath names) = true
      · have missed : (Items.node other body rest).search off (name ++ fullPath names)
            (suffixes (fullPath names)) ≠ some target := search_before taken behind
        simp [missed, taken]
      · rw [Items.search_other taken, ih restWellFormed (by omega)]
        simp [taken]
  | behindProp _ ih =>
      rw [Items.size] at small
      exact ih wellFormed (by omega)
  | behindNop _ ih =>
      rw [Items.size] at small
      exact ih wellFormed (by omega)

end Search

theorem beforePath_and {items : Items} {name : List Byte} {names : List (List Byte)}
    {first second : List Byte → List Byte → List (List Byte) → Prop} :
    items.BeforePath (fun other name names => first other name names ∧ second other name names)
        name names ↔
      items.BeforePath first name names ∧ items.BeforePath second name names := by
  induction items generalizing name names with
  | nil => simp [Items.BeforePath]
  | nop rest ih => exact ih
  | prop nameoff value rest ih => exact ih
  | node other body rest ihBody ih =>
      by_cases same : other = name
      · subst same
        cases names with
        | nil => simp
        | cons next names => simp [ihBody]
      · simp only [Items.beforePath_other same, ih]
        exact and_and_and_comm

section Blob

variable {m : Mem} {fdt : BitVec 64} {tree : Tree} {name : List Byte} {names : List (List Byte)}
variable {target : Nat}

theorem count_fullPath {names : List (List Byte)} (noSlash : ∀ name ∈ names, slash ∉ name) :
    (fullPath names).count slash = names.length := by
  induction names with
  | nil => rfl
  | cons name names ih =>
      obtain ⟨here, later⟩ := List.forall_mem_cons.mp noSlash
      have path : fullPath (name :: names) = slash :: (name ++ fullPath names) := rfl
      rw [path, List.count_cons_self, List.count_append, List.count_eq_zero_of_not_mem here,
        ih later, List.length_cons, Nat.zero_add]

/-- Results of the search are told apart by their `int`. -/
theorem resultOf_eq_iff {result : Option Nat} (small : target < 2 ^ 31)
    (resultSmall : ∀ off, result = some off → off < 2 ^ 31) :
    BitVec.ofNat 32 target = resultOf result ↔ result = some target := by
  constructor
  · intro same
    have values := congrArg BitVec.toNat same
    rw [BitVec.toNat_ofNat] at values
    cases result with
    | none =>
        have negative : (resultOf none).toNat = 2 ^ 32 - 1 := rfl
        rw [negative] at values
        omega
    | some off =>
        have offSmall := resultSmall off rfl
        rw [resultOf, BitVec.toNat_ofNat] at values
        congr 1
        omega
  · rintro rfl
    rfl

/-- The full path of a node finds the node if and only if no sibling before a node of the path has
a shorter name or a unit address where the path has none. -/
theorem pathOffset_fullPath (blob : Blob m fdt tree) (wellFormed : tree.body.WellFormed)
    (found : NodeAt tree.body ((offDtStruct m fdt).toNat + tree.bodyOffset) name names target)
    (depth : (name :: names).length ≤ 10) :
    PathOffset m fdt (fullPath (name :: names)) (.ok (BitVec.ofNat 32 target)) ↔
      tree.body.BeforePath (fun other name _ => ¬ Shorter other name) name names ∧
        tree.body.BeforePath (fun other name names => ¬ Abbreviated other name names)
          name names := by
  have small := blob.body_small
  have components := found.wellFormed wellFormed
  have bounds := found.bounds
  have rests : suffixes (fullPath (name :: names)) =
      (name ++ fullPath names) :: suffixes (fullPath names) :=
    suffixes_fullPath (components _ (List.mem_cons_self ..)).2
  have count : (fullPath (name :: names)).count slash = (name :: names).length :=
    count_fullPath fun component member => (components component member).2
  have length : (name :: names).length = names.length + 1 := rfl
  have pathLength := found.fullPath_length
  have counted : (fullPath (name :: names)).length ≤ intMax := by
    rw [intMax]
    omega
  rw [← beforePath_and, ← search_fullPath_iff found wellFormed (by omega),
    pathOffset_iff blob counted (by omega), rests, Tree.search, Except.ok.injEq]
  apply resultOf_eq_iff
  · omega
  · intro off searched
    have inside := search_bounds searched
    omega

/-- Where no sibling before the nodes of the path has a shorter name, the full path finds the node
if and only if none of these siblings is the component with a unit address. -/
theorem fullPath_finds_node (blob : Blob m fdt tree) (wellFormed : tree.body.WellFormed)
    (found : NodeAt tree.body ((offDtStruct m fdt).toNat + tree.bodyOffset) name names target)
    (depth : (name :: names).length ≤ 10)
    (longer : tree.body.BeforePath (fun other name _ => ¬ Shorter other name) name names) :
    PathOffset m fdt (fullPath (name :: names)) (.ok (BitVec.ofNat 32 target)) ↔
      tree.body.BeforePath (fun other name names => ¬ Abbreviated other name names) name names := by
  rw [pathOffset_fullPath blob wellFormed found depth, and_iff_right longer]

end Blob

instance (other name : List Byte) : Decidable (Shorter other name) :=
  inferInstanceAs (Decidable (other <+: name))

instance (other name : List Byte) (names : List (List Byte)) :
    Decidable (Abbreviated other name names) :=
  inferInstanceAs (Decidable (_ ∧ _))

theorem fullPath_finds_cpu :
    PathOffset (blobMem machine) blobBase (ascii "/cpus/cpu@1") (.ok 136) := by
  obtain ⟨blob, struct⟩ := @blob_blobMem machine (by decide) (by decide +kernel)
  have place : (offDtStruct (blobMem machine) blobBase).toNat + machine.bodyOffset = 68 := by
    rw [struct]
    decide
  have found : NodeAt machine.body 68 (ascii "cpus") [ascii "cpu@1"] 136 :=
    .behindProp (.behindNop (.inside (.behindNode .here)))
  rw [← place] at found
  exact (fullPath_finds_node blob (by decide) found (by decide) (by decide)).mpr (by decide)

/-- A tree with two children of the root. -/
def twoChildren (first second : String) : Tree where
  before := 0
  body := .node (ascii first) .nil (.node (ascii second) .nil .nil)
  after := 0

theorem twoChildren_not_found {first second : String} {target : Nat}
    (wellFormed : (twoChildren first second).body.WellFormed)
    (named : (twoChildren first second).body.Named)
    (small : (twoChildren first second).encode.length ≤ 2 ^ 20)
    (behind : 64 + beginSize (ascii first) + 4 = target)
    (blocked : Shorter (ascii first) (ascii second) ∨ Abbreviated (ascii first) (ascii second) []) :
    Blob (blobMem (twoChildren first second)) blobBase (twoChildren first second) ∧
      NodeAt (twoChildren first second).body
        ((offDtStruct (blobMem (twoChildren first second)) blobBase).toNat +
          (twoChildren first second).bodyOffset) (ascii second) [] target ∧
      ¬ PathOffset (blobMem (twoChildren first second)) blobBase (fullPath [ascii second])
        (.ok (BitVec.ofNat 32 target)) := by
  obtain ⟨blob, struct⟩ := blob_blobMem named small
  have different : ascii first ≠ ascii second :=
    fun same => wellFormed.1.2.2.2 (same ▸ List.mem_cons_self ..)
  have place : (offDtStruct (blobMem (twoChildren first second)) blobBase).toNat +
      (twoChildren first second).bodyOffset = 64 := by
    rw [struct]
    rfl
  have found : NodeAt (twoChildren first second).body 64 (ascii second) [] target :=
    behind ▸ .behindNode .here
  rw [← place] at found
  refine ⟨blob, found, ?_⟩
  rw [pathOffset_fullPath blob wellFormed found (Nat.succ_le_succ (Nat.zero_le _)), twoChildren,
    Items.beforePath_other different, Items.beforePath_other different]
  rintro ⟨⟨longer, -⟩, ⟨whole, -⟩⟩
  exact blocked.elim longer whole

/-- `cpu@0` is found for the path of `cpu` behind it, and `cpu` for that of `cpus`. -/
theorem earlier_sibling_found :
    (Blob (blobMem (twoChildren "cpu@0" "cpu")) blobBase (twoChildren "cpu@0" "cpu") ∧
      NodeAt (twoChildren "cpu@0" "cpu").body
        ((offDtStruct (blobMem (twoChildren "cpu@0" "cpu")) blobBase).toNat +
          (twoChildren "cpu@0" "cpu").bodyOffset) (ascii "cpu") [] 80 ∧
      ¬ PathOffset (blobMem (twoChildren "cpu@0" "cpu")) blobBase (fullPath [ascii "cpu"])
        (.ok 80)) ∧
    (Blob (blobMem (twoChildren "cpu" "cpus")) blobBase (twoChildren "cpu" "cpus") ∧
      NodeAt (twoChildren "cpu" "cpus").body
        ((offDtStruct (blobMem (twoChildren "cpu" "cpus")) blobBase).toNat +
          (twoChildren "cpu" "cpus").bodyOffset) (ascii "cpus") [] 76 ∧
      ¬ PathOffset (blobMem (twoChildren "cpu" "cpus")) blobBase (fullPath [ascii "cpus"])
        (.ok 76)) := by
  constructor
  · exact twoChildren_not_found (by decide) (by decide) (by decide +kernel) (by decide) (by decide)
  · exact twoChildren_not_found (by decide) (by decide) (by decide +kernel) (by decide) (by decide)

end OscKernel.Fdt
