import Mathlib.Algebra.Group.Nat.Defs
import Mathlib.Data.List.Basic
import Mathlib.Data.List.Find

/-!
# Vnodes (`ex71/vfs.c`, `ex71/tmpfs.c`)

The tree of vnodes with the mounts on it, the walk that a list of components stands for, and new
entries of its directories.  Strings are lists of characters without their final NUL.
-/

namespace OscKernel.Vfs

universe u

/-- Undefined behaviour of the program. -/
inductive Fault where
  /-- a write after the end of `component` or `dirname` -/
  | bufferOverrun
  /-- the `int` that counts the characters of a path passes `INT_MAX` -/
  | counterOverflow
  /-- a use of `vnode` before it is set -/
  | uninitialised
  /-- a use of a `struct file` that is not allocated -/
  | dangling
  /-- an index outside `fdt` -/
  | outOfBounds
  deriving DecidableEq, Repr

/-- `PATH_MAX` -/
def pathMax : Nat := 255

/-- `TMPFS_MAX_DIR_ENTRY` -/
def tmpfsMaxDirEntry : Nat := 16

/-- All vnodes, known by their addresses. -/
structure Vnodes (ν : Type u) where
  /-- `rootfs->root` -/
  root : ν
  /-- `node->mount->root` -/
  mount : ν → Option ν
  /-- the `name` of the `struct tmpfs_vnode` -/
  name : ν → List Char
  /-- its `entry`, up to the first null pointer -/
  entry : ν → List ν
  /-- chains of mounts are finite -/
  mounts_end : WellFounded fun inner outer => mount outer = some inner

variable {ν : Type u}

namespace Vnodes

/-- `while (node->mount) node = node->mount->root;` -/
def follow (tree : Vnodes ν) (node : ν) : ν :=
  match _mounted : tree.mount node with
  | none => node
  | some inner => tree.follow inner
termination_by tree.mounts_end.wrap node

theorem follow_none {tree : Vnodes ν} {node : ν} (unmounted : tree.mount node = none) :
    tree.follow node = node := by
  rw [follow]
  split
  next => rfl
  next inner mounted =>
    rw [unmounted] at mounted
    cases mounted

theorem follow_some {tree : Vnodes ν} {node inner : ν} (mounted : tree.mount node = some inner) :
    tree.follow node = tree.follow inner := by
  rw [follow]
  split
  next unmounted =>
    rw [mounted] at unmounted
    cases unmounted
  next other otherMounted =>
    rw [mounted] at otherMounted
    cases otherMounted
    rfl

/-- `tmpfs_lookup`; `none` is the result -1. -/
def tmpfsLookup (tree : Vnodes ν) (dir : ν) (component : List Char) : Option ν :=
  ((tree.entry dir).take tmpfsMaxDirEntry).find? fun node => tree.name node = component

/-- One component of a path: the entry, and the root of what is mounted on it. -/
def enter (tree : Vnodes ν) (dir : ν) (component : List Char) : Option ν :=
  (tree.tmpfsLookup dir component).map tree.follow

/-- The walk from node to node that a path stands for. -/
def resolve (tree : Vnodes ν) : List (List Char) → ν → Option ν
  | [], node => some node
  | component :: rest, node => (tree.enter node component).bind (resolve tree rest)

theorem resolve_append (tree : Vnodes ν) (first second : List (List Char)) (node : ν) :
    tree.resolve (first ++ second) node =
      (tree.resolve first node).bind (tree.resolve second) := by
  induction first generalizing node with
  | nil => rfl
  | cons component rest ih =>
      rw [List.cons_append, resolve, resolve]
      cases tree.enter node component with
      | none => rfl
      | some next => exact ih next

theorem resolve_singleton (tree : Vnodes ν) (component : List Char) (node : ν) :
    tree.resolve [component] node = tree.enter node component := by
  rw [resolve]
  cases tree.enter node component with
  | none => rfl
  | some next => rfl

/-! ## New entries -/

/-- `create` has added a new leaf to a directory. -/
structure Adds (tree : Vnodes ν) (dir : ν) (component : List Char) (leaf : ν)
    (tree' : Vnodes ν) : Prop where
  root : tree'.root = tree.root
  mount : ∀ node, node ≠ leaf → tree'.mount node = tree.mount node
  name : ∀ node, node ≠ leaf → tree'.name node = tree.name node
  entry : ∀ node, node ≠ leaf → node ≠ dir → tree'.entry node = tree.entry node
  added : tree'.entry dir = tree.entry dir ++ [leaf]
  room : (tree.entry dir).length < tmpfsMaxDirEntry
  leafName : tree'.name leaf = component
  leafMount : tree'.mount leaf = none
  -- the leaf is a new object
  notRoot : leaf ≠ tree.root
  notListed : ∀ node, leaf ∉ tree.entry node
  notMounted : ∀ node, tree.mount node ≠ some leaf

section Adds

variable {tree tree' : Vnodes ν} {dir leaf node next : ν} {component name : List Char}
variable {components : List (List Char)}

theorem Adds.follow (adds : Adds tree dir component leaf tree') (old : node ≠ leaf) :
    tree'.follow node = tree.follow node ∧ tree.follow node ≠ leaf := by
  induction node using tree.mounts_end.induction with
  | _ node ih =>
      have same := adds.mount node old
      cases mounted : tree.mount node with
      | none =>
          rw [follow_none mounted, follow_none (same.trans mounted)]
          exact ⟨rfl, old⟩
      | some inner =>
          rw [follow_some mounted, follow_some (same.trans mounted)]
          apply ih inner mounted
          intro equal
          exact adds.notMounted node (mounted.trans (congrArg some equal))

/-- The old entries keep their names. -/
theorem Adds.find_old (adds : Adds tree dir component leaf tree') :
    ((tree.entry node).take tmpfsMaxDirEntry).find? (fun other => tree'.name other = name) =
      tree.tmpfsLookup node name := by
  rw [tmpfsLookup]
  apply List.find?_congr
  intro other member
  rw [adds.name other]
  intro equal
  exact adds.notListed node (equal ▸ List.mem_of_mem_take member)

/-- The leaf comes after the old entries of its directory. -/
theorem Adds.tmpfsLookup_dir (adds : Adds tree dir component leaf tree') :
    tree'.tmpfsLookup dir name =
      (tree.tmpfsLookup dir name).or ([leaf].find? fun other => tree'.name other = name) := by
  have room := adds.room
  have all : (tree.entry dir).take tmpfsMaxDirEntry = tree.entry dir :=
    List.take_of_length_le (Nat.le_of_lt room)
  have allNew : (tree.entry dir ++ [leaf]).take tmpfsMaxDirEntry = tree.entry dir ++ [leaf] := by
    apply List.take_of_length_le
    rw [List.length_append]
    exact room
  rw [← adds.find_old, tmpfsLookup, adds.added, allNew, all, List.find?_append]

theorem Adds.tmpfsLookup_some (adds : Adds tree dir component leaf tree') (old : node ≠ leaf)
    (found : tree.tmpfsLookup node name = some next) :
    tree'.tmpfsLookup node name = some next := by
  by_cases parent : node = dir
  · rw [parent] at found ⊢
    rw [adds.tmpfsLookup_dir, found, Option.some_or]
  · rw [tmpfsLookup, adds.entry node old parent, adds.find_old, found]

theorem Adds.tmpfsLookup_leaf (adds : Adds tree dir component leaf tree')
    (missing : tree.tmpfsLookup dir component = none) :
    tree'.tmpfsLookup dir component = some leaf := by
  rw [adds.tmpfsLookup_dir, missing, Option.none_or, List.find?_singleton, if_pos]
  exact decide_eq_true adds.leafName

/-- No old entry is the leaf. -/
theorem Adds.tmpfsLookup_ne (adds : Adds tree dir component leaf tree')
    (found : tree.tmpfsLookup node name = some next) : next ≠ leaf := by
  rintro rfl
  exact adds.notListed node (List.mem_of_mem_take (List.mem_of_find?_eq_some found))

/-- What was found is still found. -/
theorem Adds.enter (adds : Adds tree dir component leaf tree') (old : node ≠ leaf)
    (found : tree.enter node name = some next) :
    tree'.enter node name = some next ∧ next ≠ leaf := by
  obtain ⟨entry, lookup, rfl⟩ := Option.map_eq_some_iff.mp found
  obtain ⟨followed, followedOld⟩ := adds.follow (adds.tmpfsLookup_ne lookup)
  refine ⟨?_, followedOld⟩
  rw [Vnodes.enter, adds.tmpfsLookup_some old lookup, Option.map_some, followed]

/-- The leaf is found in its directory, which did not have the name before. -/
theorem Adds.enter_leaf (adds : Adds tree dir component leaf tree')
    (missing : tree.enter dir component = none) : tree'.enter dir component = some leaf := by
  have absent : tree.tmpfsLookup dir component = none := Option.map_eq_none_iff.mp missing
  rw [Vnodes.enter, adds.tmpfsLookup_leaf absent, Option.map_some, follow_none adds.leafMount]

/-- What a list of components stands for stays. -/
theorem Adds.resolve (adds : Adds tree dir component leaf tree') (old : node ≠ leaf)
    (found : tree.resolve components node = some next) :
    tree'.resolve components node = some next ∧ next ≠ leaf := by
  induction components generalizing node with
  | nil =>
      cases found
      exact ⟨rfl, old⟩
  | cons first rest ih =>
      rw [Vnodes.resolve] at found ⊢
      obtain ⟨inner, entered, later⟩ := Option.bind_eq_some_iff.mp found
      obtain ⟨same, innerOld⟩ := adds.enter old entered
      rw [same]
      exact ih innerOld later

/-- The path of the leaf, which was missing before. -/
theorem Adds.resolve_leaf (adds : Adds tree dir component leaf tree') (old : node ≠ leaf)
    (parent : tree.resolve components node = some dir)
    (missing : tree.resolve (components ++ [component]) node = none) :
    tree'.resolve (components ++ [component]) node = some leaf := by
  rw [resolve_append, parent, Option.bind_some, resolve_singleton] at missing
  rw [resolve_append, (adds.resolve old parent).1, Option.bind_some, resolve_singleton,
    adds.enter_leaf missing]

end Adds

/-- A root directory with entries of one name. -/
def rootDir (entries : List Nat) (name : List Char) : Vnodes Nat where
  root := 0
  mount := fun _ => none
  name := fun _ => name
  entry := fun node => if node = 0 then entries else []
  mounts_end := ⟨fun _ => ⟨_, nofun⟩⟩

end Vnodes

end OscKernel.Vfs
