import OscKernel.Vfs.PathBuffer

/-!
# Opening files (`ex71/vfs.c`, `ex71/tmpfs.c`)

`vfs_open` behind its lookups, with the `create` operation of the file system as a parameter,
which the program leaves to be written.  Besides `create` there is one set of operations, that
of tmpfs.
-/

namespace OscKernel.Vfs

open Words

universe u

variable {ν : Type u}

/-- Addresses that malloc returns. -/
abbrev Addr : Type := Nat

/-- `struct file` -/
structure File (ν : Type u) where
  vnode : ν
  fPos : BitVec 64
  flags : BitVec 32
  deriving DecidableEq, Repr

/-- The vnodes and the allocated objects `struct file`. -/
structure Store (ν : Type u) where
  tree : Vnodes ν
  file : Addr → Option (File ν)

/-- `create` of the vnode operations: the new vnode in `*target` and the vnodes after the call,
or `none` for a result other than 0 with `*target` as it was. -/
abbrev Create (ν : Type u) : Type u := Vnodes ν → ν → List Char → Option (ν × Vnodes ν)

/-- What a call of `create` does when it succeeds. -/
def Creates (create : Create ν) (tree : Vnodes ν) : Prop :=
  ∀ dir component leaf tree', create tree dir component = some (leaf, tree') →
    tree.Adds dir component leaf tree'

/-- What `vfs_open` leaves: its result, `*target`, and the store. -/
structure Opened (ν : Type u) where
  code : Int
  target : Option Addr
  store : Store ν

/-- The allocation at `block` and `tmpfs_open`. -/
def openNode (block : Addr) (flags : BitVec 32) (node : ν) (tree : Vnodes ν) (s : Store ν) :
    Opened ν where
  code := 0
  target := some block
  store :=
    { tree := tree
      file := Function.update s.file block (some ⟨node, 0, flags⟩) }

/-- The part of `vfs_open` behind its `if`, with what `vnode` holds. -/
def openVnode (block : Addr) (flags : BitVec 32) (vnode : Option ν) (s : Store ν) :
    Except Fault (Opened ν) :=
  match vnode with
  | none => .error .uninitialised
  | some node => .ok (openNode block flags node s.tree s)

/-- `vfs_open`, with the address that malloc returns. -/
def vfsOpen (create : Create ν) (block : Addr) (pathname : List Char) (flags : BitVec 32)
    (target : Option Addr) (s : Store ν) : Except Fault (Opened ν) :=
  match s.tree.openLookups pathname flags with
  | .error fault => .error fault
  | .ok .refused => .ok ⟨-1, target, s⟩
  | .ok (.opens vnode) => openVnode block flags vnode s
  | .ok (.creates _ none) => .error .uninitialised
  | .ok (.creates pos (some dir)) =>
      match create s.tree dir (pathname.drop (pos + 1)) with
      -- the result of `create` is not looked at, and `vnode` is still the directory
      | none => openVnode block flags (some dir) s
      | some (leaf, tree) => openVnode block flags (some leaf) { s with tree := tree }

/-! ## The contract -/

/-- The calls that shall return 0. -/
def Opens (create : Create ν) (tree : Vnodes ν) (parents : List (List Char)) (last : List Char)
    (flags : BitVec 32) : Prop :=
  tree.resolve (parents ++ [last]) tree.root ≠ none ∨
    flags &&& oCreat ≠ 0 ∧
      ∃ dir, tree.resolve parents tree.root = some dir ∧ create tree dir last ≠ none

/-- What a call shall leave. -/
structure Honours (create : Create ν) (tree : Vnodes ν) (parents : List (List Char))
    (last : List Char) (flags : BitVec 32) (target : Option Addr) (opened : Opened ν) : Prop where
  code : opened.code = 0 ↔ Opens create tree parents last flags
  vnode : opened.code = 0 → ∃ block file, opened.target = some block ∧
    opened.store.file block = some file ∧
    opened.store.tree.resolve (parents ++ [last]) opened.store.tree.root = some file.vnode
  target : opened.code ≠ 0 → opened.target = target

/-- The contract of `vfs_open`: the call has no undefined behaviour and leaves what it shall. -/
def OpenContract (create : Create ν) (block : Addr) (parents : List (List Char))
    (last : List Char) (flags : BitVec 32) (target : Option Addr) (s : Store ν) : Prop :=
  ∃ opened, vfsOpen create block (absolute (parents ++ [last])) flags target s = .ok opened ∧
    Honours create s.tree parents last flags target opened

section Contract

variable {create : Create ν} {s : Store ν} {parents : List (List Char)} {last : List Char}
variable {block : Addr} {flags : BitVec 32} {target : Option Addr} {node dir leaf : ν}
variable {tree' : Vnodes ν}

theorem resolvePath_absolute (tree : Vnodes ν) {components : List (List Char)}
    (plain : Components components) :
    tree.resolvePath (absolute components) = tree.resolve components tree.root := by
  by_cases empty : components = []
  · rw [empty]
    rfl
  · rw [tree.resolvePath_ne_nil (absolute_ne_nil empty), splitOn_tail_absolute empty plain]

/-- A path shorter than `PATH_MAX` fits in the buffers. -/
theorem pathFits_absolute (tree : Vnodes ν) {components : List (List Char)}
    (plain : Components components) (short : (absolute components).length < pathMax) :
    tree.PathFits (absolute components) := by
  by_cases empty : components = []
  · rw [empty]
    exact .inl rfl
  · have most : pathMax < intMax := by decide
    right
    rw [splitOn_tail_absolute empty plain]
    exact tree.fits_of_short (fun component member => (length_le_absolute member).trans short)
      (by omega) _

/-- Which vnode the call opens, if any: the new leaf, the parent where `create` fails, or the one
that the path stands for. -/
theorem vfsOpen_absolute (plain : Components (parents ++ [last]))
    (short : (absolute (parents ++ [last])).length < pathMax) :
    vfsOpen create block (absolute (parents ++ [last])) flags target s =
      match s.tree.resolve (parents ++ [last]) s.tree.root with
      | some node => .ok (openNode block flags node s.tree s)
      | none =>
          if flags &&& oCreat = 0 then .error .uninitialised
          else
            match s.tree.resolve parents s.tree.root with
            | none => .ok ⟨-1, target, s⟩
            | some dir =>
                match create s.tree dir last with
                | none => .ok (openNode block flags dir s.tree s)
                | some (leaf, tree) => .ok (openNode block flags leaf tree s) := by
  have most : pathMax < intMax := by decide
  have name := filename_absolute plain
  have pos : lastSlash (absolute (parents ++ [last])) < pathMax := by
    rw [lastSlash_absolute plain]
    rw [absolute_eq, List.length_append] at short
    omega
  rw [filename] at name
  rw [vfsOpen, Vnodes.openLookups_eq plain.nul_notMem (pathFits_absolute _ plain short),
    resolvePath_absolute _ plain]
  cases s.tree.resolve (parents ++ [last]) s.tree.root with
  | some node => rfl
  | none =>
      dsimp only
      by_cases creat : flags &&& oCreat = 0
      · rw [if_pos creat, if_pos creat]
        rfl
      · rw [if_neg creat, if_neg creat, if_pos (by omega), if_pos pos, dirname_absolute plain,
          resolvePath_absolute _ plain.init]
        cases s.tree.resolve parents s.tree.root with
        | none => rfl
        | some dir =>
            dsimp only
            rw [name]
            cases create s.tree dir last with
            | none => rfl
            | some made => rfl

theorem openNode_honours (opens : Opens create s.tree parents last flags)
    (resolves : tree'.resolve (parents ++ [last]) tree'.root = some node) :
    Honours create s.tree parents last flags target (openNode block flags node tree' s) where
  code := ⟨fun _ => opens, fun _ => rfl⟩
  vnode _ := ⟨block, ⟨node, 0, flags⟩, rfl, Function.update_self .., resolves⟩
  target failed := absurd rfl failed

/-- A missing path is not opened without a parent. -/
theorem not_opens (missing : s.tree.resolve (parents ++ [last]) s.tree.root = none)
    (fails : ∀ dir, s.tree.resolve parents s.tree.root = some dir → create s.tree dir last = none) :
    ¬ Opens create s.tree parents last flags := by
  rintro (found | ⟨-, dir, parent, succeeds⟩)
  · exact found missing
  · exact succeeds (fails dir parent)

theorem refused_honours (opens : ¬ Opens create s.tree parents last flags) :
    Honours create s.tree parents last flags target ⟨-1, target, s⟩ where
  code := ⟨fun zero => absurd zero (by decide : (-1 : Int) ≠ 0), fun holds => absurd holds opens⟩
  vnode zero := absurd zero (by decide : (-1 : Int) ≠ 0)
  target _ := rfl

/-- `vfs_open` honours its contract exactly if the path resolves, or `O_CREAT` is set and `create`
succeeds in the parent if there is one: without `O_CREAT` the missing path leaves `vnode` unset,
and a failed `create` leaves the parent in it. -/
theorem vfsOpen_contract_iff (creates : Creates create s.tree)
    (plain : Components (parents ++ [last]))
    (short : (absolute (parents ++ [last])).length < pathMax) :
    OpenContract create block parents last flags target s ↔
      s.tree.resolve (parents ++ [last]) s.tree.root ≠ none ∨
        flags &&& oCreat ≠ 0 ∧
          ∀ dir, s.tree.resolve parents s.tree.root = some dir → create s.tree dir last ≠ none := by
  rw [OpenContract, vfsOpen_absolute plain short]
  cases resolved : s.tree.resolve (parents ++ [last]) s.tree.root with
  | some node =>
      have opens : Opens create s.tree parents last flags := .inl (by rw [resolved]; nofun)
      exact ⟨fun _ => .inl nofun, fun _ => ⟨_, rfl, openNode_honours opens resolved⟩⟩
  | none =>
      dsimp only
      by_cases creat : flags &&& oCreat = 0
      · rw [if_pos creat]
        constructor
        · rintro ⟨opened, ok, -⟩
          cases ok
        · rintro (found | ⟨set, -⟩)
          · exact absurd rfl found
          · exact absurd creat set
      · rw [if_neg creat]
        cases parent : s.tree.resolve parents s.tree.root with
        | none =>
            have refused : ¬ Opens create s.tree parents last flags :=
              not_opens resolved (by rw [parent]; nofun)
            exact ⟨fun _ => .inr ⟨creat, nofun⟩, fun _ => ⟨_, rfl, refused_honours refused⟩⟩
        | some dir =>
            dsimp only
            cases created : create s.tree dir last with
            | none =>
                dsimp only
                constructor
                · rintro ⟨opened, ok, honours⟩
                  cases ok
                  refine absurd (honours.code.mp rfl) (not_opens resolved ?_)
                  rintro other same
                  cases parent.symm.trans same
                  exact created
                · rintro (found | ⟨-, succeeds⟩)
                  · exact absurd rfl found
                  · exact absurd created (succeeds dir rfl)
            | some made =>
                obtain ⟨leaf, tree'⟩ := made
                have opens : Opens create s.tree parents last flags :=
                  .inr ⟨creat, dir, parent, by rw [created]; nofun⟩
                have adds := creates dir last leaf tree' created
                have resolves := adds.resolve_leaf adds.notRoot.symm parent resolved
                rw [← adds.root] at resolves
                constructor
                · refine fun _ => .inr ⟨creat, ?_⟩
                  intro other same
                  cases same
                  rw [created]
                  nofun
                · exact fun _ => ⟨_, rfl, openNode_honours opens resolves⟩

end Contract

/-! ## A file system with room for one more leaf -/

/-- The vnodes with a leaf at the end of a directory. -/
def Vnodes.addLeaf (tree : Vnodes Nat) (dir : Nat) (component : List Char) (leaf : Nat) :
    Vnodes Nat where
  root := tree.root
  mount node := if node = leaf then none else tree.mount node
  name := Function.update tree.name leaf component
  entry := Function.update tree.entry dir (tree.entry dir ++ [leaf])
  mounts_end := by
    apply Subrelation.wf _ tree.mounts_end
    intro inner outer mounted
    by_cases new : outer = leaf
    · rw [if_pos new] at mounted
      cases mounted
    · rwa [if_neg new] at mounted

/-- A `create` that fails on a full directory. -/
def createLeaf (leaf : Nat) : Create Nat := fun tree dir component =>
  if (tree.entry dir).length < tmpfsMaxDirEntry then
    some (leaf, tree.addLeaf dir component leaf)
  else none

/-- A root directory with entries of one name, and no files. -/
def rootOnly (entries : List Nat) (name : List Char) : Store Nat where
  tree := .rootDir entries name
  file _ := none

theorem creates_createLeaf {leaf : Nat} {entries : List Nat} (name : List Char)
    (notRoot : leaf ≠ 0) (notListed : leaf ∉ entries) :
    Creates (createLeaf leaf) (rootOnly entries name).tree := by
  intro dir component made tree' created
  rw [createLeaf] at created
  split at created
  next room =>
    cases created
    exact
      { root := rfl
        mount := fun node old => if_neg old
        name := fun node old => Function.update_of_ne old _ _
        entry := fun node _ other => Function.update_of_ne other _ _
        added := Function.update_self ..
        room := room
        leafName := Function.update_self ..
        leafMount := if_pos rfl
        notRoot := notRoot
        notListed := by
          intro node listed
          change leaf ∈ (if node = 0 then entries else []) at listed
          split at listed
          next => exact notListed listed
          next => cases listed
        notMounted := nofun }
  next => cases created

theorem vfsOpen_contract_file_txt :
    OpenContract (createLeaf 1) 8 [] "file.txt".toList oCreat none (rootOnly [] []) := by
  apply (vfsOpen_contract_iff (creates_createLeaf [] _ _) _ _).mpr
  · refine .inr ⟨by decide, ?_⟩
    intro dir parent
    cases parent
    nofun
  all_goals decide

/-- A missing path without `O_CREAT`, and a new path in a full directory. -/
theorem missing_path_opened :
    ¬ OpenContract (createLeaf 2) 8 [] "a".toList 0 none (rootOnly [] []) ∧
      ¬ OpenContract (createLeaf 2) 8 [] "a".toList oCreat none
        (rootOnly (List.replicate 16 1) "b".toList) := by
  constructor
  · rintro ⟨opened, ok, -⟩
    cases ok
  · rintro ⟨opened, ok, honours⟩
    cases ok
    apply not_opens _ _ (honours.code.mp rfl)
    · rfl
    · intro dir parent
      cases parent
      rfl

end OscKernel.Vfs
