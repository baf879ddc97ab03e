import Mathlib.Data.List.FinRange
import OscKernel.Vfs.Open

/-!
# The descriptor table (`ex71/main.c`)

`my_open` and `my_close` over whole runs.  The invariant relates the slots of `fdt` to the
allocated objects `struct file`: each object is in one slot and each slot that is in use holds an
object.
-/

namespace OscKernel.Vfs

universe u

variable {ν : Type u}

/-- `MAX_FD` -/
abbrev maxFd : Nat := 16

/-- The descriptor table `fdt`, with `none` for a null pointer, and the objects behind it. -/
structure Table (ν : Type u) where
  store : Store ν
  fdt : Fin maxFd → Option Addr

/-- The loop of `my_open`. -/
def myOpenLoop (create : Create ν) (block : Addr) (pathname : List Char) (flags : BitVec 32) :
    List (Fin maxFd) → Table ν → Except Fault (Int × Table ν)
  | [], t => .ok (-1, t)
  | i :: rest, t =>
      match t.fdt i with
      | some _ => myOpenLoop create block pathname flags rest t
      | none =>
          match vfsOpen create block pathname flags none t.store with
          | .error fault => .error fault
          | .ok opened =>
              let next : Table ν :=
                { store := opened.store, fdt := Function.update t.fdt i opened.target }
              if opened.code = 0 then .ok (i.val, next)
              else myOpenLoop create block pathname flags rest next

/-- `my_open` -/
def myOpen (create : Create ν) (block : Addr) (pathname : List Char) (flags : BitVec 32)
    (t : Table ν) : Except Fault (Int × Table ν) :=
  myOpenLoop create block pathname flags (List.finRange maxFd) t

/-- `vfs_close` with `tmpfs_close`, which frees the object. -/
def vfsClose (file : Addr) (s : Store ν) : Except Fault (Store ν) :=
  match s.file file with
  | none => .error .dangling
  | some _ => .ok { s with file := Function.update s.file file none }

theorem toNat_lt_maxFd {fd : Int} (inside : 0 ≤ fd ∧ fd < maxFd) : fd.toNat < maxFd :=
  (Int.toNat_lt inside.1).mpr inside.2

/-- `my_close` -/
def myClose (fd : Int) (t : Table ν) : Except Fault (Int × Table ν) :=
  if inside : 0 ≤ fd ∧ fd < maxFd then
    let i : Fin maxFd := ⟨fd.toNat, toNat_lt_maxFd inside⟩
    match t.fdt i with
    | none => .ok (-1, t)
    | some file =>
        match vfsClose file t.store with
        | .error fault => .error fault
        | .ok store => .ok (0, { store := store, fdt := Function.update t.fdt i none })
  else .error .outOfBounds

/-! ## One call -/

/-- Paths that resolve, or with `O_CREAT` and a `create` that succeeds, as far as `vfs_open` keeps
to its buffers and counters. -/
structure Openable (create : Create ν) (tree : Vnodes ν) (pathname : List Char)
    (flags : BitVec 32) : Prop where
  string : nul ∉ pathname
  component : tree.PathFits pathname
  dirname : tree.DirnameFits pathname flags
  opens : tree.resolvePath pathname ≠ none ∨
    flags &&& oCreat ≠ 0 ∧ ∃ dir, tree.resolvePath (pathname.take (lastSlash pathname)) = some dir ∧
      create tree dir (filename pathname) ≠ none

/-- The lowest free index. -/
def Lowest (t : Table ν) (fd : Fin maxFd) : Prop :=
  t.fdt fd = none ∧ ∀ lower < fd, t.fdt lower ≠ none

/-- A successful `my_open` of `fd` with a new object. -/
structure OpensAt (t : Table ν) (fd : Fin maxFd) (block : Addr) (pathname : List Char)
    (flags : BitVec 32) (t' : Table ν) : Prop where
  lowest : Lowest t fd
  slot : t'.fdt fd = some block
  file : ∃ node, t'.store.tree.StandsFor pathname node ∧
    t'.store.file block = some ⟨node, 0, flags⟩
  slots : ∀ other, other ≠ fd → t'.fdt other = t.fdt other
  files : ∀ other, other ≠ block → t'.store.file other = t.store.file other

/-- A `my_close` of `fd` that frees its object. -/
structure ClosesAt (t : Table ν) (fd : Fin maxFd) (file : Addr) (t' : Table ν) : Prop where
  slot : t'.fdt fd = none
  freed : t'.store.file file = none
  slots : ∀ other, other ≠ fd → t'.fdt other = t.fdt other
  files : ∀ other, other ≠ file → t'.store.file other = t.store.file other
  tree : t'.store.tree = t.store.tree

section Calls

variable {create : Create ν} {s : Store ν} {t t' : Table ν} {pathname : List Char}
variable {block file : Addr} {flags : BitVec 32} {fd : Fin maxFd}
variable {before rest : List (Fin maxFd)}

theorem vfsOpen_openable (block : Addr) (target : Option Addr) (creates : Creates create s.tree)
    (openable : Openable create s.tree pathname flags) :
    ∃ node tree', tree'.StandsFor pathname node ∧
      vfsOpen create block pathname flags target s = .ok (openNode block flags node tree' s) := by
  obtain ⟨plain, fits, room, opens⟩ := openable
  rw [vfsOpen, Vnodes.openLookups_eq plain fits]
  cases resolved : s.tree.resolvePath pathname with
  | some node => exact ⟨node, s.tree, (Vnodes.standsFor_iff plain).mpr ⟨fits, resolved⟩, rfl⟩
  | none =>
      obtain ⟨creat, dir, parent, succeeds⟩ := opens.resolve_left (absurd resolved ·)
      obtain ⟨counted, short⟩ := (room.resolve_left (absurd resolved ·)).resolve_left creat
      obtain ⟨⟨leaf, tree'⟩, created⟩ := Option.ne_none_iff_exists'.mp succeeds
      have adds := creates dir _ leaf tree' created
      refine ⟨leaf, tree', adds.standsFor_leaf plain fits resolved parent, ?_⟩
      dsimp only
      rw [if_neg creat, if_pos counted, if_pos short, parent]
      dsimp only
      rw [← filename, created]
      rfl

/-- Slots in use are passed over. -/
theorem myOpenLoop_used (used : ∀ i ∈ before, t.fdt i ≠ none) :
    myOpenLoop create block pathname flags (before ++ rest) t =
      myOpenLoop create block pathname flags rest t := by
  induction before with
  | nil => rfl
  | cons i before ih =>
      obtain ⟨file, taken⟩ := Option.ne_none_iff_exists'.mp (used i (List.mem_cons_self ..))
      rw [List.cons_append, myOpenLoop, taken]
      exact ih fun other member => used other (List.mem_cons_of_mem _ member)

/-- A full table is left as it is. -/
theorem myOpen_full (full : ∀ i, t.fdt i ≠ none) :
    myOpen create block pathname flags t = .ok (-1, t) := by
  rw [myOpen, ← List.append_nil (List.finRange maxFd), myOpenLoop_used fun i _ => full i]
  rfl

/-- The slots before the lowest free one come before it in the loop. -/
theorem exists_lowest (free : ∃ i, t.fdt i = none) :
    ∃ fd before rest, List.finRange maxFd = before ++ fd :: rest ∧
      (∀ i ∈ before, t.fdt i ≠ none) ∧ Lowest t fd := by
  obtain ⟨i, unused⟩ := free
  have some : ((List.finRange maxFd).find? fun i => (t.fdt i).isNone).isSome := by
    rw [List.find?_isSome]
    exact ⟨i, List.mem_finRange i, by rw [unused]; rfl⟩
  obtain ⟨fd, found⟩ := Option.isSome_iff_exists.mp some
  obtain ⟨first, before, rest, split, taken⟩ := List.find?_eq_some_iff_append.mp found
  have used : ∀ i ∈ before, t.fdt i ≠ none := by
    intro i member none
    have := taken i member
    rw [none] at this
    cases this
  refine ⟨fd, before, rest, split, used, Option.isNone_iff_eq_none.mp first, ?_⟩
  intro lower below
  have listed : lower ∈ before ++ fd :: rest := split ▸ List.mem_finRange lower
  have sorted : (before ++ fd :: rest).Pairwise (· < ·) := split ▸ List.pairwise_lt_finRange _
  rcases List.mem_append.mp listed with earlier | later
  · exact used lower earlier
  · have after := (List.pairwise_append.mp sorted).2.1
    rcases List.mem_cons.mp later with same | behind
    · exact absurd same (Fin.ne_of_lt below)
    · exact absurd ((List.pairwise_cons.mp after).1 lower behind) (Fin.lt_asymm below)

/-- With a free slot `my_open` takes the lowest. -/
theorem myOpen_free (block : Addr) (creates : Creates create t.store.tree)
    (openable : Openable create t.store.tree pathname flags) (free : ∃ i, t.fdt i = none) :
    ∃ fd t', myOpen create block pathname flags t = .ok (fd.val, t') ∧
      OpensAt t fd block pathname flags t' := by
  obtain ⟨fd, before, rest, split, used, lowest⟩ := exists_lowest free
  obtain ⟨node, tree', found, opened⟩ :=
    vfsOpen_openable block none creates openable
  refine ⟨fd, ⟨(openNode block flags node tree' t.store).store,
    Function.update t.fdt fd (some block)⟩, ?_, ?_⟩
  · rw [myOpen, split, myOpenLoop_used used, myOpenLoop, lowest.1, opened]
    rfl
  · exact
      { lowest := lowest
        slot := Function.update_self ..
        file := ⟨node, found, Function.update_self ..⟩
        slots := fun other different => Function.update_of_ne different _ _
        files := fun other different => Function.update_of_ne different _ _ }

theorem myClose_unused (unused : t.fdt fd = none) : myClose fd.val t = .ok (-1, t) := by
  have inside : (0 : Int) ≤ fd.val ∧ (fd.val : Int) < maxFd :=
    ⟨Int.natCast_nonneg _, Int.ofNat_lt.mpr fd.isLt⟩
  rw [myClose, dif_pos inside]
  dsimp only [Int.toNat_natCast]
  rw [unused]

theorem myClose_used (used : t.fdt fd = some file) (allocated : t.store.file file ≠ none) :
    ∃ t', myClose fd.val t = .ok (0, t') ∧ ClosesAt t fd file t' := by
  have inside : (0 : Int) ≤ fd.val ∧ (fd.val : Int) < maxFd :=
    ⟨Int.natCast_nonneg _, Int.ofNat_lt.mpr fd.isLt⟩
  obtain ⟨object, present⟩ := Option.ne_none_iff_exists'.mp allocated
  refine ⟨⟨{ t.store with file := Function.update t.store.file file none },
    Function.update t.fdt fd none⟩, ?_, ?_⟩
  · rw [myClose, dif_pos inside]
    dsimp only [Int.toNat_natCast]
    rw [used]
    dsimp only
    rw [vfsClose, present]
  · exact
      { slot := Function.update_self ..
        freed := Function.update_self ..
        slots := fun other different => Function.update_of_ne different _ _
        files := fun other different => Function.update_of_ne different _ _
        tree := rfl }

end Calls

/-! ## Runs -/

/-- The objects are those of the slots, one for each slot that is in use: no object is lost, and
none is shared. -/
structure Sound (t : Table ν) : Prop where
  distinct : ∀ i j file, t.fdt i = some file → t.fdt j = some file → i = j
  allocated : ∀ file, t.store.file file ≠ none ↔ ∃ i, t.fdt i = some file

/-- The tables that calls of `my_open` and `my_close` reach from the empty one.  Each call of
`my_open` may meet another `create`, and malloc returns an address that is not in use. -/
inductive Run (tree : Vnodes ν) : Table ν → Prop where
  | start : Run tree ⟨⟨tree, fun _ => none⟩, fun _ => none⟩
  | myOpen {create : Create ν} {block : Addr} {pathname : List Char} {flags : BitVec 32}
      {t t' : Table ν} {result : Int} (run : Run tree t) (creates : Creates create t.store.tree)
      (fresh : t.store.file block = none) (openable : Openable create t.store.tree pathname flags)
      (call : Vfs.myOpen create block pathname flags t = .ok (result, t')) : Run tree t'
  | myClose {t t' : Table ν} {result : Int} (run : Run tree t) (fd : Fin maxFd)
      (call : Vfs.myClose fd.val t = .ok (result, t')) : Run tree t'

section Runs

variable {tree : Vnodes ν} {t t' : Table ν} {pathname : List Char} {block file : Addr}
variable {flags : BitVec 32} {fd : Fin maxFd}

theorem Sound.start : Sound ⟨⟨tree, fun _ => none⟩, fun _ => none⟩ where
  distinct := nofun
  allocated _ := ⟨fun allocated => absurd rfl allocated, nofun⟩

/-- The address of a new object is in no slot. -/
theorem Sound.notInSlot (sound : Sound t) (fresh : t.store.file block = none) (i : Fin maxFd) :
    t.fdt i ≠ some block :=
  fun taken => (sound.allocated block).mpr ⟨i, taken⟩ fresh

theorem Sound.opened (sound : Sound t) (fresh : t.store.file block = none)
    (opens : OpensAt t fd block pathname flags t') : Sound t' where
  distinct i j other first second := by
    by_cases same : other = block
    · have only : ∀ k, t'.fdt k = some other → k = fd := by
        intro k taken
        by_contra different
        rw [opens.slots k different, same] at taken
        exact sound.notInSlot fresh k taken
      rw [only i first, only j second]
    · have old : ∀ k, t'.fdt k = some other → t.fdt k = some other := by
        intro k taken
        rwa [← opens.slots k]
        rintro rfl
        rw [opens.slot] at taken
        exact same (Option.some.inj taken).symm
      exact sound.distinct i j other (old i first) (old j second)
  allocated other := by
    by_cases same : other = block
    · obtain ⟨node, -, stored⟩ := opens.file
      rw [same, stored]
      exact ⟨fun _ => ⟨fd, opens.slot⟩, fun _ => nofun⟩
    · rw [opens.files other same, sound.allocated other]
      constructor
      · rintro ⟨i, taken⟩
        refine ⟨i, (opens.slots i ?_).trans taken⟩
        rintro rfl
        rw [opens.lowest.1] at taken
        cases taken
      · rintro ⟨i, taken⟩
        by_cases new : i = fd
        · rw [new, opens.slot] at taken
          exact absurd (Option.some.inj taken).symm same
        · exact ⟨i, (opens.slots i new).symm.trans taken⟩

theorem Sound.closed (sound : Sound t) (used : t.fdt fd = some file)
    (closes : ClosesAt t fd file t') : Sound t' where
  distinct i j other first second := by
    have old : ∀ k, t'.fdt k = some other → t.fdt k = some other := by
      intro k taken
      rwa [← closes.slots k]
      rintro rfl
      rw [closes.slot] at taken
      cases taken
    exact sound.distinct i j other (old i first) (old j second)
  allocated other := by
    by_cases same : other = file
    · rw [same, closes.freed]
      refine ⟨fun allocated => absurd rfl allocated, ?_⟩
      rintro ⟨i, taken⟩
      by_cases freed : i = fd
      · rw [freed, closes.slot] at taken
        cases taken
      · rw [closes.slots i freed] at taken
        exact absurd (sound.distinct i fd file taken used) freed
    · rw [closes.files other same, sound.allocated other]
      constructor
      · rintro ⟨i, taken⟩
        refine ⟨i, (closes.slots i ?_).trans taken⟩
        rintro rfl
        exact same (Option.some.inj (taken.symm.trans used))
      · rintro ⟨i, taken⟩
        by_cases freed : i = fd
        · rw [freed, closes.slot] at taken
          cases taken
        · exact ⟨i, (closes.slots i freed).symm.trans taken⟩

/-- The slots and the objects match in every run. -/
theorem Run.sound (run : Run tree t) : Sound t := by
  induction run with
  | start => exact .start
  | @myOpen create block pathname flags t t' result run creates fresh openable call ih =>
      by_cases free : ∃ i, t.fdt i = none
      · obtain ⟨fd, next, opened, opens⟩ := myOpen_free block creates openable free
        cases call.symm.trans opened
        exact ih.opened fresh opens
      · have full : ∀ i, t.fdt i ≠ none := fun i unused => free ⟨i, unused⟩
        cases call.symm.trans (myOpen_full full)
        exact ih
  | @myClose t t' result run fd call ih =>
      cases used : t.fdt fd with
      | none =>
          cases call.symm.trans (myClose_unused used)
          exact ih
      | some file =>
          obtain ⟨next, closed, closes⟩ :=
            myClose_used used ((ih.allocated file).mpr ⟨fd, used⟩)
          cases call.symm.trans closed
          exact ih.closed used closes

/-- What the next call does. -/
structure Serves (t : Table ν) : Prop where
  opens : ∀ create block pathname flags, Creates create t.store.tree →
    t.store.file block = none → Openable create t.store.tree pathname flags →
    (∃ i, t.fdt i = none) →
      ∃ fd t', myOpen create block pathname flags t = .ok (fd.val, t') ∧
        OpensAt t fd block pathname flags t' ∧ ∀ i, t.fdt i ≠ some block
  full : ∀ create block pathname flags, (∀ i, t.fdt i ≠ none) →
    myOpen create block pathname flags t = .ok (-1, t)
  closes : ∀ fd file, t.fdt fd = some file →
    ∃ t', myClose fd.val t = .ok (0, t') ∧ ClosesAt t fd file t'
  unused : ∀ fd : Fin maxFd, t.fdt fd = none → myClose fd.val t = .ok (-1, t)

/-- In every run each call does what the table says: it opens the lowest free slot with an object
of its own, or closes a slot and frees its object, or fails and changes nothing. -/
theorem descriptor_table (run : Run tree t) : Sound t ∧ Serves t := by
  have sound := run.sound
  refine ⟨sound, ?_⟩
  constructor
  · intro create block pathname flags creates fresh openable free
    obtain ⟨fd, t', opened, opens⟩ := myOpen_free block creates openable free
    exact ⟨fd, t', opened, opens, sound.notInSlot fresh⟩
  · intro create block pathname flags full
    exact myOpen_full full
  · intro fd file used
    exact myClose_used used ((sound.allocated file).mpr ⟨fd, used⟩)
  · intro fd unused
    exact myClose_unused unused

theorem openable_file_txt :
    Openable (createLeaf 1) (rootOnly [] []).tree "/file.txt".toList oCreat where
  string := by decide
  component := .inr ⟨by decide, by decide, nofun⟩
  dirname := .inr (.inr (by decide))
  opens := .inr ⟨by decide, 0, rfl, nofun⟩

/-- The first `my_open` of `main`. -/
theorem descriptor_table_main :
    ∃ t : Table Nat, t.fdt 0 = some 8 ∧ Sound t ∧ Serves t := by
  have creates : Creates (createLeaf 1) (rootOnly [] []).tree :=
    creates_createLeaf [] (by decide) (by decide)
  have openable := openable_file_txt
  obtain ⟨fd, t, opened, opens⟩ :=
    myOpen_free (t := ⟨rootOnly [] [], fun _ => none⟩) 8 creates openable ⟨0, rfl⟩
  have first : fd = 0 := by
    by_contra different
    exact opens.lowest.2 0 (Fin.pos_iff_ne_zero.mpr different) rfl
  exact ⟨t, first ▸ opens.slot, descriptor_table (.myOpen .start creates rfl openable opened)⟩

end Runs

end OscKernel.Vfs
