import OscKernel.Vfs.ReadWrite

/-!
# Paths and descriptors over whole runs (`ex71/main.c`)

Runs of the four calls in any order.  New entries of `create` hide no old ones, so what a path
stands for stays, and a descriptor stays with the vnode that it was opened for until it is
closed.  `tmpfs_read` and `tmpfs_write` are parameters: they may change the positions of files,
and neither the entries of directories nor the vnodes of files.
-/

namespace OscKernel.Vfs

universe u

variable {ν : Type u}

/-- The four calls with their arguments; `my_open` with the `create` and the address of malloc
that it meets. -/
inductive Call (ν : Type u) where
  | myOpen (create : Create ν) (block : Addr) (pathname : List Char) (flags : BitVec 32)
  | myClose (fd : Int)
  | myRead (fd : Int) (buf : Addr) (count : BitVec 64)
  | myWrite (fd : Int) (buf : Addr) (count : BitVec 64)

namespace Call

/-- The call on the descriptor table. -/
def run (tmpfsRead tmpfsWrite : Transfer ν) : Call ν → Table ν → Except Fault (Int × Table ν)
  | .myOpen create block pathname flags => Vfs.myOpen create block pathname flags
  | .myClose fd => Vfs.myClose fd
  | .myRead fd buf count => Vfs.myRead tmpfsRead fd buf count
  | .myWrite fd buf count => Vfs.myWrite tmpfsWrite fd buf count

/-- What a call may rely on: `create` adds a leaf if it succeeds, and malloc returns an address
that is not in use. -/
def Legal (t : Table ν) : Call ν → Prop
  | .myOpen create block _ _ => Creates create t.store.tree ∧ t.store.file block = none
  | .myClose _ => True
  | .myRead _ _ _ => True
  | .myWrite _ _ _ => True

/-- The call closes a descriptor. -/
def Closes (fd : Fin maxFd) : Call ν → Prop
  | .myOpen _ _ _ _ => False
  | .myClose other => other = fd.val
  | .myRead _ _ _ => False
  | .myWrite _ _ _ => False

end Call

/-- A sequence of calls that all return. -/
inductive Calls (tmpfsRead tmpfsWrite : Transfer ν) : Table ν → List (Call ν) → Table ν → Prop where
  | nil (t : Table ν) : Calls tmpfsRead tmpfsWrite t [] t
  | cons {t t' t'' : Table ν} {result : Int} {call : Call ν} {rest : List (Call ν)}
      (legal : call.Legal t) (returned : call.run tmpfsRead tmpfsWrite t = .ok (result, t'))
      (later : Calls tmpfsRead tmpfsWrite t' rest t'') :
      Calls tmpfsRead tmpfsWrite t (call :: rest) t''

/-- A read or write keeps the directories and the vnodes of the files. -/
structure Transfer.Keeps (op : Transfer ν) : Prop where
  tree : ∀ {file buf len s result s'}, op file buf len s = .ok (result, s') → s'.tree = s.tree
  vnode : ∀ {file buf len s result s'}, op file buf len s = .ok (result, s') →
    ∀ other, (s'.file other).map File.vnode = (s.file other).map File.vnode

/-- What paths stand for stays. -/
def Vnodes.Extends (tree tree' : Vnodes ν) : Prop :=
  ∀ pathname node, tree.StandsFor pathname node → tree'.StandsFor pathname node

/-- Each slot that is in use has an object of its own. -/
structure Apart (t : Table ν) : Prop where
  distinct : ∀ i j file, t.fdt i = some file → t.fdt j = some file → i = j
  present : ∀ i file, t.fdt i = some file → t.store.file file ≠ none

/-- The vnode of the file behind a descriptor. -/
def Table.vnode (t : Table ν) (fd : Fin maxFd) : Option ν :=
  (t.fdt fd).bind fun file => (t.store.file file).map File.vnode

/-- The descriptor is open and its file is what the path stands for. -/
def Refers (t : Table ν) (fd : Fin maxFd) (pathname : List Char) : Prop :=
  ∃ node, t.vnode fd = some node ∧ t.store.tree.StandsFor pathname node

/-! ## One call -/

/-- What any call does to the open descriptors and to the paths. -/
structure Steps (closes : Fin maxFd → Prop) (t t' : Table ν) : Prop where
  tree : t.store.tree.Extends t'.store.tree
  apart : Apart t → Apart t'
  vnode : Apart t → ∀ fd node, ¬ closes fd → t.vnode fd = some node → t'.vnode fd = some node

section Calls

variable {tmpfsRead tmpfsWrite op : Transfer ν} {create : Create ν} {s : Store ν}
  {t t' : Table ν} {pathname : List Char} {block : Addr} {flags : BitVec 32} {result : Int}
  {target : Option Addr}

theorem Vnodes.Extends.refl (tree : Vnodes ν) : tree.Extends tree := fun _ _ found => found

theorem Steps.refl (closes : Fin maxFd → Prop) (t : Table ν) : Steps closes t t :=
  ⟨.refl _, id, fun _ _ _ _ open_ => open_⟩

theorem openVnode_ok {vnode : Option ν} {opened : Opened ν}
    (returned : openVnode block flags vnode s = .ok opened) :
    ∃ node, opened = openNode block flags node s.tree s := by
  cases vnode with
  | none => cases returned
  | some node =>
      cases returned
      exact ⟨node, rfl⟩

/-- `vfs_open` opens a file in vnodes that extend the old ones, or it fails and changes
nothing. -/
theorem vfsOpen_ok (creates : Creates create s.tree) {opened : Opened ν}
    (returned : vfsOpen create block pathname flags target s = .ok opened) :
    (∃ node tree', s.tree.Extends tree' ∧ opened = openNode block flags node tree' s) ∨
      opened = ⟨-1, target, s⟩ := by
  rw [vfsOpen] at returned
  cases lookups : s.tree.openLookups pathname flags with
  | error fault =>
      rw [lookups] at returned
      cases returned
  | ok path =>
      rw [lookups] at returned
      cases path with
      | refused =>
          cases returned
          exact .inr rfl
      | opens vnode =>
          obtain ⟨node, rfl⟩ := openVnode_ok returned
          exact .inl ⟨node, s.tree, .refl _, rfl⟩
      | creates pos vnode =>
          cases vnode with
          | none => cases returned
          | some dir =>
              dsimp only at returned
              cases created : create s.tree dir (pathname.drop (pos + 1)) with
              | none =>
                  rw [created] at returned
                  cases returned
                  exact .inl ⟨dir, s.tree, .refl _, rfl⟩
              | some made =>
                  obtain ⟨leaf, tree'⟩ := made
                  rw [created] at returned
                  cases returned
                  have adds := creates dir _ leaf tree' created
                  exact .inl ⟨leaf, tree', fun _ _ stands => adds.standsFor stands, rfl⟩

/-- The loop of `my_open` fills a free slot with a new object, or changes nothing. -/
theorem myOpenLoop_ok (creates : Creates create t.store.tree) {slots : List (Fin maxFd)}
    (returned : myOpenLoop create block pathname flags slots t = .ok (result, t')) :
    t' = t ∨ ∃ fd node tree', t.fdt fd = none ∧ t.store.tree.Extends tree' ∧
      t' = ⟨(openNode block flags node tree' t.store).store,
        Function.update t.fdt fd (some block)⟩ := by
  induction slots with
  | nil =>
      cases returned
      exact .inl rfl
  | cons fd rest ih =>
      rw [myOpenLoop] at returned
      cases slot : t.fdt fd with
      | some file =>
          rw [slot] at returned
          exact ih returned
      | none =>
          rw [slot] at returned
          dsimp only at returned
          cases call : vfsOpen create block pathname flags none t.store with
          | error fault =>
              rw [call] at returned
              cases returned
          | ok opened =>
              rw [call] at returned
              dsimp only at returned
              rcases vfsOpen_ok creates call with ⟨node, tree', extends_, rfl⟩ | rfl
              · have success : (openNode block flags node tree' t.store).code = 0 := rfl
                rw [if_pos success] at returned
                cases returned
                exact .inr ⟨fd, node, tree', slot, extends_, rfl⟩
              · -- A failed attempt leaves a null pointer where one was.
                have same : Function.update t.fdt fd none = t.fdt := by
                  rw [← slot, Function.update_eq_self]
                have failure : ¬ (-1 : Int) = 0 := by decide
                dsimp only at returned
                rw [if_neg failure, same] at returned
                exact ih returned

/-- A new object in a free slot. -/
theorem Steps.opened (fresh : t.store.file block = none) {fd : Fin maxFd} {node : ν}
    {tree' : Vnodes ν} (free : t.fdt fd = none) (extends_ : t.store.tree.Extends tree') :
    Steps (fun _ => False) t ⟨(openNode block flags node tree' t.store).store,
      Function.update t.fdt fd (some block)⟩ := by
  -- An old slot has an old object.
  have old : Apart t → ∀ i file, t.fdt i = some file → i ≠ fd ∧ file ≠ block := by
    intro apart i file slot
    constructor
    · rintro rfl
      rw [free] at slot
      cases slot
    · rintro rfl
      exact apart.present i file slot fresh
  have slots : ∀ i file, Function.update t.fdt fd (some block) i = some file →
      i = fd ∧ file = block ∨ t.fdt i = some file := by
    intro i file slot
    by_cases new : i = fd
    · rw [new, Function.update_self] at slot
      exact .inl ⟨new, (Option.some.inj slot).symm⟩
    · rw [Function.update_of_ne new] at slot
      exact .inr slot
  refine ⟨extends_, ?_, ?_⟩
  · intro apart
    constructor
    · intro i j file first second
      rcases slots i file first with ⟨rfl, rfl⟩ | firstOld
      · rcases slots j file second with ⟨rfl, -⟩ | secondOld
        · rfl
        · exact absurd rfl (old apart j file secondOld).2
      · rcases slots j file second with ⟨rfl, rfl⟩ | secondOld
        · exact absurd rfl (old apart i file firstOld).2
        · exact apart.distinct i j file firstOld secondOld
    · intro i file slot
      show Function.update t.store.file block _ file ≠ none
      rcases slots i file slot with ⟨-, rfl⟩ | oldSlot
      · rw [Function.update_self]
        exact Option.some_ne_none _
      · rw [Function.update_of_ne (old apart i file oldSlot).2]
        exact apart.present i file oldSlot
  · intro apart i inode _ found
    obtain ⟨file, slot, vnode⟩ := Option.bind_eq_some_iff.mp found
    obtain ⟨otherSlot, otherFile⟩ := old apart i file slot
    apply Option.bind_eq_some_iff.mpr
    refine ⟨file, (Function.update_of_ne otherSlot _ _).trans slot, ?_⟩
    show (Function.update t.store.file block _ file).map File.vnode = some inode
    rw [Function.update_of_ne otherFile]
    exact vnode

theorem Steps.of_myOpen (creates : Creates create t.store.tree)
    (fresh : t.store.file block = none)
    (returned : myOpen create block pathname flags t = .ok (result, t')) :
    Steps (fun _ => False) t t' := by
  rcases myOpenLoop_ok creates returned with rfl | ⟨fd, node, tree', free, extends_, rfl⟩
  · exact .refl _ _
  · exact .opened fresh free extends_

/-- A `my_close` frees the slot and its object, or returns -1 and changes nothing. -/
theorem myClose_ok {fd : Int} (returned : myClose fd t = .ok (result, t')) :
    t' = t ∨ ∃ (slot : Fin maxFd) (file : Addr), fd = slot.val ∧ t.fdt slot = some file ∧
      t' = ⟨⟨t.store.tree, Function.update t.store.file file none⟩,
        Function.update t.fdt slot none⟩ := by
  rw [myClose] at returned
  split at returned
  next inside =>
    dsimp only at returned
    cases used : t.fdt ⟨fd.toNat, toNat_lt_maxFd inside⟩ with
    | none =>
        rw [used] at returned
        cases returned
        exact .inl rfl
    | some file =>
        rw [used] at returned
        dsimp only at returned
        rw [vfsClose] at returned
        cases object : t.store.file file with
        | none =>
            rw [object] at returned
            cases returned
        | some freed =>
            rw [object] at returned
            cases returned
            exact .inr ⟨_, file, (Int.toNat_of_nonneg inside.1).symm, used, rfl⟩
  next => cases returned

/-- A slot is freed with its object. -/
theorem Steps.closed {slot : Fin maxFd} {file : Addr} (used : t.fdt slot = some file) :
    Steps (fun i => i = slot) t ⟨⟨t.store.tree, Function.update t.store.file file none⟩,
      Function.update t.fdt slot none⟩ := by
  have slots : ∀ i other, Function.update t.fdt slot none i = some other →
      i ≠ slot ∧ t.fdt i = some other := by
    intro i other kept
    by_cases same : i = slot
    · rw [same, Function.update_self] at kept
      cases kept
    · rw [Function.update_of_ne same] at kept
      exact ⟨same, kept⟩
  -- Another slot has another object.
  have others : Apart t → ∀ i other, i ≠ slot → t.fdt i = some other → other ≠ file := by
    intro apart i other different old
    rintro rfl
    exact different (apart.distinct _ _ _ old used)
  refine ⟨.refl _, ?_, ?_⟩
  · intro apart
    constructor
    · intro i j other first second
      exact apart.distinct i j other (slots i other first).2 (slots j other second).2
    · intro i other kept
      obtain ⟨different, old⟩ := slots i other kept
      show Function.update t.store.file file none other ≠ none
      rw [Function.update_of_ne (others apart i other different old)]
      exact apart.present i other old
  · intro apart i node different found
    obtain ⟨other, old, vnode⟩ := Option.bind_eq_some_iff.mp found
    apply Option.bind_eq_some_iff.mpr
    refine ⟨other, (Function.update_of_ne different _ _).trans old, ?_⟩
    show (Function.update t.store.file file none other).map File.vnode = some node
    rw [Function.update_of_ne (others apart i other different old)]
    exact vnode

theorem Steps.of_myClose {fd : Int} (returned : myClose fd t = .ok (result, t')) :
    Steps (fun i => fd = i.val) t t' := by
  rcases myClose_ok returned with rfl | ⟨slot, file, rfl, used, rfl⟩
  · exact .refl _ _
  · have closed := Steps.closed used
    refine ⟨closed.tree, closed.apart, ?_⟩
    intro apart i node notClosed found
    have different : i ≠ slot := by
      rintro rfl
      exact notClosed rfl
    exact closed.vnode apart i node different found

/-- A read or write of an open descriptor is the operation on its file, and returns -1 without
it if the descriptor is free. -/
theorem onSlot_ok {fd : Int} {buf : Addr} {count : BitVec 64}
    (returned : onSlot (viaFile op) fd buf count t = .ok (result, t')) :
    t' = t ∨ ∃ file store, op file buf count t.store = .ok (result, store) ∧
      t' = { t with store := store } := by
  rw [onSlot] at returned
  split at returned
  next inside =>
    cases slot : t.fdt ⟨fd.toNat, toNat_lt_maxFd inside⟩ with
    | none =>
        rw [slot] at returned
        cases returned
        exact .inl rfl
    | some file =>
        rw [slot] at returned
        dsimp only at returned
        rw [viaFile] at returned
        cases object : t.store.file file with
        | none =>
            rw [object] at returned
            cases returned
        | some present =>
            rw [object] at returned
            dsimp only at returned
            cases call : op file buf count t.store with
            | error fault =>
                rw [call] at returned
                cases returned
            | ok answer =>
                obtain ⟨value, store⟩ := answer
                rw [call] at returned
                cases returned
                exact .inr ⟨file, store, call, rfl⟩
  next => cases returned

theorem Steps.of_onSlot (keeps : op.Keeps) {fd : Int} {buf : Addr} {count : BitVec 64}
    (returned : onSlot (viaFile op) fd buf count t = .ok (result, t')) :
    Steps (fun _ => False) t t' := by
  rcases onSlot_ok returned with rfl | ⟨file, store, call, rfl⟩
  · exact .refl _ _
  · have vnodes := keeps.vnode call
    refine ⟨?_, ?_, ?_⟩
    · show t.store.tree.Extends store.tree
      rw [keeps.tree call]
      exact .refl _
    · intro apart
      refine ⟨apart.distinct, ?_⟩
      intro i other slot missing
      have same := vnodes other
      rw [show store.file other = none from missing, Option.map_none, eq_comm,
        Option.map_eq_none_iff] at same
      exact apart.present i other slot same
    · intro _ i node _ found
      obtain ⟨other, slot, vnode⟩ := Option.bind_eq_some_iff.mp found
      exact Option.bind_eq_some_iff.mpr ⟨other, slot, (vnodes other).trans vnode⟩

/-- One call. -/
theorem Steps.of_call (keepsRead : tmpfsRead.Keeps) (keepsWrite : tmpfsWrite.Keeps)
    {call : Call ν} (legal : call.Legal t)
    (returned : call.run tmpfsRead tmpfsWrite t = .ok (result, t')) :
    Steps (fun fd => call.Closes fd) t t' := by
  cases call with
  | myOpen create block pathname flags => exact .of_myOpen legal.1 legal.2 returned
  | myClose fd => exact .of_myClose returned
  | myRead fd buf count => exact .of_onSlot keepsRead returned
  | myWrite fd buf count => exact .of_onSlot keepsWrite returned

/-! ## Runs -/

/-- Whole runs. -/
theorem Steps.of_calls (keepsRead : tmpfsRead.Keeps) (keepsWrite : tmpfsWrite.Keeps)
    {calls : List (Call ν)} (run : Calls tmpfsRead tmpfsWrite t calls t') :
    Steps (fun fd => ∃ call ∈ calls, call.Closes fd) t t' := by
  induction run with
  | nil t => exact .refl _ t
  | @cons t t₁ t₂ result call rest legal returned later ih =>
      have first := Steps.of_call keepsRead keepsWrite legal returned
      refine ⟨?_, ?_, ?_⟩
      · exact fun pathname node found => ih.tree _ _ (first.tree _ _ found)
      · exact fun apart => ih.apart (first.apart apart)
      · intro apart fd node notClosed found
        have here : ¬ call.Closes fd := fun closed =>
          notClosed ⟨call, List.mem_cons_self, closed⟩
        have there : ¬ ∃ call ∈ rest, call.Closes fd := by
          rintro ⟨other, member, closed⟩
          exact notClosed ⟨other, List.mem_cons_of_mem _ member, closed⟩
        exact ih.vnode (first.apart apart) fd node there (first.vnode apart fd node here found)

/-- The empty descriptor table. -/
def Table.empty (tree : Vnodes ν) : Table ν := ⟨⟨tree, fun _ => none⟩, fun _ => none⟩

theorem Apart.empty (tree : Vnodes ν) : Apart (Table.empty tree) := by
  constructor
  · rintro i j file ⟨⟩
  · rintro i file ⟨⟩

/-- The path of a successful `my_open`. -/
theorem OpensAt.refers {fd : Fin maxFd} (opens : OpensAt t fd block pathname flags t') :
    Refers t' fd pathname := by
  obtain ⟨node, stands, file⟩ := opens.file
  refine ⟨node, ?_, stands⟩
  rw [Table.vnode, opens.slot, Option.bind_some, file, Option.map_some]

/-- What the rest of a run leaves of a table. -/
structure Persists (t t' : Table ν) (calls : List (Call ν)) : Prop where
  paths : ∀ pathname node, t.store.tree.StandsFor pathname node →
    t'.store.tree.StandsFor pathname node
  descriptors : ∀ fd pathname, Refers t fd pathname → (¬ ∃ call ∈ calls, call.Closes fd) →
    Refers t' fd pathname ∧ t'.vnode fd = t.vnode fd
  objects : ∀ fd other file, t'.fdt fd = some file → t'.fdt other = some file → fd = other
  opens : ∀ create block pathname flags, Creates create t'.store.tree →
    Openable create t'.store.tree pathname flags → (∃ i, t'.fdt i = none) →
      ∃ (fd : Fin maxFd) (next : Table ν),
        myOpen create block pathname flags t' = .ok (fd.val, next) ∧ Refers next fd pathname

/-- In every run of the four calls, whether they succeed or return -1, a path that once stood for
a vnode stands for it from then on, and a descriptor that was open for a path stays open for the
same vnode of the same path until it is closed, with an object that no other descriptor has. -/
theorem paths_persist (keepsRead : tmpfsRead.Keeps) (keepsWrite : tmpfsWrite.Keeps)
    {tree : Vnodes ν} {before after : List (Call ν)}
    (reached : Calls tmpfsRead tmpfsWrite (Table.empty tree) before t)
    (later : Calls tmpfsRead tmpfsWrite t after t') : Persists t t' after := by
  have apart := (Steps.of_calls keepsRead keepsWrite reached).apart (.empty tree)
  have steps := Steps.of_calls keepsRead keepsWrite later
  constructor
  · exact steps.tree
  · rintro fd pathname ⟨node, found, stands⟩ notClosed
    have kept := steps.vnode apart fd node notClosed found
    exact ⟨⟨node, kept, steps.tree _ _ stands⟩, kept.trans found.symm⟩
  · exact (steps.apart apart).distinct
  · intro create block pathname flags creates openable free
    obtain ⟨fd, next, opened, opens⟩ := myOpen_free block creates openable free
    exact ⟨fd, next, opened, opens.refers⟩

/-- A file that is made and opened, and a read of it. -/
theorem paths_persist_file_txt :
    ∃ t t' : Table Nat, Refers t' 0 "/file.txt".toList ∧
      Persists t t' [.myRead 0 16 4] := by
  have keeps : Transfer.Keeps (noTransfer : Transfer Nat) := by
    constructor
    · rintro file buf len s result s' ⟨⟩
      rfl
    · rintro file buf len s result s' ⟨⟩ other
      rfl
  have creates : Creates (createLeaf 1) (rootOnly [] []).tree :=
    creates_createLeaf [] (by decide) (by decide)
  have openable := openable_file_txt
  obtain ⟨fd, t, opened, opens⟩ :=
    myOpen_free (t := Table.empty (rootOnly [] []).tree) 8 creates openable ⟨0, rfl⟩
  have first : fd = 0 := by
    by_contra different
    exact opens.lowest.2 0 (Fin.pos_iff_ne_zero.mpr different) rfl
  subst first
  obtain ⟨node, -, present⟩ := opens.file
  have read : myRead noTransfer (0 : Int) 16 4 t = .ok (0, t) := by
    have inside : (0 : Int) ≤ 0 ∧ (0 : Int) < maxFd := by decide
    have slot : t.fdt ⟨(0 : Int).toNat, toNat_lt_maxFd inside⟩ = some 8 := opens.slot
    rw [myRead, onSlot, dif_pos inside, slot]
    dsimp only
    rw [vfsRead, viaFile, present]
    rfl
  have persists := paths_persist keeps keeps
    (.cons ⟨creates, rfl⟩ opened (.nil t) : Calls noTransfer noTransfer _ [.myOpen _ _ _ _] t)
    (.cons trivial read (.nil t) : Calls noTransfer noTransfer t [.myRead 0 16 4] t)
  refine ⟨t, t, ?_, persists⟩
  exact opens.refers

end Calls

end OscKernel.Vfs
