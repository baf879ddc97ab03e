import OscKernel.Vfs.Descriptors

/-!
# Calls on descriptors that are not open (`ex71/main.c`)

`my_read` and `my_write`, with `tmpfs_read` and `tmpfs_write` as parameters, which the
program leaves to be written.  The three calls that take a descriptor test only for a null
pointer in its slot.
-/

namespace OscKernel.Vfs

universe u

variable {ν : Type u}

/-- `read` and `write` of the file operations: the object, the address of the buffer and the
length, with the result and the store after the call. -/
abbrev Transfer (ν : Type u) : Type u :=
  Addr → Addr → BitVec 64 → Store ν → Except Fault (Int × Store ν)

/-- The call of a file operation through `file->f_ops`. -/
def viaFile (op : Transfer ν) : Transfer ν := fun file buf len s =>
  match s.file file with
  | none => .error .dangling
  | some _ => op file buf len s

/-- `vfs_read` -/
def vfsRead (tmpfsRead : Transfer ν) : Transfer ν := viaFile tmpfsRead

/-- `vfs_write` -/
def vfsWrite (tmpfsWrite : Transfer ν) : Transfer ν := viaFile tmpfsWrite

/-- `my_read` and `my_write`: a call on the object in a slot. -/
def onSlot (call : Transfer ν) (fd : Int) (buf : Addr) (count : BitVec 64) (t : Table ν) :
    Except Fault (Int × Table ν) :=
  if inside : 0 ≤ fd ∧ fd < maxFd then
    match t.fdt ⟨fd.toNat, toNat_lt_maxFd inside⟩ with
    | none => .ok (-1, t)
    | some file =>
        match call file buf count t.store with
        | .error fault => .error fault
        | .ok (result, store) => .ok (result, { t with store := store })
  else .error .outOfBounds

/-- `my_read` -/
def myRead (tmpfsRead : Transfer ν) : Int → Addr → BitVec 64 → Table ν →
    Except Fault (Int × Table ν) :=
  onSlot (vfsRead tmpfsRead)

/-- `my_write` -/
def myWrite (tmpfsWrite : Transfer ν) : Int → Addr → BitVec 64 → Table ν →
    Except Fault (Int × Table ν) :=
  onSlot (vfsWrite tmpfsWrite)

/-- No open file has the number. -/
def NotOpen (t : Table ν) (fd : Int) : Prop := ∀ i : Fin maxFd, (i.val : Int) = fd → t.fdt i = none

/-- The three calls return -1, stay inside `fdt` and change nothing. -/
structure Rejects (tmpfsRead tmpfsWrite : Transfer ν) (t : Table ν) (fd : Int) : Prop where
  read : ∀ buf count, myRead tmpfsRead fd buf count t = .ok (-1, t)
  write : ∀ buf count, myWrite tmpfsWrite fd buf count t = .ok (-1, t)
  close : myClose fd t = .ok (-1, t)

section Calls

variable {call tmpfsRead tmpfsWrite : Transfer ν} {t : Table ν} {buf : Addr} {count : BitVec 64}

theorem onSlot_unused {fd : Fin maxFd} (unused : t.fdt fd = none) :
    onSlot call fd.val buf count t = .ok (-1, t) := by
  have inside : (0 : Int) ≤ fd.val ∧ (fd.val : Int) < maxFd :=
    ⟨Int.natCast_nonneg _, Int.ofNat_lt.mpr fd.isLt⟩
  rw [onSlot, dif_pos inside]
  dsimp only [Int.toNat_natCast]
  rw [unused]

/-- The operations change the files and never the slots. -/
theorem onSlot_fdt {fd result : Int} {t' : Table ν}
    (returned : onSlot call fd buf count t = .ok (result, t')) : t'.fdt = t.fdt := by
  rw [onSlot] at returned
  split at returned
  · split at returned
    · cases returned
      rfl
    · split at returned
      · cases returned
      · cases returned
        rfl
  · cases returned

/-- There is no test of the number itself. -/
theorem onSlot_outside {fd : Int} (outside : ¬ (0 ≤ fd ∧ fd < maxFd)) :
    onSlot call fd buf count t = .error .outOfBounds := by
  rw [onSlot, dif_neg outside]

theorem myClose_outside {fd : Int} (outside : ¬ (0 ≤ fd ∧ fd < maxFd)) :
    myClose fd t = .error .outOfBounds := by
  rw [myClose, dif_neg outside]

theorem not_rejects_outside {fd : Int} (outside : ¬ (0 ≤ fd ∧ fd < maxFd)) :
    ¬ Rejects tmpfsRead tmpfsWrite t fd := by
  intro rejects
  have closed := rejects.close
  rw [myClose_outside outside] at closed
  cases closed

theorem rejects_of_inside {fd : Int} (closed : NotOpen t fd) (inside : 0 ≤ fd ∧ fd < maxFd) :
    Rejects tmpfsRead tmpfsWrite t fd := by
  obtain ⟨i, rfl⟩ : ∃ i : Fin maxFd, (i.val : Int) = fd :=
    ⟨⟨fd.toNat, toNat_lt_maxFd inside⟩, Int.toNat_of_nonneg inside.1⟩
  have unused : t.fdt i = none := closed i rfl
  exact
    { read := fun _ _ => onSlot_unused unused
      write := fun _ _ => onSlot_unused unused
      close := myClose_unused unused }

end Calls

/-- A descriptor that is not open is rejected exactly if it is a number of a slot. -/
theorem bad_descriptor_iff (tmpfsRead tmpfsWrite : Transfer ν) (t : Table ν) (fd : Int)
    (closed : NotOpen t fd) :
    Rejects tmpfsRead tmpfsWrite t fd ↔ 0 ≤ fd ∧ fd < maxFd := by
  constructor
  · intro rejects
    by_contra outside
    exact not_rejects_outside outside rejects
  · exact rejects_of_inside closed

/-- An operation that transfers nothing. -/
def noTransfer : Transfer ν := fun _ _ _ s => .ok (0, s)

/-- The table at the start, with descriptors that are closed, negative and too large. -/
theorem bad_descriptor_start :
    Run (rootOnly [] []).tree ⟨rootOnly [] [], fun _ => none⟩ ∧
      Rejects noTransfer noTransfer ⟨rootOnly [] [], fun _ => none⟩ 3 ∧
      ¬ Rejects noTransfer noTransfer ⟨rootOnly [] [], fun _ => none⟩ (-1) ∧
      ¬ Rejects noTransfer noTransfer ⟨rootOnly [] [], fun _ => none⟩ 16 := by
  have closed : ∀ fd, NotOpen ⟨rootOnly [] [], fun _ => none⟩ fd := fun _ _ _ => rfl
  refine ⟨.start, ?_, ?_, ?_⟩
  · exact (bad_descriptor_iff _ _ _ 3 (closed 3)).mpr (by decide)
  · rw [bad_descriptor_iff _ _ _ _ (closed _)]
    decide
  · rw [bad_descriptor_iff _ _ _ _ (closed _)]
    decide

/-- The result of a failed `my_open` is not rejected by the other calls. -/
theorem failed_open_not_rejected :
    ∃ t : Table Nat, Run (rootOnly [] []).tree t ∧
      myOpen (createLeaf 1) 8 "/a/b".toList oCreat t = .ok (-1, t) ∧ NotOpen t (-1) ∧
      ¬ Rejects noTransfer noTransfer t (-1) := by
  refine ⟨⟨rootOnly [] [], fun _ => none⟩, .start, ?_, fun _ _ => rfl, ?_⟩
  · have missing : ∀ slots : List (Fin maxFd),
        myOpenLoop (createLeaf 1) 8 "/a/b".toList oCreat slots
          ⟨rootOnly [] [], fun _ => none⟩ = .ok (-1, ⟨rootOnly [] [], fun _ => none⟩) := by
      intro slots
      induction slots with
      | nil => rfl
      | cons i rest ih =>
          have same : Function.update (fun _ : Fin maxFd => (none : Option Addr)) i none =
              fun _ => none := Function.update_eq_self i _
          have failed : vfsOpen (createLeaf 1) 8 "/a/b".toList oCreat none (rootOnly [] []) =
              .ok ⟨-1, none, rootOnly [] []⟩ := rfl
          rw [myOpenLoop]
          dsimp only
          rw [failed]
          dsimp only
          rw [if_neg (by decide), same]
          exact ih
    exact missing _
  · exact not_rejects_outside (by decide)

end OscKernel.Vfs
