import OscKernel.Fdt.Lookup

/-!
# The main program (`ex21/main.c`)

`main` looks up one property with checks and two without, and prints them.  The bytes that it reads
of the blob are what its calls read, the text that it prints, and the doublewords behind the
pointers that it gets.
-/

namespace OscKernel.Fdt

open Alloc Riscv Loops

/-! ## The program -/

/-- How many characters `%.*s` prints.  A negative precision is none. -/
def printedLength (m : Mem) (s : BitVec 64) (precision : BitVec 32) : Nat :=
  if precision.toInt < 0 then m.strlen s else min precision.toNat (m.strlen s)

/-- What `%.*s` prints. -/
def printedText (m : Mem) (s : BitVec 64) (precision : BitVec 32) : List Byte :=
  (List.range (printedLength m s precision)).map fun i => m (s + BitVec.ofNat 64 i)

/-- What `%.*s` reads: up to the precision or the NUL. -/
def printedRead (m : Mem) (s : BitVec 64) (precision : BitVec 32) : Set (BitVec 64) :=
  bytesAt s (if precision.toInt < 0 then m.strlen s + 1 else min precision.toNat (m.strlen s + 1))

/-- The pointer that `fdt_getprop` returns. -/
def pointer : Option (BitVec 64 × BitVec 32) → BitVec 64
  | none => 0
  | some (prop, _) => prop

/-- A message on `stderr`, or the three lines of `main`. -/
inductive Output where
  | failed (message : String)
  | printed (compatible : List Byte) (base size initrdStart : BitVec 64)
  deriving DecidableEq, Repr

def controllerPath : List Byte := ascii "/cpus/cpu@0/interrupt-controller"

/-- `main` behind the loading of the file, for at most `fuel` tokens in each walk. -/
def main (fuel : Nat) (m : Mem) (fdt : BitVec 64) : ExceptT Fault Option Output := do
  let offset ← ExceptT.mk (fdtPathOffset fuel m fdt controllerPath)
  if offset.toInt < 0 then
    return .failed "fdt_path_offset"
  else
    match ← ExceptT.lift (fdtGetprop fuel m fdt offset (ascii "compatible")) with
    | none => return .failed "fdt_getprop"
    | some (prop, len) =>
        let memory ← ExceptT.mk (fdtPathOffset fuel m fdt (ascii "/memory"))
        let reg ← ExceptT.lift (fdtGetprop fuel m fdt memory (ascii "reg"))
        let chosen ← ExceptT.mk (fdtPathOffset fuel m fdt (ascii "/chosen"))
        let initrdStart ← ExceptT.lift
          (fdtGetprop fuel m fdt chosen (ascii "linux,initrd-start"))
        return .printed (printedText m prop len) (bswap64 (load64 m (pointer reg)))
          (bswap64 (load64 m (pointer reg + 8))) (bswap64 (load64 m (pointer initrdStart)))

/-- `main` ends with the output. -/
def Main (m : Mem) (fdt : BitVec 64) (output : Output) : Prop :=
  ∃ fuel, (main fuel m fdt).run = some (.ok output)

/-- What `main` reads from the lookup of `/chosen` on. -/
def chosenRead (m : Mem) (fdt : BitVec 64) : Set (BitVec 64) :=
  lookupRead m fdt (ascii "/chosen") (ascii "linux,initrd-start") fun initrdStart =>
    bytesAt (pointer initrdStart) 8

/-- What `main` reads from the lookup of `/memory` on. -/
def memoryRead (m : Mem) (fdt : BitVec 64) : Set (BitVec 64) :=
  lookupRead m fdt (ascii "/memory") (ascii "reg") fun reg =>
    bytesAt (pointer reg) 16 ∪ chosenRead m fdt

/-- What `main` reads of the blob. -/
def mainRead (m : Mem) (fdt : BitVec 64) : Set (BitVec 64) :=
  {x | x ∈ pathOffsetRead m fdt controllerPath ∨
    ∃ offset, PathOffset m fdt controllerPath (.ok offset) ∧ ¬ offset.toInt < 0 ∧
      (x ∈ getpropRead m fdt offset (ascii "compatible") ∨
        ∃ prop len, GetProp m fdt offset (ascii "compatible") (some (prop, len)) ∧
          (x ∈ printedRead m prop len ∨ x ∈ memoryRead m fdt))}

/-! ## Runs -/

/-- The calls of a run. -/
inductive Runs (m : Mem) (fdt : BitVec 64) : Output → Prop where
  | noNode {offset : BitVec 32} (node : PathOffset m fdt controllerPath (.ok offset))
      (negative : offset.toInt < 0) : Runs m fdt (.failed "fdt_path_offset")
  | noProperty {offset : BitVec 32} (node : PathOffset m fdt controllerPath (.ok offset))
      (nonnegative : ¬ offset.toInt < 0)
      (property : GetProp m fdt offset (ascii "compatible") none) :
      Runs m fdt (.failed "fdt_getprop")
  | printed {offset memory chosen len : BitVec 32} {prop : BitVec 64}
      {reg initrdStart : Option (BitVec 64 × BitVec 32)}
      (node : PathOffset m fdt controllerPath (.ok offset)) (nonnegative : ¬ offset.toInt < 0)
      (property : GetProp m fdt offset (ascii "compatible") (some (prop, len)))
      (memoryNode : PathOffset m fdt (ascii "/memory") (.ok memory))
      (memoryReg : GetProp m fdt memory (ascii "reg") reg)
      (chosenNode : PathOffset m fdt (ascii "/chosen") (.ok chosen))
      (chosenInitrd : GetProp m fdt chosen (ascii "linux,initrd-start") initrdStart) :
      Runs m fdt (.printed (printedText m prop len) (bswap64 (load64 m (pointer reg)))
        (bswap64 (load64 m (pointer reg + 8))) (bswap64 (load64 m (pointer initrdStart))))

section Runs

variable {m : Mem} {fdt : BitVec 64} {path name : List Byte} {offset : BitVec 32}
variable {output : Output}

theorem PathOffset.eventually {result : Except Fault (BitVec 32)}
    (returns : PathOffset m fdt path result) :
    ∀ᶠ fuel in Filter.atTop, fdtPathOffset fuel m fdt path = some result := by
  cases scanned : scanPath 0 path .init with
  | error fault =>
      obtain ⟨least, ended⟩ := returns
      simp only [fdtPathOffset, scanned] at ended ⊢
      exact Filter.Eventually.of_forall fun _ => ended
  | ok idx =>
      have ends := ((pathOffset_iff_ends scanned).mp returns).eventually
      simpa only [fdtPathOffset, scanned] using ends

theorem GetProp.eventually {result : Option (BitVec 64 × BitVec 32)}
    (returns : GetProp m fdt offset name result) :
    ∀ᶠ fuel in Filter.atTop, fdtGetprop fuel m fdt offset name = some result :=
  Ends.eventually returns

/-- A computation that goes on returns if both parts do. -/
theorem run_bind_eq_ok {ε α β : Type} {x : ExceptT ε Option α} {f : α → ExceptT ε Option β}
    {b : β} : (x >>= f).run = some (.ok b) ↔
      ∃ a, x.run = some (.ok a) ∧ (f a).run = some (.ok b) := by
  rw [ExceptT.run_bind]
  cases ended : x.run with
  | none => simp
  | some result =>
      cases result with
      | error fault => simp
      | ok a => simp

theorem run_lift_eq_ok {ε α : Type} {x : Option α} {a : α} :
    (ExceptT.lift x : ExceptT ε Option α).run = some (.ok a) ↔ x = some a := by
  rw [ExceptT.run_lift]
  cases x with
  | none => simp
  | some b => simp

/-- The calls that the program makes. -/
theorem Main.runs (returns : Main m fdt output) : Runs m fdt output := by
  obtain ⟨fuel, ended⟩ := returns
  rw [main, run_bind_eq_ok] at ended
  obtain ⟨offset, node, ended⟩ := ended
  split at ended
  · rename_i negative
    cases ended
    exact .noNode ⟨fuel, node⟩ negative
  · rename_i nonnegative
    rw [run_bind_eq_ok] at ended
    obtain ⟨prop, property, ended⟩ := ended
    rw [run_lift_eq_ok] at property
    cases prop with
    | none =>
        cases ended
        exact .noProperty ⟨fuel, node⟩ nonnegative ⟨fuel, property⟩
    | some prop =>
        obtain ⟨prop, len⟩ := prop
        dsimp only at ended
        simp only [run_bind_eq_ok, run_lift_eq_ok] at ended
        obtain ⟨memory, memoryNode, reg, memoryReg, chosen, chosenNode, initrdStart, chosenInitrd,
          ended⟩ := ended
        cases ended
        exact .printed ⟨fuel, node⟩ nonnegative ⟨fuel, property⟩ ⟨fuel, memoryNode⟩
          ⟨fuel, memoryReg⟩ ⟨fuel, chosenNode⟩ ⟨fuel, chosenInitrd⟩

/-- Calls that return do so with enough fuel for all of them. -/
theorem Runs.main (runs : Runs m fdt output) : Main m fdt output := by
  cases runs with
  | noNode node negative =>
      obtain ⟨fuel, ended⟩ := node.eventually.exists
      refine ⟨fuel, ?_⟩
      rw [main, run_bind_eq_ok]
      refine ⟨_, ended, ?_⟩
      rw [if_pos negative]
      rfl
  | noProperty node nonnegative property =>
      obtain ⟨fuel, ended, gets⟩ := (node.eventually.and property.eventually).exists
      refine ⟨fuel, ?_⟩
      rw [main, run_bind_eq_ok]
      refine ⟨_, ended, ?_⟩
      rw [if_neg nonnegative, run_bind_eq_ok]
      exact ⟨_, run_lift_eq_ok.mpr gets, rfl⟩
  | printed node nonnegative property memoryNode memoryReg chosenNode chosenInitrd =>
      obtain ⟨fuel, ended, gets, memoryEnded, regGets, chosenEnded, initrdGets⟩ :=
        (node.eventually.and (property.eventually.and (memoryNode.eventually.and
          (memoryReg.eventually.and (chosenNode.eventually.and chosenInitrd.eventually))))).exists
      refine ⟨fuel, ?_⟩
      rw [main, run_bind_eq_ok]
      refine ⟨_, ended, ?_⟩
      rw [if_neg nonnegative, run_bind_eq_ok]
      refine ⟨_, run_lift_eq_ok.mpr gets, ?_⟩
      simp only [run_bind_eq_ok, run_lift_eq_ok]
      exact ⟨_, memoryEnded, _, regGets, _, chosenEnded, _, initrdGets, rfl⟩

theorem main_iff_runs : Main m fdt output ↔ Runs m fdt output := ⟨Main.runs, Runs.main⟩

end Runs

/-! ## The footprint is complete -/

section Congr

variable {m m' : Mem} {fdt a : BitVec 64} {path name : List Byte} {offset len : BitVec 32}
variable {prop : Option (BitVec 64 × BitVec 32)} {output : Output}
variable {use : Option (BitVec 64 × BitVec 32) → Set (BitVec 64)}

theorem load64_congr (agree : Set.EqOn m' m (bytesAt a 8)) : load64 m' a = load64 m a := by
  have first : m' a = m a := agree (self_mem_bytesAt (by decide))
  have second : m' (a + 1) = m (a + 1) := agree (offset_mem_bytesAt (by decide : 1 < 8))
  have third : m' (a + 2) = m (a + 2) := agree (offset_mem_bytesAt (by decide : 2 < 8))
  have fourth : m' (a + 3) = m (a + 3) := agree (offset_mem_bytesAt (by decide : 3 < 8))
  have fifth : m' (a + 4) = m (a + 4) := agree (offset_mem_bytesAt (by decide : 4 < 8))
  have sixth : m' (a + 5) = m (a + 5) := agree (offset_mem_bytesAt (by decide : 5 < 8))
  have seventh : m' (a + 6) = m (a + 6) := agree (offset_mem_bytesAt (by decide : 6 < 8))
  have eighth : m' (a + 7) = m (a + 7) := agree (offset_mem_bytesAt (by decide : 7 < 8))
  rw [load64, load64, first, second, third, fourth, fifth, sixth, seventh, eighth]

theorem printedText_congr (agree : Set.EqOn m' m (printedRead m a len)) :
    printedText m' a len = printedText m a len := by
  have length : printedLength m' a len = printedLength m a len := by
    rw [printedRead] at agree
    rw [printedLength, printedLength]
    split at agree
    · rename_i negative
      rw [if_pos negative, if_pos negative]
      exact Mem.strlen_congr agree
    · rename_i nonnegative
      rw [if_neg nonnegative, if_neg nonnegative]
      exact Mem.min_strlen_congr agree
  rw [printedText, printedText, length]
  apply List.map_congr_left
  intro i member
  have inside := List.mem_range.mp member
  apply agree
  apply offset_mem_bytesAt
  rw [printedLength] at inside
  split
  · rename_i negative
    rw [if_pos negative] at inside
    omega
  · rename_i nonnegative
    rw [if_neg nonnegative] at inside
    omega

/-- The calls of a chain depend on what they read. -/
theorem lookup_congr (agree : Set.EqOn m' m (lookupRead m fdt path name use))
    (node : PathOffset m fdt path (.ok offset)) (property : GetProp m fdt offset name prop) :
    PathOffset m' fdt path (.ok offset) ∧ GetProp m' fdt offset name prop ∧
      Set.EqOn m' m (use prop) := by
  refine ⟨?_, ?_, ?_⟩
  · exact pathOffset_congr (agree.mono fun x member => Or.inl member) node
  · exact getProp_congr (agree.mono fun x member => Or.inr ⟨offset, node, .inl member⟩) property
  · exact agree.mono fun x member => Or.inr ⟨offset, node, .inr ⟨prop, property, member⟩⟩

/-- What `main` does depends on what it reads and on nothing else. -/
theorem Runs.congr (agree : Set.EqOn m' m (mainRead m fdt)) (runs : Runs m fdt output) :
    Runs m' fdt output := by
  have walk : pathOffsetRead m fdt controllerPath ⊆ mainRead m fdt := by
    intro x member
    exact .inl member
  have props : ∀ offset, PathOffset m fdt controllerPath (.ok offset) → ¬ offset.toInt < 0 →
      getpropRead m fdt offset (ascii "compatible") ⊆ mainRead m fdt := by
    intro offset node nonnegative x member
    exact .inr ⟨offset, node, nonnegative, .inl member⟩
  cases runs with
  | noNode node negative => exact .noNode (pathOffset_congr (agree.mono walk) node) negative
  | noProperty node nonnegative property =>
      exact .noProperty (pathOffset_congr (agree.mono walk) node) nonnegative
        (getProp_congr (agree.mono (props _ node nonnegative)) property)
  | @printed offset memory chosen len prop reg initrdStart node nonnegative property memoryNode
      memoryReg chosenNode chosenInitrd =>
      have text : printedRead m prop len ⊆ mainRead m fdt := by
        intro x member
        exact .inr ⟨offset, node, nonnegative, .inr ⟨prop, len, property, .inl member⟩⟩
      have later : memoryRead m fdt ⊆ mainRead m fdt := by
        intro x member
        exact .inr ⟨offset, node, nonnegative, .inr ⟨prop, len, property, .inr member⟩⟩
      have sameText := printedText_congr (agree.mono text)
      obtain ⟨memoryNode', memoryReg', memoryUse⟩ :=
        lookup_congr (agree.mono later) memoryNode memoryReg
      have regUse : Set.EqOn m' m (bytesAt (pointer reg) 16) :=
        memoryUse.mono Set.subset_union_left
      have base := load64_congr (regUse.mono (bytesAt_mono (by decide)))
      have size : load64 m' (pointer reg + 8) = load64 m (pointer reg + 8) :=
        load64_congr (regUse.mono (@bytesAt_offset_subset (pointer reg) 8 8))
      obtain ⟨chosenNode', chosenInitrd', initrdUse⟩ :=
        lookup_congr (memoryUse.mono Set.subset_union_right) chosenNode chosenInitrd
      have runs := Runs.printed (pathOffset_congr (agree.mono walk) node) nonnegative
        (getProp_congr (agree.mono (props _ node nonnegative)) property) memoryNode' memoryReg'
        chosenNode' chosenInitrd'
      rwa [sameText, base, size, load64_congr initrdUse] at runs

end Congr

end OscKernel.Fdt
