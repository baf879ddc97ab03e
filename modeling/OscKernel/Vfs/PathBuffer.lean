import OscKernel.Vfs.Paths
import OscKernel.Vfs.Vnodes
import OscKernel.Words.Masks

/-!
# Path lookup (`ex71/vfs.c`, `ex71/tmpfs.c`)

`vfs_lookup` with its locals as the program has them: the one array `component` that every
component of the path is written into, its index, the `int` that counts the characters, and
the node that each lookup replaces.  Then `vfs_open` up to the call of `create`, with the
array `dirname`.
-/

namespace OscKernel.Vfs

open Words

universe u

variable {ν : Type u}

/-- `O_CREAT` -/
def oCreat : BitVec 32 := 0o100#32

/-- An array of `PATH_MAX` characters. -/
abbrev PathBuffer : Type := Vector Char pathMax

/-- The string in an array. -/
def PathBuffer.text (buffer : PathBuffer) : List Char := buffer.toList.takeWhile (· ≠ nul)

namespace Vnodes

/-- The loop of `tmpfs_lookup` with the number of entries left: its result, and `*target`. -/
def tmpfsLookupLoop (tree : Vnodes ν) (dir target : ν) (component : List Char) : Nat → Int × ν
  | 0 => (-1, target)
  | left + 1 =>
      match (tree.entry dir)[tmpfsMaxDirEntry - (left + 1)]? with
      | none => (-1, target)
      | some inode =>
          if tree.name inode = component then (0, inode)
          else tmpfsLookupLoop tree dir target component left

/-- `node->v_ops->lookup(node, &node, component)`: the result, and `node` after the call. -/
def lookupNode (tree : Vnodes ν) (node : ν) (component : PathBuffer) : Int × ν :=
  tree.tmpfsLookupLoop node node component.text tmpfsMaxDirEntry

/-- The locals of `vfs_lookup`. -/
structure Locals (ν : Type u) where
  node : ν
  component : PathBuffer
  idx : Nat
  i : Nat

/-- The terminator and the lookup of the component that is read. -/
def lookupComponent (tree : Vnodes ν) (s : Locals ν) : Except Fault (Int × Locals ν) :=
  if room : s.idx < pathMax then
    let component := s.component.set s.idx nul room
    let (code, node) := tree.lookupNode s.node component
    .ok (code, { s with node := node, component := component })
  else .error .bufferOverrun

/-- One round of the loop for the character `c`; `none` is the return of -1. -/
def lookupRound (tree : Vnodes ν) (c : Char) (s : Locals ν) :
    Except Fault (Option (Locals ν)) :=
  if c = '/' then
    match tree.lookupComponent s with
    | .error fault => .error fault
    | .ok (code, s) =>
        if code ≠ 0 then .ok none
        else .ok (some { s with node := tree.follow s.node, idx := 0 })
  else if room : s.idx < pathMax then
    .ok (some { s with component := s.component.set s.idx c room, idx := s.idx + 1 })
  else .error .bufferOverrun

/-- The loop and what follows it: the result, and `*target`. -/
def lookupChars (tree : Vnodes ν) (target : Option ν) :
    List Char → Locals ν → Except Fault (Int × Option ν)
  | [], s =>
      match tree.lookupComponent s with
      | .error fault => .error fault
      | .ok (code, s) =>
          if code ≠ 0 then .ok (-1, target) else .ok (0, some (tree.follow s.node))
  | c :: rest, s =>
      match tree.lookupRound c s with
      | .error fault => .error fault
      | .ok none => .ok (-1, target)
      | .ok (some s) =>
          if s.i = intMax then .error .counterOverflow
          else lookupChars tree target rest { s with i := s.i + 1 }

/-- `vfs_lookup`: the result, and `*target`, which was `target` before the call. -/
def vfsLookup (tree : Vnodes ν) (pathname : List Char) (target : Option ν) :
    Except Fault (Int × Option ν) :=
  if pathname.length = 0 then .ok (0, some tree.root)
  else tree.lookupChars target pathname.tail ⟨tree.root, Vector.replicate pathMax nul, 0, 1⟩

/-! ## One component -/

section Component

variable {tree : Vnodes ν} {node : ν} {component chars : List Char}

/-- The loop finds the first of the entries that are left. -/
theorem tmpfsLookupLoop_eq (tree : Vnodes ν) (dir target : ν) (component : List Char) {left : Nat}
    (bound : left ≤ tmpfsMaxDirEntry) :
    tree.tmpfsLookupLoop dir target component left =
      match (((tree.entry dir).drop (tmpfsMaxDirEntry - left)).take left).find?
        (fun node => tree.name node = component) with
      | none => (-1, target)
      | some inode => (0, inode) := by
  induction left with
  | zero => rfl
  | succ left ih =>
      have next : tmpfsMaxDirEntry - (left + 1) + 1 = tmpfsMaxDirEntry - left := by omega
      rw [tmpfsLookupLoop]
      cases read : (tree.entry dir)[tmpfsMaxDirEntry - (left + 1)]? with
      | none =>
          rw [List.drop_eq_nil_of_le (List.getElem?_eq_none_iff.mp read), List.take_nil]
          rfl
      | some inode =>
          obtain ⟨inside, value⟩ := List.getElem?_eq_some_iff.mp read
          rw [List.drop_eq_getElem_cons inside, List.take_succ_cons, next, value]
          dsimp only
          by_cases named : tree.name inode = component
          · rw [if_pos named, List.find?_cons, decide_eq_true named]
          · rw [if_neg named, ih (by omega), List.find?_cons, decide_eq_false named]

/-- The characters before the terminator are the string. -/
theorem text_set {buffer : PathBuffer} {idx : Nat} (room : idx < pathMax)
    (written : buffer.toList.take idx = chars) (plain : nul ∉ chars) :
    PathBuffer.text (buffer.set idx nul room) = chars := by
  have length : buffer.toList.length = pathMax := Vector.length_toList
  have split : (buffer.set idx nul room).toList =
      chars ++ nul :: buffer.toList.drop (idx + 1) := by
    rw [Vector.toList_set, List.set_eq_take_append_cons_drop, if_pos (by omega), written]
  have kept : ∀ c ∈ chars, decide (c ≠ nul) = true := by
    intro c member
    exact decide_eq_true fun equal => plain (equal ▸ member)
  rw [PathBuffer.text, split, List.takeWhile_append_of_pos kept,
    List.takeWhile_cons_of_neg (by simp), List.append_nil]

/-- The lookup of a component through the buffer. -/
theorem lookupComponent_eq {s : Locals ν} (room : s.idx < pathMax)
    (written : s.component.toList.take s.idx = chars) (plain : nul ∉ chars) :
    ∃ buffer : PathBuffer, tree.lookupComponent s =
      .ok (match tree.tmpfsLookup s.node chars with
        | none => (-1, { s with component := buffer })
        | some inode => (0, { s with node := inode, component := buffer })) := by
  refine ⟨s.component.set s.idx nul room, ?_⟩
  rw [lookupComponent, dif_pos room]
  dsimp only
  rw [lookupNode, text_set room written plain, tmpfsLookupLoop_eq _ _ _ _ (Nat.le_refl _),
    Nat.sub_self, List.drop_zero, tmpfsLookup]
  cases ((tree.entry s.node).take tmpfsMaxDirEntry).find? fun node => tree.name node = chars with
  | none => rfl
  | some inode => rfl

end Component

/-! ## The whole path -/

/-- Every component that the walk reaches is shorter than the buffer and ends at an index that
an `int` holds; `start` is the index of the first character. -/
def Fits (tree : Vnodes ν) : List (List Char) → Nat → ν → Prop
  | [], _, _ => True
  | component :: rest, start, node =>
      component.length < pathMax ∧ start + component.length ≤ intMax ∧
        ∀ next, tree.enter node component = some next →
          Fits tree rest (start + component.length + 1) next

/-- What a lookup leaves. -/
def answer (target : Option ν) : Option ν → Int × Option ν
  | none => (-1, target)
  | some node => (0, some node)

/-- The lookup walks components that fit, and faults if one that it reaches does not. -/
structure Walked (tree : Vnodes ν) (target : Option ν) (components : List (List Char))
    (start : Nat) (node : ν) (result : Except Fault (Int × Option ν)) : Prop where
  fits : tree.Fits components start node →
    result = .ok (answer target (tree.resolve components node))
  faults : ¬ tree.Fits components start node → ∃ fault, result = .error fault

/-- The characters `chars` of the current component are in the buffer; `start` is the index of
the first of them in the path. -/
structure Reading (chars : List Char) (start : Nat) (s : Locals ν) : Prop where
  written : s.component.toList.take s.idx = chars
  idx : s.idx = chars.length
  i : s.i = start + chars.length
  counted : s.i ≤ intMax
  plain : nul ∉ chars

section Path

variable {tree : Vnodes ν} {target : Option ν} {node : ν} {s : Locals ν} {start : Nat}
variable {rest chars : List Char} {c : Char} {components : List (List Char)}
variable {result : Except Fault (Int × Option ν)}

theorem Walked.of_fits (fits : tree.Fits components start node)
    (walks : result = .ok (answer target (tree.resolve components node))) :
    tree.Walked target components start node result :=
  ⟨fun _ => walks, fun tooLong => absurd fits tooLong⟩

theorem Walked.of_fault {fault : Fault} (tooLong : ¬ tree.Fits components start node)
    (faults : result = .error fault) : tree.Walked target components start node result :=
  ⟨fun fits => absurd fits tooLong, fun _ => ⟨fault, faults⟩⟩

/-- The first of the components that are left begins with what is read. -/
theorem splitOnPPrepend_eq_cons (rest chars : List Char) :
    ∃ first more, rest.splitOnPPrepend (· == '/') chars.reverse = (chars ++ first) :: more := by
  rw [List.splitOnPPrepend_eq_modifyHead, List.reverse_reverse]
  cases split : rest.splitOnP (· == '/') with
  | nil => exact absurd split (List.splitOnP_ne_nil _ _)
  | cons first more => exact ⟨first, more, rfl⟩

/-- What is read of a component bounds it. -/
theorem Fits.bounds (fits : tree.Fits (rest.splitOnPPrepend (· == '/') chars.reverse) start node) :
    chars.length < pathMax ∧ start + chars.length ≤ intMax := by
  obtain ⟨first, more, split⟩ := splitOnPPrepend_eq_cons rest chars
  rw [split, Fits, List.length_append] at fits
  obtain ⟨short, early, -⟩ := fits
  omega

/-- A separator ends the component that is read. -/
theorem split_separator (rest chars : List Char) :
    ('/' :: rest).splitOnPPrepend (· == '/') chars.reverse =
      chars :: rest.splitOnPPrepend (· == '/') [].reverse := by
  rw [List.splitOnPPrepend_cons_eq_if, if_pos (BEq.rfl), List.reverse_reverse]
  rfl

/-- Another character belongs to the component that is read. -/
theorem split_character (different : c ≠ '/') (rest chars : List Char) :
    (c :: rest).splitOnPPrepend (· == '/') chars.reverse =
      rest.splitOnPPrepend (· == '/') (chars ++ [c]).reverse := by
  rw [List.splitOnPPrepend_cons_eq_if, if_neg (by rwa [beq_iff_eq]), List.reverse_append]
  rfl

theorem Reading.room_iff (reading : Reading chars start s) :
    s.idx < pathMax ↔ chars.length < pathMax := by
  rw [reading.idx]

/-- The lookup of the component that is read. -/
theorem Reading.lookupComponent (reading : Reading chars start s) (room : s.idx < pathMax) :
    ∃ buffer : PathBuffer, tree.lookupComponent s =
      .ok (match tree.tmpfsLookup s.node chars with
        | none => (-1, { s with component := buffer })
        | some inode => (0, { s with node := inode, component := buffer })) :=
  lookupComponent_eq room reading.written reading.plain

/-- The next character of a component. -/
theorem Reading.push (reading : Reading chars start s) (room : s.idx < pathMax)
    (plain : c ≠ nul) (more : s.i ≠ intMax) :
    Reading (chars ++ [c]) start
      { s with component := s.component.set s.idx c room, idx := s.idx + 1, i := s.i + 1 } := by
  have length : s.component.toList.length = pathMax := Vector.length_toList
  have taken : (s.component.toList.take s.idx).length = s.idx := by
    rw [List.length_take]
    omega
  have counted := reading.counted
  constructor
  · dsimp only
    rw [Vector.toList_set, List.set_eq_take_append_cons_drop, if_pos (by omega), List.take_append,
      List.take_of_length_le (by omega), taken, Nat.add_sub_cancel_left, List.take_succ_cons,
      List.take_zero, reading.written]
  · rw [List.length_append, ← reading.idx, List.length_singleton]
  · rw [List.length_append, List.length_singleton, ← Nat.add_assoc, ← reading.i]
  · dsimp only
    omega
  · rw [List.mem_append, List.mem_singleton]
    exact not_or.mpr ⟨reading.plain, plain.symm⟩

/-- The first character of the next component is the one behind the separator. -/
theorem Reading.restart (counted : s.i ≤ intMax) (more : s.i ≠ intMax) (next : ν)
    (buffer : PathBuffer) :
    Reading [] (s.i + 1) { node := next, component := buffer, idx := 0, i := s.i + 1 } := by
  constructor
  · rfl
  · rfl
  · rfl
  · dsimp only
    omega
  · exact List.not_mem_nil

/-- The last component. -/
theorem Reading.walked_end (reading : Reading chars start s) :
    tree.Walked target [chars] start s.node (tree.lookupChars target [] s) := by
  have i := reading.i
  have counted := reading.counted
  rw [lookupChars]
  by_cases room : s.idx < pathMax
  · have short := reading.room_iff.mp room
    obtain ⟨buffer, looked⟩ := @Reading.lookupComponent _ tree _ _ _ reading room
    have fits : tree.Fits [chars] start s.node := ⟨short, by omega, fun _ _ => trivial⟩
    apply Walked.of_fits fits
    rw [looked, resolve, enter]
    cases tree.tmpfsLookup s.node chars with
    | none => rfl
    | some inode => rfl
  · have faults : tree.lookupComponent s = .error .bufferOverrun := by
      rw [Vnodes.lookupComponent, dif_neg room]
    apply Walked.of_fault
    · exact fun fits => room (reading.room_iff.mpr fits.1)
    · rw [faults]

/-- A separator: the lookup of the component before it, and the walk from there. -/
theorem Reading.walked_separator (reading : Reading chars start s)
    (later : ∀ next (buffer : PathBuffer), s.i ≠ intMax →
      tree.Walked target (rest.splitOnPPrepend (· == '/') [].reverse) (s.i + 1) next
        (tree.lookupChars target rest ⟨next, buffer, 0, s.i + 1⟩)) :
    tree.Walked target (chars :: rest.splitOnPPrepend (· == '/') [].reverse) start s.node
      (tree.lookupChars target ('/' :: rest) s) := by
  have i := reading.i
  have counted := reading.counted
  rw [lookupChars, lookupRound, if_pos rfl]
  by_cases room : s.idx < pathMax
  · have short := reading.room_iff.mp room
    obtain ⟨buffer, looked⟩ := @Reading.lookupComponent _ tree _ _ _ reading room
    rw [looked]
    cases found : tree.tmpfsLookup s.node chars with
    | none =>
        have missing : tree.enter s.node chars = none := by rw [enter, found, Option.map_none]
        apply Walked.of_fits
        · refine ⟨short, by omega, ?_⟩
          rw [missing]
          rintro next ⟨⟩
        · rw [resolve, missing]
          rfl
    | some inode =>
        have entered : tree.enter s.node chars = some (tree.follow inode) := by
          rw [enter, found, Option.map_some]
        have behind : tree.Fits (chars :: rest.splitOnPPrepend (· == '/') [].reverse) start
            s.node ↔ tree.Fits (rest.splitOnPPrepend (· == '/') [].reverse) (s.i + 1)
              (tree.follow inode) := by
          rw [Fits, entered, ← i]
          constructor
          · exact fun fits => fits.2.2 _ rfl
          · rintro fits
            refine ⟨short, counted, ?_⟩
            rintro next same
            cases same
            exact fits
        dsimp only
        rw [if_neg (by decide)]
        dsimp only
        by_cases last : s.i = intMax
        · rw [if_pos last]
          apply Walked.of_fault _ rfl
          intro fits
          have bounds := (behind.mp fits).bounds
          rw [List.length_nil] at bounds
          omega
        · rw [if_neg last]
          have walked := later (tree.follow inode) buffer last
          constructor
          · intro fits
            rw [resolve, entered]
            exact walked.fits (behind.mp fits)
          · exact fun tooLong => walked.faults (mt behind.mpr tooLong)
  · have faults : tree.lookupComponent s = .error .bufferOverrun := by
      rw [Vnodes.lookupComponent, dif_neg room]
    apply Walked.of_fault
    · exact fun fits => room (reading.room_iff.mpr fits.1)
    · rw [faults]

/-- The loop of `vfs_lookup` walks the components that fit.  The invariant is that the buffer
holds what is read of the current component. -/
theorem Reading.walked (reading : Reading chars start s) (plain : nul ∉ rest) :
    tree.Walked target (rest.splitOnPPrepend (· == '/') chars.reverse) start s.node
      (tree.lookupChars target rest s) := by
  induction rest generalizing chars start s with
  | nil =>
      rw [List.splitOnPPrepend_nil, List.reverse_reverse]
      exact reading.walked_end
  | cons c rest ih =>
      obtain ⟨plainHead, plainRest⟩ := List.ne_and_not_mem_of_not_mem_cons plain
      by_cases separator : c = '/'
      · subst separator
        rw [split_separator]
        apply reading.walked_separator
        intro next buffer more
        exact ih (.restart reading.counted more next buffer) plainRest
      · rw [split_character separator, lookupChars, lookupRound, if_neg separator]
        by_cases room : s.idx < pathMax
        · rw [dif_pos room]
          dsimp only
          by_cases last : s.i = intMax
          · rw [if_pos last]
            apply Walked.of_fault _ rfl
            intro fits
            have bounds := fits.bounds
            rw [List.length_append, List.length_singleton, ← Nat.add_assoc, ← reading.i] at bounds
            omega
          · rw [if_neg last]
            exact ih (reading.push room plainHead.symm last) plainRest
        · rw [dif_neg room]
          apply Walked.of_fault _ rfl
          intro fits
          have bounds := fits.bounds
          rw [List.length_append, List.length_singleton, ← reading.idx] at bounds
          omega

/-- `vfs_lookup` walks the components behind the first character of a path. -/
theorem vfsLookup_walked {pathname : List Char} (tree : Vnodes ν) (target : Option ν)
    (nonempty : pathname ≠ []) (plain : nul ∉ pathname) :
    tree.Walked target (pathname.tail.splitOn '/') 1 tree.root
      (tree.vfsLookup pathname target) := by
  have length : pathname.length ≠ 0 := fun zero => nonempty (List.length_eq_zero_iff.mp zero)
  have reading : Reading [] 1 ⟨tree.root, Vector.replicate pathMax nul, 0, 1⟩ :=
    ⟨rfl, rfl, rfl, (by decide : 1 ≤ intMax), List.not_mem_nil⟩
  rw [vfsLookup, if_neg length]
  exact reading.walked (mt List.mem_of_mem_tail plain)

/-- A path whose characters an `int` counts fits if its components do. -/
theorem fits_of_short (tree : Vnodes ν) {components : List (List Char)} {start : Nat}
    (short : ∀ component ∈ components, component.length < pathMax)
    (early : start + (absolute components).length ≤ intMax + 1) (node : ν) :
    tree.Fits components start node := by
  induction components generalizing start node with
  | nil => trivial
  | cons component rest ih =>
      rw [length_absolute_cons] at early
      refine ⟨short component List.mem_cons_self, by omega, fun next _ => ?_⟩
      exact ih (fun other member => short other (List.mem_cons_of_mem _ member)) (by omega) next

/-- The first components of a path fit if all do. -/
theorem Fits.init {first second : List (List Char)}
    (fits : tree.Fits (first ++ second) start node) : tree.Fits first start node := by
  induction first generalizing start node with
  | nil => trivial
  | cons component first ih =>
      rw [List.cons_append] at fits
      exact ⟨fits.1, fits.2.1, fun next entered => ih (fits.2.2 next entered)⟩

end Path

/-- `Fits` for a path; the empty one is not walked. -/
def PathFits (tree : Vnodes ν) (pathname : List Char) : Prop :=
  pathname = [] ∨ tree.Fits (pathname.tail.splitOn '/') 1 tree.root

/-- The node that a path stands for. -/
def resolvePath (tree : Vnodes ν) (pathname : List Char) : Option ν :=
  if pathname = [] then some tree.root else tree.resolve (pathname.tail.splitOn '/') tree.root

section Pathname

variable {tree : Vnodes ν} {target : Option ν} {pathname : List Char}

theorem vfsLookup_of_fits (plain : nul ∉ pathname) (fits : tree.PathFits pathname) :
    tree.vfsLookup pathname target = .ok (answer target (tree.resolvePath pathname)) := by
  by_cases empty : pathname = []
  · rw [empty, resolvePath, if_pos rfl]
    rfl
  · rw [resolvePath, if_neg empty]
    exact (tree.vfsLookup_walked target empty plain).fits (fits.resolve_left empty)

theorem vfsLookup_of_not_fits (plain : nul ∉ pathname) (tooLong : ¬ tree.PathFits pathname) :
    ∃ fault, tree.vfsLookup pathname target = .error fault := by
  obtain ⟨nonempty, notFits⟩ := not_or.mp tooLong
  exact (tree.vfsLookup_walked target nonempty plain).faults notFits

/-- `vfs_lookup` keeps to its buffer exactly on the paths that fit. -/
theorem vfsLookup_ok_iff (plain : nul ∉ pathname) :
    (∃ result, tree.vfsLookup pathname target = .ok result) ↔ tree.PathFits pathname := by
  constructor
  · rintro ⟨result, ok⟩
    by_contra tooLong
    obtain ⟨fault, faults⟩ := @vfsLookup_of_not_fits _ _ target _ plain tooLong
    rw [faults] at ok
    cases ok
  · exact fun fits => ⟨_, vfsLookup_of_fits plain fits⟩

theorem resolvePath_ne_nil (tree : Vnodes ν) (nonempty : pathname ≠ []) :
    tree.resolvePath pathname = tree.resolve (pathname.tail.splitOn '/') tree.root :=
  if_neg nonempty

/-- A path is walked over its `dirname` to its `filename`. -/
theorem exists_dirname (tree : Vnodes ν) (nonempty : pathname ≠ []) :
    ∃ parents, pathname.tail.splitOn '/' = parents ++ [filename pathname] ∧
      tree.resolvePath (pathname.take (lastSlash pathname)) = tree.resolve parents tree.root ∧
      (tree.Fits parents 1 tree.root → tree.PathFits (pathname.take (lastSlash pathname))) := by
  rcases splitOn_filename nonempty with ⟨dirname, split⟩ | ⟨dirname, split⟩
  · exact ⟨[], split, if_pos dirname, fun _ => .inl dirname⟩
  · exact ⟨_, split, if_neg dirname, .inr⟩

/-- The directory of a path that fits does so too. -/
theorem PathFits.dirname (fits : tree.PathFits pathname) :
    tree.PathFits (pathname.take (lastSlash pathname)) := by
  by_cases empty : pathname = []
  · rw [empty]
    exact .inl rfl
  · obtain ⟨parents, split, -, fitsParents⟩ := tree.exists_dirname empty
    have walked := fits.resolve_left empty
    rw [split] at walked
    exact fitsParents walked.init

theorem vfsLookup_found_iff {node : ν} (plain : nul ∉ pathname) :
    tree.vfsLookup pathname target = .ok (0, some node) ↔
      tree.PathFits pathname ∧ tree.resolvePath pathname = some node := by
  constructor
  · intro found
    have fits : tree.PathFits pathname := (vfsLookup_ok_iff plain).mp ⟨_, found⟩
    rw [vfsLookup_of_fits plain fits] at found
    refine ⟨fits, ?_⟩
    cases resolved : tree.resolvePath pathname with
    | none =>
        rw [resolved] at found
        cases found
    | some other =>
        rw [resolved] at found
        cases found
        rfl
  · rintro ⟨fits, resolved⟩
    rw [vfsLookup_of_fits plain fits, resolved]
    rfl

end Pathname

/-! ## New entries -/

/-- `vfs_lookup` finds the node for the path. -/
def StandsFor (tree : Vnodes ν) (pathname : List Char) (node : ν) : Prop :=
  ∀ target, tree.vfsLookup pathname target = .ok (0, some node)

section NewEntries

variable {tree tree' : Vnodes ν} {dir leaf node next : ν} {component pathname : List Char}
  {parents : List (List Char)} {s s' : Locals ν} {target : Option ν}

theorem standsFor_iff (plain : nul ∉ pathname) :
    tree.StandsFor pathname node ↔
      tree.PathFits pathname ∧ tree.resolvePath pathname = some node :=
  ⟨fun stands => (vfsLookup_found_iff plain).mp (stands none),
    fun found _ => (vfsLookup_found_iff plain).mpr found⟩

theorem Adds.lookupComponent (adds : Adds tree dir component leaf tree') (old : s.node ≠ leaf)
    (found : tree.lookupComponent s = .ok (0, s')) :
    tree'.lookupComponent s = .ok (0, s') ∧ s'.node ≠ leaf := by
  rw [Vnodes.lookupComponent] at found ⊢
  by_cases room : s.idx < pathMax
  · rw [dif_pos room] at found ⊢
    dsimp only at found ⊢
    rw [lookupNode, tmpfsLookupLoop_eq _ _ _ _ (Nat.le_refl _), Nat.sub_self, List.drop_zero,
      ← tmpfsLookup] at found
    rw [lookupNode, tmpfsLookupLoop_eq _ _ _ _ (Nat.le_refl _), Nat.sub_self, List.drop_zero,
      ← tmpfsLookup]
    cases lookup : tree.tmpfsLookup s.node
        (PathBuffer.text (s.component.set s.idx nul room)) with
    | none =>
        rw [lookup] at found
        cases found
    | some inode =>
        rw [lookup] at found
        rw [adds.tmpfsLookup_some old lookup]
        cases found
        exact ⟨rfl, adds.tmpfsLookup_ne lookup⟩
  · rw [dif_neg room] at found
    cases found

/-- A round of the loop that goes on. -/
theorem Adds.lookupRound (adds : Adds tree dir component leaf tree') {c : Char}
    (old : s.node ≠ leaf) (found : tree.lookupRound c s = .ok (some s')) :
    tree'.lookupRound c s = .ok (some s') ∧ s'.node ≠ leaf := by
  rw [Vnodes.lookupRound] at found ⊢
  by_cases separator : c = '/'
  · rw [if_pos separator] at found ⊢
    cases lookup : tree.lookupComponent s with
    | error fault =>
        rw [lookup] at found
        cases found
    | ok result =>
        obtain ⟨code, t⟩ := result
        rw [lookup] at found
        dsimp only at found
        by_cases success : code = 0
        · subst success
          obtain ⟨same, nodeOld⟩ := adds.lookupComponent old lookup
          obtain ⟨followed, followedOld⟩ := adds.follow nodeOld
          rw [if_neg (by decide)] at found
          cases found
          rw [same]
          dsimp only
          rw [if_neg (by decide), followed]
          exact ⟨rfl, followedOld⟩
        · rw [if_pos success] at found
          cases found
  · rw [if_neg separator] at found ⊢
    by_cases room : s.idx < pathMax
    · rw [dif_pos room] at found ⊢
      cases found
      exact ⟨rfl, old⟩
    · rw [dif_neg room] at found
      cases found

/-- A lookup that finds a node finds the same one in the vnodes with the leaf: the loop meets old
nodes only. -/
theorem Adds.lookupChars (adds : Adds tree dir component leaf tree') {rest : List Char}
    (old : s.node ≠ leaf) (found : tree.lookupChars target rest s = .ok (0, some node)) :
    tree'.lookupChars target rest s = .ok (0, some node) := by
  induction rest generalizing s with
  | nil =>
      rw [Vnodes.lookupChars] at found ⊢
      cases lookup : tree.lookupComponent s with
      | error fault =>
          rw [lookup] at found
          cases found
      | ok result =>
          obtain ⟨code, t⟩ := result
          rw [lookup] at found
          dsimp only at found
          by_cases success : code = 0
          · subst success
            obtain ⟨same, nodeOld⟩ := adds.lookupComponent old lookup
            rw [same]
            dsimp only
            rwa [(adds.follow nodeOld).1]
          · rw [if_pos success] at found
            cases found
  | cons c rest ih =>
      rw [Vnodes.lookupChars] at found ⊢
      cases round : tree.lookupRound c s with
      | error fault =>
          rw [round] at found
          cases found
      | ok next =>
          rw [round] at found
          cases next with
          | none => cases found
          | some t =>
              obtain ⟨same, nodeOld⟩ := adds.lookupRound old round
              rw [same]
              dsimp only at found ⊢
              by_cases last : t.i = intMax
              · rw [if_pos last] at found
                cases found
              · rw [if_neg last] at found ⊢
                exact ih nodeOld found

/-- What a path stands for stays when a leaf is added. -/
theorem Adds.standsFor (adds : Adds tree dir component leaf tree')
    (stands : tree.StandsFor pathname node) : tree'.StandsFor pathname node := by
  intro target
  have found := stands target
  rw [vfsLookup] at found ⊢
  rw [adds.root]
  by_cases empty : pathname.length = 0
  · rwa [if_pos empty] at found ⊢
  · rw [if_neg empty] at found ⊢
    exact adds.lookupChars adds.notRoot.symm found

/-- The path of the leaf is walked over old directories. -/
theorem Adds.fits_leaf (adds : Adds tree dir component leaf tree') {start : Nat}
    (old : node ≠ leaf) (parent : tree.resolve parents node = some dir)
    (fits : tree.Fits (parents ++ [component]) start node) :
    tree'.Fits (parents ++ [component]) start node := by
  induction parents generalizing start node with
  | nil => exact ⟨fits.1, fits.2.1, fun _ _ => trivial⟩
  | cons first rest ih =>
      rw [Vnodes.resolve] at parent
      obtain ⟨inner, entered, later⟩ := Option.bind_eq_some_iff.mp parent
      obtain ⟨same, innerOld⟩ := adds.enter old entered
      rw [List.cons_append] at fits ⊢
      refine ⟨fits.1, fits.2.1, fun next found => ?_⟩
      rw [same] at found
      cases found
      exact ih innerOld later (fits.2.2 _ entered)

/-- The path of the new leaf stands for it. -/
theorem Adds.standsFor_leaf (adds : Adds tree dir (filename pathname) leaf tree')
    (plain : nul ∉ pathname) (fits : tree.PathFits pathname)
    (missing : tree.resolvePath pathname = none)
    (parent : tree.resolvePath (pathname.take (lastSlash pathname)) = some dir) :
    tree'.StandsFor pathname leaf := by
  have nonempty : pathname ≠ [] := by
    rintro rfl
    cases missing
  obtain ⟨parents, split, dirname, -⟩ := tree.exists_dirname nonempty
  have walked := fits.resolve_left nonempty
  have rootOld := adds.notRoot.symm
  rw [dirname] at parent
  rw [split] at walked
  rw [tree.resolvePath_ne_nil nonempty, split] at missing
  rw [standsFor_iff plain, tree'.resolvePath_ne_nil nonempty, split, adds.root]
  refine ⟨.inr ?_, adds.resolve_leaf rootOld parent missing⟩
  rw [split, adds.root]
  exact adds.fits_leaf rootOld parent walked

end NewEntries

/-! ## The two lookups of `vfs_open` -/

/-- The loop that leaves the index of the last separator, with its `int` counter. -/
def lastSlashLoop : List Char → Nat → Nat → Except Fault Nat
  | [], _, pos => .ok pos
  | c :: rest, i, pos =>
      if i = intMax then .error .counterOverflow
      else lastSlashLoop rest (i + 1) (if c = '/' then i else pos)

/-- How `vfs_open` goes on after its lookups: it returns -1, or opens the node that `vnode`
holds, without a call of `create` or after one for what is behind `pos`. -/
inductive OpenPath (ν : Type u) where
  | refused
  | opens (vnode : Option ν)
  | creates (pos : Nat) (vnode : Option ν)

/-- `vfs_open` up to the call of `create`.  `strncpy` writes as many characters as the index of
the last separator, and only an array that is not full ends with a NUL. -/
def openLookups (tree : Vnodes ν) (pathname : List Char) (flags : BitVec 32) :
    Except Fault (OpenPath ν) :=
  match tree.vfsLookup pathname none with
  | .error fault => .error fault
  | .ok (code, vnode) =>
      if code ≠ 0 ∧ flags &&& oCreat ≠ 0 then
        match lastSlashLoop pathname 0 0 with
        | .error fault => .error fault
        | .ok pos =>
            if pos < pathMax then
              match tree.vfsLookup (pathname.take pos) vnode with
              | .error fault => .error fault
              | .ok (code, vnode) => if code ≠ 0 then .ok .refused else .ok (.creates pos vnode)
            else .error .bufferOverrun
      else .ok (.opens vnode)

section Open

variable {tree : Vnodes ν} {pathname : List Char} {flags : BitVec 32}

/-- The loop leaves the last separator in `pos`, if there is one. -/
theorem lastSlashLoop_eq (rest : List Char) {i pos : Nat} (counted : i ≤ intMax) :
    lastSlashLoop rest i pos =
      if i + rest.length ≤ intMax then .ok (if '/' ∈ rest then i + lastSlash rest else pos)
      else .error .counterOverflow := by
  induction rest generalizing i pos with
  | nil => rw [lastSlashLoop, if_pos (by simpa using counted), if_neg List.not_mem_nil]
  | cons c rest ih =>
      rw [lastSlashLoop, List.length_cons, lastSlash]
      by_cases last : i = intMax
      · rw [if_pos last, if_neg (by omega)]
      · rw [if_neg last, ih (by omega), Nat.add_right_comm i 1 rest.length, Nat.add_assoc i]
        by_cases later : '/' ∈ rest
        · rw [if_pos later, if_pos later, if_pos (List.mem_cons_of_mem _ later), Nat.add_assoc,
            Nat.add_comm 1 (lastSlash rest)]
        · by_cases separator : c = '/'
          · simp [later, separator]
          · have other : '/' ∉ c :: rest :=
              List.not_mem_cons_of_ne_of_not_mem (Ne.symm separator) later
            rw [if_neg later, if_neg separator, if_neg other]

theorem lastSlash_of_notMem {rest : List Char} (plain : '/' ∉ rest) : lastSlash rest = 0 := by
  cases rest with
  | nil => rfl
  | cons c rest => exact lastSlash_cons (fun member => plain (List.mem_cons_of_mem _ member)) c

theorem lastSlashLoop_pathname (pathname : List Char) :
    lastSlashLoop pathname 0 0 =
      if pathname.length ≤ intMax then .ok (lastSlash pathname) else .error .counterOverflow := by
  rw [lastSlashLoop_eq _ (Nat.zero_le _), Nat.zero_add, Nat.zero_add]
  by_cases slash : '/' ∈ pathname
  · rw [if_pos slash]
  · rw [if_neg slash, lastSlash_of_notMem slash]

/-- The paths for which `dirname` has room, if it is used. -/
def DirnameFits (tree : Vnodes ν) (pathname : List Char) (flags : BitVec 32) : Prop :=
  tree.resolvePath pathname ≠ none ∨ flags &&& oCreat = 0 ∨
    pathname.length ≤ intMax ∧ lastSlash pathname < pathMax

/-- What the lookups of `vfs_open` come to. -/
theorem openLookups_eq (plain : nul ∉ pathname) (fits : tree.PathFits pathname) :
    tree.openLookups pathname flags =
      match tree.resolvePath pathname with
      | some node => .ok (.opens (some node))
      | none =>
          if flags &&& oCreat = 0 then .ok (.opens none)
          else if pathname.length ≤ intMax then
            if lastSlash pathname < pathMax then
              match tree.resolvePath (pathname.take (lastSlash pathname)) with
              | some dir => .ok (.creates (lastSlash pathname) (some dir))
              | none => .ok .refused
            else .error .bufferOverrun
          else .error .counterOverflow := by
  have plainDir : nul ∉ pathname.take (lastSlash pathname) := mt List.mem_of_mem_take plain
  rw [openLookups, vfsLookup_of_fits plain fits, lastSlashLoop_pathname]
  cases tree.resolvePath pathname with
  | some node =>
      dsimp only [answer]
      rw [if_neg (by simp)]
  | none =>
      dsimp only [answer]
      by_cases creat : flags &&& oCreat = 0
      · rw [if_neg (by simp [creat]), if_pos creat]
      · rw [if_pos ⟨by decide, creat⟩, if_neg creat]
        by_cases counted : pathname.length ≤ intMax
        · rw [if_pos counted, if_pos counted]
          dsimp only
          by_cases room : lastSlash pathname < pathMax
          · rw [if_pos room, if_pos room, vfsLookup_of_fits plainDir fits.dirname]
            cases tree.resolvePath (pathname.take (lastSlash pathname)) with
            | some dir => rfl
            | none => rfl
          · rw [if_neg room, if_neg room]
        · rw [if_neg counted, if_neg counted]

theorem openLookups_ok_iff (plain : nul ∉ pathname) :
    (∃ result, tree.openLookups pathname flags = .ok result) ↔
      tree.PathFits pathname ∧ tree.DirnameFits pathname flags := by
  constructor
  · rintro ⟨result, ok⟩
    have fits : tree.PathFits pathname := by
      by_contra tooLong
      obtain ⟨fault, faults⟩ := @vfsLookup_of_not_fits _ _ none _ plain tooLong
      rw [openLookups, faults] at ok
      cases ok
    refine ⟨fits, ?_⟩
    rw [openLookups_eq plain fits] at ok
    rw [DirnameFits]
    cases resolved : tree.resolvePath pathname with
    | some node => exact .inl nofun
    | none =>
        rw [resolved] at ok
        dsimp only at ok
        split at ok
        · next creat => exact .inr (.inl creat)
        · split at ok
          · next counted =>
              split at ok
              · next room => exact .inr (.inr ⟨counted, room⟩)
              · cases ok
          · cases ok
  · rintro ⟨fits, room⟩
    rw [openLookups_eq plain fits]
    cases resolved : tree.resolvePath pathname with
    | some node => exact ⟨_, rfl⟩
    | none =>
        dsimp only
        by_cases creat : flags &&& oCreat = 0
        · rw [if_pos creat]
          exact ⟨_, rfl⟩
        · obtain ⟨counted, short⟩ :=
            (room.resolve_left (absurd resolved ·)).resolve_left creat
          rw [if_neg creat, if_pos counted, if_pos short]
          cases tree.resolvePath (pathname.take (lastSlash pathname)) with
          | some dir => exact ⟨_, rfl⟩
          | none => exact ⟨_, rfl⟩

end Open

/-- The path buffers are kept to exactly when every component that the walk reaches fits in
`component`, its characters are counted by an `int`, and the last separator of a path that
`vfs_open` is to create is within `dirname`. -/
theorem path_buffers_iff (tree : Vnodes ν) (pathname : List Char) (target : Option ν)
    (flags : BitVec 32) (plain : nul ∉ pathname) :
    ((∃ result, tree.vfsLookup pathname target = .ok result) ↔ tree.PathFits pathname) ∧
    ((∃ result, tree.openLookups pathname flags = .ok result) ↔
      tree.PathFits pathname ∧ tree.DirnameFits pathname flags) :=
  ⟨vfsLookup_ok_iff plain, openLookups_ok_iff plain⟩

/-- The first `my_open` of `main`. -/
theorem path_buffers_file_txt :
    (∃ result, (rootDir [] []).vfsLookup "/file.txt".toList none = .ok result) ∧
      ∃ result, (rootDir [] []).openLookups "/file.txt".toList oCreat = .ok result := by
  have fits : (rootDir [] []).PathFits "/file.txt".toList :=
    .inr ⟨by decide, by decide, nofun⟩
  obtain ⟨lookup, open_⟩ := path_buffers_iff (rootDir [] []) "/file.txt".toList none oCreat
    (by decide)
  exact ⟨lookup.mpr fits, open_.mpr ⟨fits, .inr (.inr (by decide))⟩⟩

section Long

variable {tree : Vnodes ν} {pathname component : List Char} {flags : BitVec 32}

/-- A first component that is too long is reached in every tree. -/
theorem not_pathFits_of_long (plain : '/' ∉ component) (long : pathMax ≤ component.length) :
    ¬ tree.PathFits ('/' :: component) := by
  rintro (empty | fits)
  · cases empty
  · rw [List.tail_cons, List.splitOn_eq_singleton plain] at fits
    exact absurd fits.1 (Nat.not_lt.mpr long)

/-- A missing directory whose path is too long. -/
theorem not_dirnameFits_of_long (plain : '/' ∉ component) (long : pathMax ≤ component.length + 1)
    (missing : tree.enter tree.root component = none) (creat : flags &&& oCreat ≠ 0) :
    ¬ tree.DirnameFits (('/' :: component) ++ ['/', 'b']) flags := by
  have nonempty : ('/' :: component) ++ ['/', 'b'] ≠ [] := List.cons_ne_nil _ _
  rintro (found | noCreat | ⟨-, short⟩)
  · apply found
    rw [resolvePath, if_neg nonempty, List.cons_append, List.tail_cons,
      List.splitOn_append_cons_self, List.splitOn_eq_singleton plain, List.singleton_append,
      resolve, missing]
    rfl
  · exact creat noCreat
  · rw [lastSlash_append (by decide), List.length_cons] at short
    omega

end Long

/-- A component of 255 characters, and a missing directory whose path has 255. -/
theorem path_buffers_overrun :
    (¬ ∃ result, (rootDir [] []).vfsLookup ('/' :: List.replicate 255 'a') none =
      .ok result) ∧
    ¬ ∃ result, (rootDir [] []).openLookups
      (('/' :: List.replicate 254 'a') ++ ['/', 'b']) oCreat = .ok result := by
  have other : ∀ {c : Char} (n : Nat), c ≠ 'a' → c ∉ List.replicate n 'a' :=
    fun n different member => different (List.eq_of_mem_replicate member)
  constructor
  · have plain : nul ∉ '/' :: List.replicate 255 'a' :=
      List.not_mem_cons_of_ne_of_not_mem (by decide) (other 255 (by decide))
    rw [vfsLookup_ok_iff plain]
    exact not_pathFits_of_long (other 255 (by decide)) (Nat.le_of_eq List.length_replicate.symm)
  · have plain : nul ∉ ('/' :: List.replicate 254 'a') ++ ['/', 'b'] := by
      rw [List.mem_append, List.mem_cons]
      exact not_or.mpr ⟨not_or.mpr ⟨by decide, other 254 (by decide)⟩, by decide⟩
    rw [openLookups_ok_iff plain]
    have long : pathMax ≤ (List.replicate 254 'a').length + 1 :=
      Nat.le_of_eq (congrArg (· + 1) List.length_replicate.symm)
    exact fun fits => not_dirnameFits_of_long (other 254 (by decide)) long rfl (by decide) fits.2

end Vnodes

end OscKernel.Vfs
