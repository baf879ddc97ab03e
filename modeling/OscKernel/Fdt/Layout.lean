import OscKernel.Fdt.GetProp
import OscKernel.Fdt.PathDepth
import OscKernel.Loops.Endless

/-!
# The layout of a blob (`ex21/README.md`)

For any bytes the tokens of a structure block have places: each is looked for behind the one before
it, and the nodes that are open there are known.  The search for a path is at one place after the
other, until the node of the path begins or no node of the path is left.  The loop of
`fdt_path_offset` does that with two counters.
-/

namespace OscKernel.Fdt

open Alloc Riscv Loops Words Relation

/-! ## Tokens -/

section Tokens

variable (m : Mem) (fdt : BitVec 64) (off : BitVec 32)

/-- The word at an offset. -/
def tokenAt : BitVec 32 := bswap32 (load32 m (fdt + off.setWidth 64))

/-- Where the token behind the one at an offset is looked for. -/
def behind : Option (BitVec 32) :=
  let token := fdt + off.setWidth 64
  if tokenAt m fdt off = fdtBeginNode then
    some (nextToken fdt (token + 4 + BitVec.ofNat 64 (m.strlen (token + 4)) + 1))
  else if tokenAt m fdt off = fdtEndNode then some (off + 4)
  else if tokenAt m fdt off = fdtProp then
    some (nextToken fdt (token + 0xc + (bswap32 (load32 m (token + 4))).setWidth 64))
  else if tokenAt m fdt off = fdtNop then some (off + 4)
  else none

/-- The token at the second offset is looked for behind the one at the first. -/
def Follows (next : BitVec 32) : Prop := behind m fdt off = some next

/-- The name of the node at an offset is accepted for a component. -/
def nodeAccepted (component : List Byte) : Bool :=
  strncmp2Loop (component.contains atSign)
    (fun i => m (fdt + off.setWidth 64 + 4 + BitVec.ofNat 64 i)) component
    (BitVec.ofNat 32 (m.strlen (fdt + off.setWidth 64 + 4))).toInt.toNat 0

/-- Where the name of the property at an offset is. -/
def propName : BitVec 64 :=
  fdt + (offDtStrings m fdt).setWidth 64 +
    (bswap32 (load32 m (fdt + off.setWidth 64 + 8))).setWidth 64

end Tokens

/-- Where a token of the structure block is looked for, and the nodes that are open there, the
innermost one first. -/
structure Place where
  off : BitVec 32
  opened : List (BitVec 32)
  deriving DecidableEq

/-- The place behind the token. -/
def Place.next (m : Mem) (fdt : BitVec 64) (place : Place) : Option Place :=
  (behind m fdt place.off).map fun off =>
    if tokenAt m fdt place.off = fdtBeginNode then ⟨off, place.off :: place.opened⟩
    else if tokenAt m fdt place.off = fdtEndNode then ⟨off, place.opened.tail⟩
    else ⟨off, place.opened⟩

/-- The place of each token of the structure block. -/
def layout (m : Mem) (fdt : BitVec 64) : Nat → Option Place
  | 0 => some ⟨offDtStruct m fdt, []⟩
  | n + 1 => (layout m fdt n).bind (Place.next m fdt)

/-- Where `fdt_getprop` starts, behind the name of the node. -/
def bodyStart (m : Mem) (fdt : BitVec 64) (nodeoffset : BitVec 32) : BitVec 32 :=
  let nodeName := fdt + nodeoffset.setWidth 64 + 4
  nextToken fdt (nodeName + BitVec.ofNat 64 (m.strlen nodeName) + 1)

/-- The place of each token behind the name of a node. -/
def propLayout (m : Mem) (fdt : BitVec 64) (nodeoffset : BitVec 32) : Nat → Option (BitVec 32)
  | 0 => some (bodyStart m fdt nodeoffset)
  | k + 1 => (propLayout m fdt nodeoffset k).bind (behind m fdt)

/-! ## The nodes of a path -/

/-- What the nodes of a level are compared with: the path behind the slash of that number, or a
path without a slash as it is. -/
def component (path : List Byte) (level : Nat) : Option (List Byte) :=
  if path.count slash = 0 then some path else (suffixes path)[level]?

section Path

variable (m : Mem) (fdt : BitVec 64) (path : List Byte)

/-- A node inside a number of others is accepted for its level; the root node always is. -/
def levelAccepted : Nat → BitVec 32 → Bool
  | 0, _ => true
  | level + 1, off => (component path level).any (nodeAccepted m fdt off)

/-- All of the open nodes are on the path. -/
def onPath : List (BitVec 32) → Bool
  | [] => true
  | off :: outer => onPath outer && levelAccepted m fdt path outer.length off

/-- How many of the open nodes inside the root node are on the path. -/
def matched : List (BitVec 32) → Nat
  | [] => 0
  | off :: outer => if onPath m fdt path (off :: outer) then outer.length else matched outer

/-- The node that the path leads to begins at the place. -/
structure Found (place : Place) : Prop where
  begins : tokenAt m fdt place.off = fdtBeginNode
  inside : place.opened ≠ []
  last : place.opened.length = path.count slash
  onPath : onPath m fdt path (place.off :: place.opened) = true

/-- At the place the search ends: its node begins, or a node of the path ends, or there is no token
to pass over. -/
def SearchEnds (place : Place) : Prop :=
  Found m fdt path place ∨
    (tokenAt m fdt place.off = fdtEndNode ∧ onPath m fdt path place.opened = true) ∨
    behind m fdt place.off = none

/-- The search comes to the token with the number, which has the place. -/
structure Searched (n : Nat) (place : Place) : Prop where
  isPlace : layout m fdt n = some place
  goesOn : ∀ i < n, ∀ earlier, layout m fdt i = some earlier → ¬ SearchEnds m fdt path earlier

/-- A node begins so deep that `cur_depth` overflows, or that a path without a slash is compared
beyond `path_idx`. -/
def Overruns (place : Place) : Prop :=
  tokenAt m fdt place.off = fdtBeginNode ∧ (intMax + 2 ≤ place.opened.length ∨
    (path.count slash = 0 ∧ 10 < place.opened.length ∧ onPath m fdt path place.opened = true))

/-- `path_idx` and the counters have room for the path and for the levels of the search. -/
structure PathRoom : Prop where
  counted : path.length ≤ intMax
  few : path.count slash ≤ 10
  levels : ∀ n place, Searched m fdt path n place → ¬ Overruns m fdt path place

/-- `cur_off`, `cur_depth` and `matching_depth` at the place. -/
def cursorAt (place : Place) : Cursor :=
  ⟨place.off, (place.opened.length : Int) - 2, matched m fdt path place.opened⟩

end Path

section Matched

variable {m : Mem} {fdt : BitVec 64} {path : List Byte} {off : BitVec 32}
variable {opened outer : List (BitVec 32)}

theorem matched_of_onPath (all : onPath m fdt path (off :: outer) = true) :
    matched m fdt path (off :: outer) = outer.length := by
  rw [matched, if_pos all]

theorem matched_of_not_onPath (other : ¬ onPath m fdt path (off :: outer) = true) :
    matched m fdt path (off :: outer) = matched m fdt path outer := by
  rw [matched, if_neg other]

theorem matched_lt (open' : opened ≠ []) : matched m fdt path opened < opened.length := by
  induction opened with
  | nil => exact absurd rfl open'
  | cons off outer ih =>
      by_cases all : onPath m fdt path (off :: outer) = true
      · rw [matched_of_onPath all]
        exact Nat.lt_succ_self _
      · have inner : outer ≠ [] := by
          rintro rfl
          exact all rfl
        rw [matched_of_not_onPath all]
        exact (ih inner).trans (Nat.lt_succ_self _)

/-- All nodes inside the root node are matched exactly if they are on the path. -/
theorem matched_eq_iff (open' : opened ≠ []) :
    matched m fdt path opened + 1 = opened.length ↔ onPath m fdt path opened = true := by
  cases opened with
  | nil => exact absurd rfl open'
  | cons off outer =>
      by_cases all : onPath m fdt path (off :: outer) = true
      · rw [matched_of_onPath all]
        exact iff_of_true rfl all
      · refine iff_of_false ?_ all
        intro full
        rw [matched_of_not_onPath all, List.length_cons] at full
        cases outer with
        | nil => exact all rfl
        | cons next outer =>
            have fewer := @matched_lt m fdt path (next :: outer) (List.cons_ne_nil _ _)
            omega

/-- A node inside nodes of the path is on it if it is accepted for its level. -/
theorem onPath_cons (all : onPath m fdt path opened = true) {rest : List Byte} {level : Nat}
    (isLevel : opened.length = level + 1) (isComponent : component path level = some rest) :
    onPath m fdt path (off :: opened) = nodeAccepted m fdt off rest := by
  rw [onPath, all, Bool.true_and, isLevel, levelAccepted, isComponent]
  rfl

end Matched

/-! ## The search in the layout -/

section Searched

variable {m : Mem} {fdt : BitVec 64} {path : List Byte} {n : Nat} {place next : Place}

theorem searched_zero : Searched m fdt path 0 ⟨offDtStruct m fdt, []⟩ :=
  ⟨rfl, fun _ before => absurd before (Nat.not_lt_zero _)⟩

theorem Searched.step (searched : Searched m fdt path n place)
    (goesOn : ¬ SearchEnds m fdt path place) (isNext : place.next m fdt = some next) :
    Searched m fdt path (n + 1) next := by
  constructor
  · rw [layout, searched.isPlace, Option.bind_some, isNext]
  · intro i before earlier isEarlier
    rcases Nat.lt_succ_iff_lt_or_eq.mp before with inside | rfl
    · exact searched.goesOn i inside earlier isEarlier
    · cases searched.isPlace.symm.trans isEarlier
      exact goesOn

/-- The place before. -/
theorem Searched.previous (searched : Searched m fdt path (n + 1) next) :
    ∃ place, Searched m fdt path n place ∧ ¬ SearchEnds m fdt path place ∧
      place.next m fdt = some next := by
  have isPlace := searched.isPlace
  rw [layout, Option.bind_eq_some_iff] at isPlace
  obtain ⟨place, isPlace, isNext⟩ := isPlace
  refine ⟨place, ⟨isPlace, ?_⟩, searched.goesOn n (Nat.lt_succ_self n) place isPlace, isNext⟩
  exact fun i before => searched.goesOn i (before.trans (Nat.lt_succ_self n))

theorem Place.next_follows (isNext : place.next m fdt = some next) :
    Follows m fdt place.off next.off := by
  rw [Place.next, Option.map_eq_some_iff] at isNext
  obtain ⟨off, follows, rfl⟩ := isNext
  split
  · exact follows
  · split
    · exact follows
    · exact follows

/-- The places of a blob follow one another. -/
theorem layout_follows (isPlace : layout m fdt n = some place) :
    ReflTransGen (Follows m fdt) (offDtStruct m fdt) place.off := by
  induction n generalizing place with
  | zero =>
      cases isPlace
      exact .refl
  | succ n ih =>
      rw [layout, Option.bind_eq_some_iff] at isPlace
      obtain ⟨earlier, isEarlier, isNext⟩ := isPlace
      exact (ih isEarlier).tail (Place.next_follows isNext)

/-- The nodes that are open behind a place. -/
theorem Place.next_opened (isNext : place.next m fdt = some next) : next.opened =
    if tokenAt m fdt place.off = fdtBeginNode then place.off :: place.opened
    else if tokenAt m fdt place.off = fdtEndNode then place.opened.tail
    else place.opened := by
  rw [Place.next, Option.map_eq_some_iff] at isNext
  obtain ⟨off, -, rfl⟩ := isNext
  split
  · rfl
  · split
    · rfl
    · rfl

/-- Behind the last component there is nothing to match. -/
theorem Searched.matched_lt (searched : Searched m fdt path n place)
    (slashes : path.count slash ≠ 0) : matched m fdt path place.opened < path.count slash := by
  induction n generalizing place with
  | zero =>
      cases searched.isPlace
      exact Nat.pos_of_ne_zero slashes
  | succ n ih =>
      obtain ⟨earlier, before, goesOn, isNext⟩ := searched.previous
      have fewer := ih before
      rw [Place.next_opened isNext]
      by_cases begins : tokenAt m fdt earlier.off = fdtBeginNode
      · rw [if_pos begins]
        by_cases all : onPath m fdt path (earlier.off :: earlier.opened) = true
        · rw [matched_of_onPath all]
          cases isOpen : earlier.opened with
          | nil => exact Nat.pos_of_ne_zero slashes
          | cons off outer =>
              rw [isOpen] at all
              have accepted : levelAccepted m fdt path (outer.length + 1) earlier.off = true :=
                (Bool.and_eq_true_iff.mp all).2
              have inside : outer.length < (suffixes path).length := by
                rw [levelAccepted, component, if_neg slashes, Option.any_eq_true] at accepted
                obtain ⟨rest, isRest, -⟩ := accepted
                exact (List.getElem?_eq_some_iff.mp isRest).1
              have notLast : (off :: outer).length ≠ path.count slash := by
                intro last
                rw [← isOpen] at all last
                have inside : earlier.opened ≠ [] := isOpen ▸ List.cons_ne_nil off outer
                exact goesOn (.inl ⟨begins, inside, last, all⟩)
              rw [suffixes_length] at inside
              rw [List.length_cons] at notLast ⊢
              omega
        · rw [matched_of_not_onPath all]
          exact fewer
      · rw [if_neg begins]
        by_cases ends : tokenAt m fdt earlier.off = fdtEndNode
        · rw [if_pos ends]
          cases isOpen : earlier.opened with
          | nil => exact Nat.pos_of_ne_zero slashes
          | cons off outer =>
              rw [isOpen] at fewer
              have other : ¬ onPath m fdt path (off :: outer) = true := fun all =>
                goesOn (.inr (.inl ⟨ends, isOpen ▸ all⟩))
              rwa [matched_of_not_onPath other] at fewer
        · rw [if_neg ends]
          exact fewer

end Searched

/-! ## The loop keeps to the layout -/

/-- What the loop over the path leaves in `path_idx`. -/
structure Scanned (path : List Byte) (idx : PathIdx) : Prop where
  counted : path.length ≤ intMax
  few : path.count slash ≤ 10
  depth : idx.depth = path.count slash
  starts : ∀ level rest, component path level = some rest → level < 10 →
    ∃ start, idx.get level = .ok start ∧ path.drop start = rest

section Scanned

variable {m : Mem} {fdt : BitVec 64} {path rest : List Byte} {idx : PathIdx} {level : Nat}
variable {off : BitVec 32}

theorem exists_scanned (counted : path.length ≤ intMax) (few : path.count slash ≤ 10) :
    ∃ idx, scanPath 0 path .init = .ok idx ∧ Indexed idx path (suffixes path) := by
  have whole : path.drop 0 = path := List.drop_zero
  have fits : ([] : List (List Byte)).length + (suffixes path).length ≤ 10 := by
    rwa [List.length_nil, Nat.zero_add, suffixes_length]
  exact scanPath_indexed whole (by omega) fits (Indexed.init path)

/-- The loop over the path ends without a fault only if there is room. -/
theorem counted_of_scanned (scanned : scanPath 0 path .init = .ok idx) :
    path.length ≤ intMax ∧ path.count slash ≤ 10 := by
  constructor
  · by_contra long
    obtain ⟨fault, faults⟩ := @scanPath_long path .init 0 (by omega) (Nat.zero_le _)
    cases scanned.symm.trans faults
  · by_contra deep
    have more : 10 < PathIdx.init.depth + path.count slash := by
      rwa [show PathIdx.init.depth = 0 from rfl, Nat.zero_add, ← Nat.not_le]
    obtain ⟨fault, faults⟩ := @scanPath_fault path .init 0 (Nat.zero_le 10) more
    cases scanned.symm.trans faults

theorem scanned_of_ok (scanned : scanPath 0 path .init = .ok idx) : Scanned path idx := by
  obtain ⟨counted, few⟩ := counted_of_scanned scanned
  obtain ⟨other, otherScanned, indexed⟩ := exists_scanned counted few
  cases scanned.symm.trans otherScanned
  refine ⟨counted, few, indexed.depth.trans (suffixes_length path), ?_⟩
  intro level rest isComponent small
  rw [component] at isComponent
  by_cases none : path.count slash = 0
  · rw [if_pos none, Option.some.injEq] at isComponent
    cases (scanPath_slashless none (by omega)).symm.trans scanned
    exact ⟨0, PathIdx.get_init small, isComponent⟩
  · rw [if_neg none] at isComponent
    obtain ⟨inside, isRest⟩ := List.getElem?_eq_some_iff.mp isComponent
    obtain ⟨start, found, starts⟩ := indexed.starts level inside
    exact ⟨start, found, starts.trans isRest⟩

/-- A node is compared with the component of its level. -/
theorem Scanned.componentAccepts (scanned : Scanned path idx)
    (isComponent : component path level = some rest) (small : level < 10) :
    componentAccepts m (fdt + off.setWidth 64 + 4) path idx level =
      .ok (nodeAccepted m fdt off rest) := by
  obtain ⟨start, found, starts⟩ := scanned.starts level rest isComponent small
  have counted := atCounted_drop scanned.counted start
  rw [starts] at counted
  rw [Fdt.componentAccepts, found, nodeAccepted]
  change strncmp2 _ (path.drop start) _ = _
  rw [starts, strncmp2_eq, if_pos counted]

end Scanned

/-- What a round does at a place. -/
inductive Outcome (m : Mem) (fdt : BitVec 64) (path : List Byte) (place : Place) :
    Round Cursor (Except Fault (BitVec 32)) → Prop where
  | overruns {fault : Fault} (overruns : Overruns m fdt path place) :
      Outcome m fdt path place (.stop (.error fault))
  | found (found : Found m fdt path place) : Outcome m fdt path place (.stop (.ok place.off))
  | missed (ends : SearchEnds m fdt path place) (notFound : ¬ Found m fdt path place)
      (room : ¬ Overruns m fdt path place) : Outcome m fdt path place (.stop (.ok (-1)))
  | goesOn {next : Place} (goesOn : ¬ SearchEnds m fdt path place)
      (room : ¬ Overruns m fdt path place) (isNext : place.next m fdt = some next) :
      Outcome m fdt path place (.next (cursorAt m fdt path next))

section Round

variable {m : Mem} {fdt : BitVec 64} {path rest : List Byte} {idx : PathIdx} {place : Place}

/-- The state behind a node that begins. -/
theorem cursorAt_begin (begins : tokenAt m fdt place.off = fdtBeginNode) :
    ∃ off next, behind m fdt place.off = some off ∧ place.next m fdt = some next ∧
      off = nextToken fdt (fdt + place.off.setWidth 64 + 4 +
        BitVec.ofNat 64 (m.strlen (fdt + place.off.setWidth 64 + 4)) + 1) ∧
      cursorAt m fdt path next = ⟨off, (place.opened.length : Int) - 2 + 1,
        matched m fdt path (place.off :: place.opened)⟩ := by
  obtain ⟨off, isOff⟩ : ∃ off, off = nextToken fdt (fdt + place.off.setWidth 64 + 4 +
      BitVec.ofNat 64 (m.strlen (fdt + place.off.setWidth 64 + 4)) + 1) := ⟨_, rfl⟩
  have follows : behind m fdt place.off = some off := isOff ▸ if_pos begins
  refine ⟨off, ⟨off, place.off :: place.opened⟩, follows, ?_, isOff, ?_⟩
  · rw [Place.next, follows, Option.map_some, if_pos begins]
  · rw [cursorAt, List.length_cons]
    simp only [Cursor.mk.injEq, true_and, and_true]
    omega

/-- A node that begins does not end the search unless it is the one that is looked for. -/
theorem not_searchEnds_begin (begins : tokenAt m fdt place.off = fdtBeginNode)
    (notFound : ¬ Found m fdt path place) : ¬ SearchEnds m fdt path place := by
  have follows : behind m fdt place.off = some _ := if_pos begins
  rintro (found | ⟨ends, -⟩ | none)
  · exact notFound found
  · rw [begins] at ends
    exact absurd ends (by decide)
  · rw [follows] at none
    cases none

/-- A node that is not compared. -/
theorem outcome_passed (begins : tokenAt m fdt place.off = fdtBeginNode)
    (shallow : place.opened.length < intMax + 2)
    (other : place.opened = [] ∨ ¬ onPath m fdt path place.opened = true) :
    Outcome m fdt path place (pathOffsetRound m fdt path idx (cursorAt m fdt path place)) := by
  obtain ⟨off, next, follows, isNext, isOff, isCursor⟩ := @cursorAt_begin m fdt path place begins
  have notDeep : (place.opened.length : Int) - 2 < intMax := by omega
  have notCompared : (place.opened.length : Int) - 2 + 1 ≠ matched m fdt path place.opened := by
    rcases other with none | notAll
    · rw [none, matched, List.length_nil]
      omega
    · have nonempty : place.opened ≠ [] := by
        intro none
        exact notAll (none ▸ rfl)
      have partly := (matched_eq_iff nonempty).not.mpr notAll
      omega
  have same : matched m fdt path (place.off :: place.opened) = matched m fdt path place.opened := by
    rcases other with none | notAll
    · rw [none]
      rfl
    · apply matched_of_not_onPath
      exact fun all => notAll (Bool.and_eq_true_iff.mp all).1
  have notFound : ¬ Found m fdt path place := by
    rintro ⟨-, inside, -, all⟩
    exact other.elim inside fun notAll => notAll (Bool.and_eq_true_iff.mp all).1
  have room : ¬ Overruns m fdt path place := by
    rintro ⟨-, deep | ⟨-, levels, all⟩⟩
    · omega
    · refine other.elim (fun none => ?_) fun notAll => notAll all
      rw [none] at levels
      exact absurd levels (Nat.not_lt_zero _)
  have round : pathOffsetRound m fdt path idx (cursorAt m fdt path place) =
      .next (cursorAt m fdt path next) := by
    rw [isCursor, same, isOff]
    rw [pathOffsetRound, cursorAt]
    dsimp only
    rw [← tokenAt, if_pos begins, if_pos notDeep, if_neg notCompared]
  rw [round]
  exact .goesOn (not_searchEnds_begin begins notFound) room isNext

/-- A node that is compared. -/
theorem outcome_compared (scanned : Scanned path idx)
    (begins : tokenAt m fdt place.off = fdtBeginNode)
    (shallow : place.opened.length < intMax + 2) (inside : place.opened ≠ [])
    (all : onPath m fdt path place.opened = true)
    (room : path.count slash ≠ 0 → matched m fdt path place.opened < path.count slash) :
    Outcome m fdt path place (pathOffsetRound m fdt path idx (cursorAt m fdt path place)) := by
  obtain ⟨off, next, follows, isNext, isOff, isCursor⟩ := @cursorAt_begin m fdt path place begins
  have full := (matched_eq_iff inside).mpr all
  have notDeep : (place.opened.length : Int) - 2 < intMax := by omega
  have level : (place.opened.length : Int) - 2 + 1 = matched m fdt path place.opened := by omega
  have few := scanned.few
  by_cases deep : 10 ≤ matched m fdt path place.opened
  · have none : path.count slash = 0 := by
      by_contra slashes
      have below := room slashes
      omega
    have round : pathOffsetRound m fdt path idx (cursorAt m fdt path place) =
        .stop (.error (.pathIdx (matched m fdt path place.opened))) := by
      rw [pathOffsetRound, cursorAt]
      dsimp only
      rw [← tokenAt, if_pos begins, if_pos notDeep, if_pos level, componentAccepts,
        PathIdx.get_outside deep]
      rfl
    rw [round]
    exact .overruns ⟨begins, .inr ⟨none, by omega, all⟩⟩
  · obtain ⟨rest, isComponent⟩ : ∃ rest,
        component path (matched m fdt path place.opened) = some rest := by
      rw [component]
      by_cases none : path.count slash = 0
      · exact ⟨path, if_pos none⟩
      · have below := room none
        rw [← suffixes_length] at below
        exact ⟨_, (if_neg none).trans (List.getElem?_eq_getElem below)⟩
    have notOverruns : ¬ Overruns m fdt path place := by
      rintro ⟨-, tooDeep | ⟨-, levels, -⟩⟩
      · omega
      · omega
    have compared : componentAccepts m (fdt + place.off.setWidth 64 + 4) path idx
        (matched m fdt path place.opened) = .ok (nodeAccepted m fdt place.off rest) :=
      scanned.componentAccepts isComponent (by omega)
    have accepted : onPath m fdt path (place.off :: place.opened) =
        nodeAccepted m fdt place.off rest := onPath_cons all full.symm isComponent
    have round : pathOffsetRound m fdt path idx (cursorAt m fdt path place) =
        if nodeAccepted m fdt place.off rest then
          if matched m fdt path place.opened + 1 = path.count slash then .stop (.ok place.off)
          else .next ⟨off, (place.opened.length : Int) - 2 + 1,
            matched m fdt path place.opened + 1⟩
        else .next ⟨off, (place.opened.length : Int) - 2 + 1,
          matched m fdt path place.opened⟩ := by
      rw [pathOffsetRound, cursorAt]
      dsimp only
      rw [← tokenAt, if_pos begins, if_pos notDeep, if_pos level, compared, scanned.depth, isOff]
    rw [round]
    by_cases same : nodeAccepted m fdt place.off rest = true
    · have onWay := accepted.trans same
      rw [if_pos same]
      by_cases last : matched m fdt path place.opened + 1 = path.count slash
      · rw [if_pos last]
        exact .found ⟨begins, inside, full.symm.trans last, onWay⟩
      · rw [if_neg last]
        rw [matched_of_onPath onWay] at isCursor
        rw [full, ← isCursor]
        apply Outcome.goesOn (not_searchEnds_begin begins _) notOverruns isNext
        exact fun found => last (full.trans found.last)
    · have offWay : ¬ onPath m fdt path (place.off :: place.opened) = true := by
        rwa [accepted]
      rw [if_neg same]
      rw [matched_of_not_onPath offWay] at isCursor
      rw [← isCursor]
      apply Outcome.goesOn (not_searchEnds_begin begins _) notOverruns isNext
      exact fun found => offWay found.onPath

/-- A node that ends. -/
theorem outcome_end (ends : tokenAt m fdt place.off = fdtEndNode) :
    Outcome m fdt path place (pathOffsetRound m fdt path idx (cursorAt m fdt path place)) := by
  have notBegin : tokenAt m fdt place.off ≠ fdtBeginNode := by
    rw [ends]
    decide
  have follows : behind m fdt place.off = some (place.off + 4) := by
    rw [behind, if_neg notBegin, if_pos ends]
  have notFound : ¬ Found m fdt path place := fun found => notBegin found.begins
  have room : ¬ Overruns m fdt path place := fun overruns => notBegin overruns.1
  by_cases all : onPath m fdt path place.opened = true
  · have left : (place.opened.length : Int) - 2 - 1 + 1 < matched m fdt path place.opened := by
      by_cases none : place.opened = []
      · rw [none, matched, List.length_nil]
        omega
      · have full := (matched_eq_iff none).mpr all
        omega
    have round : pathOffsetRound m fdt path idx (cursorAt m fdt path place) =
        .stop (.ok (-1)) := by
      rw [pathOffsetRound, cursorAt]
      dsimp only
      rw [← tokenAt, if_neg notBegin, if_pos ends, if_pos left]
    rw [round]
    exact .missed (.inr (.inl ⟨ends, all⟩)) notFound room
  · cases isOpen : place.opened with
    | nil =>
        rw [isOpen] at all
        exact absurd rfl all
    | cons off outer =>
        have fewer := @matched_lt m fdt path place.opened (isOpen ▸ List.cons_ne_nil off outer)
        have partly := (@matched_eq_iff m fdt path place.opened
          (isOpen ▸ List.cons_ne_nil off outer)).not.mpr all
        rw [isOpen] at all fewer partly
        have stays : ¬ ((off :: outer).length : Int) - 2 - 1 + 1 <
            matched m fdt path (off :: outer) := by omega
        have isNext : place.next m fdt = some ⟨place.off + 4, outer⟩ := by
          rw [Place.next, follows, Option.map_some, if_neg notBegin, if_pos ends, isOpen,
            List.tail_cons]
        have round : pathOffsetRound m fdt path idx (cursorAt m fdt path place) =
            .next (cursorAt m fdt path ⟨place.off + 4, outer⟩) := by
          rw [pathOffsetRound, cursorAt, isOpen]
          dsimp only
          rw [← tokenAt, if_neg notBegin, if_pos ends, if_neg stays, matched_of_not_onPath all,
            List.length_cons]
          congr 2
          dsimp only
          omega
        rw [round]
        refine .goesOn ?_ room isNext
        rintro (found | ⟨-, onWay⟩ | none)
        · exact notFound found
        · rw [isOpen] at onWay
          exact all onWay
        · rw [follows] at none
          cases none

/-- Another token, or none. -/
theorem outcome_other (notBegin : tokenAt m fdt place.off ≠ fdtBeginNode)
    (notEnd : tokenAt m fdt place.off ≠ fdtEndNode) :
    Outcome m fdt path place (pathOffsetRound m fdt path idx (cursorAt m fdt path place)) := by
  have notFound : ¬ Found m fdt path place := fun found => notBegin found.begins
  have room : ¬ Overruns m fdt path place := fun overruns => notBegin overruns.1
  have round : pathOffsetRound m fdt path idx (cursorAt m fdt path place) =
      match behind m fdt place.off with
      | none => .stop (.ok (-1))
      | some off => .next ⟨off, (place.opened.length : Int) - 2,
          matched m fdt path place.opened⟩ := by
    rw [pathOffsetRound, cursorAt, behind]
    dsimp only
    rw [← tokenAt, if_neg notBegin, if_neg notEnd, if_neg notBegin, if_neg notEnd]
    by_cases prop : tokenAt m fdt place.off = fdtProp
    · rw [if_pos prop, if_pos prop]
    · rw [if_neg prop, if_neg prop]
      by_cases nop : tokenAt m fdt place.off = fdtNop
      · rw [if_pos nop, if_pos nop]
      · rw [if_neg nop, if_neg nop]
  rw [round]
  cases follows : behind m fdt place.off with
  | none => exact .missed (.inr (.inr follows)) notFound room
  | some off =>
      have isNext : place.next m fdt = some ⟨off, place.opened⟩ := by
        rw [Place.next, follows, Option.map_some, if_neg notBegin, if_neg notEnd]
      have goesOn : ¬ SearchEnds m fdt path place := by
        rintro (found | ⟨ends, -⟩ | none)
        · exact notFound found
        · exact notEnd ends
        · rw [follows] at none
          cases none
      exact .goesOn goesOn room isNext

/-- One round of the loop, at every place. -/
theorem round_outcome (scanned : Scanned path idx)
    (room : path.count slash ≠ 0 → matched m fdt path place.opened < path.count slash) :
    Outcome m fdt path place (pathOffsetRound m fdt path idx (cursorAt m fdt path place)) := by
  by_cases begins : tokenAt m fdt place.off = fdtBeginNode
  · by_cases shallow : place.opened.length < intMax + 2
    · by_cases compared : place.opened ≠ [] ∧ onPath m fdt path place.opened = true
      · exact outcome_compared scanned begins shallow compared.1 compared.2 room
      · apply outcome_passed begins shallow
        rwa [not_and_or, not_not] at compared
    · have tooDeep : ¬ (place.opened.length : Int) - 2 < intMax := by omega
      have round : pathOffsetRound m fdt path idx (cursorAt m fdt path place) =
          .stop (.error .counterOverflow) := by
        rw [pathOffsetRound, cursorAt]
        dsimp only
        rw [← tokenAt, if_pos begins, if_neg tooDeep]
      rw [round]
      exact .overruns ⟨begins, .inl (Nat.not_lt.mp shallow)⟩
  · by_cases ends : tokenAt m fdt place.off = fdtEndNode
    · exact outcome_end ends
    · exact outcome_other begins ends

end Round

/-! ## Runs -/

section Runs

variable {m : Mem} {fdt : BitVec 64} {path : List Byte} {idx : PathIdx} {s : Cursor} {n : Nat}
variable {place later : Place} {off : BitVec 32}

/-- The node that is looked for is not too deep. -/
theorem Found.room (found : Found m fdt path place) (few : path.count slash ≤ 10) :
    ¬ Overruns m fdt path place := by
  have last := found.last
  rintro ⟨-, deep | ⟨-, deep, -⟩⟩
  · rw [intMax] at deep
    omega
  · omega

theorem Searched.outcome (searched : Searched m fdt path n place) (scanned : Scanned path idx)
    {round : Round Cursor (Except Fault (BitVec 32))}
    (isRound : pathOffsetRound m fdt path idx (cursorAt m fdt path place) = round) :
    Outcome m fdt path place round :=
  isRound ▸ round_outcome scanned searched.matched_lt

theorem Searched.leads (searched : Searched m fdt path n place) (scanned : Scanned path idx)
    (goesOn : ¬ SearchEnds m fdt path place) (room : ¬ Overruns m fdt path place)
    (isNext : place.next m fdt = some later) :
    Leads (pathOffsetRound m fdt path idx) (cursorAt m fdt path place)
      (cursorAt m fdt path later) := by
  obtain ⟨round, isRound⟩ : ∃ round,
      pathOffsetRound m fdt path idx (cursorAt m fdt path place) = round := ⟨_, rfl⟩
  rw [Leads, isRound]
  cases searched.outcome scanned isRound with
  | overruns overruns => exact absurd overruns room
  | found found => exact absurd (.inl found) goesOn
  | missed ends _ _ => exact absurd ends goesOn
  | goesOn _ _ isOther => rw [Option.some.inj (isNext.symm.trans isOther)]

theorem Searched.stops_found (searched : Searched m fdt path n place) (scanned : Scanned path idx)
    (found : Found m fdt path place) :
    pathOffsetRound m fdt path idx (cursorAt m fdt path place) = .stop (.ok place.off) := by
  obtain ⟨round, isRound⟩ : ∃ round,
      pathOffsetRound m fdt path idx (cursorAt m fdt path place) = round := ⟨_, rfl⟩
  rw [isRound]
  cases searched.outcome scanned isRound with
  | overruns overruns => exact absurd overruns (found.room scanned.few)
  | found _ => rfl
  | missed _ notFound _ => exact absurd found notFound
  | goesOn goesOn _ _ => exact absurd (.inl found) goesOn

theorem Searched.stops_fault (searched : Searched m fdt path n place) (scanned : Scanned path idx)
    (overruns : Overruns m fdt path place) :
    ∃ fault, pathOffsetRound m fdt path idx (cursorAt m fdt path place) = .stop (.error fault) := by
  obtain ⟨round, isRound⟩ : ∃ round,
      pathOffsetRound m fdt path idx (cursorAt m fdt path place) = round := ⟨_, rfl⟩
  rw [isRound]
  cases searched.outcome scanned isRound with
  | overruns _ => exact ⟨_, rfl⟩
  | found found => exact absurd overruns (found.room scanned.few)
  | missed _ _ room => exact absurd overruns room
  | goesOn _ room _ => exact absurd overruns room

/-- The loop is at the places of the search. -/
theorem searched_of_reached (scanned : Scanned path idx)
    (reached : ReflTransGen (Leads (pathOffsetRound m fdt path idx)) ⟨offDtStruct m fdt, -2, 0⟩ s) :
    ∃ n place, Searched m fdt path n place ∧ s = cursorAt m fdt path place := by
  induction reached with
  | refl => exact ⟨0, _, searched_zero, rfl⟩
  | tail _ leads ih =>
      obtain ⟨n, place, searched, rfl⟩ := ih
      cases searched.outcome scanned leads with
      | goesOn goesOn _ isNext => exact ⟨n + 1, _, searched.step goesOn isNext, rfl⟩

/-- It comes to each of them that is not behind a fault. -/
theorem reached_of_searched (scanned : Scanned path idx)
    (room : ∀ i < n, ∀ earlier, Searched m fdt path i earlier → ¬ Overruns m fdt path earlier)
    (searched : Searched m fdt path n place) :
    ReflTransGen (Leads (pathOffsetRound m fdt path idx)) ⟨offDtStruct m fdt, -2, 0⟩
      (cursorAt m fdt path place) := by
  induction n generalizing place with
  | zero =>
      cases searched.isPlace
      exact .refl
  | succ n ih =>
      obtain ⟨earlier, before, goesOn, isNext⟩ := searched.previous
      have reached := ih (fun i inside => room i (inside.trans (Nat.lt_succ_self n))) before
      exact reached.tail
        (before.leads scanned goesOn (room n (Nat.lt_succ_self n) earlier before) isNext)

theorem PathRoom.reached (room : PathRoom m fdt path) (scanned : Scanned path idx)
    (searched : Searched m fdt path n place) :
    ReflTransGen (Leads (pathOffsetRound m fdt path idx)) ⟨offDtStruct m fdt, -2, 0⟩
      (cursorAt m fdt path place) :=
  reached_of_searched scanned (fun i _ => room.levels i) searched

/-- A search that overruns something ends with a fault. -/
theorem pathOffset_of_overruns (scanned : scanPath 0 path .init = .ok idx)
    (room : ∀ i < n, ∀ earlier, Searched m fdt path i earlier → ¬ Overruns m fdt path earlier)
    (searched : Searched m fdt path n place) (overruns : Overruns m fdt path place) :
    ∃ fault, PathOffset m fdt path (.error fault) := by
  have isScanned := scanned_of_ok scanned
  obtain ⟨fault, stops⟩ := searched.stops_fault isScanned overruns
  refine ⟨fault, (pathOffset_iff_ends scanned).mpr ?_⟩
  exact (Ends.iff_of_reached (reached_of_searched isScanned room searched)).mpr (Ends.of_stop stops)

/-- `fdt_path_offset` is without a fault exactly if there is room for the path and the levels. -/
theorem pathRoom_iff : PathRoom m fdt path ↔ ∀ fault, ¬ PathOffset m fdt path (.error fault) := by
  constructor
  · intro room fault faults
    obtain ⟨idx, scanned, -⟩ := exists_scanned room.counted room.few
    rw [pathOffset_iff_ends scanned] at faults
    obtain ⟨s, reached, stops⟩ := faults.exists_last
    obtain ⟨n, place, searched, rfl⟩ := searched_of_reached (scanned_of_ok scanned) reached
    cases searched.outcome (scanned_of_ok scanned) stops with
    | overruns overruns => exact room.levels n place searched overruns
  · intro defined
    have counted : path.length ≤ intMax := by
      by_contra long
      obtain ⟨fault, faults⟩ := @pathOffset_long m fdt path (Nat.not_le.mp long)
      exact defined fault faults
    have few : path.count slash ≤ 10 := by
      by_contra deep
      obtain ⟨fault, faults⟩ := @pathOffset_deep m fdt path (Nat.not_le.mp deep)
      exact defined fault faults
    obtain ⟨idx, scanned, -⟩ := exists_scanned counted few
    refine ⟨counted, few, ?_⟩
    intro n
    induction n using Nat.strong_induction_on with
    | h n ih =>
        intro place searched overruns
        obtain ⟨fault, faults⟩ := pathOffset_of_overruns scanned ih searched overruns
        exact defined fault faults

/-- What is returned is -1 or the offset of the node that is looked for. -/
theorem PathOffset.found (returns : PathOffset m fdt path (.ok off)) (notMissed : off ≠ -1) :
    ∃ n place, Searched m fdt path n place ∧ Found m fdt path place ∧ off = place.off := by
  cases scanned : scanPath 0 path .init with
  | error fault => cases returns.unique (pathOffset_fault scanned)
  | ok idx =>
      rw [pathOffset_iff_ends scanned] at returns
      obtain ⟨s, reached, stops⟩ := returns.exists_last
      obtain ⟨n, place, searched, rfl⟩ := searched_of_reached (scanned_of_ok scanned) reached
      cases searched.outcome (scanned_of_ok scanned) stops with
      | found found => exact ⟨n, place, searched, found, rfl⟩
      | missed _ _ _ => exact absurd rfl notMissed

theorem PathRoom.returns_found (room : PathRoom m fdt path) (searched : Searched m fdt path n place)
    (found : Found m fdt path place) : PathOffset m fdt path (.ok place.off) := by
  obtain ⟨idx, scanned, -⟩ := exists_scanned room.counted room.few
  have isScanned := scanned_of_ok scanned
  rw [pathOffset_iff_ends scanned, Ends.iff_of_reached (room.reached isScanned searched)]
  exact Ends.of_stop (searched.stops_found isScanned found)

end Runs

/-! ## The properties of a node -/

/-- A property without the name. -/
def OtherProp (m : Mem) (fdt : BitVec 64) (name : List Byte) (off : BitVec 32) : Prop :=
  tokenAt m fdt off = fdtProp ∧ m.strcmp name (propName m fdt off) ≠ 0

/-- The search for a name comes to the token with the number behind the name of the node. -/
structure PropSearched (m : Mem) (fdt : BitVec 64) (nodeoffset : BitVec 32) (name : List Byte)
    (k : Nat) (off : BitVec 32) : Prop where
  isPlace : propLayout m fdt nodeoffset k = some off
  others : ∀ i < k, ∀ earlier, propLayout m fdt nodeoffset i = some earlier →
    OtherProp m fdt name earlier

section Props

variable {m : Mem} {fdt : BitVec 64} {nodeoffset off next : BitVec 32} {name : List Byte} {k : Nat}

theorem propLayout_follows (isPlace : propLayout m fdt nodeoffset k = some off) :
    ReflTransGen (Follows m fdt) (bodyStart m fdt nodeoffset) off := by
  induction k generalizing off with
  | zero =>
      cases isPlace
      exact .refl
  | succ k ih =>
      rw [propLayout, Option.bind_eq_some_iff] at isPlace
      obtain ⟨earlier, isEarlier, follows⟩ := isPlace
      exact (ih isEarlier).tail follows

/-- The loop of `fdt_getprop` passes over the other properties. -/
theorem getprop_leads_iff : Leads (getpropRound m fdt name) off next ↔
    OtherProp m fdt name off ∧ Follows m fdt off next := by
  rw [Leads, getpropRound, OtherProp, Follows, behind]
  dsimp only
  rw [← tokenAt, ← propName]
  by_cases prop : tokenAt m fdt off = fdtProp
  · have notBegin : fdtProp ≠ fdtBeginNode := by decide
    have notEnd : fdtProp ≠ fdtEndNode := by decide
    rw [prop, if_pos rfl, if_neg notBegin, if_neg notEnd, if_pos rfl]
    by_cases same : m.strcmp name (propName m fdt off) = 0
    · simp [same]
    · simp [same]
  · simp [prop]

theorem propSearched_of_reached
    (reached : ReflTransGen (Leads (getpropRound m fdt name)) (bodyStart m fdt nodeoffset) off) :
    ∃ k, PropSearched m fdt nodeoffset name k off := by
  induction reached with
  | refl => exact ⟨0, rfl, fun _ before => absurd before (Nat.not_lt_zero _)⟩
  | tail _ leads ih =>
      obtain ⟨k, isPlace, others⟩ := ih
      obtain ⟨other, follows⟩ := getprop_leads_iff.mp leads
      refine ⟨k + 1, ?_, ?_⟩
      · rw [propLayout, isPlace, Option.bind_some]
        exact follows
      · intro i before earlier isEarlier
        rcases Nat.lt_succ_iff_lt_or_eq.mp before with inside | rfl
        · exact others i inside earlier isEarlier
        · cases isPlace.symm.trans isEarlier
          exact other

theorem PropSearched.reached (searched : PropSearched m fdt nodeoffset name k off) :
    ReflTransGen (Leads (getpropRound m fdt name)) (bodyStart m fdt nodeoffset) off := by
  induction k generalizing off with
  | zero =>
      cases searched.isPlace
      exact .refl
  | succ k ih =>
      obtain ⟨isPlace, others⟩ := searched
      rw [propLayout, Option.bind_eq_some_iff] at isPlace
      obtain ⟨earlier, isEarlier, follows⟩ := isPlace
      have before : ReflTransGen _ _ earlier :=
        ih ⟨isEarlier, fun i inside => others i (inside.trans (Nat.lt_succ_self k))⟩
      have other := others k (Nat.lt_succ_self k) earlier isEarlier
      exact before.tail (getprop_leads_iff.mpr ⟨other, follows⟩)

end Props

end OscKernel.Fdt
