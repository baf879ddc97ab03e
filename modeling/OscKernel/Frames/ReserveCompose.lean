import OscKernel.Frames.ReserveExact

/-!
# Several reservations

Calls of `memory_reserve` one after another from the start state.  The search begins at
`MAX_ORDER` and looks for one page only, so a call is served exactly if every region of
order `MAX_ORDER` that it meets is still whole; a list of calls is served exactly if no
two of them meet the same region.
-/

namespace OscKernel.Frames

open Blocks Block Loops

/-- The arguments of a call of `memory_reserve`: a non-empty range inside the memory. -/
structure Reservation where
  base : BitVec 64
  size : BitVec 64
  nonempty : 1 ≤ size.toNat
  inRange : base.toNat + size.toNat ≤ numPages * pageSize

namespace Reservation

/-- First page of the range. -/
def first (r : Reservation) : Nat := r.base.toNat / pageSize

/-- Last page of the range. -/
def last (r : Reservation) : Nat := (r.base.toNat + r.size.toNat - 1) / pageSize

/-- The pages of the range. -/
def pages (r : Reservation) : Set Nat := {frame | r.first ≤ frame ∧ frame ≤ r.last}

/-- The page ranges are disjoint. -/
def Disjoint (r other : Reservation) : Prop := r.last < other.first ∨ other.last < r.first

/-- No block of order `MAX_ORDER` meets both ranges. -/
def Separate (r other : Reservation) : Prop :=
  r.last / 2 ^ maxOrder < other.first / 2 ^ maxOrder ∨
    other.last / 2 ^ maxOrder < r.first / 2 ^ maxOrder

instance : DecidableRel Disjoint := fun _ _ => inferInstanceAs (Decidable (_ ∨ _))

instance : DecidableRel Separate := fun _ _ => inferInstanceAs (Decidable (_ ∨ _))

theorem ordered (r : Reservation) : r.first ≤ r.last := by
  have nonempty := r.nonempty
  exact Nat.div_le_div_right (by omega)

theorem last_lt (r : Reservation) : r.last < numPages := by
  have nonempty := r.nonempty
  have inRange := r.inRange
  exact page_lt (by omega)

theorem startPfn_eq_first (r : Reservation) : startPfn r.base = r.first := by
  have nonempty := r.nonempty
  have inRange := r.inRange
  exact startPfn_eq (by omega)

theorem endPfn_eq_last (r : Reservation) : endPfn r.base r.size = r.last :=
  endPfn_eq r.nonempty r.inRange

/-- The regions that a call meets contain none of the pages. -/
def Clear (pages : Set Nat) (r : Reservation) : Prop :=
  ∀ page ∈ pages, touched r.first r.last page = false

theorem clear_union {pages more : Set Nat} {r : Reservation} :
    r.Clear (pages ∪ more) ↔ r.Clear pages ∧ r.Clear more := by
  constructor
  · intro clear
    exact ⟨fun page member => clear page (.inl member), fun page member => clear page (.inr member)⟩
  · intro both page member
    rcases member with member | member
    · exact both.1 page member
    · exact both.2 page member

theorem separate_iff {r other : Reservation} : r.Separate other ↔ other.Clear r.pages := by
  have ordered := r.ordered
  have otherOrdered := other.ordered
  constructor
  · intro separate page member
    have lower := Nat.div_le_div_right (c := 2 ^ maxOrder) member.1
    have upper := Nat.div_le_div_right (c := 2 ^ maxOrder) member.2
    rw [← Bool.not_eq_true, touched_iff]
    rcases separate with before | after
    · omega
    · omega
  · intro clear
    by_contra meets
    rw [Separate, not_or] at meets
    -- The page of `r` closest to `other` is in a region that `other` meets.
    by_cases before : r.first ≤ other.first
    · by_cases inside : r.last < other.first
      · have same : r.last / 2 ^ maxOrder = other.first / 2 ^ maxOrder := by
          have upper := Nat.div_le_div_right (c := 2 ^ maxOrder) inside.le
          omega
        have notTouched := clear r.last ⟨ordered, le_rfl⟩
        rw [← Bool.not_eq_true, touched_iff] at notTouched
        have span := Nat.div_le_div_right (c := 2 ^ maxOrder) otherOrdered
        omega
      · have notTouched := clear other.first ⟨before, by omega⟩
        rw [← Bool.not_eq_true, touched_iff] at notTouched
        have span := Nat.div_le_div_right (c := 2 ^ maxOrder) otherOrdered
        omega
    · have notTouched := clear r.first ⟨le_rfl, ordered⟩
      rw [← Bool.not_eq_true, touched_iff] at notTouched
      have span := Nat.div_le_div_right (c := 2 ^ maxOrder) (Nat.le_of_not_le before)
      omega

theorem Separate.symm {r other : Reservation} (separate : r.Separate other) : other.Separate r :=
  Or.symm separate

end Reservation

/-! ## Calls one after another -/

/-- The calls of `memory_reserve` in the order of the list; an `exit` ends the program. -/
def reserveAll (fuel : Nat) : List Reservation → Memory → Option Outcome
  | [], m => some (.returned m)
  | r :: rest, m =>
      match memoryReserve fuel r.base r.size m with
      | some (.returned m) => reserveAll fuel rest m
      | outcome => outcome

/-- The calls end with `outcome`. -/
def ReservesAll (calls : List Reservation) (m : Memory) (outcome : Outcome) : Prop :=
  ∃ fuel, reserveAll fuel calls m = some outcome

section Calls

variable {calls rest : List Reservation} {r : Reservation} {m m' : Memory}
variable {outcome other : Outcome}

theorem reserveAll_mono {fuel : Nat} (ended : reserveAll fuel calls m = some outcome)
    (more : Nat) : reserveAll (fuel + more) calls m = some outcome := by
  induction calls generalizing m with
  | nil => exact ended
  | cons r rest ih =>
      rw [reserveAll] at ended ⊢
      cases called : memoryReserve fuel r.base r.size m with
      | none =>
          rw [called] at ended
          simp at ended
      | some first =>
          have same : memoryReserve (fuel + more) r.base r.size m = some first :=
            iterate_mono called more
          rw [called] at ended
          rw [same]
          cases first with
          | returned m' => exact ih ended
          | notFound m' => exact ended
          | errorOrder m' => exact ended
          | fault why => exact ended

/-- The calls end in one way only. -/
theorem ReservesAll.unique (ends : ReservesAll calls m outcome)
    (otherEnds : ReservesAll calls m other) : outcome = other := by
  obtain ⟨fuel, ended⟩ := ends
  obtain ⟨otherFuel, otherEnded⟩ := otherEnds
  have left := reserveAll_mono ended otherFuel
  have right := reserveAll_mono otherEnded fuel
  rw [Nat.add_comm otherFuel fuel, left] at right
  exact Option.some.inj right

theorem ReservesAll.nil : ReservesAll [] m (.returned m) := ⟨0, rfl⟩

theorem ReservesAll.cons (first : Reserves r.base r.size m (.returned m'))
    (ends : ReservesAll rest m' outcome) : ReservesAll (r :: rest) m outcome := by
  obtain ⟨fuel, called⟩ := first
  obtain ⟨restFuel, ended⟩ := ends
  refine ⟨fuel + restFuel, ?_⟩
  have firstEnded : memoryReserve (fuel + restFuel) r.base r.size m = some (.returned m') :=
    iterate_mono called restFuel
  have restEnded := reserveAll_mono ended fuel
  rw [Nat.add_comm] at restEnded
  rw [reserveAll, firstEnded]
  exact restEnded

theorem ReservesAll.notFound (first : Reserves r.base r.size m (.notFound m')) :
    ReservesAll (r :: rest) m (.notFound m') := by
  obtain ⟨fuel, called⟩ := first
  refine ⟨fuel, ?_⟩
  rw [reserveAll, called]

end Calls

/-- The lists hold the maximal blocks of the frames that are not reserved. -/
structure Canonical (reserved : Set Nat) (m : Memory) : Prop where
  lists : Represents maxOrder m.freeArea (tops (within maxOrder (allFrames \ reserved)))
  orders : ∀ block ∈ tops (within maxOrder (allFrames \ reserved)),
    (m.memMap block.base).order = block.order

theorem mmInit_canonical : Canonical ∅ mmInit := by
  have owns := mmInit_owns
  rw [← Set.sdiff_empty (s := allFrames)] at owns
  constructor
  · exact owns.lists
  · exact fun block top => congrArg Page.order (owns.heads block top)

section Served

variable {reserved : Set Nat} {m : Memory} {bound : Nat}

/-- The request for a range of which the regions up to `bound` are whole. -/
theorem Canonical.request (r : Reservation) (limit : bound ≤ r.last + 1)
    (stop : bound = r.last + 1 ∨ 2 ^ maxOrder ∣ bound)
    (clear : ∀ page ∈ reserved, touched r.first r.last page = true →
      bound ≤ 2 ^ maxOrder * (page / 2 ^ maxOrder)) :
    Request (fun _ => true) (allFrames \ reserved) r.first r.last bound where
  kept _ _ := rfl
  inRange _ owned := owned.1
  whole frame above below other member := by
    have same : other / 2 ^ maxOrder = frame / 2 ^ maxOrder := member
    have meets : touched r.first r.last other = true := by
      rw [touched_iff, same]
      exact ⟨Nat.div_le_div_right above, Nat.div_le_div_right (by omega)⟩
    refine ⟨touched_lt r.last_lt meets, fun reservedOther => ?_⟩
    have far := clear other reservedOther meets
    have start := Nat.mul_div_le frame (2 ^ maxOrder)
    rw [same] at far
    omega
  limit := limit
  stop := stop

/-- The invariant of the main loop holds when a canonical state enters it. -/
theorem Canonical.start (canonical : Canonical reserved m) (r : Reservation)
    (request : Request (fun _ => true) (allFrames \ reserved) r.first r.last bound)
    (reaches : r.first ≤ bound) :
    LoopInv (fun _ => true) m (allFrames \ reserved) r.first r.last bound
      ⟨m, r.first, maxOrder⟩ := by
  apply LoopInv.start request _ canonical.orders r.ordered reaches
  rw [FreeLists.restrict_true]
  exact canonical.lists

/-- A call that meets whole regions only is served, and its range is reserved as blocks. -/
theorem Canonical.reserve_marks (canonical : Canonical reserved m) (r : Reservation)
    (clear : r.Clear reserved) :
    ∃ m' marks, Reserves r.base r.size m (.returned m') ∧
      Carving (fun _ => true) m r.first (r.last + 1)
        (within maxOrder (allFrames \ (reserved ∪ r.pages))) marks m' := by
  have request : Request (fun _ => true) (allFrames \ reserved) r.first r.last (r.last + 1) :=
    Canonical.request r le_rfl (.inl rfl) fun page member meets =>
      absurd meets (by rw [clear page member]; exact Bool.false_ne_true)
  have inv := canonical.start r request (Nat.le_succ_of_le r.ordered)
  obtain ⟨m', ends, marks, carving⟩ := reserve_complete request inv
  have rest : (allFrames \ reserved) \ Set.Ico r.first (r.last + 1) =
      allFrames \ (reserved ∪ r.pages) := by
    rw [Set.sdiff_sdiff]
    congr 2
    ext frame
    exact and_congr_right fun _ => Nat.lt_succ_iff
  rw [rest] at carving
  refine ⟨m', marks, ?_, carving⟩
  rw [← r.startPfn_eq_first, ← r.endPfn_eq_last] at ends
  exact ends

/-- The lists are canonical after such a call. -/
theorem Canonical.reserve (canonical : Canonical reserved m) (r : Reservation)
    (clear : r.Clear reserved) :
    ∃ m', Reserves r.base r.size m (.returned m') ∧ Canonical (reserved ∪ r.pages) m' := by
  obtain ⟨m', marks, ends, carving⟩ := canonical.reserve_marks r clear
  refine ⟨m', ends, ?_, carving.orders⟩
  have lists := carving.lists
  rwa [FreeLists.restrict_true] at lists

/-- A call whose first region has a reserved page ends in the first round. -/
theorem Canonical.reserve_notFound_first (canonical : Canonical reserved m) (r : Reservation)
    {page : Nat} (member : page ∈ reserved) (same : page ∈ containing maxOrder r.first) :
    ∃ m', Reserves r.base r.size m (.notFound m') := by
  have absent : headPfn ⟨m, r.first, maxOrder⟩ ∉ m.freeArea maxOrder :=
    head_not_listed ⟨m, r.first, maxOrder⟩ canonical.lists le_rfl
      (fun block inFamily inBlock => (inFamily.2 page inBlock).2 member) same
  have ends := Ends.of_stop (reserveRound_notFound r.ordered absent)
  rw [← r.startPfn_eq_first, ← r.endPfn_eq_last] at ends
  exact ⟨_, ends⟩

/-- A call that reaches a region with a reserved page, after whole regions, ends there. -/
theorem Canonical.reserve_notFound_later (canonical : Canonical reserved m) (r : Reservation)
    (request : Request (fun _ => true) (allFrames \ reserved) r.first r.last bound)
    (reaches : r.first ≤ bound) (inRange : bound ≤ r.last)
    {page : Nat} (member : page ∈ reserved) (same : page ∈ containing maxOrder bound) :
    ∃ m', Reserves r.base r.size m (.notFound m') := by
  have inv := canonical.start r request reaches
  obtain ⟨m', ends, _⟩ := reserve_stuck request inv inRange (fun owned => owned.2 member) same
  rw [← r.startPfn_eq_first, ← r.endPfn_eq_last] at ends
  exact ⟨m', ends⟩

/-- A call that meets a region with a reserved page ends at `Not found`. -/
theorem Canonical.reserve_notFound (canonical : Canonical reserved m) (r : Reservation)
    (notClear : ¬ r.Clear reserved) : ∃ m', Reserves r.base r.size m (.notFound m') := by
  -- The first region with a reserved page.
  have exists_region : ∃ region, r.first / 2 ^ maxOrder ≤ region ∧
      ∃ page ∈ reserved, page / 2 ^ maxOrder = region := by
    by_contra none
    apply notClear
    intro page member
    rw [← Bool.not_eq_true, touched_iff]
    exact fun meets => none ⟨_, meets.1, page, member, rfl⟩
  classical
  obtain ⟨above, page, member, same⟩ := Nat.find_spec exists_region
  have least : ∀ page ∈ reserved, touched r.first r.last page = true →
      Nat.find exists_region ≤ page / 2 ^ maxOrder := fun page member meets =>
    Nat.find_min' exists_region ⟨(touched_iff.mp meets).1, page, member, rfl⟩
  have inRange : Nat.find exists_region ≤ r.last / 2 ^ maxOrder := by
    by_contra beyond
    apply notClear
    intro page member
    rw [← Bool.not_eq_true]
    intro meets
    have small := least page member meets
    have upper := (touched_iff.mp meets).2
    omega
  generalize Nat.find exists_region = region at above same least inRange
  by_cases atStart : region = r.first / 2 ^ maxOrder
  · exact canonical.reserve_notFound_first r member (same.trans atStart)
  · have bound : 2 ^ maxOrder * region ≤ r.last :=
      (Nat.mul_le_mul_left _ inRange).trans (Nat.mul_div_le _ _)
    have reaches : r.first ≤ 2 ^ maxOrder * region := by
      have next := Nat.lt_mul_div_succ r.first (Nat.two_pow_pos maxOrder)
      have later : 2 ^ maxOrder * (r.first / 2 ^ maxOrder + 1) ≤ 2 ^ maxOrder * region :=
        Nat.mul_le_mul_left _ (by omega)
      omega
    have request : Request (fun _ => true) (allFrames \ reserved) r.first r.last
        (2 ^ maxOrder * region) :=
      Canonical.request r (by omega) (.inr (Nat.dvd_mul_right _ _)) fun page member meets =>
        Nat.mul_le_mul_left _ (least page member meets)
    apply canonical.reserve_notFound_later r request reaches bound member
    show page / 2 ^ maxOrder = 2 ^ maxOrder * region / 2 ^ maxOrder
    rw [same, Nat.mul_div_cancel_left _ (Nat.two_pow_pos maxOrder)]

end Served

/-! ## Lists of calls -/

/-- The pages that the calls ask for. -/
def reservedPages (calls : List Reservation) : Set Nat := {frame | ∃ r ∈ calls, frame ∈ r.pages}

theorem reservedPages_cons (r : Reservation) (calls : List Reservation) :
    reservedPages (r :: calls) = r.pages ∪ reservedPages calls := by
  ext frame
  simp [reservedPages]

theorem reservedPages_perm {calls others : List Reservation} (perm : calls.Perm others) :
    reservedPages calls = reservedPages others := by
  ext frame
  simp [reservedPages, perm.mem_iff]

section Runs

variable {reserved : Set Nat} {m : Memory} {calls : List Reservation}

theorem Canonical.listedFrames_eq (canonical : Canonical reserved m) :
    listedFrames m = allFrames \ reserved :=
  listedFrames_of_lists canonical.lists

/-- Calls that meet different whole regions are all served. -/
theorem Canonical.reserveAll_returned (canonical : Canonical reserved m)
    (separate : calls.Pairwise Reservation.Separate) (clear : ∀ r ∈ calls, r.Clear reserved) :
    ∃ m', ReservesAll calls m (.returned m') ∧ Canonical (reserved ∪ reservedPages calls) m' := by
  induction calls generalizing reserved m with
  | nil =>
      refine ⟨m, ReservesAll.nil, ?_⟩
      have noPages : reservedPages [] = ∅ := by
        ext frame
        simp [reservedPages]
      rwa [noPages, Set.union_empty]
  | cons r rest ih =>
      obtain ⟨away, restSeparate⟩ := List.pairwise_cons.mp separate
      obtain ⟨m₁, served, first⟩ := canonical.reserve r (clear r (List.mem_cons_self ..))
      obtain ⟨m₂, restServed, final⟩ := ih first restSeparate fun other member =>
        Reservation.clear_union.mpr ⟨clear other (List.mem_cons_of_mem _ member),
          Reservation.separate_iff.mp (away other member)⟩
      refine ⟨m₂, ReservesAll.cons served restServed, ?_⟩
      rwa [reservedPages_cons, ← Set.union_assoc]

/-- Otherwise one of them ends at `Not found`. -/
theorem Canonical.reserveAll_notFound (canonical : Canonical reserved m)
    (meets : ¬ (calls.Pairwise Reservation.Separate ∧ ∀ r ∈ calls, r.Clear reserved)) :
    ∃ m', ReservesAll calls m (.notFound m') := by
  induction calls generalizing reserved m with
  | nil => exact absurd ⟨List.Pairwise.nil, by simp⟩ meets
  | cons r rest ih =>
      by_cases clear : r.Clear reserved
      · obtain ⟨m₁, served, first⟩ := canonical.reserve r clear
        obtain ⟨m₂, restEnds⟩ := ih first (by
          intro both
          apply meets
          constructor
          · refine List.pairwise_cons.mpr ⟨fun other member => ?_, both.1⟩
            exact Reservation.separate_iff.mpr
              (Reservation.clear_union.mp (both.2 other member)).2
          · intro other member
            rcases List.mem_cons.mp member with equal | member
            · exact equal ▸ clear
            · exact (Reservation.clear_union.mp (both.2 other member)).1)
        exact ⟨m₂, ReservesAll.cons served restEnds⟩
      · obtain ⟨m₁, ends⟩ := canonical.reserve_notFound r clear
        exact ⟨m₁, ReservesAll.notFound ends⟩

end Runs

/-- From the start state the calls never reach `Not found`, in any order, and leave free
exactly the frames that none of them asks for. -/
def Compose (reservations : List Reservation) : Prop :=
  ∀ calls : List Reservation, calls.Perm reservations →
    (∀ m, ¬ ReservesAll calls mmInit (.notFound m)) ∧
    ∃ m, ReservesAll calls mmInit (.returned m) ∧
      listedFrames m = allFrames \ reservedPages reservations

theorem mmInit_clear {calls : List Reservation} : ∀ r ∈ calls, r.Clear ∅ :=
  fun _ _ page member => absurd member (Set.notMem_empty page)

theorem compose_of_separate {reservations : List Reservation}
    (separate : reservations.Pairwise Reservation.Separate) : Compose reservations := by
  intro calls perm
  have callsSeparate := (perm.pairwise_iff Reservation.Separate.symm).mpr separate
  obtain ⟨m, served, final⟩ := mmInit_canonical.reserveAll_returned callsSeparate mmInit_clear
  constructor
  · intro m' ends
    exact Outcome.noConfusion (served.unique ends)
  · refine ⟨m, served, ?_⟩
    rw [final.listedFrames_eq, Set.empty_union, reservedPages_perm perm]

theorem notFound_of_not_separate {reservations : List Reservation}
    (meets : ¬ reservations.Pairwise Reservation.Separate) :
    ∃ m, ReservesAll reservations mmInit (.notFound m) :=
  mmInit_canonical.reserveAll_notFound fun both => meets both.1

/-- Reservations compose exactly if no two of them meet the same region of order
`MAX_ORDER`. -/
theorem reservations_compose_iff (reservations : List Reservation) :
    Compose reservations ↔ reservations.Pairwise Reservation.Separate := by
  constructor
  · intro compose
    by_contra meets
    obtain ⟨m, ends⟩ := notFound_of_not_separate meets
    exact (compose reservations (List.Perm.refl _)).1 m ends
  · exact compose_of_separate

/-- The first page of the memory. -/
def firstPage : Reservation := ⟨0, 0x1000, by decide, by decide⟩

/-- The second page of the memory. -/
def secondPage : Reservation := ⟨0x1000, 0x1000, by decide, by decide⟩

/-- The page ranges of the first two pages are disjoint, and reserving one after the other
ends at `Not found`. -/
theorem first_pages_not_found : [firstPage, secondPage].Pairwise Reservation.Disjoint ∧
    (∃ m, ReservesAll [firstPage, secondPage] mmInit (.notFound m)) ∧
    ¬ Compose [firstPage, secondPage] := by
  have disjoint : firstPage.Disjoint secondPage := by decide
  have meets : ¬ firstPage.Separate secondPage := by decide
  obtain ⟨m, ends⟩ : ∃ m, ReservesAll [firstPage, secondPage] mmInit (.notFound m) := by
    apply notFound_of_not_separate
    intro separate
    exact meets ((List.pairwise_cons.mp separate).1 _ (List.mem_singleton_self _))
  refine ⟨by simp [disjoint], ⟨m, ends⟩, fun compose => ?_⟩
  exact (compose _ (List.Perm.refl _)).1 m ends

end OscKernel.Frames
