import Mathlib.Data.Finset.Card
import OscKernel.Paging.MapCalls

/-!
# The mapping of user programs

As long as no two pages share a root entry, every walk builds its own two tables and the
translation is that of the last call for each page.  The first page whose root entry is in
use ends the sequence with a fault, because `pagewalk` takes the physical address in the
entry for a pointer.
-/

namespace OscKernel.Paging

open Alloc Words

/-- The translation that a list of mapped pages asks for: that of the last one for the
page of the address. -/
def mappingOf (pages : List UserPage) (va : Nat) : Option Translation :=
  (pages.reverse.find? fun page => page.va.toNat / 2 ^ 12 = va / 2 ^ 12).map fun page =>
    ⟨page.pa.toNat + va % 2 ^ 12, page.prot.toNat⟩

theorem mappingOf_append (pages : List UserPage) (page : UserPage) (va : Nat) :
    mappingOf (pages ++ [page]) va =
      if page.va.toNat / 2 ^ 12 = va / 2 ^ 12 then
        some ⟨page.pa.toNat + va % 2 ^ 12, page.prot.toNat⟩
      else mappingOf pages va := by
  rw [mappingOf, List.reverse_append, List.reverse_singleton, List.singleton_append,
    List.find?_cons]
  by_cases same : page.va.toNat / 2 ^ 12 = va / 2 ^ 12
  · rw [decide_eq_true same, if_pos same]
    rfl
  · rw [decide_eq_false same, if_neg same]
    rfl

theorem mappingOf_eq_none {pages : List UserPage} {va : Nat}
    (away : ∀ page ∈ pages, page.gib ≠ va / 2 ^ 30) : mappingOf pages va = none := by
  rw [mappingOf, List.find?_eq_none.mpr]
  · rfl
  · intro page member same
    apply away page (List.mem_reverse.mp member)
    have equal := of_decide_eq_true same
    rw [UserPage.gib]
    omega

/-! ## The tables of one walk -/

section Walked

variable {root x : Nat} {page : UserPage} {m m' : PhysMem}

/-- A page and its leaf entry. -/
theorem walk_leaf {ppn va : Nat} (entry : m (slot ppn 0 va) = makePte page.pa page.prot) :
    walk m 0 ppn va = some ⟨page.pa.toNat + va % 2 ^ 12, page.prot.toNat⟩ := by
  have aligned := page.pa_aligned
  have read : decode (m (slot ppn 0 va)) = .page (page.pa.toNat / 2 ^ 12) page.prot.toNat := by
    rw [entry, decode_makePte page.pa_physical page.prot_small, page.prot_page]
  have whole : 2 ^ (9 * 0) ∣ page.pa.toNat / 2 ^ 12 := Nat.one_dvd _
  rw [walk_of_page read, leaf, if_pos whole, span]
  simp only [Option.some.injEq, Translation.mk.injEq, and_true]
  omega

/-- The addresses under the root entry of the page, after a walk that built the tables. -/
theorem Walked.under (walked : Walked (root * 2 ^ 12) x page m m') (aligned : 2 ^ 12 ∣ x)
    (inside : x + 0x2000 ≤ memorySize) {va : Nat} (user : va < 2 ^ 38)
    (same : va / 2 ^ 30 = page.gib) :
    walk m' 2 root va = (if page.va.toNat / 2 ^ 12 = va / 2 ^ 12 then
      some ⟨page.pa.toNat + va % 2 ^ 12, page.prot.toNat⟩ else none) ∧
    ∀ address ∈ path m' 2 root va,
      address = slot root 2 va ∨ x ≤ address ∧ address < x + 0x2000 := by
  have pageUser := page.va_user
  have rootIndex : index 2 va = page.gib := by
    rw [← same, index, span]
    omega
  have samePage : page.va.toNat / 2 ^ 12 = va / 2 ^ 12 ↔
      index 1 va = index 1 page.va.toNat ∧ index 0 va = index 0 page.va.toNat := by
    rw [UserPage.gib] at same
    simp only [index, span]
    omega
  have rootEntry : m' (slot root 2 va) = tableEntry x := by
    rw [slot, rootIndex]
    exact walked.root
  have rootTable : decode (m' (slot root 2 va)) = .table (x / 2 ^ 12) := by
    rw [rootEntry, decode_tableEntry (by omega)]
  have middleSlot : slot (x / 2 ^ 12) 1 va = x + 8 * index 1 va := by
    rw [slot]
    omega
  have middleEntry := walked.middle (index 1 va) index_lt
  rw [← middleSlot] at middleEntry
  have middleBounds : x ≤ slot (x / 2 ^ 12) 1 va ∧ slot (x / 2 ^ 12) 1 va < x + 0x2000 := by
    have small : index 1 va < 512 := index_lt
    omega
  rw [walk_of_table rootTable, path_of_table rootTable]
  by_cases middle : index 1 va = index 1 page.va.toNat
  · rw [if_pos middle] at middleEntry
    have middleTable : decode (m' (slot (x / 2 ^ 12) 1 va)) = .table ((x + 0x1000) / 2 ^ 12) := by
      rw [middleEntry, decode_tableEntry (by omega)]
    have lastSlot : slot ((x + 0x1000) / 2 ^ 12) 0 va = x + 0x1000 + 8 * index 0 va := by
      rw [slot]
      omega
    have lastEntry := walked.last (index 0 va) index_lt
    rw [← lastSlot] at lastEntry
    rw [walk_of_table middleTable, path_of_table middleTable]
    constructor
    · by_cases last : index 0 va = index 0 page.va.toNat
      · rw [if_pos last] at lastEntry
        rw [if_pos (samePage.mpr ⟨middle, last⟩)]
        exact walk_leaf lastEntry
      · rw [if_neg last] at lastEntry
        rw [if_neg (fun equal => last (samePage.mp equal).2)]
        exact walk_of_invalid (lastEntry ▸ decode_zero)
    · intro address member
      have lastSmall : index 0 va < 512 := index_lt
      simp only [path, List.mem_cons, List.not_mem_nil, or_false] at member
      rcases member with equal | equal | equal
      · exact .inl equal
      · exact .inr (equal ▸ middleBounds)
      · right
        omega
  · rw [if_neg middle] at middleEntry
    have empty : decode (m' (slot (x / 2 ^ 12) 1 va)) = .invalid := middleEntry ▸ decode_zero
    rw [if_neg (fun equal => middle (samePage.mp equal).1)]
    constructor
    · exact walk_of_invalid empty
    · intro address member
      rw [path_of_invalid empty] at member
      simp only [List.mem_cons, List.not_mem_nil, or_false] at member
      rcases member with equal | equal
      · exact .inl equal
      · exact .inr (equal ▸ middleBounds)

end Walked

/-! ## The invariant -/

/-- The kernel after walks for the pages `done`, no two of which share a root entry, when
the next free page is at `x`. -/
structure Mapped (boot : Boot) (done : List UserPage) (x : Nat) (k : Kernel) : Prop where
  next : NextPage k x
  above : boot.pgd + 0x1000 ≤ x
  distinct : (done.map UserPage.gib).Nodup
  translates : ∀ va < 2 ^ 38, walk k.mem 2 boot.root va = mappingOf done va
  paths : ∀ va < 2 ^ 38, ∀ address ∈ path k.mem 2 boot.root va,
    address = slot boot.root 2 va ∨ boot.pgd + 0x1000 ≤ address ∧ address < x
  empty : ∀ i < 256, (∀ page ∈ done, page.gib ≠ i) → k.mem (boot.pgdSlot i) = 0
  present : ∀ page ∈ done, ∃ table, 2 ^ 12 ∣ table ∧ table < memorySize ∧
    k.mem (boot.pgdSlot page.gib) = tableEntry table
  kernel : ∀ i, 256 ≤ i → i < 512 → k.mem (boot.pgdSlot i) = boot.setupVm (boot.pgdSlot i)

/-- The first page that the allocator returns. -/
def Boot.firstPage (boot : Boot) : Nat := roundUp 12 (virtToPhys boot.endAddr).toNat

/-- The kernel after `setup_vm`. -/
def Boot.kernel (boot : Boot) : Kernel := ⟨boot.setupVm, boot.endAddr⟩

section Invariant

variable {boot : Boot} {done : List UserPage} {x : Nat} {k : Kernel}

theorem UserPage.gib_lt (page : UserPage) : page.gib < 256 := by
  have user := page.va_user
  rw [UserPage.gib]
  omega

/-- No user address translates while the root table is the one of `setup_vm`. -/
theorem Mapped.of_root (next : NextPage k x) (above : boot.pgd + 0x1000 ≤ x)
    (root : ∀ i < 512, k.mem (boot.pgdSlot i) = boot.setupVm (boot.pgdSlot i)) :
    Mapped boot [] x k := by
  have lower : ∀ i < 256, k.mem (boot.pgdSlot i) = 0 := by
    intro i small
    rw [root i (by omega), boot.setupVm_slot (by omega), if_neg (by omega)]
  have entry : ∀ va < 2 ^ 38, decode (k.mem (slot boot.root 2 va)) = .invalid := by
    intro va user
    have small : index 2 va < 256 := by
      rw [index, span]
      omega
    rw [boot.root_slot, lower _ small]
    exact decode_zero
  constructor
  · exact next
  · exact above
  · exact List.nodup_nil
  · intro va user
    exact walk_of_invalid (entry va user)
  · intro va user address member
    rw [path_of_invalid (entry va user)] at member
    exact .inl (List.mem_singleton.mp member)
  · intro i small _
    exact lower i small
  · exact fun _ member => absurd member List.not_mem_nil
  · intro i _ small
    exact root i small

theorem Boot.firstPage_next (boot : Boot) : NextPage boot.kernel boot.firstPage := by
  have inside := boot.end_inside
  have endAddr : boot.endAddr.toNat = 2 ^ 64 - 2 ^ 38 + (virtToPhys boot.endAddr).toNat := by
    have virtual := physToVirt_toNat inside
    rwa [physToVirt_virtToPhys] at virtual
  constructor
  · exact dvd_roundUp _ _
  · show roundUp 12 boot.endAddr.toNat = _
    rw [endAddr, Boot.firstPage, roundUp, roundUp]
    omega

theorem Boot.pgd_le_firstPage (boot : Boot) : boot.pgd + 0x1000 ≤ boot.firstPage := by
  have below := boot.pgd_below
  have rounded := le_roundUp 12 (virtToPhys boot.endAddr).toNat
  rw [Boot.firstPage]
  omega

/-- No user address translates after `setup_vm`. -/
theorem Mapped.start (boot : Boot) : Mapped boot [] boot.firstPage boot.kernel :=
  Mapped.of_root boot.firstPage_next boot.pgd_le_firstPage fun _ _ => rfl

/-- A page taken by the kernel. -/
theorem Mapped.take (mapped : Mapped boot done x k) (inside : x + 0x1000 ≤ memorySize) :
    Mapped boot done (x + 0x1000) { k with curr := (allocPage k.curr).2 } where
  next := mapped.next.next inside k.mem
  above := mapped.above.trans (Nat.le_add_right _ _)
  distinct := mapped.distinct
  translates := mapped.translates
  paths := by
    intro va user address member
    rcases mapped.paths va user address member with root | between
    · exact .inl root
    · exact .inr ⟨between.1, by omega⟩
  empty := mapped.empty
  present := mapped.present
  kernel := mapped.kernel

theorem Boot.root_address (boot : Boot) : boot.root * 2 ^ 12 = boot.pgd :=
  Nat.div_mul_cancel boot.pgd_aligned

/-- Other root entries stay as they are. -/
theorem Mapped.otherRoot (mapped : Mapped boot done x k) {page : UserPage} {m' : PhysMem}
    (walked : Walked boot.pgd x page k.mem m') {i : Nat} (small : i < 512)
    (different : i ≠ page.gib) : m' (boot.pgdSlot i) = k.mem (boot.pgdSlot i) := by
  have above := mapped.above
  apply walked.others
  · rw [Boot.pgdSlot]
    omega
  · left
    rw [Boot.pgdSlot]
    omega

/-- What is reached through other root entries stays as it is. -/
theorem Mapped.otherWalk (mapped : Mapped boot done x k) {page : UserPage} {m' : PhysMem}
    (walked : Walked boot.pgd x page k.mem m') {va : Nat} (user : va < 2 ^ 38)
    (different : va / 2 ^ 30 ≠ page.gib) :
    Paging.walk m' 2 boot.root va = Paging.walk k.mem 2 boot.root va ∧
      path m' 2 boot.root va = path k.mem 2 boot.root va := by
  have gib := page.gib_lt
  apply walk_congr
  intro address member
  rcases mapped.paths va user address member with root | between
  · rw [root, boot.root_slot]
    apply mapped.otherRoot walked index_lt
    rw [index, span]
    omega
  · exact walked.others address (by omega) (.inl between.2)

/-- The addresses that a user walk reads after a walk that built its tables. -/
theorem Mapped.walk_paths (mapped : Mapped boot done x k) {page : UserPage} {m' : PhysMem}
    (walked : Walked boot.pgd x page k.mem m') (inside : x + 0x2000 ≤ memorySize) {va : Nat}
    (user : va < 2 ^ 38) : ∀ address ∈ path m' 2 boot.root va,
    address ∈ path k.mem 2 boot.root va ∨ x ≤ address ∧ address < x + 0x2000 := by
  intro address member
  by_cases same : va / 2 ^ 30 = page.gib
  · have under : Walked (boot.root * 2 ^ 12) x page k.mem m' := boot.root_address ▸ walked
    rcases (under.under mapped.next.aligned inside user same).2 address member with root | new
    · left
      rw [root]
      exact slot_mem_path
    · exact .inr new
  · left
    rwa [(mapped.otherWalk walked user same).2] at member

/-- A walk for a page whose root entry is not in use. -/
theorem Mapped.walk (mapped : Mapped boot done x k) (page : UserPage)
    (fresh : ∀ other ∈ done, other.gib ≠ page.gib) (inside : x + 0x2000 ≤ memorySize) :
    ∃ k', pagewalk (physToVirt boot.pgd) page.va page.pa page.prot k = .ok k' ∧
      Walked boot.pgd x page k.mem k'.mem ∧ Mapped boot (done ++ [page]) (x + 0x2000) k' := by
  have above := mapped.above
  have gib := page.gib_lt
  obtain ⟨k', runs, next, walked⟩ := pagewalk_empty page above inside
    (mapped.empty page.gib gib fresh) mapped.next
  have under : Walked (boot.root * 2 ^ 12) x page k.mem k'.mem := boot.root_address ▸ walked
  refine ⟨k', runs, walked, ?_⟩
  constructor
  · exact next
  · omega
  · rw [List.map_append, List.map_singleton, List.nodup_append]
    refine ⟨mapped.distinct, List.nodup_singleton _, ?_⟩
    intro used member single only equal
    obtain ⟨other, otherMember, rfl⟩ := List.mem_map.mp member
    exact fresh other otherMember (equal.trans (List.mem_singleton.mp only))
  · intro va user
    rw [mappingOf_append]
    by_cases same : va / 2 ^ 30 = page.gib
    · rw [(under.under mapped.next.aligned inside user same).1,
        mappingOf_eq_none fun other member => same ▸ fresh other member]
    · have notPage : ¬ page.va.toNat / 2 ^ 12 = va / 2 ^ 12 := by
        intro equal
        apply same
        rw [UserPage.gib]
        omega
      rw [(mapped.otherWalk walked user same).1, mapped.translates va user, if_neg notPage]
  · intro va user address member
    by_cases same : va / 2 ^ 30 = page.gib
    · rcases (under.under mapped.next.aligned inside user same).2 address member with root | new
      · exact .inl root
      · exact .inr ⟨by omega, new.2⟩
    · rw [(mapped.otherWalk walked user same).2] at member
      rcases mapped.paths va user address member with root | between
      · exact .inl root
      · exact .inr ⟨between.1, by omega⟩
  · intro i small unused
    have notPage := unused page (List.mem_append_right _ (List.mem_singleton_self _))
    rw [mapped.otherRoot walked (by omega) notPage.symm]
    exact mapped.empty i small fun other member => unused other (List.mem_append_left _ member)
  · intro other member
    rcases List.mem_append.mp member with old | new
    · obtain ⟨table, aligned, tableInside, entry⟩ := mapped.present other old
      refine ⟨table, aligned, tableInside, ?_⟩
      have small := other.gib_lt
      rw [mapped.otherRoot walked (by omega) (fresh other old), entry]
    · rw [List.mem_singleton.mp new]
      exact ⟨x, mapped.next.aligned, by omega, walked.root⟩
  · intro i higher small
    rw [mapped.otherRoot walked small (by omega)]
    exact mapped.kernel i higher small

/-- A walk for a page whose root entry is in use. -/
theorem Mapped.fault (mapped : Mapped boot done x k) (page : UserPage)
    (used : ∃ other ∈ done, other.gib = page.gib) :
    ∃ fault, pagewalk (physToVirt boot.pgd) page.va page.pa page.prot k = .error fault := by
  obtain ⟨other, member, same⟩ := used
  obtain ⟨table, aligned, tableInside, entry⟩ := mapped.present other member
  have below := boot.pgd_below
  have endInside := boot.end_inside
  rw [same] at entry
  exact pagewalk_present page (by omega) aligned tableInside entry

/-- The root entries of the higher half are pages or empty. -/
theorem Mapped.higher_entry (mapped : Mapped boot done x k) {va : Nat}
    (root : 256 ≤ index 2 va) (next : Nat) :
    decode (k.mem (slot boot.root 2 va)) ≠ .table next := by
  rw [boot.root_slot, mapped.kernel _ root index_lt, boot.setupVm_slot index_lt]
  by_cases page : 256 ≤ index 2 va ∧ index 2 va < 266
  · rw [if_pos page, Boot.decode_superPage (by omega)]
    exact Entry.noConfusion
  · rw [if_neg page, decode_zero]
    exact Entry.noConfusion

/-- The higher half translates as before. -/
theorem Mapped.higher (mapped : Mapped boot done x k) {va : Nat} (root : 256 ≤ index 2 va) :
    Paging.walk k.mem 2 boot.root va = Paging.walk boot.setupVm 2 boot.root va := by
  refine ((walk_congr fun address member => ?_).1).symm
  rw [path_of_not_table (mapped.higher_entry root)] at member
  rw [List.mem_singleton.mp member, boot.root_slot]
  exact (mapped.kernel _ root index_lt).symm

end Invariant

/-! ## Runs -/

section Runs

variable {boot : Boot} {done : List UserPage} {x : Nat} {k : Kernel} {actions : List Action}

/-- Pages taken by the kernel among the actions. -/
def takes (actions : List Action) : Nat :=
  actions.countP fun
    | .walk _ => false
    | .take => true

theorem takes_take (rest : List Action) : takes (.take :: rest) = takes rest + 1 := by
  simp [takes]

theorem room_take {x tables rest size : Nat}
    (room : x + 0x1000 * (2 * tables + (rest + 1)) ≤ size) :
    x + 0x1000 ≤ size ∧ x + 0x1000 + 0x1000 * (2 * tables + rest) ≤ size := by
  omega

theorem takes_walk (page : UserPage) (rest : List Action) :
    takes (.walk page :: rest) = takes rest := by
  simp [takes]

/-- Pages with different root entries are at most as many as the entries. -/
theorem length_le_of_nodup {pages : List UserPage} (distinct : (pages.map UserPage.gib).Nodup)
    (gibs : Finset Nat) (inside : ∀ page ∈ pages, page.gib ∈ gibs) : pages.length ≤ gibs.card := by
  rw [← List.length_map (f := UserPage.gib), ← List.toFinset_card_of_nodup distinct]
  apply Finset.card_le_card
  intro gib member
  obtain ⟨page, pageMember, rfl⟩ := List.mem_map.mp (List.mem_toFinset.mp member)
  exact inside page pageMember

/-- The actions succeed while the root entries are distinct, and end with a fault at the
first that is in use. -/
theorem Mapped.perform (mapped : Mapped boot done x k) (gibs : Finset Nat)
    (inside : ∀ page ∈ done ++ walkedPages actions, page.gib ∈ gibs)
    (room : x + 0x1000 * (2 * (gibs.card - done.length) + takes actions) ≤ memorySize) :
    (((done ++ walkedPages actions).map UserPage.gib).Nodup →
      ∃ x' k', Paging.perform (physToVirt boot.pgd) actions k = .ok k' ∧
        Mapped boot (done ++ walkedPages actions) x' k') ∧
    (¬ ((done ++ walkedPages actions).map UserPage.gib).Nodup →
      ∃ fault, Paging.perform (physToVirt boot.pgd) actions k = .error fault) := by
  -- Induction on the actions that are left.
  induction actions generalizing done x k with
  | nil =>
      have nothing : done ++ walkedPages [] = done := List.append_nil done
      rw [nothing]
      exact ⟨fun _ => ⟨x, k, rfl, mapped⟩, fun shared => absurd mapped.distinct shared⟩
  | cons action rest ih =>
      cases action with
      | take =>
          have pages : walkedPages (.take :: rest) = walkedPages rest := rfl
          rw [takes_take] at room
          rw [pages] at inside ⊢
          obtain ⟨one, left⟩ := room_take room
          exact ih (mapped.take one) inside left
      | walk page =>
          have pages : done ++ walkedPages (.walk page :: rest) =
              (done ++ [page]) ++ walkedPages rest := by
            rw [List.append_assoc]
            rfl
          rw [takes_walk] at room
          rw [pages] at inside ⊢
          by_cases used : ∃ other ∈ done, other.gib = page.gib
          · obtain ⟨fault, faults⟩ := mapped.fault page used
            have shared : ¬ (((done ++ [page]) ++ walkedPages rest).map UserPage.gib).Nodup := by
              intro distinct
              rw [List.map_append, List.map_append, List.map_singleton] at distinct
              obtain ⟨other, member, same⟩ := used
              have head := (List.nodup_append.mp (List.nodup_append.mp distinct).1).2.2
              exact head _ (List.mem_map_of_mem member) _ (List.mem_singleton_self _) same
            refine ⟨fun distinct => absurd distinct shared, fun _ => ⟨fault, ?_⟩⟩
            rw [Paging.perform, faults]
          · have fresh : ∀ other ∈ done, other.gib ≠ page.gib :=
              fun other member same => used ⟨other, member, same⟩
            have more : done.length + 1 ≤ gibs.card := by
              rw [← List.length_singleton (a := page), ← List.length_append]
              apply length_le_of_nodup
              · rw [List.map_append, List.map_singleton, List.nodup_append]
                refine ⟨mapped.distinct, List.nodup_singleton _, ?_⟩
                intro gib member single only equal
                obtain ⟨other, otherMember, rfl⟩ := List.mem_map.mp member
                exact fresh other otherMember (equal.trans (List.mem_singleton.mp only))
              · exact fun other member => inside other (List.mem_append_left _ member)
            obtain ⟨k', runs, -, next⟩ := mapped.walk page fresh (by omega)
            have length : (done ++ [page]).length = done.length + 1 := by
              rw [List.length_append, List.length_singleton]
            rw [Paging.perform, runs]
            exact ih next inside (by rw [length]; omega)

end Runs

/-! ## Calls -/

/-- The pages that the calls ask to map. -/
def requestedPages (calls : List Call) : List UserPage := calls.flatMap Call.pages

/-- Root entries that the calls need, and pages that the kernel takes in between. -/
def rootEntries (calls : List Call) : Nat :=
  ((requestedPages calls).map UserPage.gib).toFinset.card

def takenPages (calls : List Call) : Nat :=
  calls.countP fun
    | .allocPage => true
    | _ => false

section Calls

variable {calls : List Call}

theorem takes_actions : takes (calls.flatMap Call.actions) = takenPages calls := by
  induction calls with
  | nil => rfl
  | cons call rest ih =>
      rw [List.flatMap_cons, takes, List.countP_append, ← takes, ← takes, ih]
      cases call with
      | pagewalk page => simp [takes, takenPages, Call.actions]
      | mapPages range => simp [takes, takenPages, Call.actions, List.countP_map]
      | allocPage => simp [takes, takenPages, Call.actions, Nat.add_comm]

theorem walkedPages_append (first second : List Action) :
    walkedPages (first ++ second) = walkedPages first ++ walkedPages second :=
  List.filterMap_append

theorem walkedPages_walks (pages : List UserPage) : walkedPages (pages.map .walk) = pages := by
  rw [walkedPages, List.filterMap_map]
  exact List.filterMap_some

/-- The walks are for requested pages, in their order. -/
theorem walkedPages_sublist :
    (walkedPages (calls.flatMap Call.actions)).Sublist (requestedPages calls) := by
  induction calls with
  | nil => exact List.Sublist.refl _
  | cons call rest ih =>
      rw [List.flatMap_cons, walkedPages_append, requestedPages, List.flatMap_cons]
      apply List.Sublist.append _ ih
      cases call with
      | pagewalk page => exact List.Sublist.refl _
      | mapPages range =>
          rw [Call.actions, walkedPages_walks]
          exact List.take_sublist _ _
      | allocPage => exact List.Sublist.refl _

/-- If the walks have different root entries, there is one for every requested page. -/
theorem walkedPages_eq
    (distinct : ((walkedPages (calls.flatMap Call.actions)).map UserPage.gib).Nodup) :
    walkedPages (calls.flatMap Call.actions) = requestedPages calls := by
  induction calls with
  | nil => rfl
  | cons call rest ih =>
      rw [List.flatMap_cons, walkedPages_append, List.map_append, List.nodup_append] at distinct
      rw [List.flatMap_cons, walkedPages_append, ih distinct.2.1, requestedPages, requestedPages,
        List.flatMap_cons]
      congr 1
      cases call with
      | pagewalk page => rfl
      | mapPages range =>
          have few := length_le_of_nodup distinct.1 (Finset.range 256)
            fun page _ => Finset.mem_range.mpr page.gib_lt
          rw [Call.actions, walkedPages_walks, UserRange.walked] at few ⊢
          rw [List.length_take, Finset.card_range] at few
          exact List.take_of_length_le (by omega)
      | allocPage => rfl

end Calls

/-- After the calls every user address translates as the last call for its page asks, and
the higher half translates as before. -/
def MapsCorrectly (boot : Boot) (calls : List Call) : Prop :=
  ∃ k, Runs (physToVirt boot.pgd) boot.kernel calls (.ok k) ∧
    (∀ va, Lower va →
      translate k.mem boot.root va = mappingOf (requestedPages calls) va.toNat) ∧
    ∀ va, Higher va → translate k.mem boot.root va = translate boot.setupVm boot.root va

section Calls

variable {boot : Boot} {calls : List Call}

/-- The allocator has pages for two tables for each root entry, and for the kernel. -/
def Room (boot : Boot) (calls : List Call) : Prop :=
  boot.firstPage + 0x1000 * (2 * rootEntries calls + takenPages calls) ≤ memorySize

instance : Decidable (Room boot calls) := inferInstanceAs (Decidable (_ ≤ _))

/-- The run of the actions of the calls from the state after `setup_vm`. -/
theorem Room.perform (room : Room boot calls) :
    (((walkedPages (calls.flatMap Call.actions)).map UserPage.gib).Nodup →
      ∃ x k, Paging.perform (physToVirt boot.pgd) (calls.flatMap Call.actions) boot.kernel =
        .ok k ∧ Mapped boot (walkedPages (calls.flatMap Call.actions)) x k) ∧
    (¬ ((walkedPages (calls.flatMap Call.actions)).map UserPage.gib).Nodup →
      ∃ fault, Paging.perform (physToVirt boot.pgd) (calls.flatMap Call.actions) boot.kernel =
        .error fault) := by
  apply (Mapped.start boot).perform ((requestedPages calls).map UserPage.gib).toFinset
  · intro page member
    exact List.mem_toFinset.mpr (List.mem_map_of_mem (walkedPages_sublist.subset member))
  · rw [takes_actions]
    exact room

/-- Calls with different root entries are all served. -/
theorem mapsCorrectly_of_nodup (room : Room boot calls)
    (distinct : ((requestedPages calls).map UserPage.gib).Nodup) : MapsCorrectly boot calls := by
  have walksDistinct := distinct.sublist (walkedPages_sublist.map UserPage.gib)
  obtain ⟨x, k, runs, mapped⟩ := room.perform.1 walksDistinct
  rw [walkedPages_eq walksDistinct] at mapped
  refine ⟨k, (runs_iff calls _ _).mpr runs.symm, ?_, ?_⟩
  · intro va lower
    rw [translate, if_pos (.inl lower)]
    exact mapped.translates _ lower
  · intro va higher
    rw [translate, translate, if_pos (.inr higher), if_pos (.inr higher)]
    apply mapped.higher
    have bound := va.isLt
    rw [Higher] at higher
    rw [index, span]
    omega

/-- Calls that share a root entry end with a fault. -/
theorem fault_of_shared (room : Room boot calls)
    (shared : ¬ ((requestedPages calls).map UserPage.gib).Nodup) :
    ∃ fault, Runs (physToVirt boot.pgd) boot.kernel calls (.error fault) := by
  have walksShared :
      ¬ ((walkedPages (calls.flatMap Call.actions)).map UserPage.gib).Nodup := by
    intro distinct
    rw [walkedPages_eq distinct] at distinct
    exact shared distinct
  obtain ⟨fault, faults⟩ := room.perform.2 walksShared
  exact ⟨fault, (runs_iff calls _ _).mpr faults.symm⟩

theorem not_mapsCorrectly_of_shared (room : Room boot calls)
    (shared : ¬ ((requestedPages calls).map UserPage.gib).Nodup) : ¬ MapsCorrectly boot calls := by
  obtain ⟨fault, faults⟩ := fault_of_shared room shared
  intro correct
  obtain ⟨k, runs, _⟩ := correct
  have same := ((runs_iff calls _ _).mp runs).trans ((runs_iff calls _ _).mp faults).symm
  cases same

end Calls

/-- The calls map the pages correctly exactly if no two of the pages lie in the same
gigabyte. -/
theorem user_mapping_iff (boot : Boot) (calls : List Call) (room : Room boot calls) :
    MapsCorrectly boot calls ↔ ((requestedPages calls).map UserPage.gib).Nodup := by
  constructor
  · intro correct
    by_contra shared
    exact not_mapsCorrectly_of_shared room shared correct
  · exact mapsCorrectly_of_nodup room

/-- A kernel at the address of the linker script. -/
def Boot.linked : Boot where
  pgd := 0x80202000
  endAddr := 0xffffffc080208000
  memory := fun _ => 0
  pgd_aligned := by decide
  pgd_below := by decide
  end_inside := by decide

theorem zero_aligned : 2 ^ 12 ∣ (0 : BitVec 64).toNat := by decide

/-- The program of `exec`: `size` bytes at address 0, readable and executable. -/
def programRange (size : BitVec 64) (small : size.toNat ≤ 2 ^ 30) : UserRange where
  va := 0
  size := size
  pa := 0x80208000
  prot := 0xdb
  va_aligned := zero_aligned
  va_user := by
    have zero : (0 : BitVec 64).toNat = 0 := rfl
    omega
  pa_aligned := by decide
  pa_physical := by
    have start : (0x80208000 : BitVec 64).toNat = 0x80208000 := rfl
    omega
  prot_small := by decide
  prot_page := by decide

/-- The stack page of `exec`. -/
def stackRange : UserRange where
  va := 0x3ffffff000
  size := 0x1000
  pa := 0x8020b000
  prot := 0xd7
  va_aligned := by decide
  va_user := by decide
  pa_aligned := by decide
  pa_physical := by decide
  prot_small := by decide
  prot_page := by decide

/-- The calls of `exec` for a program of one page. -/
def execCalls : List Call :=
  [.allocPage, .mapPages (programRange 0x1000 (by decide)), .allocPage, .mapPages stackRange]

theorem user_mapping_exec : MapsCorrectly Boot.linked execCalls :=
  (user_mapping_iff Boot.linked execCalls (by decide)).mpr (by decide)

/-- A program of two pages ends with a fault. -/
theorem two_pages_fault :
    (∃ fault, Runs (physToVirt Boot.linked.pgd) Boot.linked.kernel
      [.mapPages (programRange 0x2000 (by decide))] (.error fault)) ∧
    ¬ MapsCorrectly Boot.linked [.mapPages (programRange 0x2000 (by decide))] := by
  have room : Room Boot.linked [.mapPages (programRange 0x2000 (by decide))] := by decide
  have shared : ¬ ((requestedPages [.mapPages (programRange 0x2000 (by decide))]).map
      UserPage.gib).Nodup := by decide
  exact ⟨fault_of_shared room shared, not_mapsCorrectly_of_shared room shared⟩

end OscKernel.Paging
