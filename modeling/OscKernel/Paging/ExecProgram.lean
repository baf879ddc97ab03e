import OscKernel.Cpio.Agreement
import OscKernel.Paging.PhysBytes
import OscKernel.Paging.UserMapping

/-!
# Loading a user program (`ex62/main.c`)

`exec` takes one page for the program, copies `filesize` bytes to it and maps as many.  The pages
after it become the page tables of the mapping.
-/

namespace OscKernel.Paging

open Alloc Loops Riscv Words
open Cpio (Recorded)

/-- `INITRD_BASE` -/
def initrdBase : BitVec 64 := physToVirt 0xa0200000

/-- `PROT_USER_RX` -/
def protUserRx : BitVec 64 := 0xdb

/-- `PROT_USER_RW` -/
def protUserRw : BitVec 64 := 0xd7

/-- The page of the user stack. -/
def stackVa : BitVec 64 := 0x3ffffff000

/-- `exec` from the selected header on, to the kernel `k'` at `sret`. -/
def LoadsProgram (pgd header source : BitVec 64) (k k' : Kernel) : Prop :=
  let filesize := Cpio.hextoi k.view (header + 54) 8
  let program := (allocPage k.curr).1
  ∃ copied mapped,
    memcpy filesize.toNat program source { k with curr := (allocPage k.curr).2 } = .ok copied ∧
    Ends (mapRound pgd 0 (filesize.signExtend 64) (virtToPhys program) protUserRx) (0, copied)
      (.ok mapped) ∧
    Ends (mapRound pgd stackVa 0x1000 (virtToPhys (allocPage mapped.curr).1) protUserRw)
      (0, { mapped with curr := (allocPage mapped.curr).2 }) (.ok k')

/-- `exec` selects a record, loads it and comes to `sret`. -/
def ReachesSret (pgd trailer filename : BitVec 64) (k k' : Kernel) : Prop :=
  ∃ header source,
    Ends (Cpio.Ex62.execRound k.view trailer filename) initrdBase (some (header, source)) ∧
    LoadsProgram pgd header source k k'

/-- A user page that is readable and executable. -/
def Translation.UserText (location : Translation) : Prop :=
  location.flags.testBit 1 ∧ location.flags.testBit 3 ∧ location.flags.testBit 4

/-- No byte of the page at `start` is reachable through a user text mapping. -/
def Isolated (root : Nat) (m : PhysMem) (start : Nat) : Prop :=
  ∀ va location, Lower va → translate m root va = some location → location.UserText →
    location.pa / 2 ^ 12 ≠ start / 2 ^ 12

/-- The whole program is mapped, the stack is, and neither the stack nor the page tables are
reachable as text. -/
structure MapsProgram (root : Nat) (m : PhysMem) (data : List Byte) : Prop where
  program : ∀ v (inside : v < data.length), ∃ location,
    translate m root (BitVec.ofNat 64 v) = some location ∧ location.UserText ∧
      m.byte location.pa = data[v]
  stack : ∃ location, translate m root stackVa = some location ∧ Isolated root m location.pa
  tables : ∀ va, Lower va ∨ Higher va → ∀ address ∈ path m 2 root va.toNat,
    Isolated root m address

/-! ## One call of `map_pages` -/

section Ranges

variable {boot : Boot} {done : List UserPage} {x : Nat} {k k' : Kernel} {range : UserRange}

/-- A range of one page is one walk. -/
theorem Mapped.mapPages_one (mapped : Mapped boot done x k) (one : range.count = 1)
    (fresh : ∀ other ∈ done, other.gib ≠ range.va.toNat / 2 ^ 30)
    (inside : x + 0x2000 ≤ memorySize) :
    ∃ page k', page.va = range.va ∧ page.pa = range.pa ∧ page.prot = range.prot ∧
      Ends (mapRound (physToVirt boot.pgd) range.va range.size range.pa range.prot) (0, k)
        (.ok k') ∧
      Walked boot.pgd x page k.mem k'.mem ∧ Mapped boot (done ++ [page]) (x + 0x2000) k' := by
  have positive : 0 < range.count := by omega
  have length : range.walked.length = 1 := by
    rw [range.length_walked, one]
    decide
  have pages : range.walked = [range.page ⟨0, positive⟩] := by
    have first := range.walked_drop (j := 0) (by omega)
    have rest : range.walked.drop (0 + 1) = [] := List.drop_of_length_le (by omega)
    rwa [List.drop_zero, rest] at first
  have va : (range.page ⟨0, positive⟩).va = range.va := by simp [UserRange.page]
  have pa : (range.page ⟨0, positive⟩).pa = range.pa := by simp [UserRange.page]
  rw [← va] at fresh
  obtain ⟨k', runs, walked, after⟩ := mapped.walk (range.page ⟨0, positive⟩) fresh inside
  refine ⟨range.page ⟨0, positive⟩, k', va, pa, rfl, ?_, walked, after⟩
  rw [mapPages_ends_iff, pages, List.map_singleton, Paging.perform, runs]
  rfl

/-- A range of more pages from address 0 on ends with a fault at its second page. -/
theorem Mapped.not_ends (mapped : Mapped boot [] x k) (inside : x + 0x2000 ≤ memorySize)
    (zero : range.va = 0) (many : 1 < range.count) :
    ¬ Ends (mapRound (physToVirt boot.pgd) range.va range.size range.pa range.prot) (0, k)
      (.ok k') := by
  have length : 2 ≤ range.walked.length := by
    rw [range.length_walked]
    omega
  have pages : range.walked = range.page ⟨0, by omega⟩ :: range.page ⟨1, many⟩ ::
      range.walked.drop 2 := by
    have first := range.walked_drop (j := 0) (by omega)
    have second := range.walked_drop (j := 1) (by omega)
    rw [List.drop_zero, Nat.zero_add, second] at first
    exact first
  rw [mapPages_ends_iff, pages, List.map_cons, List.map_cons, Paging.perform]
  obtain ⟨k₁, runs, -, mapped₁⟩ := mapped.walk (range.page ⟨0, by omega⟩)
    (fun _ member => absurd member List.not_mem_nil) inside
  have sameGib : (range.page ⟨0, by omega⟩).gib = (range.page ⟨1, many⟩).gib := by
    simp [UserPage.gib, UserRange.page, zero]
  obtain ⟨fault, faults⟩ := mapped₁.fault (range.page ⟨1, many⟩)
    ⟨_, List.mem_append_right _ (List.mem_singleton_self _), sameGib⟩
  rw [runs]
  dsimp only
  rw [Paging.perform, faults]
  rintro ⟨⟩

end Ranges

/-- The range of a program of `size` bytes at physical address `x`. -/
def textRange (x size : Nat) (aligned : 2 ^ 12 ∣ x) (inside : x < memorySize)
    (small : size < 2 ^ 31) : UserRange where
  va := 0
  size := BitVec.ofNat 64 size
  pa := BitVec.ofNat 64 x
  prot := protUserRx
  va_aligned := zero_aligned
  va_user := by
    rw [BitVec.toNat_ofNat]
    simp
    omega
  pa_aligned := by rwa [toNat_ofNat_inside inside]
  pa_physical := by
    have bound := memorySize_lt
    rw [toNat_ofNat_inside inside, BitVec.toNat_ofNat]
    omega
  prot_small := by decide
  prot_page := by decide

/-- The range of the stack at physical address `x`. -/
def stackRangeAt (x : Nat) (aligned : 2 ^ 12 ∣ x) (inside : x < memorySize) : UserRange where
  va := stackVa
  size := 0x1000
  pa := BitVec.ofNat 64 x
  prot := protUserRw
  va_aligned := by decide
  va_user := by decide
  pa_aligned := by rwa [toNat_ofNat_inside inside]
  pa_physical := by
    have bound := memorySize_lt
    rw [toNat_ofNat_inside inside, show (0x1000 : BitVec 64).toNat = 0x1000 from rfl]
    omega
  prot_small := by decide
  prot_page := by decide

theorem stackRangeAt_count {x : Nat} (aligned : 2 ^ 12 ∣ x) (inside : x < memorySize) :
    (stackRangeAt x aligned inside).count = 1 := by
  have size : (0x1000 : BitVec 64).toNat = 0x1000 := rfl
  rw [UserRange.count, stackRangeAt, size]

theorem textRange_count {x size : Nat} (aligned : 2 ^ 12 ∣ x) (inside : x < memorySize)
    (small : size < 2 ^ 31) :
    (textRange x size aligned inside small).count = (size + 0xfff) / 0x1000 := by
  rw [UserRange.count, textRange, BitVec.toNat_ofNat]
  omega

/-! ## The selected record -/

/-- A record that `exec` selects, and where it is: behind the pages that `exec` takes. -/
structure Selected (boot : Boot) (trailer filename header : BitVec 64) (e : Cpio.Entry) : Prop
    where
  search : ∃ source, Ends (Cpio.Ex62.execRound boot.kernel.view trailer filename) initrdBase
    (some (header, source))
  recorded : Recorded boot.kernel.view header e
  wellFormed : e.WellFormed
  filesize_pos : 1 ≤ e.filesize
  filesize_int : e.filesize < 2 ^ 31
  start : boot.firstPage + 0x6000 ≤ (virtToPhys header).toNat
  fits : (virtToPhys header).toNat + e.size ≤ memorySize

/-- The source of the copy is computed from the selected header. -/
theorem source_of_search {m : Mem} {trailer filename p header source : BitVec 64}
    (search : Ends (Cpio.Ex62.execRound m trailer filename) p (some (header, source))) :
    source = Cpio.Ex62.program header (Cpio.hextoi m (header + 94) 8) := by
  obtain ⟨fuel, ended⟩ := search
  -- Induction on the rounds that are left.
  induction fuel generalizing p with
  | zero => cases ended
  | succ fuel ih =>
      rw [iterate] at ended
      cases round : Cpio.Ex62.execRound m trailer filename p with
      | next p' =>
          rw [round] at ended
          exact ih ended
      | stop result =>
          rw [round] at ended
          cases ended
          rw [Cpio.Ex62.execRound, Cpio.execRound] at round
          split at round
          next => cases round
          next =>
            dsimp only at round
            split at round
            next =>
              cases round
              rfl
            next => cases round

section Selected

variable {boot : Boot} {trailer filename header : BitVec 64} {e : Cpio.Entry}

/-- The kernel when `exec` has taken the page of the program. -/
def Boot.taken (boot : Boot) : Kernel :=
  { boot.kernel with curr := (allocPage boot.kernel.curr).2 }

theorem Selected.room (selected : Selected boot trailer filename header e) :
    boot.firstPage + 0x6000 ≤ memorySize :=
  selected.start.trans (Nat.le_of_add_right_le selected.fits)

/-- The copy keeps the root table. -/
theorem mapped_copied {n : Nat} {source : BitVec 64} {copied : Kernel}
    (copy : memcpy n (physToVirt boot.firstPage) source boot.taken = .ok copied)
    (small : n < 2 ^ 31) (room : boot.firstPage + 0x1000 ≤ memorySize) :
    Mapped boot [] (boot.firstPage + 0x1000) copied := by
  have bound := memorySize_lt
  have below := boot.pgd_le_firstPage
  have next := boot.firstPage_next
  have taken : NextPage boot.taken (boot.firstPage + 0x1000) := next.next room boot.setupVm
  have page : 8 ∣ boot.firstPage := Nat.dvd_trans (by decide) next.aligned
  obtain ⟨curr, before⟩ := memcpy_before copy page (Nat.le_refl _) (by omega)
  apply Mapped.of_root
  · exact ⟨taken.aligned, by rw [curr, taken.rounded]⟩
  · omega
  · intro i small
    apply before
    rw [Boot.pgdSlot]
    omega

/-- What `exec` does with the selected record. -/
theorem Selected.loads_iff (selected : Selected boot trailer filename header e)
    (source : BitVec 64) (k : Kernel) :
    LoadsProgram (physToVirt boot.pgd) header source boot.kernel k ↔
      ∃ copied mapped,
        memcpy e.filesize (physToVirt boot.firstPage) source boot.taken = .ok copied ∧
        Ends (mapRound (physToVirt boot.pgd) 0 (BitVec.ofNat 64 e.filesize)
          (BitVec.ofNat 64 boot.firstPage) protUserRx) (0, copied) (.ok mapped) ∧
        Ends (mapRound (physToVirt boot.pgd) stackVa 0x1000
          (virtToPhys (allocPage mapped.curr).1) protUserRw)
          (0, { mapped with curr := (allocPage mapped.curr).2 }) (.ok k) := by
  have room := selected.room
  have int := selected.filesize_int
  have size : Cpio.hextoi boot.kernel.view (header + 54) 8 = BitVec.ofNat 32 e.filesize :=
    Cpio.hextoi_field selected.wellFormed.filesize_lt selected.recorded.filesize
  have count : (BitVec.ofNat 32 e.filesize).toNat = e.filesize := by
    rw [BitVec.toNat_ofNat]
    omega
  have program : (allocPage boot.kernel.curr).1 = physToVirt boot.firstPage :=
    boot.firstPage_next.pointer (by omega)
  have physical : virtToPhys (physToVirt boot.firstPage) = BitVec.ofNat 64 boot.firstPage := by
    rw [virtToPhys, physToVirt, BitVec.add_sub_cancel]
  rw [LoadsProgram, size, count, program, physical, Cpio.signExtend_ofNat int, Boot.taken]

/-- A program of more than one page is not loaded. -/
theorem Selected.filesize_le (selected : Selected boot trailer filename header e) {k : Kernel}
    (reaches : ReachesSret (physToVirt boot.pgd) trailer filename boot.kernel k) :
    e.filesize ≤ 0x1000 := by
  obtain ⟨header', source, search, loads⟩ := reaches
  obtain ⟨_, search'⟩ := selected.search
  cases search.unique search'
  obtain ⟨copied, mapped, copy, maps, -⟩ := (selected.loads_iff source k).mp loads
  have room := selected.room
  have int := selected.filesize_int
  by_contra large
  have aligned := boot.firstPage_next.aligned
  have inside : boot.firstPage < memorySize := by omega
  have many : 1 < (textRange boot.firstPage e.filesize aligned inside int).count := by
    rw [textRange_count]
    omega
  exact (mapped_copied copy int (by omega)).not_ends (by omega) rfl many maps

end Selected

/-! ## The mapping of one page -/

section Pages

variable {boot : Boot} {k : Kernel} {text stack : UserPage} {x : Nat}

/-- No table is in use before the first walk. -/
theorem Mapped.root_path (mapped : Mapped boot [] x k) {va : Nat} (user : va < 2 ^ 38) :
    path k.mem 2 boot.root va = [slot boot.root 2 va] := by
  have small : index 2 va < 256 := by
    rw [index, span]
    omega
  apply path_of_invalid
  rw [boot.root_slot, mapped.empty _ small (fun _ member => absurd member List.not_mem_nil)]
  exact decode_zero

/-- The translation of the two pages of a program. -/
theorem mappingOf_program (textVa : text.va = 0) (textProt : text.prot = protUserRx)
    (stackVa : stack.va = Paging.stackVa) (stackProt : stack.prot = protUserRw) (va : Nat) :
    mappingOf ([] ++ [text] ++ [stack]) va =
      if 0x3ffffff = va / 2 ^ 12 then some ⟨stack.pa.toNat + va % 2 ^ 12, 0xd7⟩
      else if 0 = va / 2 ^ 12 then some ⟨text.pa.toNat + va % 2 ^ 12, 0xdb⟩
      else none := by
  have page : Paging.stackVa.toNat / 2 ^ 12 = 0x3ffffff := by decide
  have zero : (0 : BitVec 64).toNat / 2 ^ 12 = 0 := rfl
  have nothing : mappingOf [] va = none := rfl
  rw [mappingOf_append, mappingOf_append, nothing, textVa, textProt, stackVa, stackProt, page, zero]
  rfl

/-- The only text is the page of the program. -/
theorem isolated (mapped : Mapped boot ([] ++ [text] ++ [stack]) x k)
    (textVa : text.va = 0) (textProt : text.prot = protUserRx)
    (stackVa : stack.va = Paging.stackVa) (stackProt : stack.prot = protUserRw) {start : Nat}
    (other : start / 2 ^ 12 ≠ text.pa.toNat / 2 ^ 12) : Isolated boot.root k.mem start := by
  intro va location lower translates isText
  rw [translate, if_pos (.inl lower), mapped.translates _ lower,
    mappingOf_program textVa textProt stackVa stackProt] at translates
  have textAligned := text.pa_aligned
  split at translates
  next =>
    cases translates
    have notExecutable : ¬ (0xd7 : Nat).testBit 3 = true := by decide
    exact absurd isText.2.1 notExecutable
  next =>
    split at translates
    next =>
      cases translates
      dsimp only
      omega
    next => cases translates

/-- The two walks of `exec`, with the copy in the page at `start` before them. -/
structure Walks (boot : Boot) (start : Nat) (text stack : UserPage) (copied k₁ k : Kernel) :
    Prop where
  before : Mapped boot [] (start + 0x1000) copied
  text_va : text.va = 0
  text_pa : text.pa.toNat = start
  text_prot : text.prot = protUserRx
  walked : Walked boot.pgd (start + 0x1000) text copied.mem k₁.mem
  between : Mapped boot ([] ++ [text]) (start + 0x4000) k₁
  stack_va : stack.va = stackVa
  stack_pa : stack.pa.toNat = start + 0x3000
  stack_prot : stack.prot = protUserRw
  walkedStack : Walked boot.pgd (start + 0x4000) stack k₁.mem k.mem
  after : Mapped boot ([] ++ [text] ++ [stack]) (start + 0x6000) k
  pgd_below : boot.pgd + 0x1000 ≤ start
  room : start + 0x4000 + 0x2000 ≤ memorySize

variable {start : Nat} {copied k₁ : Kernel} {data : List Byte}

/-- The page of the copy is not written by the walks. -/
theorem Walks.byte (walks : Walks boot start text stack copied k₁ k) {v : Nat}
    (small : v < 0x1000) : k.mem.byte (start + v) = copied.mem.byte (start + v) := by
  have below := walks.pgd_below
  have aligned := walks.text_pa ▸ text.pa_aligned
  have textGib := text.gib_lt
  have stackGib := stack.gib_lt
  have later : k.mem ((start + v) / 8 * 8) = k₁.mem ((start + v) / 8 * 8) :=
    walks.walkedStack.others _ (by omega) (by omega)
  have earlier : k₁.mem ((start + v) / 8 * 8) = copied.mem ((start + v) / 8 * 8) :=
    walks.walked.others _ (by omega) (by omega)
  exact byte_congr (later.trans earlier)

/-- The tables are the root and the pages behind the program and behind the stack. -/
theorem Walks.table (walks : Walks boot start text stack copied k₁ k) {va : BitVec 64}
    (half : Lower va ∨ Higher va) {address : Nat}
    (member : address ∈ path k.mem 2 boot.root va.toNat) :
    address / 2 ^ 12 ≠ text.pa.toNat / 2 ^ 12 := by
  have below := walks.pgd_below
  have room := walks.room
  have aligned := walks.text_pa ▸ text.pa_aligned
  have pa := walks.text_pa
  have rootSlot : slot boot.root 2 va.toNat < boot.pgd + 0x1000 := by
    have small : index 2 va.toNat < 512 := index_lt
    rw [boot.root_slot, Boot.pgdSlot]
    omega
  rcases half with lower | higher
  · rcases walks.between.walk_paths walks.walkedStack walks.room lower address member with
      earlier | stackTables
    · rcases walks.before.walk_paths walks.walked (by omega) lower address earlier with
        root | textTables
      · rw [walks.before.root_path lower] at root
        rw [List.mem_singleton.mp root]
        omega
      · omega
    · omega
  · have bound := va.isLt
    have root : 256 ≤ index 2 va.toNat := by
      rw [Higher] at higher
      rw [index, span]
      omega
    rw [path_of_not_table (walks.after.higher_entry root)] at member
    rw [List.mem_singleton.mp member]
    omega

theorem Walks.mapsProgram (walks : Walks boot start text stack copied k₁ k)
    (small : data.length ≤ 0x1000)
    (bytes : ∀ v (inside : v < data.length), copied.mem.byte (start + v) = data[v]) :
    MapsProgram boot.root k.mem data := by
  have mapping := mappingOf_program walks.text_va walks.text_prot walks.stack_va walks.stack_prot
  have isolated : ∀ start, start / 2 ^ 12 ≠ text.pa.toNat / 2 ^ 12 →
      Isolated boot.root k.mem start := fun _ other =>
    isolated walks.after walks.text_va walks.text_prot walks.stack_va walks.stack_prot other
  constructor
  · intro v inside
    have value : (BitVec.ofNat 64 v).toNat = v := by
      rw [BitVec.toNat_ofNat]
      omega
    have lower : Lower (BitVec.ofNat 64 v) := by
      rw [Lower, value]
      omega
    have isText : Translation.UserText ⟨start + v, 0xdb⟩ := by
      simp only [Translation.UserText]
      decide
    refine ⟨⟨start + v, 0xdb⟩, ?_, isText, ?_⟩
    · rw [translate, if_pos (.inl lower), walks.after.translates _ lower, mapping, value,
        if_neg (by omega), if_pos (by omega), walks.text_pa, Nat.mod_eq_of_lt (by omega)]
    · rw [walks.byte (by omega), bytes v inside]
  · have lower : Lower stackVa := by decide
    have value : stackVa.toNat = 0x3ffffff000 := rfl
    refine ⟨⟨start + 0x3000, 0xd7⟩, ?_, ?_⟩
    · rw [translate, if_pos (.inl lower), walks.after.translates _ lower, mapping, value,
        if_pos (by decide), walks.stack_pa, show 0x3ffffff000 % 2 ^ 12 = 0 from rfl, Nat.add_zero]
    · apply isolated
      dsimp only
      rw [walks.text_pa]
      omega
  · intro va half address member
    exact isolated _ (walks.table half member)

end Pages

/-! ## The whole of `exec` -/

section Exec

variable {boot : Boot} {trailer filename header source : BitVec 64} {e : Cpio.Entry}

/-- The data of the record is copied to the page of the program. -/
theorem Selected.copies (selected : Selected boot trailer filename header e)
    (head : e.headSize < 2 ^ 31)
    (search : Ends (Cpio.Ex62.execRound boot.kernel.view trailer filename) initrdBase
      (some (header, source))) :
    ∃ copied, memcpy e.filesize (physToVirt boot.firstPage) source boot.taken = .ok copied ∧
      ∀ v (inside : v < e.data.length), copied.mem.byte (boot.firstPage + v) = e.data[v] := by
  have start := selected.start
  have fits := selected.fits
  have size : e.size = e.headSize + roundUp 2 e.filesize := rfl
  have rounded := le_roundUp 2 e.filesize
  have pointer := physToVirt_virtToPhys header
  generalize (virtToPhys header).toNat = y at *
  have namesize := Cpio.hextoi_field selected.wellFormed.namesize_lt selected.recorded.namesize
  have data : physToVirt y + BitVec.ofNat 64 e.headSize = physToVirt (y + e.headSize) :=
    physToVirt_add_ofNat _ _
  have place : source = physToVirt (y + e.headSize) := by
    rw [source_of_search search, namesize, (Cpio.Ex62.program_eq_iff selected.wellFormed).mpr head,
      ← pointer, data]
  obtain ⟨copied, copy, -, bytes⟩ := memcpy_copies (k := boot.taken) (n := e.filesize)
    (x := boot.firstPage) (y := y + e.headSize) (by omega) (by omega)
  rw [place]
  refine ⟨copied, copy, ?_⟩
  intro v inside
  have small : v < e.filesize := inside
  have stored := selected.recorded.data.byte inside
  rw [← pointer, data, physToVirt_add_ofNat, view_physToVirt (by omega)] at stored
  rw [bytes, if_pos ⟨Nat.le_add_right _ _, Nat.add_lt_add_left small _⟩, Nat.add_sub_cancel_left,
    ← stored]
  rfl

/-- A program of one page is loaded. -/
theorem Selected.loads (selected : Selected boot trailer filename header e)
    (small : e.filesize ≤ 0x1000) (head : e.headSize < 2 ^ 31) :
    ∃ k, ReachesSret (physToVirt boot.pgd) trailer filename boot.kernel k ∧
      MapsProgram boot.root k.mem e.data := by
  obtain ⟨source, search⟩ := selected.search
  obtain ⟨copied, copy, bytes⟩ := selected.copies head search
  have room := selected.room
  have int := selected.filesize_int
  have positive := selected.filesize_pos
  have aligned := boot.firstPage_next.aligned
  have inside : boot.firstPage < memorySize := by omega
  have before := mapped_copied copy int (by omega)
  -- The pages behind the program become the tables of its mapping.
  have one : (textRange boot.firstPage e.filesize aligned inside int).count = 1 := by
    rw [textRange_count]
    omega
  obtain ⟨text, k₁, textVa, textPa, textProt, textEnds, walked, between⟩ :=
    before.mapPages_one one (fun _ member => absurd member List.not_mem_nil) (by omega)
  have textVa : text.va = 0 := textVa
  have stackPlace : boot.firstPage + 0x1000 + 0x2000 = boot.firstPage + 0x3000 := Nat.add_assoc ..
  have tablesPlace : boot.firstPage + 0x3000 + 0x1000 = boot.firstPage + 0x4000 := Nat.add_assoc ..
  have tablesEnd : boot.firstPage + 0x4000 + 0x2000 = boot.firstPage + 0x6000 := Nat.add_assoc ..
  rw [stackPlace] at between
  -- The next page is the stack, and the two after it are its tables.
  have stackInside : boot.firstPage + 0x3000 < memorySize := by omega
  have pointer : (allocPage k₁.curr).1 = physToVirt (boot.firstPage + 0x3000) :=
    between.next.pointer (by omega)
  have physical : virtToPhys (physToVirt (boot.firstPage + 0x3000)) =
      BitVec.ofNat 64 (boot.firstPage + 0x3000) := by
    rw [virtToPhys, physToVirt, BitVec.add_sub_cancel]
  have otherGib : ∀ other ∈ [] ++ [text], other.gib ≠ stackVa.toNat / 2 ^ 30 := by
    intro other member
    rw [List.mem_singleton.mp member, UserPage.gib, textVa]
    decide
  have taken := between.take (by omega)
  rw [tablesPlace] at taken
  rw [← tablesEnd] at room
  obtain ⟨stack, k, stackVa, stackPa, stackProt, stackEnds, walkedStack, after⟩ :=
    taken.mapPages_one (stackRangeAt_count between.next.aligned stackInside) otherGib room
  rw [tablesEnd] at after
  have walks : Walks boot boot.firstPage text stack copied
      { k₁ with curr := (allocPage k₁.curr).2 } k :=
    { before := before
      text_va := textVa
      text_pa := by rw [textPa, textRange, toNat_ofNat_inside inside]
      text_prot := textProt
      walked := walked
      between := taken
      stack_va := stackVa
      stack_pa := by rw [stackPa, stackRangeAt, toNat_ofNat_inside stackInside]
      stack_prot := stackProt
      walkedStack := walkedStack
      after := after
      pgd_below := boot.pgd_le_firstPage
      room := room }
  refine ⟨k, ⟨header, source, search, ?_⟩, walks.mapsProgram small bytes⟩
  refine (selected.loads_iff source k).mpr ⟨copied, k₁, copy, textEnds, ?_⟩
  rw [pointer, physical]
  exact stackEnds

/-- `exec` comes to `sret` with the whole program mapped and isolated. -/
def ExecCorrect (boot : Boot) (trailer filename : BitVec 64) (data : List Byte) : Prop :=
  ∃ k, ReachesSret (physToVirt boot.pgd) trailer filename boot.kernel k ∧
    MapsProgram boot.root k.mem data

/-- `exec` maps each program of one page, and no larger one. -/
theorem exec_maps_program (selected : Selected boot trailer filename header e) :
    (e.filesize ≤ 0x1000 ∧ e.headSize < 2 ^ 31 → ExecCorrect boot trailer filename e.data) ∧
      (ExecCorrect boot trailer filename e.data → e.filesize ≤ 0x1000) := by
  constructor
  · rintro ⟨small, head⟩
    exact selected.loads small head
  · rintro ⟨k, reaches, -⟩
    exact selected.filesize_le reaches

/-- A larger program loses its second page to the first table, before the fault. -/
theorem Selected.overwritten (selected : Selected boot trailer filename header e)
    (large : 0x1000 < e.filesize) {copied : Kernel}
    (copy : memcpy e.filesize (physToVirt boot.firstPage) source boot.taken = .ok copied) :
    ∃ k fault,
      pagewalk (physToVirt boot.pgd) 0 (BitVec.ofNat 64 boot.firstPage) protUserRx copied = .ok k ∧
      k.mem (boot.firstPage + 0x1000) = tableEntry (boot.firstPage + 0x2000) ∧
      pagewalk (physToVirt boot.pgd) 0x1000 (BitVec.ofNat 64 boot.firstPage + 0x1000) protUserRx k =
        .error fault := by
  have room := selected.room
  have int := selected.filesize_int
  have aligned := boot.firstPage_next.aligned
  have inside : boot.firstPage < memorySize := by omega
  have many : 1 < (textRange boot.firstPage e.filesize aligned inside int).count := by
    rw [textRange_count]
    omega
  obtain ⟨k, runs, walked, after⟩ := (mapped_copied copy int (by omega)).walk
    ((textRange boot.firstPage e.filesize aligned inside int).page ⟨0, by omega⟩)
    (fun _ member => absurd member List.not_mem_nil) (by omega)
  obtain ⟨fault, faults⟩ := after.fault
    ((textRange boot.firstPage e.filesize aligned inside int).page ⟨1, many⟩)
    ⟨_, List.mem_append_right _ (List.mem_singleton_self _),
      by simp [UserPage.gib, UserRange.page, textRange]⟩
  have root := walked.middle 0 (by decide)
  simp only [UserRange.page, textRange] at runs faults root
  have root : k.mem (boot.firstPage + 0x1000) = tableEntry (boot.firstPage + 0x1000 + 0x1000) := by
    simpa [index] using root
  exact ⟨k, fault, by simpa using runs, root, by simpa using faults⟩

end Exec

/-- Bytes behind the root table are still there after `setup_vm`. -/
theorem Boot.stored {boot : Boot} {m : PhysMem} {start : Nat} {bytes : List Byte}
    (memory : boot.memory = m.setBytes start bytes) (aligned : 8 ∣ start)
    (outside : boot.pgd + 0x1000 ≤ start) (inside : start + bytes.length ≤ memorySize) :
    boot.kernel.view.Stored (physToVirt start) bytes := by
  apply Mem.stored_of_bytes
  intro i small
  have same : boot.setupVm ((start + i) / 8 * 8) = boot.memory ((start + i) / 8 * 8) :=
    boot.setupVm_outside (.inr (by omega))
  have byte : boot.kernel.mem.byte (start + i) = boot.memory.byte (start + i) := byte_congr same
  rw [physToVirt_add_ofNat, view_physToVirt (by omega), byte, memory, byte_setBytes small]

/-! ## Two programs -/

/-- The file `prog.bin` with `size` bytes. -/
def progBin (size : Nat) : Cpio.Entry :=
  { Cpio.plainEntry "prog.bin" "" with data := List.replicate size 0x13 }

/-- An archive with the file only. -/
def progArchive (size : Nat) : List Cpio.Entry := [progBin size, Cpio.plainEntry "TRAILER!!!" ""]

/-- The archive, the string literal and the name in physical memory. -/
def progMemory (size : Nat) : PhysMem :=
  PhysMem.setBytes (fun _ => 0) 0xa0200000
    (Cpio.encode (progArchive size) ++ Cpio.searchStrings (ascii "prog.bin"))

/-- The kernel of the linker script with the archive. -/
def progBoot (size : Nat) : Boot := { Boot.linked with memory := progMemory size }

/-- The address of the string literal. -/
def progStrings (size : Nat) : BitVec 64 :=
  initrdBase + BitVec.ofNat 64 (Cpio.encode (progArchive size)).length

theorem progBin_headSize (size : Nat) : (progBin size).headSize = 120 := by
  have name : (progBin size).name = ascii "prog.bin" := rfl
  have value : roundUp 2 (110 + ((ascii "prog.bin").length + 1)) = 120 := by decide
  rw [Cpio.Entry.headSize, Cpio.Entry.namesize, name, value]

theorem progBin_size (size : Nat) : (progBin size).size = 120 + roundUp 2 size := by
  have data : (progBin size).filesize = size := List.length_replicate
  rw [Cpio.Entry.size, progBin_headSize, data]

theorem progBin_wellFormed {size : Nat} (small : size ≤ 2 ^ 20) : (progBin size).WellFormed where
  noNul := by
    have noNul : 0 ∉ ascii "prog.bin" := by decide
    exact noNul
  namesize_lt := by
    have small : (ascii "prog.bin").length + 1 < 2 ^ 32 := by decide
    exact small
  filesize_lt := by
    rw [Cpio.Entry.filesize, progBin, List.length_replicate]
    omega

/-- The archive is where `exec` looks for it, with the strings behind it. -/
theorem progBoot_stored {size : Nat} (small : size ≤ 2 ^ 20) :
    Cpio.Archived (progBoot size).kernel.view initrdBase (progArchive size) ∧
      (progBoot size).kernel.view.Stored (progStrings size)
        (Cpio.searchStrings (ascii "prog.bin")) := by
  have closing : (Cpio.encode [Cpio.plainEntry "TRAILER!!!" ""]).length = 124 := by
    decide +kernel
  have strings : (Cpio.searchStrings (ascii "prog.bin")).length = 20 := by decide
  have archive : (Cpio.encode (progArchive size)).length = 120 + roundUp 2 size + 124 := by
    rw [progArchive, Cpio.encode_length_cons, closing, progBin_size]
  have rounded := roundUp_lt 2 size
  have memory : memorySize = 0x280000000 := rfl
  have stored : (progBoot size).kernel.view.Stored initrdBase
      (Cpio.encode (progArchive size) ++ Cpio.searchStrings (ascii "prog.bin")) := by
    have outside : Boot.linked.pgd + 0x1000 ≤ 0xa0200000 := by decide
    have inside : 0xa0200000 + (Cpio.encode (progArchive size) ++
        Cpio.searchStrings (ascii "prog.bin")).length ≤ memorySize := by
      rw [List.length_append, archive, strings, memory]
      omega
    have memory : (progBoot size).memory = PhysMem.setBytes (fun _ => 0) 0xa0200000
        (Cpio.encode (progArchive size) ++ Cpio.searchStrings (ascii "prog.bin")) := by
      rw [progBoot, progMemory]
    exact Boot.stored memory (by decide) outside inside
  refine ⟨?_, stored.right⟩
  exact
    { aligned := by decide
      fits := by
        have base : initrdBase.toNat = 0xffffffc0a0200000 := by decide
        rw [archive, base]
        omega
      stored := stored.left
      wellFormed := by
        intro e member
        rcases List.mem_cons.mp member with first | later
        · exact first ▸ progBin_wellFormed small
        · rw [List.mem_singleton.mp later]
          decide }

theorem progBoot_firstPage (size : Nat) : (progBoot size).firstPage = 0x80208000 := by
  have endAddr : (progBoot size).endAddr = 0xffffffc080208000 := by rw [progBoot, Boot.linked]
  rw [Boot.firstPage, endAddr]
  decide

theorem selected_progBin {size : Nat} (positive : 1 ≤ size) (small : size ≤ 2 ^ 20) :
    Selected (progBoot size) (progStrings size) (progStrings size + 11) initrdBase
      (progBin size) := by
  obtain ⟨archived, strings⟩ := progBoot_stored small
  have literal : (progBoot size).kernel.view.CString (progStrings size) Cpio.trailerName :=
    ⟨by decide, strings.left⟩
  have string : (progBoot size).kernel.view.CString (progStrings size + 11) (ascii "prog.bin") :=
    ⟨by decide, strings.right⟩
  have wellFormed := progBin_wellFormed small
  have data : (progBin size).filesize = size := List.length_replicate
  have name : (progBin size).name = ascii "prog.bin" := by rw [progBin, Cpio.plainEntry]
  have plain : ¬ Cpio.trailerName <+: (progBin size).name := by
    rw [name]
    decide
  have round : Cpio.Ex62.execRound (progBoot size).kernel.view (progStrings size)
      (progStrings size + 11) initrdBase = .stop (some (initrdBase,
        Cpio.Ex62.program initrdBase (BitVec.ofNat 32 (progBin size).namesize))) :=
    (Cpio.execRound_entry archived.recorded wellFormed literal string plain).trans
      (if_pos (.inl name))
  have physical : (virtToPhys initrdBase).toNat = 0xa0200000 := by decide
  have rounded := roundUp_lt 2 size
  have memory : memorySize = 0x280000000 := rfl
  constructor
  · exact ⟨_, Ends.of_stop round⟩
  · exact archived.recorded
  · exact wellFormed
  · rwa [data]
  · omega
  · rw [progBoot_firstPage, physical]
    decide
  · rw [physical, progBin_size]
    omega

theorem exec_maps_program_small :
    ExecCorrect (progBoot 16) (progStrings 16) (progStrings 16 + 11) (progBin 16).data :=
  (exec_maps_program (selected_progBin (by decide) (by decide))).1 (by decide)

/-- A program of 4097 bytes is not mapped as a whole: in its copy the last byte is overwritten by
an entry of a page table.  (`exec` goes on, as `do_trap` skips the access that faults.) -/
theorem exec_two_pages :
    Selected (progBoot 0x1001) (progStrings 0x1001) (progStrings 0x1001 + 11) initrdBase
        (progBin 0x1001) ∧
      ¬ ExecCorrect (progBoot 0x1001) (progStrings 0x1001) (progStrings 0x1001 + 11)
        (progBin 0x1001).data ∧
      ∃ source copied k,
        memcpy 0x1001 (physToVirt 0x80208000) source (progBoot 0x1001).taken = .ok copied ∧
        copied.mem.byte (0x80208000 + 0x1000) = 0x13 ∧
        pagewalk (physToVirt 0x80202000) 0 0x80208000 protUserRx copied = .ok k ∧
        k.mem.byte (0x80208000 + 0x1000) = 0x01 := by
  have selected := @selected_progBin 0x1001 (by decide) (by decide)
  have filesize : (progBin 0x1001).filesize = 0x1001 := List.length_replicate
  refine ⟨selected, ?_, ?_⟩
  · rintro ⟨k, reaches, -⟩
    have small := selected.filesize_le reaches
    omega
  · obtain ⟨source, search⟩ := selected.search
    have head : (progBin 0x1001).headSize < 2 ^ 31 := by
      rw [progBin_headSize]
      decide
    obtain ⟨copied, copy, bytes⟩ := selected.copies head search
    obtain ⟨k, -, runs, table, -⟩ := selected.overwritten (by omega) copy
    rw [progBoot_firstPage] at copy bytes runs table
    have data : (progBin 0x1001).data = List.replicate 0x1001 0x13 := rfl
    have inside : 0x1000 < (progBin 0x1001).data.length := by
      rw [data, List.length_replicate]
      omega
    have last := bytes 0x1000 inside
    simp only [data, List.getElem_replicate] at last
    rw [filesize] at copy
    refine ⟨source, copied, k, copy, last, runs, ?_⟩
    have entry : PhysMem.byte k.mem (0x80208000 + 0x1000) =
        wordByte (k.mem (0x80208000 + 0x1000)) 0 :=
      rfl
    rw [entry, table]
    decide

end OscKernel.Paging
