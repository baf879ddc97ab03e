import OscKernel.Paging.FreshWalk

/-!
# Sequences of mapping calls

The calls of `map_pages` and `pagewalk` after `setup_vm`, with pages that the kernel takes
in between, come to one list of walks.
-/

namespace OscKernel.Paging

open Alloc Loops Words

/-- The arguments of a call of `map_pages` on user addresses. -/
structure UserRange where
  va : BitVec 64
  size : BitVec 64
  pa : BitVec 64
  prot : BitVec 64
  va_aligned : 2 ^ 12 ∣ va.toNat
  va_user : va.toNat + size.toNat ≤ 2 ^ 38
  pa_aligned : 2 ^ 12 ∣ pa.toNat
  pa_physical : pa.toNat + size.toNat ≤ 2 ^ 56
  prot_small : prot.toNat < 2 ^ 10
  prot_page : kind prot.toNat = .page

namespace UserRange

/-- Pages of the range. -/
def count (r : UserRange) : Nat := (r.size.toNat + 0xfff) / 0x1000

theorem page_inside (r : UserRange) (i : Fin r.count) : i * 0x1000 < r.size.toNat := by
  have below : i.val < (r.size.toNat + 0xfff) / 0x1000 := i.isLt
  omega

theorem toNat_va (r : UserRange) (i : Fin r.count) :
    (r.va + BitVec.ofNat 64 (i * 0x1000)).toNat = r.va.toNat + i * 0x1000 := by
  have user := r.va_user
  have inside := r.page_inside i
  rw [BitVec.toNat_add, BitVec.toNat_ofNat]
  omega

theorem toNat_pa (r : UserRange) (i : Fin r.count) :
    (r.pa + BitVec.ofNat 64 (i * 0x1000)).toNat = r.pa.toNat + i * 0x1000 := by
  have physical := r.pa_physical
  have inside := r.page_inside i
  rw [BitVec.toNat_add, BitVec.toNat_ofNat]
  omega

/-- Page `i` of the range. -/
def page (r : UserRange) (i : Fin r.count) : UserPage where
  va := r.va + BitVec.ofNat 64 (i * 0x1000)
  pa := r.pa + BitVec.ofNat 64 (i * 0x1000)
  prot := r.prot
  va_aligned := by
    have aligned := r.va_aligned
    rw [r.toNat_va]
    omega
  va_user := by
    have user := r.va_user
    have inside := r.page_inside i
    rw [r.toNat_va]
    omega
  pa_aligned := by
    have aligned := r.pa_aligned
    rw [r.toNat_pa]
    omega
  pa_physical := by
    have physical := r.pa_physical
    have inside := r.page_inside i
    rw [r.toNat_pa]
    omega
  prot_small := r.prot_small
  prot_page := r.prot_page

/-- The pages of the range in order. -/
def pages (r : UserRange) : List UserPage := List.ofFn r.page

end UserRange

/-- A call that maps user pages, or takes a page for something else. -/
inductive Call where
  | pagewalk (page : UserPage)
  | mapPages (range : UserRange)
  | allocPage

/-- The pages that a call asks to map. -/
def Call.pages : Call → List UserPage
  | .pagewalk page => [page]
  | .mapPages range => range.pages
  | .allocPage => []

section Runs

variable (pgd : BitVec 64)

/-- A call ends with a kernel or a fault. -/
def CallEnds (k : Kernel) : Call → Except Fault Kernel → Prop
  | .pagewalk page, result => pagewalk pgd page.va page.pa page.prot k = result
  | .mapPages r, result => Ends (mapRound pgd r.va r.size r.pa r.prot) (0, k) result
  | .allocPage, result => result = .ok { k with curr := (allocPage k.curr).2 }

/-- The calls one after another; a fault ends the run. -/
def Runs (k : Kernel) : List Call → Except Fault Kernel → Prop
  | [], result => result = .ok k
  | call :: rest, result =>
      (∃ k', CallEnds pgd k call (.ok k') ∧ Runs k' rest result) ∨
      ∃ fault, CallEnds pgd k call (.error fault) ∧ result = .error fault

end Runs

/-! ## The loop of `map_pages` -/

/-- What the calls come to: one walk after another, and pages taken in between. -/
inductive Action where
  | walk (page : UserPage)
  | take

/-- The pages of the walks. -/
def walkedPages (actions : List Action) : List UserPage :=
  actions.filterMap fun
    | .walk page => some page
    | .take => none

/-- The actions one after another. -/
def perform (pgd : BitVec 64) : List Action → Kernel → Except Fault Kernel
  | [], k => .ok k
  | .take :: rest, k => perform pgd rest { k with curr := (allocPage k.curr).2 }
  | .walk page :: rest, k =>
      match pagewalk pgd page.va page.pa page.prot k with
      | .ok k => perform pgd rest k
      | .error fault => .error fault

section MapPages

variable {pgd : BitVec 64} (r : UserRange)

/-- The pages that the loop reaches before its counter turns negative. -/
def UserRange.walked : List UserPage := r.pages.take (2 ^ 19)

theorem UserRange.length_walked : r.walked.length = min (2 ^ 19) r.count := by
  rw [UserRange.walked, List.length_take, UserRange.pages, List.length_ofFn]

theorem UserRange.lt_count {j : Nat} (more : j < r.walked.length) : j < r.count :=
  Nat.lt_of_lt_of_le more (r.length_walked ▸ Nat.min_le_right _ _)

/-- The walks from page `j` on. -/
theorem UserRange.walked_drop {j : Nat} (more : j < r.walked.length) :
    r.walked.drop j = r.page ⟨j, r.lt_count more⟩ :: r.walked.drop (j + 1) := by
  rw [List.drop_eq_getElem_cons more]
  simp [UserRange.walked, UserRange.pages]

theorem signExtend_counter {j : Nat} (small : j < 2 ^ 19) :
    (BitVec.ofNat 32 (j * 0x1000)).signExtend 64 = BitVec.ofNat 64 (j * 0x1000) := by
  have positive : (BitVec.ofNat 32 (j * 0x1000)).msb = false := by
    rw [BitVec.msb_eq_false_iff_two_mul_lt, BitVec.toNat_ofNat]
    omega
  rw [BitVec.signExtend_eq_setWidth_of_msb_false positive]
  apply BitVec.eq_of_toNat_eq
  rw [BitVec.toNat_setWidth, BitVec.toNat_ofNat, BitVec.toNat_ofNat]
  omega

/-- The counter after the last page that an `int` can count is a large unsigned number. -/
theorem signExtend_wrapped :
    ((BitVec.ofNat 32 (2 ^ 19 * 0x1000)).signExtend 64).toNat = 2 ^ 64 - 2 ^ 31 := by decide

/-- The loop from its counter at page `j` on. -/
theorem mapPages_ends_from (j : Nat) (reached : j ≤ r.walked.length) (k : Kernel) :
    Ends (mapRound pgd r.va r.size r.pa r.prot) (BitVec.ofNat 32 (j * 0x1000), k)
      (perform pgd ((r.walked.drop j).map .walk) k) := by
  have user := r.va_user
  have length := r.length_walked
  have count : r.count = (r.size.toNat + 0xfff) / 0x1000 := rfl
  -- Induction on the pages that are left.
  induction left : r.walked.length - j generalizing j k with
  | zero =>
      have done : j = r.walked.length := by omega
      rw [done, List.drop_length]
      apply Ends.of_stop
      have past : ¬ ((BitVec.ofNat 32 (r.walked.length * 0x1000)).signExtend 64).toNat <
          r.size.toNat := by
        by_cases all : r.count < 2 ^ 19
        · rw [length, Nat.min_eq_right (by omega), signExtend_counter all, BitVec.toNat_ofNat]
          omega
        · rw [length, Nat.min_eq_left (by omega), signExtend_wrapped]
          omega
      rw [mapRound, if_neg past]
      rfl
  | succ left ih =>
      have more : j < r.walked.length := by omega
      have small : j < 2 ^ 19 := by omega
      have inRange : j < r.count := r.lt_count more
      have counter := signExtend_counter small
      have below : ((BitVec.ofNat 32 (j * 0x1000)).signExtend 64).toNat < r.size.toNat := by
        rw [counter, BitVec.toNat_ofNat]
        omega
      have head : r.walked.drop j = r.page ⟨j, inRange⟩ :: r.walked.drop (j + 1) :=
        r.walked_drop more
      have stride : BitVec.ofNat 32 (j * 0x1000) + 0x1000 =
          BitVec.ofNat 32 ((j + 1) * 0x1000) := by
        rw [Nat.succ_mul, BitVec.ofNat_add]
        rfl
      rw [head, List.map_cons, perform]
      have arguments : pagewalk pgd (r.va + (BitVec.ofNat 32 (j * 0x1000)).signExtend 64)
          (r.pa + (BitVec.ofNat 32 (j * 0x1000)).signExtend 64) r.prot k =
          pagewalk pgd (r.page ⟨j, inRange⟩).va (r.page ⟨j, inRange⟩).pa
            (r.page ⟨j, inRange⟩).prot k := by
        rw [counter]
        rfl
      cases walked : pagewalk pgd (r.page ⟨j, inRange⟩).va (r.page ⟨j, inRange⟩).pa
          (r.page ⟨j, inRange⟩).prot k with
      | ok k' =>
          apply Ends.of_next _ (ih (j + 1) more k' (by omega))
          rw [mapRound, if_pos below]
          dsimp only
          rw [arguments, walked, stride]
      | error fault =>
          apply Ends.of_stop
          rw [mapRound, if_pos below]
          dsimp only
          rw [arguments, walked]

/-- The loop walks for the pages in order. -/
theorem mapPages_ends_iff (k : Kernel) (result : Except Fault Kernel) :
    Ends (mapRound pgd r.va r.size r.pa r.prot) (0, k) result ↔
      result = perform pgd (r.walked.map .walk) k := by
  have ends : Ends (mapRound pgd r.va r.size r.pa r.prot) (0, k)
      (perform pgd (r.walked.map .walk) k) := mapPages_ends_from r 0 (Nat.zero_le _) k
  constructor
  · exact fun other => other.unique ends
  · exact fun equal => equal ▸ ends

end MapPages

/-! ## Calls as actions -/

/-- The actions of a call. -/
def Call.actions : Call → List Action
  | .pagewalk page => [.walk page]
  | .mapPages range => range.walked.map .walk
  | .allocPage => [.take]

section Actions

variable {pgd : BitVec 64}

theorem perform_append (first second : List Action) (k : Kernel) :
    perform pgd (first ++ second) k =
      match perform pgd first k with
      | .ok k => perform pgd second k
      | .error fault => .error fault := by
  induction first generalizing k with
  | nil => rfl
  | cons action first ih =>
      cases action with
      | take => exact ih _
      | walk page =>
          rw [List.cons_append, perform, perform]
          cases pagewalk pgd page.va page.pa page.prot k with
          | ok k => exact ih k
          | error fault => rfl

theorem callEnds_iff (call : Call) (k : Kernel) (result : Except Fault Kernel) :
    CallEnds pgd k call result ↔ result = perform pgd call.actions k := by
  cases call with
  | pagewalk page =>
      rw [CallEnds, Call.actions, perform]
      cases pagewalk pgd page.va page.pa page.prot k with
      | ok k' => exact eq_comm
      | error fault => exact eq_comm
  | mapPages range => exact mapPages_ends_iff range k result
  | allocPage => exact Iff.rfl

theorem runs_iff (calls : List Call) (k : Kernel) (result : Except Fault Kernel) :
    Runs pgd k calls result ↔ result = perform pgd (calls.flatMap Call.actions) k := by
  induction calls generalizing k with
  | nil => exact Iff.rfl
  | cons call rest ih =>
      simp only [Runs, callEnds_iff, List.flatMap_cons, perform_append, ih]
      cases perform pgd call.actions k with
      | ok k' => simp
      | error fault => simp

end Actions

end OscKernel.Paging
