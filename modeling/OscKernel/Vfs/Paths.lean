import Mathlib.Data.List.Basic

/-!
# Path names

The text of a path: its components, which separators keep apart, and its last separator, where
`vfs_open` divides it into `dirname` and `filename`.
-/

namespace OscKernel.Vfs

/-- The end of a string. -/
def nul : Char := Char.ofNat 0

/-! ## Absolute paths -/

/-- `/c1/.../ck` -/
def absolute (components : List (List Char)) : List Char :=
  components.flatMap fun component => '/' :: component

/-- Non-empty strings without separators. -/
def Components (components : List (List Char)) : Prop :=
  ∀ component ∈ components, component ≠ [] ∧ '/' ∉ component ∧ nul ∉ component

instance (components : List (List Char)) : Decidable (Components components) :=
  inferInstanceAs (Decidable (∀ component ∈ components,
    component ≠ [] ∧ '/' ∉ component ∧ nul ∉ component))

theorem absolute_append (first second : List (List Char)) :
    absolute (first ++ second) = absolute first ++ absolute second :=
  List.flatMap_append

theorem absolute_singleton (component : List Char) : absolute [component] = '/' :: component :=
  List.append_nil _

theorem length_absolute_cons (component : List Char) (rest : List (List Char)) :
    (absolute (component :: rest)).length =
      1 + component.length + (absolute rest).length := by
  rw [absolute, List.flatMap_cons, List.length_append, List.length_cons]
  exact congrArg (· + _) (Nat.add_comm ..)

theorem length_le_absolute {components : List (List Char)} {component : List Char}
    (member : component ∈ components) : component.length < (absolute components).length := by
  obtain ⟨before, after, rfl⟩ := List.append_of_mem member
  have split : absolute (before ++ component :: after) =
      absolute before ++ '/' :: (component ++ absolute after) := absolute_append _ _
  rw [split, List.length_append, List.length_cons, List.length_append]
  omega

theorem splitOn_absolute {component : List Char} {rest : List (List Char)}
    (plain : Components (component :: rest)) :
    (component ++ absolute rest).splitOn '/' = component :: rest := by
  induction rest generalizing component with
  | nil =>
      have empty : component ++ absolute [] = component := List.append_nil _
      rw [empty]
      exact List.splitOn_eq_singleton (plain component (List.mem_cons_self ..)).2.1
  | cons next rest ih =>
      have split : component ++ absolute (next :: rest) =
          component ++ '/' :: (next ++ absolute rest) := rfl
      rw [split, List.splitOn_append_cons_self,
        List.splitOn_eq_singleton (plain component (List.mem_cons_self ..)).2.1,
        ih fun other member => plain other (List.mem_cons_of_mem _ member)]
      rfl

theorem absolute_ne_nil {components : List (List Char)} (nonempty : components ≠ []) :
    absolute components ≠ [] := by
  obtain ⟨first, rest, rfl⟩ := List.exists_cons_of_ne_nil nonempty
  exact List.cons_ne_nil _ _

/-- The components behind the first separator are those of the path. -/
theorem splitOn_tail_absolute {components : List (List Char)} (nonempty : components ≠ [])
    (plain : Components components) : (absolute components).tail.splitOn '/' = components := by
  obtain ⟨first, rest, rfl⟩ := List.exists_cons_of_ne_nil nonempty
  exact splitOn_absolute plain

theorem Components.init {parents : List (List Char)} {last : List Char}
    (plain : Components (parents ++ [last])) : Components parents :=
  fun component member => plain component (List.mem_append_left _ member)

/-- Strings have no NUL. -/
theorem Components.nul_notMem {components : List (List Char)} (plain : Components components) :
    nul ∉ absolute components := by
  intro member
  obtain ⟨component, listed, inside⟩ := List.mem_flatMap.mp member
  rcases List.mem_cons.mp inside with separator | later
  · exact absurd separator (by decide)
  · exact (plain component listed).2.2 later

/-! ## The last separator -/

/-- The index of the last separator, 0 without one. -/
def lastSlash : List Char → Nat
  | [] => 0
  | _ :: rest => if '/' ∈ rest then lastSlash rest + 1 else 0

/-- What is behind the last separator, or behind the first character. -/
def filename (pathname : List Char) : List Char := pathname.drop (lastSlash pathname + 1)

theorem lastSlash_append {last : List Char} (plain : '/' ∉ last) (dirname : List Char) :
    lastSlash (dirname ++ '/' :: last) = dirname.length := by
  induction dirname with
  | nil => exact if_neg plain
  | cons c dirname ih =>
      rw [List.cons_append, lastSlash, if_pos (by simp), ih, List.length_cons]

theorem lastSlash_cons {last : List Char} (plain : '/' ∉ last) (c : Char) :
    lastSlash (c :: last) = 0 := if_neg plain

/-- Characters with a separator have a last one. -/
theorem exists_last_slash {rest : List Char} (slash : '/' ∈ rest) :
    ∃ before after, rest = before ++ '/' :: after ∧ '/' ∉ after := by
  induction rest with
  | nil => cases slash
  | cons c rest ih =>
      by_cases later : '/' ∈ rest
      · obtain ⟨before, after, rfl, plain⟩ := ih later
        exact ⟨c :: before, after, rfl, plain⟩
      · have first : '/' = c := (List.mem_cons.mp slash).resolve_right later
        exact ⟨[], rest, congrArg (· :: rest) first.symm, later⟩

/-- The last component of a path is its `filename`, and the others are those of its `dirname`. -/
theorem splitOn_filename {pathname : List Char} (nonempty : pathname ≠ []) :
    (pathname.take (lastSlash pathname) = [] ∧
        pathname.tail.splitOn '/' = [filename pathname]) ∨
      (pathname.take (lastSlash pathname) ≠ [] ∧ pathname.tail.splitOn '/' =
        (pathname.take (lastSlash pathname)).tail.splitOn '/' ++ [filename pathname]) := by
  obtain ⟨c, rest, rfl⟩ := List.exists_cons_of_ne_nil nonempty
  by_cases slash : '/' ∈ rest
  · right
    obtain ⟨before, after, rfl, plain⟩ := exists_last_slash slash
    have pos : lastSlash (c :: (before ++ '/' :: after)) = (c :: before).length :=
      lastSlash_append plain (c :: before)
    have dirname : (c :: (before ++ '/' :: after)).take (c :: before).length = c :: before :=
      List.take_left
    have last : (c :: (before ++ '/' :: after)).drop ((c :: before).length + 1) = after :=
      List.drop_length_add_append 1
    rw [filename, pos, dirname, last, List.tail_cons, List.tail_cons,
      List.splitOn_append_cons_self, List.splitOn_eq_singleton plain]
    exact ⟨List.cons_ne_nil _ _, rfl⟩
  · left
    rw [filename, lastSlash_cons slash, List.tail_cons, List.splitOn_eq_singleton slash]
    exact ⟨rfl, rfl⟩

section Absolute

variable {parents : List (List Char)} {last : List Char}

theorem absolute_eq (parents : List (List Char)) (last : List Char) :
    absolute (parents ++ [last]) = absolute parents ++ '/' :: last := by
  rw [absolute_append, absolute_singleton]

theorem lastSlash_absolute (plain : Components (parents ++ [last])) :
    lastSlash (absolute (parents ++ [last])) = (absolute parents).length := by
  have member : last ∈ parents ++ [last] := List.mem_append_right _ (List.mem_singleton_self _)
  rw [absolute_eq, lastSlash_append (plain last member).2.1]

theorem filename_absolute (plain : Components (parents ++ [last])) :
    filename (absolute (parents ++ [last])) = last := by
  rw [filename, lastSlash_absolute plain, absolute_eq, List.drop_length_add_append]
  rfl

theorem dirname_absolute (plain : Components (parents ++ [last])) :
    (absolute (parents ++ [last])).take (lastSlash (absolute (parents ++ [last]))) =
      absolute parents := by
  rw [lastSlash_absolute plain, absolute_eq, List.take_left]

end Absolute

end OscKernel.Vfs
