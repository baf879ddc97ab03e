import Mathlib.Logic.Relation
import OscKernel.Vfs.PathBuffer

/-!
# Path lookup as a walk in the tree (`ex71/vfs.c`)

What a path stands for, stated with relations on the vnodes: the first entry of a name, the
innermost of the mounted roots, and the fold of the two over the components of the path.
`vfs_lookup` refines it as long as an `int` counts the characters.
-/

namespace OscKernel.Vfs

open Words

universe u

variable {ν : Type u}

namespace Vnodes

/-- The first entry of a directory with a name. -/
def FirstNamed (tree : Vnodes ν) (dir : ν) (name : List Char) (inode : ν) : Prop :=
  ∃ before after, (tree.entry dir).take tmpfsMaxDirEntry = before ++ inode :: after ∧
    tree.name inode = name ∧ ∀ other ∈ before, tree.name other ≠ name

/-- The root that is reached over the mounts and has nothing mounted on it. -/
def Innermost (tree : Vnodes ν) (node root : ν) : Prop :=
  Relation.ReflTransGen (fun outer inner => tree.mount outer = some inner) node root ∧
    tree.mount root = none

/-- The walk over components from a directory to a node. -/
inductive Walks (tree : Vnodes ν) : ν → List (List Char) → ν → Prop where
  | nil {node : ν} : Walks tree node [] node
  | cons {dir inode next node : ν} {name : List Char} {rest : List (List Char)}
      (first : tree.FirstNamed dir name inode) (inner : tree.Innermost inode next)
      (later : Walks tree next rest node) : Walks tree dir (name :: rest) node

/-- Some component is missing in the directory that the ones before it lead to. -/
def Missing (tree : Vnodes ν) (start : ν) (components : List (List Char)) : Prop :=
  ∃ before name after dir, components = before ++ name :: after ∧
    tree.Walks start before dir ∧
      ∀ inode ∈ (tree.entry dir).take tmpfsMaxDirEntry, tree.name inode ≠ name

/-- The result and `*target` are those of the walk. -/
structure Refines (tree : Vnodes ν) (components : List (List Char)) (target : Option ν)
    (result : Int × Option ν) : Prop where
  found : ∀ node, tree.Walks tree.root components node ↔ result = (0, some node)
  missing : tree.Missing tree.root components ↔ result.1 ≠ 0 ∧ result.2 = target

/-- The claim on a lookup: it returns, with what the walk finds. -/
def LookupRefines (tree : Vnodes ν) (components : List (List Char)) (target : Option ν) : Prop :=
  ∃ result, tree.vfsLookup (absolute components) target = .ok result ∧
    tree.Refines components target result

section Walks

variable {tree : Vnodes ν} {dir node root inode : ν} {name : List Char}
variable {components : List (List Char)}

theorem firstNamed_iff :
    tree.FirstNamed dir name inode ↔ tree.tmpfsLookup dir name = some inode := by
  rw [tmpfsLookup, List.find?_eq_some_iff_append]
  constructor
  · rintro ⟨before, after, entries, named, others⟩
    refine ⟨decide_eq_true named, before, after, entries, fun other member => ?_⟩
    rw [decide_eq_false (others other member)]
    rfl
  · rintro ⟨named, before, after, entries, others⟩
    refine ⟨before, after, entries, of_decide_eq_true named, fun other member => ?_⟩
    have different := others other member
    rwa [Bool.not_eq_true', decide_eq_false_iff_not] at different

/-- The loop over the mounts ends at the innermost root. -/
theorem innermost_iff : tree.Innermost node root ↔ tree.follow node = root := by
  constructor
  · rintro ⟨mounts, last⟩
    induction mounts using Relation.ReflTransGen.head_induction_on with
    | refl => exact follow_none last
    | head mounted _ ih => rw [follow_some mounted, ih]
  · rintro rfl
    induction node using tree.mounts_end.induction with
    | _ node ih =>
        cases mounted : tree.mount node with
        | none =>
            rw [follow_none mounted]
            exact ⟨.refl, mounted⟩
        | some inner =>
            obtain ⟨mounts, last⟩ := ih inner mounted
            rw [follow_some mounted]
            exact ⟨.head mounted mounts, last⟩

theorem walks_iff : tree.Walks dir components node ↔ tree.resolve components dir = some node := by
  constructor
  · intro walks
    induction walks with
    | nil => rfl
    | cons first inner _ ih =>
        rw [resolve, enter, firstNamed_iff.mp first, Option.map_some, innermost_iff.mp inner]
        exact ih
  · intro resolved
    induction components generalizing dir with
    | nil =>
        cases resolved
        exact .nil
    | cons name rest ih =>
        rw [resolve, enter] at resolved
        cases found : tree.tmpfsLookup dir name with
        | none =>
            rw [found] at resolved
            cases resolved
        | some inode =>
            rw [found] at resolved
            exact .cons (firstNamed_iff.mpr found) (innermost_iff.mpr rfl) (ih resolved)

theorem missing_iff : tree.Missing dir components ↔ tree.resolve components dir = none := by
  constructor
  · rintro ⟨before, name, after, last, rfl, walks, absent⟩
    have none : tree.enter last name = none := by
      rw [enter, Option.map_eq_none_iff, tmpfsLookup, List.find?_eq_none]
      intro inode member
      rw [decide_eq_true_eq]
      exact absent inode member
    induction walks with
    | nil => rw [List.nil_append, resolve, none, Option.bind_none]
    | cons first inner _ ih =>
        rw [List.cons_append, resolve, enter, firstNamed_iff.mp first, Option.map_some,
          innermost_iff.mp inner]
        exact ih absent none
  · intro unresolved
    induction components generalizing dir with
    | nil => cases unresolved
    | cons name rest ih =>
        rw [resolve, enter] at unresolved
        cases found : tree.tmpfsLookup dir name with
        | none =>
            refine ⟨[], name, rest, dir, rfl, .nil, fun inode member => ?_⟩
            rw [tmpfsLookup, List.find?_eq_none] at found
            simpa using found inode member
        | some inode =>
            rw [found] at unresolved
            obtain ⟨before, other, after, last, rfl, walks, absent⟩ := ih unresolved
            refine ⟨name :: before, other, after, last, rfl, ?_, absent⟩
            exact .cons (firstNamed_iff.mpr found) (innermost_iff.mpr rfl) walks

theorem refines_answer (tree : Vnodes ν) (components : List (List Char)) (target : Option ν) :
    tree.Refines components target (answer target (tree.resolve components tree.root)) := by
  constructor
  · intro node
    rw [walks_iff]
    cases tree.resolve components tree.root with
    | none => simp [answer]
    | some other => simp [answer]
  · rw [missing_iff]
    cases tree.resolve components tree.root with
    | none => simp [answer]
    | some other => simp [answer]

end Walks

section Counted

variable {tree : Vnodes ν} {node : ν} {start : Nat} {components before after : List (List Char)}

/-- The walk over a path stops at a missing component. -/
theorem fits_of_missing (short : ∀ component ∈ before ++ after, component.length < pathMax)
    (early : start + (absolute before).length ≤ intMax + 1)
    (missing : tree.resolve before node = none) : tree.Fits (before ++ after) start node := by
  induction before generalizing start node with
  | nil => cases missing
  | cons component rest ih =>
      rw [length_absolute_cons] at early
      rw [List.cons_append] at short ⊢
      refine ⟨short component List.mem_cons_self, by omega, fun next entered => ?_⟩
      rw [resolve, entered] at missing
      exact ih (fun other member => short other (List.mem_cons_of_mem _ member)) (by omega) missing

/-- Short components fit exactly if the characters that the walk reads can be counted. -/
theorem fits_iff_counted (short : ∀ component ∈ components, component.length < pathMax) :
    tree.Fits components start node ↔
      start + (absolute components).length ≤ intMax + 1 ∨ components = [] ∨
        ∃ before after, components = before ++ after ∧ after ≠ [] ∧
          start + (absolute before).length ≤ intMax + 1 ∧ tree.resolve before node = none := by
  constructor
  · intro fits
    induction components generalizing start node with
    | nil => exact .inr (.inl rfl)
    | cons component rest ih =>
        obtain ⟨-, early, later⟩ := fits
        rw [length_absolute_cons]
        cases rest with
        | nil =>
            left
            rw [show (absolute []).length = 0 from rfl]
            omega
        | cons other rest =>
            cases entered : tree.enter node component with
            | none =>
                right; right
                refine ⟨[component], other :: rest, rfl, List.cons_ne_nil _ _, ?_, ?_⟩
                · rw [absolute_singleton, List.length_cons]
                  omega
                · rw [resolve, entered, Option.bind_none]
            | some next =>
                rcases ih (fun other member => short other (List.mem_cons_of_mem _ member))
                    (later next entered) with counted | empty | ⟨before, after, split, more, rest⟩
                · left
                  omega
                · cases empty
                · right; right
                  refine ⟨component :: before, after, congrArg _ split, more, ?_, ?_⟩
                  · rw [length_absolute_cons]
                    omega
                  · rw [resolve, entered]
                    exact rest.2
  · rintro (counted | rfl | ⟨before, after, rfl, -, early, missing⟩)
    · exact tree.fits_of_short short counted node
    · trivial
    · exact fits_of_missing short early missing

end Counted

/-- `vfs_lookup` refines the walk exactly if what the walk reaches fits. -/
theorem lookupRefines_iff_fits (tree : Vnodes ν) {components : List (List Char)}
    (target : Option ν) (nonempty : components ≠ []) (plain : Components components) :
    tree.LookupRefines components target ↔ tree.Fits components 1 tree.root := by
  have walked := tree.vfsLookup_walked target (absolute_ne_nil nonempty) plain.nul_notMem
  rw [splitOn_tail_absolute nonempty plain] at walked
  constructor
  · rintro ⟨result, ok, -⟩
    by_contra tooLong
    obtain ⟨fault, faults⟩ := walked.faults tooLong
    rw [faults] at ok
    cases ok
  · exact fun fits => ⟨_, walked.fits fits, tree.refines_answer _ target⟩

/-- `vfs_lookup` refines the walk exactly if an `int` counts the characters of the path, or
those up to the separator behind a component that is missing. -/
theorem vfs_lookup_refines_iff (tree : Vnodes ν) (components : List (List Char))
    (target : Option ν) (nonempty : components ≠ []) (plain : Components components)
    (short : ∀ component ∈ components, component.length < pathMax) :
    tree.LookupRefines components target ↔
      (absolute components).length ≤ intMax ∨
        ∃ before after, components = before ++ after ∧ after ≠ [] ∧
          (absolute before).length ≤ intMax ∧ tree.resolve before tree.root = none := by
  have counted := @fits_iff_counted _ tree tree.root 1 _ short
  simp only [nonempty, false_or, Nat.add_comm 1, Nat.add_le_add_iff_right] at counted
  rw [tree.lookupRefines_iff_fits target nonempty plain, counted]

/-! ## A root that is mounted in itself -/

/-- The root directory has one entry `a`, and the root is mounted on it. -/
def selfMounted : Vnodes Nat where
  root := 0
  mount node := if node = 1 then some 0 else none
  name node := if node = 1 then ['a'] else []
  entry node := if node = 0 then [1] else []
  mounts_end := by
    apply Subrelation.wf _ Nat.lt_wfRel.wf
    intro inner outer mounted
    split at mounted
    next entry =>
      cases mounted
      exact entry ▸ Nat.zero_lt_one
    next => cases mounted

theorem enter_selfMounted : selfMounted.enter 0 ['a'] = some 0 := by
  have mounted : selfMounted.mount 1 = some 0 := rfl
  have last : selfMounted.mount 0 = none := rfl
  have entry : selfMounted.tmpfsLookup 0 ['a'] = some 1 := by decide
  rw [enter, entry, Option.map_some, follow_some mounted, follow_none last]

/-- `/a/a` is the root again. -/
theorem vfs_lookup_refines_twice :
    selfMounted.LookupRefines [['a'], ['a']] none ∧
      selfMounted.Walks 0 [['a'], ['a']] 0 := by
  constructor
  · exact (vfs_lookup_refines_iff selfMounted _ none (by decide) (by decide)
      (by decide)).mpr (.inl (by decide))
  · rw [walks_iff, resolve, enter_selfMounted, Option.bind_some, resolve, enter_selfMounted]
    rfl

section Repeated

theorem resolve_replicate (n : Nat) : selfMounted.resolve (List.replicate n ['a']) 0 = some 0 := by
  induction n with
  | zero => rfl
  | succ n ih => rw [List.replicate_succ, resolve, enter_selfMounted, Option.bind_some, ih]

theorem length_absolute_replicate (n : Nat) :
    (absolute (List.replicate n ['a'])).length = 2 * n := by
  induction n with
  | zero => rfl
  | succ n ih =>
      rw [List.replicate_succ, length_absolute_cons, ih, List.length_singleton]
      omega

/-- A path of more characters than an `int` counts is not looked up. -/
theorem not_refines_replicate {n : Nat} (long : intMax < 2 * n) :
    ¬ selfMounted.LookupRefines (List.replicate n ['a']) none := by
  have same : ∀ component ∈ List.replicate n ['a'], component = ['a'] :=
    fun component member => List.eq_of_mem_replicate member
  have nonempty : List.replicate n ['a'] ≠ [] := by
    rw [Ne, List.replicate_eq_nil_iff]
    omega
  have plain : Components (List.replicate n ['a']) := by
    intro component member
    rw [same component member]
    decide
  have short : ∀ component ∈ List.replicate n ['a'], component.length < pathMax := by
    intro component member
    rw [same component member]
    decide
  rw [lookupRefines_iff_fits selfMounted none nonempty plain, fits_iff_counted short,
    length_absolute_replicate]
  rintro (counted | empty | ⟨before, after, split, -, -, missing⟩)
  · omega
  · exact nonempty empty
  · -- Every first part of the path leads back to the root.
    obtain ⟨length, first, -⟩ := List.append_eq_replicate_iff.mp split.symm
    have found := resolve_replicate before.length
    rw [← first] at found
    cases missing.symm.trans found

end Repeated

/-- The path of `2 ^ 30` components `a`. -/
theorem vfs_lookup_overflows :
    ¬ selfMounted.LookupRefines (List.replicate (2 ^ 30) ['a']) none :=
  not_refines_replicate (by decide)

end Vnodes

end OscKernel.Vfs
