import Mathlib.Data.List.Chain
import Mathlib.Data.List.Nodup
import Mathlib.Logic.Function.Basic

/-!
# Circular doubly linked lists

Nodes with a next and a previous node, and the lists that such nodes form.  A ring is a
list of different nodes in which each node's next node is the following one, the last
node's is the first, and the previous nodes are the other way round.
-/

namespace OscKernel.Lists

universe u

/-- The two pointers of every node. -/
structure Links (α : Type u) where
  next : α → α
  prev : α → α

namespace Links

variable {α : Type u}

/-- `b` follows `a`. -/
def Edge (links : Links α) (a b : α) : Prop := links.next a = b ∧ links.prev b = a

/-- Each node of the list is followed by the next one. -/
def Path (links : Links α) (nodes : List α) : Prop := nodes.IsChain links.Edge

variable [DecidableEq α]

/-- `node->next = target` -/
def setNext (links : Links α) (node target : α) : Links α :=
  { links with next := Function.update links.next node target }

/-- `node->prev = target` -/
def setPrev (links : Links α) (node target : α) : Links α :=
  { links with prev := Function.update links.prev node target }

@[simp] theorem setNext_next (links : Links α) (node target : α) :
    (links.setNext node target).next = Function.update links.next node target := rfl

@[simp] theorem setNext_prev (links : Links α) (node target : α) :
    (links.setNext node target).prev = links.prev := rfl

@[simp] theorem setPrev_prev (links : Links α) (node target : α) :
    (links.setPrev node target).prev = Function.update links.prev node target := rfl

@[simp] theorem setPrev_next (links : Links α) (node target : α) :
    (links.setPrev node target).next = links.next := rfl

/-- Link a node in between the node before `head` and `head`. -/
def insertBefore (links : Links α) (head node : α) : Links α :=
  let links := links.setNext node head
  let links := links.setPrev node (links.prev head)
  let links := links.setNext (links.prev head) node
  links.setPrev head node

/-- Link the nodes around a node to each other. -/
def unlink (links : Links α) (node : α) : Links α :=
  let links := links.setPrev (links.next node) (links.prev node)
  links.setNext (links.prev node) (links.next node)

section Updates

variable {links : Links α} {head node last before after : α}

theorem insertBefore_next (fresh : node ≠ head) (edge : links.prev head = last) :
    (links.insertBefore head node).next =
      Function.update (Function.update links.next node head) last node := by
  simp [insertBefore, Function.update_of_ne fresh.symm, edge]

theorem insertBefore_prev (edge : links.prev head = last) :
    (links.insertBefore head node).prev =
      Function.update (Function.update links.prev node last) head node := by
  simp [insertBefore, edge]

theorem unlink_next (edgeBefore : links.prev node = before) (edgeAfter : links.next node = after) :
    (links.unlink node).next = Function.update links.next before after := by
  by_cases same : node = after
  · simp [unlink, edgeAfter, edgeBefore, ← same]
  · simp [unlink, edgeAfter, edgeBefore, Function.update_of_ne same]

theorem unlink_prev (edgeBefore : links.prev node = before) (edgeAfter : links.next node = after) :
    (links.unlink node).prev = Function.update links.prev after before := by
  simp [unlink, edgeAfter, edgeBefore]

end Updates

end Links

open Links

/-- The ring of `head` and the nodes after it. -/
structure Ring {α : Type u} (links : Links α) (head : α) (rest : List α) : Prop where
  nodup : (head :: rest).Nodup
  path : links.Path (head :: rest ++ [head])

section Path

variable {α : Type u} {links other : Links α} {nodes pre post : List α} {a b : α}

/-- A path reads the next pointer of every node but the last, and the previous pointer of
every node but the first. -/
theorem Links.Path.transport (path : links.Path nodes)
    (next : ∀ a ∈ nodes.dropLast, other.next a = links.next a)
    (prev : ∀ b ∈ nodes.tail, other.prev b = links.prev b) : other.Path nodes := by
  induction nodes with
  | nil => exact List.IsChain.nil
  | cons a nodes ih =>
      cases nodes with
      | nil => exact List.IsChain.singleton a
      | cons b rest =>
          obtain ⟨edge, tail⟩ := List.isChain_cons_cons.mp path
          apply List.isChain_cons_cons.mpr
          constructor
          · constructor
            · rw [next a (by simp)]
              exact edge.1
            · rw [prev b (by simp)]
              exact edge.2
          · apply ih tail
            · intro node member
              exact next node (by simp [member])
            · intro node member
              exact prev node (List.mem_of_mem_tail member)

/-- A path through an edge is a path to the edge and one from it. -/
theorem Links.path_append : links.Path (pre ++ a :: b :: post) ↔
    links.Path (pre ++ [a]) ∧ links.Edge a b ∧ links.Path (b :: post) :=
  List.isChain_append_cons_cons

end Path

namespace Ring

variable {α : Type u} {links : Links α} {head node : α} {rest front back : List α}

/-- A node that points to itself. -/
theorem single (next : links.next head = head) (prev : links.prev head = head) :
    Ring links head [] where
  nodup := List.nodup_singleton head
  path := List.isChain_cons_cons.mpr ⟨⟨next, prev⟩, List.IsChain.singleton head⟩

/-- The ring from its second node on. -/
theorem rotate (ring : Ring links head (node :: rest)) : Ring links node (rest ++ [head]) := by
  obtain ⟨edge, path⟩ := List.isChain_cons_cons.mp ring.path
  constructor
  · exact (List.perm_append_singleton head (node :: rest)).nodup_iff.mpr ring.nodup
  · have closed : links.Path ((node :: rest) ++ head :: node :: []) :=
      Links.path_append.mpr ⟨path, edge, List.IsChain.singleton node⟩
    simpa using closed

/-- The ring from its last node on. -/
theorem rotateBack (ring : Ring links head (rest ++ [node])) : Ring links node (head :: rest) := by
  have path := ring.path
  have split : head :: (rest ++ [node]) ++ [head] = (head :: rest) ++ node :: head :: [] := by simp
  rw [split, Links.path_append] at path
  constructor
  · exact (List.perm_append_singleton node (head :: rest)).nodup_iff.mp ring.nodup
  · exact List.isChain_cons_cons.mpr ⟨path.2.1, path.1⟩

/-- The next node of the first one. -/
theorem next_head (ring : Ring links head rest) :
    (rest = [] ∧ links.next head = head) ∨ ∃ tail, rest = links.next head :: tail := by
  have path := ring.path
  cases rest with
  | nil => exact .inl ⟨rfl, (List.isChain_cons_cons.mp path).1.1⟩
  | cons second tail =>
      have edge := (List.isChain_cons_cons.mp path).1
      exact .inr ⟨tail, by rw [edge.1]⟩

/-- The two pointers are inverse to each other. -/
theorem inverse (ring : Ring links head rest) (member : node ∈ head :: rest) :
    links.prev (links.next node) = node ∧ links.next (links.prev node) = node := by
  have path := ring.path
  constructor
  · obtain ⟨front, back, split⟩ := List.append_of_mem member
    rw [split] at path
    cases back with
    | nil =>
        have whole : front ++ [node] ++ [head] = front ++ node :: head :: [] := by simp
        rw [whole, Links.path_append] at path
        rw [path.2.1.1, path.2.1.2]
    | cons after back =>
        have whole : front ++ node :: after :: back ++ [head] =
            front ++ node :: after :: (back ++ [head]) := by simp
        rw [whole, Links.path_append] at path
        rw [path.2.1.1, path.2.1.2]
  · -- Every node follows one: the first node follows the last.
    have follows : node ∈ rest ++ [head] := by
      rcases List.mem_cons.mp member with equal | inRest
      · simp [equal]
      · simp [inRest]
    obtain ⟨front, back, split⟩ := List.append_of_mem follows
    rw [List.cons_append, split] at path
    rcases List.eq_nil_or_concat (head :: front) with empty | ⟨init, before, last⟩
    · cases empty
    · have whole : head :: (front ++ node :: back) = init ++ before :: node :: back := by
        rw [← List.cons_append, last]
        simp
      rw [whole, Links.path_append] at path
      rw [path.2.1.2, path.2.1.1]

variable [DecidableEq α]

/-- Linking a new node in before the first one makes it the last. -/
theorem insertBefore (ring : Ring links head rest) (fresh : node ∉ head :: rest) :
    Ring (links.insertBefore head node) head (rest ++ [node]) := by
  have path := ring.path
  have nodup := ring.nodup
  rcases List.eq_nil_or_concat (head :: rest) with empty | ⟨init, last, split⟩
  · cases empty
  · rw [List.concat_eq_append] at split
    have whole : head :: rest ++ [head] = init ++ last :: head :: [] := by
      rw [split]
      simp
    rw [whole, Links.path_append] at path
    obtain ⟨inner, edge, _⟩ := path
    rw [split] at fresh
    have newHead : node ≠ head := fun equal => by
      apply fresh
      rw [← split, equal]
      exact List.mem_cons_self ..
    have newLast : last ≠ node := fun equal => by
      apply fresh
      rw [equal]
      simp
    have next := Links.insertBefore_next newHead edge.2
    have prev := @Links.insertBefore_prev _ _ links head node last edge.2
    constructor
    · rw [← List.cons_append, List.nodup_append]
      refine ⟨nodup, List.nodup_singleton node, ?_⟩
      intro member inRing single only equal
      apply fresh
      rw [← split, ← List.mem_singleton.mp only, ← equal]
      exact inRing
    · have around : head :: (rest ++ [node]) ++ [head] = init ++ last :: node :: [head] := by
        rw [← List.cons_append, split]
        simp
      rw [around, Links.path_append]
      refine ⟨?_, ?_, ?_⟩
      · apply inner.transport
        · intro member inInit
          rw [List.dropLast_concat] at inInit
          rw [split, List.nodup_append] at nodup
          have notLast : member ≠ last := nodup.2.2 member inInit last (List.mem_singleton_self _)
          have notNode : member ≠ node := fun equal => by
            apply fresh
            rw [← equal]
            exact List.mem_append_left _ inInit
          rw [next, Function.update_of_ne notLast, Function.update_of_ne notNode]
        · intro member inTail
          rw [← split, List.tail_cons] at inTail
          have notHead : member ≠ head := fun equal =>
            (List.nodup_cons.mp nodup).1 (equal ▸ inTail)
          have notNode : member ≠ node := fun equal => by
            apply fresh
            rw [← split, ← equal]
            exact List.mem_cons_of_mem _ inTail
          rw [prev, Function.update_of_ne notHead, Function.update_of_ne notNode]
      · constructor
        · rw [next, Function.update_self]
        · rw [prev, Function.update_of_ne newHead, Function.update_self]
      · apply List.isChain_cons_cons.mpr
        refine ⟨⟨?_, ?_⟩, List.IsChain.singleton head⟩
        · rw [next, Function.update_of_ne newLast.symm, Function.update_self]
        · rw [prev, Function.update_self]

/-- Linking around a node takes it out. -/
theorem unlink (ring : Ring links head (front ++ node :: back)) :
    Ring (links.unlink node) head (front ++ back) := by
  have path := ring.path
  have nodup := ring.nodup
  rw [← List.cons_append, List.nodup_append] at nodup
  obtain ⟨frontNodup, backNodup, apart⟩ := nodup
  obtain ⟨nodeFresh, backNodup⟩ := List.nodup_cons.mp backNodup
  -- The node before is the last of the front, the node after is the first of the back.
  rcases List.eq_nil_or_concat (head :: front) with empty | ⟨init, before, first⟩
  · cases empty
  · rw [List.concat_eq_append] at first
    obtain ⟨after, tail, second⟩ : ∃ after tail, back ++ [head] = after :: tail := by
      cases back with
      | nil => exact ⟨head, [], rfl⟩
      | cons after back => exact ⟨after, back ++ [head], rfl⟩
    have whole : head :: (front ++ node :: back) ++ [head] =
        init ++ before :: node :: after :: tail := by
      rw [← second, ← List.cons_append, first]
      simp
    rw [whole, Links.path_append] at path
    obtain ⟨inner, edge, outer⟩ := path
    obtain ⟨edgeAfter, outer⟩ := List.isChain_cons_cons.mp outer
    have next := Links.unlink_next edge.2 edgeAfter.1
    have prev := Links.unlink_prev edge.2 edgeAfter.1
    have beforeMember : before ∈ head :: front := by
      rw [first]
      simp
    constructor
    · rw [← List.cons_append, List.nodup_append]
      exact ⟨frontNodup, backNodup, fun member inFront other inBack =>
        apart member inFront other (List.mem_cons_of_mem _ inBack)⟩
    · have around : head :: (front ++ back) ++ [head] = init ++ before :: after :: tail := by
        rw [← second, ← List.cons_append, first]
        simp
      rw [around, Links.path_append]
      refine ⟨?_, ⟨?_, ?_⟩, ?_⟩
      · apply inner.transport
        · intro member inInit
          rw [List.dropLast_concat] at inInit
          rw [first, List.nodup_append] at frontNodup
          have notBefore := frontNodup.2.2 member inInit before (List.mem_singleton_self _)
          rw [next, Function.update_of_ne notBefore]
        · intro member inTail
          rw [← first, List.tail_cons] at inTail
          have notAfter : member ≠ after := by
            intro equal
            have inBack : after ∈ back ++ [head] := by
              rw [second]
              exact List.mem_cons_self ..
            rcases List.mem_append.mp inBack with inBack | last
            · exact apart member (List.mem_cons_of_mem _ inTail) after
                (List.mem_cons_of_mem _ inBack) equal
            · rw [List.mem_singleton.mp last] at equal
              exact (List.nodup_cons.mp frontNodup).1 (equal ▸ inTail)
          rw [prev, Function.update_of_ne notAfter]
      · rw [next, Function.update_self]
      · rw [prev, Function.update_self]
      · apply Links.Path.transport outer
        · intro member inBack
          rw [← second, List.dropLast_concat] at inBack
          have notBefore : member ≠ before := fun equal =>
            apart before beforeMember member (List.mem_cons_of_mem _ inBack) equal.symm
          rw [next, Function.update_of_ne notBefore]
        · intro member inTail
          rw [List.tail_cons] at inTail
          have notAfter : member ≠ after := by
            intro equal
            cases back with
            | nil =>
                rw [List.nil_append, List.cons.injEq] at second
                rw [← second.2] at inTail
                cases inTail
            | cons first back =>
                rw [List.cons_append, List.cons.injEq] at second
                rw [← second.2, equal, ← second.1] at inTail
                rcases List.mem_append.mp inTail with inBack | last
                · exact (List.nodup_cons.mp backNodup).1 inBack
                · have headFirst := List.mem_singleton.mp last
                  exact apart head (List.mem_cons_self ..) first (by simp) headFirst.symm
          rw [prev, Function.update_of_ne notAfter]

end Ring

end OscKernel.Lists
