import OscKernel.Lists.Ring

/-!
# Lists with a head (`ex51/main.c`)

The operations on a `LIST_HEAD`.  In any sequence of them the nodes behind the head are those that
were put in and not taken out, in their order.
-/

namespace OscKernel.Lists

universe u

variable {α : Type u} [DecidableEq α]

/-- `list_pop_front` -/
def listPopFront (head : α) (links : Links α) : Links α :=
  let links := links.setPrev (links.next (links.next head)) head
  links.setNext head (links.next (links.next head))

/-- `list_push_back` -/
def listPushBack (head new : α) (links : Links α) : Links α :=
  let links := links.setNext new head
  let links := links.setPrev new (links.prev head)
  let links := links.setNext (links.prev head) new
  links.setPrev head new

/-- `list_push_front` -/
def listPushFront (head new : α) (links : Links α) : Links α :=
  let links := links.setNext new (links.next head)
  let links := links.setPrev new head
  let links := links.setPrev (links.next head) new
  links.setNext head new

/-- The calls. -/
inductive ListCall (α : Type u) where
  | popFront
  | pushBack (new : α)
  | pushFront (new : α)

namespace ListCall

/-- What a call does to the pointers. -/
def apply (head : α) (links : Links α) : ListCall α → Links α
  | .popFront => listPopFront head links
  | .pushBack new => listPushBack head new links
  | .pushFront new => listPushFront head new links

/-- What a call does to the list. -/
def nodes (nodes : List α) : ListCall α → List α
  | .popFront => nodes.tail
  | .pushBack new => nodes ++ [new]
  | .pushFront new => new :: nodes

/-- Only nodes that are not in the list are put in. -/
def Fresh (head : α) (nodes : List α) : ListCall α → Prop
  | .popFront => True
  | .pushBack new => new ∉ head :: nodes
  | .pushFront new => new ∉ head :: nodes

/-- Calls in a row. -/
inductive Calls (head : α) : List α → List (ListCall α) → Prop
  | nil {nodes} : Calls head nodes []
  | cons {nodes call calls} (fresh : call.Fresh head nodes)
      (rest : Calls head (call.nodes nodes) calls) : Calls head nodes (call :: calls)

end ListCall

namespace Ring

variable {links : Links α} {head node new : α} {nodes : List α}

omit [DecidableEq α] in
theorem next_eq (ring : Ring links head (node :: nodes)) :
    links.next head = node ∧ links.prev node = head :=
  (List.isChain_cons_cons.mp ring.path).1

theorem popFront_fields (head : α) (links : Links α) :
    listPopFront head links =
      ⟨Function.update links.next head (links.next (links.next head)),
        Function.update links.prev (links.next (links.next head)) head⟩ := rfl

/-- An empty list stays as it is, pointer by pointer. -/
theorem popFront_empty (ring : Ring links head []) : listPopFront head links = links := by
  obtain ⟨⟨next, prev⟩, _⟩ := List.isChain_cons_cons.mp ring.path
  have nextSame : Function.update links.next head head = links.next :=
    Function.update_eq_self_iff.mpr next.symm
  have prevSame : Function.update links.prev head head = links.prev :=
    Function.update_eq_self_iff.mpr prev.symm
  rw [popFront_fields, next, next, nextSame, prevSame]

/-- The first node is taken out, if there is one. -/
theorem popFront (ring : Ring links head nodes) :
    Ring (listPopFront head links) head nodes.tail := by
  cases nodes with
  | nil =>
      rw [ring.popFront_empty]
      exact ring
  | cons node nodes =>
      obtain ⟨next, prev⟩ := ring.next_eq
      have ring : Ring links head ([] ++ node :: nodes) := ring
      have same : listPopFront head links = links.unlink node := by
        rw [popFront_fields, next, ← Links.unlink_next prev rfl, ← Links.unlink_prev prev rfl]
      rw [same]
      exact ring.unlink

theorem pushBack (ring : Ring links head nodes) (fresh : new ∉ head :: nodes) :
    Ring (listPushBack head new links) head (nodes ++ [new]) :=
  ring.insertBefore fresh

theorem pushFront (ring : Ring links head nodes) (fresh : new ∉ head :: nodes) :
    Ring (listPushFront head new links) head (new :: nodes) := by
  have apart : new ≠ head := by
    rintro rfl
    exact fresh (List.mem_cons_self ..)
  have same : links.prev (links.next head) = head → new ≠ links.next head →
      listPushFront head new links = links.insertBefore (links.next head) new := by
    intro prev other
    have fields : listPushFront head new links =
        ⟨Function.update (Function.update links.next new (links.next head)) head new,
          Function.update (Function.update links.prev new head)
            (Function.update links.next new (links.next head) head) new⟩ := rfl
    rw [fields, Function.update_of_ne apart.symm, ← Links.insertBefore_next other prev,
      ← Links.insertBefore_prev prev]
  cases nodes with
  | nil =>
      obtain ⟨⟨next, prev⟩, _⟩ := List.isChain_cons_cons.mp ring.path
      rw [same (by rw [next, prev]) (by rwa [next]), next]
      exact ring.insertBefore fresh
  | cons node nodes =>
      obtain ⟨next, prev⟩ := ring.next_eq
      have other : new ≠ node := by
        rintro rfl
        exact fresh (by simp)
      rw [same (by rw [next, prev]) (by rwa [next]), next]
      have turned : Ring links node (nodes ++ [head]) := ring.rotate
      have freshTurned : new ∉ node :: (nodes ++ [head]) := by
        intro member
        apply fresh
        simpa [or_comm, or_left_comm] using member
      have around : Ring _ new ((node :: nodes) ++ [head]) :=
        (turned.insertBefore freshTurned).rotateBack
      exact around.rotateBack

end Ring

/-- After all sequences of calls the list is what the calls make of it, and where that is empty one
more `list_pop_front` changes no pointer. -/
theorem list_calls {head : α} {links : Links α} {nodes : List α} {calls : List (ListCall α)}
    (ring : Ring links head nodes) (fresh : ListCall.Calls head nodes calls) :
    Ring (calls.foldl (ListCall.apply head) links) head (calls.foldl ListCall.nodes nodes) ∧
      (calls.foldl ListCall.nodes nodes = [] →
        listPopFront head (calls.foldl (ListCall.apply head) links) =
          calls.foldl (ListCall.apply head) links) := by
  induction fresh generalizing links with
  | @nil nodes =>
      refine ⟨ring, fun empty => ?_⟩
      subst empty
      exact ring.popFront_empty
  | @cons nodes call calls fresh _ ih =>
      apply ih
      cases call with
      | popFront => exact ring.popFront
      | pushBack new => exact ring.pushBack fresh
      | pushFront new => exact ring.pushFront fresh

/-- A list with a head that nodes are put into at both ends, and one that has become empty. -/
theorem list_calls_mixed :
    Ring ([.pushBack 1, .pushFront 2, .popFront, .pushBack 2].foldl (ListCall.apply 0)
        ⟨fun _ => 0, fun _ => 0⟩) (0 : Nat) [1, 2] ∧
      listPopFront 0 ([.pushBack 1, .popFront].foldl (ListCall.apply 0)
          ⟨fun _ => 0, fun _ => 0⟩) =
        [.pushBack 1, .popFront].foldl (ListCall.apply (0 : Nat)) ⟨fun _ => 0, fun _ => 0⟩ :=
  have start : Ring ⟨fun _ => 0, fun _ => 0⟩ (0 : Nat) [] := .single rfl rfl
  have mixed : ListCall.Calls (0 : Nat) [] [.pushBack 1, .pushFront 2, .popFront, .pushBack 2] :=
    .cons (show 1 ∉ [0] by decide) (.cons (show 2 ∉ [0, 1] by decide)
      (.cons trivial (.cons (show 2 ∉ [0, 1] by decide) .nil)))
  have emptied : ListCall.Calls (0 : Nat) [] [.pushBack 1, .popFront] :=
    .cons (show 1 ∉ [0] by decide) (.cons trivial .nil)
  ⟨(list_calls start mixed).1, (list_calls start emptied).2 rfl⟩

end OscKernel.Lists
