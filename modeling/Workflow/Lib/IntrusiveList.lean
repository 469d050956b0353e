/-
Module: Workflow.Lib.IntrusiveList
Layer: Lib
Purpose: Circular doubly linked lists with the links inside the nodes, as `list.h` has them. The
  operations work on the pointers; `IsList` says which list of nodes the pointers form, and each
  operation is a list operation on it as long as it is used on the right nodes. `none` is a NULL
  pointer, and following one is undefined behaviour, also `none`.
Trusted boundary: none
Main exports: Links, initListHead, listAddTail, listDel, listEmpty, IsList, listAddTail_isList,
  listDel_isList, IsList.next_head, IsList.next_after, listAddTail_other,
  listDel_other
-/
import Mathlib.Data.List.Chain
import Mathlib.Data.List.Nodup
import Mathlib.Logic.Function.Basic

namespace Workflow.Lib

universe u

variable {ι : Type u}

/-- The pointers of all nodes. -/
structure Links (ι : Type u) where
  next : ι → Option ι
  prev : ι → Option ι

/-! ### The list that the pointers form -/

/-- Two nodes that point at each other. -/
def Linked (m : Links ι) (x y : ι) : Prop :=
  m.next x = some y ∧ m.prev y = some x

/-- The pointers form the list `xs` behind `head`. -/
structure IsList (m : Links ι) (head : ι) (xs : List ι) : Prop where
  nodup : (head :: xs).Nodup
  chain : List.IsChain (Linked m) (head :: (xs ++ [head]))

/-- A chain depends on the `next` of all nodes but the last and the `prev` of all but the first. -/
theorem isChain_linked_congr {m m' : Links ι} {l : List ι} (h : List.IsChain (Linked m) l)
    (hnext : ∀ x ∈ l.dropLast, m'.next x = m.next x) (hprev : ∀ x ∈ l.tail, m'.prev x = m.prev x) :
    List.IsChain (Linked m') l := by
  induction l with
  | nil => exact List.isChain_nil
  | cons a l ih =>
      cases l with
      | nil => exact List.isChain_singleton a
      | cons b l =>
          rw [List.isChain_cons_cons] at h ⊢
          refine ⟨⟨?_, ?_⟩, ih h.2 ?_ ?_⟩
          · rw [hnext a (by simp)]
            exact h.1.1
          · rw [hprev b (by simp)]
            exact h.1.2
          · intro x hx
            exact hnext x (by simp [hx])
          · intro x hx
            exact hprev x (List.mem_of_mem_tail hx |> fun hx' => by simpa using hx')

/-- A node outside the list may change its pointers. -/
theorem IsList.congr {m m' : Links ι} {head : ι} {xs : List ι} (h : IsList m head xs)
    (hnext : ∀ x ∈ head :: xs, m'.next x = m.next x)
    (hprev : ∀ x ∈ head :: xs, m'.prev x = m.prev x) : IsList m' head xs := by
  refine ⟨h.nodup, isChain_linked_congr h.chain (fun x hx => hnext x ?_) (fun x hx => hprev x ?_)⟩
  · have hdrop : (head :: (xs ++ [head])).dropLast = head :: xs := by
      rw [← List.cons_append, List.dropLast_concat]
    rwa [hdrop] at hx
  · simp only [List.tail_cons, List.mem_append, List.mem_singleton] at hx
    rcases hx with hx | rfl
    · exact List.mem_cons_of_mem _ hx
    · exact List.mem_cons_self

theorem IsList.head_notMem {m : Links ι} {head : ι} {xs : List ι} (h : IsList m head xs) :
    head ∉ xs :=
  (List.nodup_cons.mp h.nodup).1

/-- The first node behind the head, or the head again. -/
theorem IsList.next_head {m : Links ι} {head : ι} {xs : List ι} (h : IsList m head xs) :
    m.next head = some (xs.headD head) := by
  have hchain := h.chain
  cases xs with
  | nil => exact (List.isChain_cons_cons.mp hchain).1.1
  | cons x xs => exact (List.isChain_cons_cons.mp hchain).1.1

/-- The node behind a node of the list, or the head. -/
theorem IsList.next_after {m : Links ι} {head x : ι} {before after : List ι}
    (h : IsList m head (before ++ x :: after)) : m.next x = some (after.headD head) := by
  have hchain := h.chain
  cases after with
  | nil =>
      have hring : head :: (before ++ [x] ++ [head]) = (head :: before) ++ x :: head :: [] := by
        simp
      rw [hring, List.isChain_append_cons_cons] at hchain
      exact hchain.2.1.1
  | cons y after =>
      have hring : head :: (before ++ x :: y :: after ++ [head]) =
          (head :: before) ++ x :: y :: (after ++ [head]) := by
        simp
      rw [hring, List.isChain_append_cons_cons] at hchain
      exact hchain.2.1.1

/-- The ring up to its last node. -/
theorem exists_last (head : ι) (xs : List ι) : ∃ front last, head :: xs = front ++ [last] :=
  ⟨_, _, (List.dropLast_append_getLast (List.cons_ne_nil head xs)).symm⟩

/-- The node before a node of the ring is in the ring. -/
theorem IsList.prev_mem {m : Links ι} {head x y : ι} {xs : List ι} (h : IsList m head xs)
    (hx : x ∈ head :: xs) (hprev : m.prev x = some y) : y ∈ head :: xs := by
  have hchain := h.chain
  obtain ⟨front, back, hsplit⟩ : ∃ front back, xs ++ [head] = front ++ x :: back := by
    refine List.append_of_mem ?_
    rcases List.mem_cons.mp hx with rfl | hx
    · simp
    · simp [hx]
  obtain ⟨init, last, hlast⟩ := exists_last head front
  have hring : head :: (xs ++ [head]) = init ++ last :: x :: back := by
    rw [hsplit, ← List.cons_append, hlast, List.append_assoc, List.singleton_append]
  rw [hring, List.isChain_append_cons_cons] at hchain
  have hy : last = y := Option.some.inj (hchain.2.1.2.symm.trans hprev)
  have hmem : last ∈ head :: (xs ++ [head]) := by rw [hring]; simp
  rw [hy, List.mem_cons, List.mem_append, List.mem_singleton] at hmem
  rw [List.mem_cons]
  exact hmem.elim .inl fun hmem => hmem.symm

/-- The node behind a node of the ring is in the ring. -/
theorem IsList.next_mem {m : Links ι} {head x y : ι} {xs : List ι} (h : IsList m head xs)
    (hx : x ∈ head :: xs) (hnext : m.next x = some y) : y ∈ head :: xs := by
  rcases List.mem_cons.mp hx with rfl | hmem
  · rw [h.next_head] at hnext
    obtain rfl := Option.some.inj hnext
    cases xs with
    | nil => exact List.mem_cons_self
    | cons a xs => simp
  · obtain ⟨before, after, rfl⟩ := List.append_of_mem hmem
    rw [h.next_after] at hnext
    obtain rfl := Option.some.inj hnext
    cases after with
    | nil => exact List.mem_cons_self
    | cons a after => simp

variable [DecidableEq ι]

/-! ### Operations -/

namespace Links

def setNext (m : Links ι) (x : ι) (y : Option ι) : Links ι :=
  { m with next := Function.update m.next x y }

def setPrev (m : Links ι) (x : ι) (y : Option ι) : Links ι :=
  { m with prev := Function.update m.prev x y }

@[simp] theorem setNext_prev (m : Links ι) (x : ι) (y : Option ι) : (m.setNext x y).prev = m.prev :=
  rfl

@[simp] theorem setPrev_next (m : Links ι) (x : ι) (y : Option ι) : (m.setPrev x y).next = m.next :=
  rfl

@[simp] theorem setNext_next_self (m : Links ι) (x : ι) (y : Option ι) :
    (m.setNext x y).next x = y :=
  Function.update_self ..

@[simp] theorem setPrev_prev_self (m : Links ι) (x : ι) (y : Option ι) :
    (m.setPrev x y).prev x = y :=
  Function.update_self ..

theorem setNext_next_of_ne (m : Links ι) {x z : ι} (y : Option ι) (h : z ≠ x) :
    (m.setNext x y).next z = m.next z :=
  Function.update_of_ne h ..

theorem setPrev_prev_of_ne (m : Links ι) {x z : ι} (y : Option ι) (h : z ≠ x) :
    (m.setPrev x y).prev z = m.prev z :=
  Function.update_of_ne h ..

end Links

/-- `INIT_LIST_HEAD`. -/
def initListHead (m : Links ι) (head : ι) : Links ι :=
  (m.setNext head (some head)).setPrev head (some head)

/-- `__list_add`. -/
def listAdd (m : Links ι) (node prev next : ι) : Links ι :=
  (((m.setPrev next (some node)).setNext node (some next)).setPrev node (some prev)).setNext prev
    (some node)

/-- `list_add_tail`. -/
def listAddTail (m : Links ι) (node head : ι) : Option (Links ι) :=
  (m.prev head).map fun last => listAdd m node last head

/-- `list_del`. The pointers of the node itself stay. -/
def listDel (m : Links ι) (node : ι) : Option (Links ι) :=
  (m.prev node).bind fun before => (m.next node).map fun after =>
    (m.setPrev after (some before)).setNext before (some after)

/-- `list_empty`. -/
def listEmpty (m : Links ι) (head : ι) : Bool :=
  m.next head == some head

theorem initListHead_isList (m : Links ι) (head : ι) : IsList (initListHead m head) head [] := by
  refine ⟨by simp, ?_⟩
  simp [Linked, initListHead]

/-- `list_add_tail` appends a node that is not in the list. -/
theorem listAddTail_isList {m : Links ι} {head node : ι} {xs : List ι} (h : IsList m head xs)
    (hnode : node ∉ head :: xs) :
    ∃ m', listAddTail m node head = some m' ∧ IsList m' head (xs ++ [node]) ∧
      m'.next node = some head ∧ ∀ x ∉ head :: xs, x ≠ node → m'.next x = m.next x := by
  obtain ⟨front, last, hring⟩ := exists_last head xs
  have hchain := h.chain
  rw [← List.cons_append, hring, List.append_assoc, List.singleton_append,
    List.isChain_append_cons_cons] at hchain
  obtain ⟨hfront, hlink, _⟩ := hchain
  have hmem : ∀ x ∈ head :: xs, x ≠ node := by
    rintro x hx rfl
    exact hnode hx
  have hlast : last ∈ head :: xs := by simp [hring]
  have hnodup := h.nodup
  rw [hring, List.nodup_append] at hnodup
  refine ⟨listAdd m node last head, by simp [listAddTail, hlink.2], ⟨?_, ?_⟩, ?_, ?_⟩
  · rw [← List.cons_append, List.nodup_append]
    refine ⟨h.nodup, by simp, fun x hx y hy => ?_⟩
    rw [List.mem_singleton.mp hy]
    exact hmem x hx
  · rw [List.append_assoc, ← List.cons_append, hring, List.append_assoc, List.singleton_append,
      List.singleton_append, List.isChain_append_cons_cons, List.isChain_cons_cons]
    refine ⟨isChain_linked_congr hfront (fun x hx => ?_) (fun x hx => ?_), ⟨?_, ?_⟩, ⟨?_, ?_⟩,
      List.isChain_singleton _⟩
    · rw [List.dropLast_concat] at hx
      have hne : x ≠ last := fun heq => hnodup.2.2 x hx last (by simp) heq
      have hx' : x ∈ head :: xs := by simp [hring, hx]
      simp [listAdd, Links.setNext_next_of_ne, hne, hmem x hx']
    · rw [← hring, List.tail_cons] at hx
      have hne : x ≠ head := fun heq => h.head_notMem (heq ▸ hx)
      simp [listAdd, Links.setPrev_prev_of_ne, hne, hmem x (List.mem_cons_of_mem _ hx)]
    · simp [listAdd]
    · simp [listAdd]
    · simp [listAdd, Links.setNext_next_of_ne, (hmem last hlast).symm]
    · simp [listAdd, Links.setPrev_prev_of_ne, hmem head List.mem_cons_self]
  · simp [listAdd, Links.setNext_next_of_ne, (hmem last hlast).symm]
  · intro x hx hne
    have hne' : x ≠ last := fun heq => hx (heq ▸ hlast)
    simp [listAdd, Links.setNext_next_of_ne, hne, hne']

/-- `list_del` takes a node out of the list. -/
theorem listDel_isList {m : Links ι} {head node : ι} {before after : List ι}
    (h : IsList m head (before ++ node :: after)) :
    ∃ m', listDel m node = some m' ∧ IsList m' head (before ++ after) ∧
      ∀ x ∉ head :: (before ++ after), m'.next x = m.next x := by
  obtain ⟨front, last, hring⟩ := exists_last head before
  obtain ⟨first, rest, hrest⟩ : ∃ first rest, after ++ [head] = first :: rest :=
    List.exists_cons_of_ne_nil (by simp)
  have hchain := h.chain
  have hsplit : head :: (before ++ node :: after ++ [head]) =
      front ++ last :: node :: first :: rest := by
    rw [List.append_assoc, List.cons_append, hrest, ← List.cons_append, hring]
    simp
  rw [hsplit, List.isChain_append_cons_cons, List.isChain_cons_cons] at hchain
  obtain ⟨hfront, hin, hout, hback⟩ := hchain
  have hnodup : (head :: (before ++ after)).Nodup := by
    refine List.Nodup.sublist ?_ h.nodup
    simp
  have hnodup' := hnodup
  rw [← List.cons_append, hring, List.nodup_append] at hnodup'
  have hlast : last ∈ head :: before := by simp [hring]
  have hfirst : first = head ∨ first ∈ after := by
    have hmem : first ∈ after ++ [head] := by simp [hrest]
    rcases List.mem_append.mp hmem with hmem | hmem
    · exact Or.inr hmem
    · exact Or.inl (List.mem_singleton.mp hmem)
  have hheadNot : head ∉ before ++ after := (List.nodup_cons.mp hnodup).1
  refine ⟨(m.setPrev first (some last)).setNext last (some first), ?_, ⟨hnodup, ?_⟩, ?_⟩
  · simp [listDel, hin.2, hout.1]
  · have hnew : head :: (before ++ after ++ [head]) = front ++ last :: first :: rest := by
      rw [List.append_assoc, hrest, ← List.cons_append, hring]
      simp
    rw [hnew, List.isChain_append_cons_cons]
    refine ⟨isChain_linked_congr hfront (fun x hx => ?_) (fun x hx => ?_), ⟨by simp, by simp⟩,
      isChain_linked_congr hback (fun x hx => ?_) (fun x hx => ?_)⟩
    · rw [List.dropLast_concat] at hx
      have hne : x ≠ last := by
        have hfl := List.nodup_append.mp hnodup'.1
        exact fun heq => hfl.2.2 x hx last (by simp) heq
      simp [Links.setNext_next_of_ne, hne]
    · rw [← hring, List.tail_cons] at hx
      have hne : x ≠ first := by
        rintro rfl
        rcases hfirst with rfl | hmem
        · exact hheadNot (List.mem_append_left _ hx)
        · exact (List.nodup_append.mp (List.nodup_cons.mp hnodup).2).2.2 x hx x hmem rfl
      simp [Links.setPrev_prev_of_ne, hne]
    · rw [← hrest, List.dropLast_concat] at hx
      have hne : x ≠ last := by
        rintro rfl
        exact hnodup'.2.2 x (by rw [← hring]; exact hlast) x hx rfl
      simp [Links.setNext_next_of_ne, hne]
    · have hring' : (after ++ [head]).Nodup := by
        rw [List.nodup_append]
        refine ⟨hnodup'.2.1, by simp, fun y hy z hz => ?_⟩
        rw [List.mem_singleton.mp hz]
        rintro rfl
        exact hheadNot (List.mem_append_right _ hy)
      rw [hrest, List.nodup_cons] at hring'
      have hne : x ≠ first := fun heq => hring'.1 (heq ▸ hx)
      simp [Links.setPrev_prev_of_ne, hne]
  · intro x hx
    have hne : x ≠ last := by
      rintro rfl
      exact hx (by rw [← List.cons_append]; exact List.mem_append_left _ hlast)
    simp [Links.setNext_next_of_ne, hne]

/-! ### Two lists -/

/-- `list_add_tail` leaves a list alone that shares no node with the one it works on. -/
theorem listAddTail_other {m m' : Links ι} {head head' node : ι} {xs ys : List ι}
    (h : IsList m head xs) (hadd : listAddTail m node head = some m') (hother : IsList m head' ys)
    (hdisjoint : ∀ x ∈ head' :: ys, x ∉ node :: head :: xs) : IsList m' head' ys := by
  rw [listAddTail, Option.map_eq_some_iff] at hadd
  obtain ⟨last, hlast, rfl⟩ := hadd
  have hlastMem := h.prev_mem List.mem_cons_self hlast
  refine hother.congr (fun x hx => ?_) fun x hx => ?_
  · have hx' := hdisjoint x hx
    have hne : x ≠ last := fun heq => hx' (heq ▸ List.mem_cons_of_mem node hlastMem)
    have hnode : x ≠ node := fun heq => hx' (heq ▸ List.mem_cons_self)
    simp [listAdd, Links.setNext_next_of_ne, hne, hnode]
  · have hx' := hdisjoint x hx
    have hne : x ≠ head := fun heq => hx' (by simp [heq])
    have hnode : x ≠ node := fun heq => hx' (heq ▸ List.mem_cons_self)
    simp [listAdd, Links.setPrev_prev_of_ne, hne, hnode]

/-- `list_del` leaves a list alone that shares no node with the one it works on. -/
theorem listDel_other {m m' : Links ι} {head head' node : ι} {xs ys : List ι} (h : IsList m head xs)
    (hnode : node ∈ xs) (hdel : listDel m node = some m') (hother : IsList m head' ys)
    (hdisjoint : ∀ x ∈ head' :: ys, x ∉ head :: xs) : IsList m' head' ys := by
  simp only [listDel, Option.bind_eq_some_iff, Option.map_eq_some_iff] at hdel
  obtain ⟨before, hbefore, after, hafter, rfl⟩ := hdel
  have hbeforeMem := h.prev_mem (List.mem_cons_of_mem head hnode) hbefore
  have hafterMem := h.next_mem (List.mem_cons_of_mem head hnode) hafter
  refine hother.congr (fun x hx => ?_) fun x hx => ?_
  · have hne : x ≠ before := fun heq => hdisjoint x hx (heq ▸ hbeforeMem)
    simp [Links.setNext_next_of_ne, hne]
  · have hne : x ≠ after := fun heq => hdisjoint x hx (heq ▸ hafterMem)
    simp [Links.setPrev_prev_of_ne, hne]

end Workflow.Lib
