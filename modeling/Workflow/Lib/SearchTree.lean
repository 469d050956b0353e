/-
Module: Workflow.Lib.SearchTree
Layer: Lib
Purpose: Search trees whose balancing is left open. `SearchTree.link` descends to the place of a new
  element and hangs it there; what a balanced tree does afterwards, and how it takes an element out,
  is given by `TreeOps` and only has to respect the order of the elements.
Trusted boundary: none
Main exports: SearchTree, SearchTree.inorder, SearchTree.link, TreeOps, TreeOps.Lawful,
  SearchTree.link_spec, SearchTree.link_inorder, head_erase, unbalanced, unbalanced_lawful
-/
import Mathlib.Data.List.Basic
import Mathlib.Order.Defs.Unbundled

namespace Workflow.Lib

universe u

inductive SearchTree (α : Type u) where
  | leaf
  | node (left : SearchTree α) (x : α) (right : SearchTree α)
deriving Repr

variable {α : Type u}

namespace SearchTree

/-- The elements from left to right. -/
def inorder : SearchTree α → List α
  | leaf => []
  | node left x right => left.inorder ++ x :: right.inorder

/-- Hang `x` below the place that `before` leads to: left of `y` if `before y`, else right of it. The
second component tells that `x` is leftmost now. -/
def link (before : α → Bool) (x : α) : SearchTree α → SearchTree α × Bool
  | leaf => (node leaf x leaf, true)
  | node left y right =>
      if before y then
        let (left', first) := link before x left
        (node left' y right, first)
      else
        let (right', _) := link before x right
        (node left y right', false)

/-- In a sorted tree the new element comes to stand between those that are not after it and those
that are not before it. -/
theorem link_spec (t : SearchTree α) (le : α → α → Prop)
    (htrans : ∀ {a b c}, le a b → le b c → le a c) (before : α → Bool) {x : α}
    (hsorted : t.inorder.Pairwise le)
    (hbefore : ∀ y ∈ t.inorder, before y = true → le x y)
    (hafter : ∀ y ∈ t.inorder, before y = false → le y x) :
    ∃ xs ys, t.inorder = xs ++ ys ∧ (t.link before x).1.inorder = xs ++ x :: ys ∧
      (∀ y ∈ xs, le y x) ∧ (∀ y ∈ ys, le x y) ∧ ((t.link before x).2 = true ↔ xs = []) := by
  induction t with
  | leaf => exact ⟨[], [], rfl, rfl, by simp, by simp, by simp [link]⟩
  | node left y right ihLeft ihRight =>
      simp only [inorder, List.pairwise_append, List.pairwise_cons, List.mem_cons] at hsorted
      obtain ⟨hleft, ⟨hright, hrights⟩, hcross⟩ := hsorted
      simp only [inorder, List.mem_append, List.mem_cons] at hbefore hafter
      cases hy : before y with
      | true =>
          obtain ⟨xs, ys, hin, hlink, hxs, hys, hfirst⟩ := ihLeft hleft
            (fun z hz => hbefore z (.inl hz)) (fun z hz => hafter z (.inl hz))
          have hxy := hbefore y (.inr (.inl rfl)) hy
          refine ⟨xs, ys ++ y :: right.inorder, ?_, ?_, hxs, fun z hz => ?_, ?_⟩
          · simp [inorder, hin]
          · simp [link, hy, inorder, hlink]
          · simp only [List.mem_append, List.mem_cons] at hz
            rcases hz with hz | rfl | hz
            · exact hys z hz
            · exact hxy
            · exact htrans hxy (hright z hz)
          · simpa [link, hy] using hfirst
      | false =>
          obtain ⟨xs, ys, hin, hlink, hxs, hys, -⟩ := ihRight hrights
            (fun z hz => hbefore z (.inr (.inr hz))) (fun z hz => hafter z (.inr (.inr hz)))
          have hyx := hafter y (.inr (.inl rfl)) hy
          refine ⟨left.inorder ++ y :: xs, ys, ?_, ?_, fun z hz => ?_, hys, ?_⟩
          · simp [inorder, hin]
          · simp [link, hy, inorder, hlink]
          · simp only [List.mem_append, List.mem_cons] at hz
            rcases hz with hz | rfl | hz
            · exact htrans (hcross z hz y (.inl rfl)) hyx
            · exact hyx
            · exact hxs z hz
          · simp [link, hy]

/-- A monotone test splits a list. -/
theorem exists_split_of_mono {before : α → Bool} {l : List α}
    (hmono : l.Pairwise fun a b => before a = true → before b = true) :
    ∃ xs ys, l = xs ++ ys ∧ (∀ y ∈ xs, before y = false) ∧ ∀ y ∈ ys, before y = true := by
  induction hmono with
  | nil => exact ⟨[], [], rfl, by simp, by simp⟩
  | cons hhead htail ih =>
      rename_i a l
      cases ha : before a with
      | true =>
          refine ⟨[], a :: l, rfl, by simp, fun y hy => ?_⟩
          rcases List.mem_cons.mp hy with rfl | hy
          · exact ha
          · exact hhead y hy ha
      | false =>
          obtain ⟨xs, ys, rfl, hxs, hys⟩ := ih
          exact ⟨a :: xs, ys, rfl, List.forall_mem_cons.mpr ⟨ha, hxs⟩, hys⟩

/-- The new element comes between those that it is not before and those that it is before, whatever
the shape of the tree is. -/
theorem link_inorder (t : SearchTree α) {before : α → Bool} {xs ys : List α}
    (hsplit : t.inorder = xs ++ ys) (hxs : ∀ y ∈ xs, before y = false)
    (hys : ∀ y ∈ ys, before y = true) (x : α) :
    (t.link before x).1.inorder = xs ++ x :: ys := by
  induction t generalizing xs ys with
  | leaf =>
      obtain ⟨rfl, rfl⟩ := List.append_eq_nil_iff.mp hsplit.symm
      rfl
  | node left y right ihLeft ihRight =>
      rw [inorder] at hsplit
      rcases List.append_eq_append_iff.mp hsplit with ⟨zs, rfl, hright⟩ | ⟨zs, hleft, rfl⟩
      · cases zs with
        | nil =>
            obtain rfl : y :: right.inorder = ys := hright
            simp [link, hys y List.mem_cons_self, inorder,
              ihLeft (List.append_nil _).symm (by simpa using hxs) (by simp)]
        | cons z zs =>
            rw [List.cons_append, List.cons.injEq] at hright
            obtain ⟨rfl, hrest⟩ := hright
            have hy : before y = false := hxs y (by simp)
            simp [link, hy, inorder, ihRight hrest (fun w hw => hxs w (by simp [hw])) hys]
      · have hy : before y = true := hys y (by simp)
        simp [link, hy, inorder, ihLeft hleft hxs fun w hw => hys w (by simp [hw])]

end SearchTree

/-! ### What a balanced tree does -/

/-- The element after `x` in a list. -/
def successor [DecidableEq α] (x : α) : List α → Option α
  | [] => none
  | y :: rest => if y = x then rest.head? else successor x rest

/-- The operations of a balanced tree that move elements. -/
structure TreeOps (α : Type u) where
  insertColor : SearchTree α → α → SearchTree α
  erase : SearchTree α → α → SearchTree α
  next : SearchTree α → α → Option α

/-- They respect the order of the elements. -/
structure TreeOps.Lawful [DecidableEq α] (ops : TreeOps α) : Prop where
  insertColor : ∀ t x, (ops.insertColor t x).inorder = t.inorder
  erase : ∀ t x, (ops.erase t x).inorder = t.inorder.erase x
  next : ∀ t x, ops.next t x = successor x t.inorder

/-- The first element after one was taken out. -/
theorem head_erase [DecidableEq α] (x : α) (l : List α) :
    (l.erase x).head? = if l.head? = some x then successor x l else l.head? := by
  cases l with
  | nil => rfl
  | cons y rest =>
      rcases eq_or_ne y x with rfl | hne
      · simp [successor]
      · simp [hne]

/-! ### A tree without balancing -/

namespace SearchTree

/-- All of `left` before all of `right`. -/
def join : SearchTree α → SearchTree α → SearchTree α
  | leaf, right => right
  | node l x r, right => node l x (join r right)

def erase [DecidableEq α] (x : α) : SearchTree α → SearchTree α
  | leaf => leaf
  | node left y right =>
      if x ∈ left.inorder then node (erase x left) y right
      else if y = x then join left right
      else node left y (erase x right)

theorem join_inorder (left right : SearchTree α) :
    (join left right).inorder = left.inorder ++ right.inorder := by
  induction left with
  | leaf => rfl
  | node l x r _ ih => simp [join, inorder, ih]

theorem erase_inorder [DecidableEq α] (x : α) (t : SearchTree α) :
    (t.erase x).inorder = t.inorder.erase x := by
  induction t with
  | leaf => rfl
  | node left y right ihLeft ihRight =>
      simp only [erase, inorder]
      split
      · rename_i hmem
        rw [List.erase_append_left _ hmem, inorder, ihLeft]
      · rename_i hmem
        rw [List.erase_append_right _ hmem, List.erase_cons]
        split
        · rename_i heq
          simp [heq, join_inorder]
        · rename_i hne
          simp [hne, inorder, ihRight]

end SearchTree

/-- The operations of a tree that is never balanced. -/
def unbalanced [DecidableEq α] : TreeOps α where
  insertColor := fun t _ => t
  erase := fun t x => t.erase x
  next := fun t x => successor x t.inorder

theorem unbalanced_lawful [DecidableEq α] : (unbalanced (α := α)).Lawful :=
  ⟨fun _ _ => rfl, fun t x => t.erase_inorder x, fun _ _ => rfl⟩

end Workflow.Lib
