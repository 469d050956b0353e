/-
Module: Workflow.Lib.RingBuffer
Layer: Lib
Purpose: A ring of `c` cells read as a list: `window cells c front n` are the `n` cells from `front`
  on, around the end. What writing behind the window, writing in front of it and dropping its first
  cell do to the list.
Trusted boundary: none
Main exports: window, window_push_back, window_push_front, window_pop, window_congr
-/
import Mathlib.Data.List.Basic
import Mathlib.Logic.Function.Basic
import Mathlib.Algebra.Order.Group.Nat

namespace Workflow.Lib

variable {α : Type*}

/-- The `n` cells of a ring of `c` cells that follow `front`, `front` included. -/
def window (cells : Nat → α) (c front n : Nat) : List α :=
  (List.range n).map fun k => cells ((front + k) % c)

/-- Only the cells in the window count. -/
theorem window_congr {cells cells' : Nat → α} {c c' front front' n : Nat}
    (h : ∀ k, k < n → cells ((front + k) % c) = cells' ((front' + k) % c')) :
    window cells c front n = window cells' c' front' n := by
  unfold window
  exact List.map_congr_left fun k hk => h k (List.mem_range.mp hk)

/-- Two places of a ring that are less than a turn apart differ. -/
theorem ring_index_ne {c front i j : Nat} (hij : i < j) (hj : j < c) :
    (front + i) % c ≠ (front + j) % c := by
  intro h
  have hzero := Nat.sub_mod_eq_zero_of_mod_eq h.symm
  rw [show front + j - (front + i) = j - i by omega, Nat.mod_eq_of_lt (by omega)] at hzero
  omega

/-- A place of a ring that is less than a turn behind the front is not the front. -/
theorem ring_front_ne {c front j : Nat} (hfront : front < c) (hpos : 0 < j) (hj : j < c) :
    front ≠ (front + j) % c := by
  have hne := @ring_index_ne c front 0 j hpos hj
  rwa [Nat.add_zero, Nat.mod_eq_of_lt hfront] at hne

/-- Writing to the cell behind the window makes it longer. -/
theorem window_push_back (cells : Nat → α) {c front n : Nat} (hn : n < c) (x : α) :
    window (Function.update cells ((front + n) % c) x) c front (n + 1) =
      window cells c front n ++ [x] := by
  have hold : window (Function.update cells ((front + n) % c) x) c front n =
      window cells c front n :=
    window_congr fun k hk => Function.update_of_ne (ring_index_ne hk hn) _ _
  unfold window at hold ⊢
  rw [List.range_succ, List.map_append, hold]
  simp

/-- The first cell and the others. -/
theorem window_pop (cells : Nat → α) {c front : Nat} (hfront : front < c) (n : Nat) :
    window cells c front (n + 1) = cells front :: window cells c ((front + 1) % c) n := by
  unfold window
  rw [List.range_succ_eq_map, List.map_cons, List.map_map, Nat.add_zero, Nat.mod_eq_of_lt hfront]
  congr 1
  refine List.map_congr_left fun k _ => ?_
  simp only [Function.comp_apply, Nat.succ_eq_add_one, Nat.mod_add_mod]
  congr 2
  omega

/-- Writing to the cell in front of the window. -/
theorem window_push_front (cells : Nat → α) {c front front' n : Nat} (hfront : front' < c)
    (hnext : (front' + 1) % c = front) (hn : n < c) (x : α) :
    window (Function.update cells front' x) c front' (n + 1) = x :: window cells c front n := by
  rw [window_pop _ hfront, hnext, Function.update_self]
  congr 1
  refine window_congr fun k hk => Function.update_of_ne ?_ _ _
  have hne := ring_front_ne hfront (Nat.succ_pos k) (show k + 1 < c by omega)
  rw [← hnext, Nat.mod_add_mod, Nat.add_assoc, Nat.add_comm 1 k]
  exact hne.symm

end Workflow.Lib
