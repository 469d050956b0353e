/-
Module: Workflow.Lib.NumberQueue
Layer: Lib
Purpose: Queues of labelled numbers from which an amount is taken from the front: numbers that reach zero
  leave, and the next one is touched only then.
Trusted boundary: none
Main exports: drain, drained, queueTotal, takeOne, queueTotal_drain,
  drained_append, drain_cons_of_le, drain_cons_of_lt, takeOne_last, takeOne_more
-/
import Mathlib.Algebra.BigOperators.Group.List.Basic
import Mathlib.Algebra.GroupWithZero.Nat
import Mathlib.Data.List.Basic

namespace Workflow.Lib

universe u

variable {ι : Type u} {n k : Nat} {i : ι} {q : List (ι × Nat)}

/-- Take `n` from the numbers, as far as they go. -/
def drain : Nat → List (ι × Nat) → List (ι × Nat)
  | _, [] => []
  | n, (i, k) :: q =>
      if n = 0 then (i, k) :: q
      else if k ≤ n then drain (n - k) q
      else (i, k - n) :: q

/-- The labels of the numbers that reach zero. -/
def drained : Nat → List (ι × Nat) → List ι
  | _, [] => []
  | n, (i, k) :: q =>
      if n = 0 then []
      else if k ≤ n then i :: drained (n - k) q
      else []

/-- What can be taken in all. -/
def queueTotal (q : List (ι × Nat)) : Nat :=
  (q.map Prod.snd).sum

@[simp] theorem drain_zero (q : List (ι × Nat)) : drain 0 q = q := by
  cases q <;> rfl

@[simp] theorem drained_zero (q : List (ι × Nat)) : drained 0 q = [] := by
  cases q <;> rfl

/-- A number that is not larger leaves the queue, and the rest is taken from the next ones. -/
theorem drain_cons_of_le (hn : n ≠ 0) (hk : k ≤ n) :
    drain n ((i, k) :: q) = drain (n - k) q ∧ drained n ((i, k) :: q) = i :: drained (n - k) q := by
  rw [drain, drained, if_neg hn, if_neg hn, if_pos hk, if_pos hk]
  exact ⟨rfl, rfl⟩

/-- A larger number is the last one that is touched. -/
theorem drain_cons_of_lt (hn : n ≠ 0) (hk : n < k) :
    drain n ((i, k) :: q) = (i, k - n) :: q ∧ drained n ((i, k) :: q) = [] := by
  rw [drain, drained, if_neg hn, if_neg hn, if_neg (Nat.not_le.mpr hk), if_neg (Nat.not_le.mpr hk)]
  exact ⟨rfl, rfl⟩

theorem queueTotal_cons (p : ι × Nat) (q : List (ι × Nat)) : queueTotal (p :: q) = p.2 + queueTotal q := by
  rw [queueTotal, List.map_cons, List.sum_cons]
  rfl

/-- In all it is the smaller one of the amount and of what is there. -/
theorem queueTotal_drain (n : Nat) (q : List (ι × Nat)) :
    queueTotal (drain n q) = queueTotal q - min n (queueTotal q) := by
  induction q generalizing n with
  | nil => simp [drain, queueTotal]
  | cons p q ih =>
      obtain ⟨i, k⟩ := p
      by_cases hn : n = 0
      · simp [hn]
      · by_cases hk : k ≤ n
        · rw [(drain_cons_of_le hn hk).1, ih, queueTotal_cons]
          dsimp only
          omega
        · rw [(drain_cons_of_lt hn (Nat.not_le.mp hk)).1, queueTotal_cons, queueTotal_cons]
          dsimp only
          omega

/-- The labels keep their order: first those that are done, then those that are left. -/
theorem drained_append (n : Nat) (q : List (ι × Nat)) :
    drained n q ++ (drain n q).map Prod.fst = q.map Prod.fst := by
  induction q generalizing n with
  | nil => rfl
  | cons p q ih =>
      obtain ⟨i, k⟩ := p
      by_cases hn : n = 0
      · simp [hn]
      · by_cases hk : k ≤ n
        · obtain ⟨hdrain, hdrained⟩ := drain_cons_of_le (i := i) (q := q) hn hk
          rw [hdrain, hdrained, List.cons_append, ih, List.map_cons]
        · obtain ⟨hdrain, hdrained⟩ := drain_cons_of_lt (i := i) (q := q) hn (Nat.not_le.mp hk)
          rw [hdrain, hdrained]
          rfl

variable [DecidableEq ι]

/-- Take one from the number of a label. -/
def takeOne (i : ι) (q : List (ι × Nat)) : List (ι × Nat) :=
  q.filterMap fun p => if p.1 = i then (if p.2 - 1 = 0 then none else some (i, p.2 - 1)) else some p

theorem takeOne_last (h : ∀ p ∈ q, p.1 = i → p.2 = 1) : takeOne i q = q.filter fun p => p.1 != i := by
  rw [← List.filterMap_eq_filter]
  refine List.filterMap_congr fun p hp => ?_
  by_cases hi : p.1 = i
  · simp [Option.guard, hi, h p hp hi]
  · simp [Option.guard, hi]

theorem takeOne_more (hk : k ≠ 1) (hpos : 0 < k) (h : ∀ p ∈ q, p.1 = i → p.2 = k) :
    takeOne i q = q.map fun p => if p.1 = i then (i, k - 1) else p := by
  rw [← List.filterMap_eq_map]
  refine List.filterMap_congr fun p hp => ?_
  dsimp only [Function.comp_apply]
  split
  · rename_i hi
    rw [h p hp hi, if_neg (by omega)]
  · rfl

/-- The labels keep their order. -/
theorem takeOne_sublist : ((takeOne i q).map Prod.fst).Sublist (q.map Prod.fst) := by
  induction q with
  | nil => exact .slnil
  | cons p q ih =>
      rw [takeOne, List.filterMap_cons, List.map_cons]
      by_cases hi : p.1 = i
      · by_cases hlast : p.2 - 1 = 0
        · rw [if_pos hi, if_pos hlast]
          exact ih.cons p.1
        · rw [if_pos hi, if_neg hlast]
          dsimp only
          rw [List.map_cons, hi]
          exact ih.cons_cons i
      · rw [if_neg hi]
        exact ih.cons_cons p.1

end Workflow.Lib
