/-
Module: Workflow.Lib.WeightedPick
Layer: Library
Purpose: Weighted choice: the weights of a list are laid end to end, and a number chooses the element
  whose interval contains it. Each element is chosen by as many numbers as it weighs.
Trusted boundary: none
Main exports: pick, pick_mem, pick_eq_none_iff, countP_pick
-/
import Mathlib.Algebra.BigOperators.Group.List.Basic
import Mathlib.Algebra.GroupWithZero.Nat
import Mathlib.Data.List.Count

universe u

namespace Workflow.Lib

variable {α : Type u} (weight : α → Nat)

/-- The element whose interval contains the number `x`. -/
def pick : Nat → List α → Option α
  | _, [] => none
  | x, a :: rest => if x < weight a then some a else pick (x - weight a) rest

variable {weight}

theorem pick_mem {x : Nat} {l : List α} {a : α} (h : pick weight x l = some a) : a ∈ l := by
  induction l generalizing x with
  | nil => cases h
  | cons b rest ih =>
      unfold pick at h
      split at h
      · obtain rfl := Option.some.inj h
        exact List.mem_cons_self
      · exact List.mem_cons_of_mem b (ih h)

/-- The intervals end at the sum of the weights. -/
theorem pick_eq_none_iff {x : Nat} {l : List α} :
    pick weight x l = none ↔ (l.map weight).sum ≤ x := by
  induction l generalizing x with
  | nil => simp [pick]
  | cons a rest ih =>
      rw [pick, List.map_cons, List.sum_cons]
      split
      · rename_i hin
        exact iff_of_false nofun (by omega)
      · rw [ih]
        omega

/-- The numbers below the sum that choose an element are as many as it weighs, once for each time it
occurs. -/
theorem countP_pick [DecidableEq α] (l : List α) (a : α) :
    (List.range (l.map weight).sum).countP (fun x => pick weight x l = some a) =
      l.count a * weight a := by
  induction l with
  | nil => simp
  | cons b rest ih =>
      have hfirst : (List.range (weight b)).countP
          (fun x => decide (pick weight x (b :: rest) = some a)) =
          if b = a then weight b else 0 := by
        have hsame : ∀ x ∈ List.range (weight b),
            decide (pick weight x (b :: rest) = some a) = decide (b = a) := by
          intro x hx
          rw [pick, if_pos (List.mem_range.mp hx)]
          simp
        rw [List.countP_congr fun x hx => by rw [hsame x hx]]
        by_cases heq : b = a <;> simp [heq]
      have hlater : ((List.range (rest.map weight).sum).map (weight b + ·)).countP
          (fun x => decide (pick weight x (b :: rest) = some a)) = rest.count a * weight a := by
        rw [List.countP_map, ← ih]
        refine List.countP_congr fun x _ => ?_
        have hskip : ¬ weight b + x < weight b := by omega
        simp [pick, hskip]
      rw [List.map_cons, List.sum_cons, List.range_add, List.countP_append, hfirst, hlater,
        List.count_cons]
      by_cases heq : b = a
      · simp only [heq, if_true, beq_self_eq_true, Nat.add_mul, Nat.one_mul, Nat.add_comm]
      · simp [heq]

end Workflow.Lib
