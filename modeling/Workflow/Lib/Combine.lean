/-
Module: Workflow.Lib.Combine
Layer: Lib
Purpose: The combination of finitely many values under an associative and commutative operation that
  need not have a neutral element: `none` stands for the combination of no values. Combining some of
  the values first changes nothing.
Trusted boundary: none
Main exports: combined, combined_cons, combined_add, combined_singleton, combined_replace
-/
import Mathlib.Data.Multiset.Fold

namespace Workflow.Lib

universe u

variable {V : Type u} (op : V → V → V) [Std.Commutative op] [Std.Associative op]

/-- The combination of the values. -/
def combined (m : Multiset V) : Option V :=
  (m.map some).fold (Option.merge op) none

@[simp]
theorem combined_zero : combined op 0 = none :=
  rfl

theorem combined_cons (v : V) (m : Multiset V) :
    combined op (v ::ₘ m) = Option.merge op (some v) (combined op m) := by
  rw [combined, Multiset.map_cons, Multiset.fold_cons_left, combined]

@[simp]
theorem combined_singleton (v : V) : combined op {v} = some v := by
  rw [← Multiset.cons_zero, combined_cons, combined_zero, Option.merge_none_right]

theorem combined_add (m n : Multiset V) :
    combined op (m + n) = Option.merge op (combined op m) (combined op n) := by
  induction m using Multiset.induction with
  | empty => rw [Multiset.zero_add, combined_zero, Option.merge_none_left]
  | cons v m ih =>
      rw [Multiset.cons_add, combined_cons, combined_cons, ih]
      have hassoc : Std.Associative (Option.merge op) := inferInstance
      exact (hassoc.assoc _ _ _).symm

/-- The combination of some of the values may stand for them. -/
theorem combined_replace {taken rest : Multiset V} {v : V} (h : combined op taken = some v) :
    combined op (v ::ₘ rest) = combined op (taken + rest) := by
  rw [combined_cons, combined_add, h]

end Workflow.Lib
