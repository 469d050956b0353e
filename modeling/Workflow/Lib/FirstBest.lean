/-
Module: Workflow.Lib.FirstBest
Layer: Library
Purpose: The first of the smallest elements of a list (`List.argmin`): a loop that keeps the smallest
  value seen so far finds it, and it does not depend on the elements that are not chosen.
Trusted boundary: none
Main exports: keepLess, foldl_keepLess, argmin_filter, argmin_filter_or
-/
import Mathlib.Data.List.MinMax

universe u v

namespace Workflow.Lib

variable {α : Type u} {β : Type v} [LinearOrder β] {f : α → β}

/-- One pass of a loop that keeps the smallest value and the element it came from. -/
def keepLess (f : α → β) (best : β × Option α) (a : α) : β × Option α :=
  if f a < best.1 then (f a, some a) else best

/-- A loop that starts above all values ends at the first of the smallest ones. -/
theorem foldl_keepLess {bound : β} (l : List α) (h : ∀ a ∈ l, f a < bound) :
    l.foldl (keepLess f) (bound, none) =
      match l.argmin f with
      | none => (bound, none)
      | some m => (f m, some m) := by
  induction l using List.reverseRecOn with
  | nil => rfl
  | append_singleton l a ih =>
      have hbound : f a < bound := h a (by simp)
      rw [List.foldl_concat, ih fun b hb => h b (List.mem_append_left [a] hb), List.argmin_concat]
      cases l.argmin f with
      | none => simp [keepLess, hbound]
      | some c =>
          simp only [keepLess]
          split <;> rfl

/-- The choice stays the same when only other elements go. -/
theorem argmin_filter {q : α → Bool} {l : List α} {m : α} (h : l.argmin f = some m)
    (hq : q m = true) : (l.filter q).argmin f = some m := by
  induction l using List.reverseRecOn generalizing m with
  | nil => simp at h
  | append_singleton l a ih =>
      rw [List.argmin_concat] at h
      rw [List.filter_append]
      cases hl : l.argmin f with
      | none =>
          -- the new element is the only one
          rw [hl] at h
          obtain rfl := Option.some.inj h
          rw [List.argmin_eq_none.mp hl, List.filter_nil, List.nil_append,
            List.filter_cons_of_pos hq]
          rfl
      | some c =>
          simp only [hl] at h
          by_cases hless : f a < f c
          · -- the new element is smaller than all the old ones
            rw [if_pos hless] at h
            obtain rfl := Option.some.inj h
            rw [List.filter_cons_of_pos hq, List.filter_nil, List.argmin_concat]
            cases hkept : (l.filter q).argmin f with
            | none => rfl
            | some d =>
                have hd : d ∈ l := List.mem_of_mem_filter (List.argmin_mem hkept)
                have hle : f c ≤ f d := List.le_of_mem_argmin hd hl
                simp only [if_pos (lt_of_lt_of_le hless hle)]
          · rw [if_neg hless] at h
            obtain rfl := Option.some.inj h
            have hkept := ih hl hq
            cases hqa : q a with
            | true =>
                rw [List.filter_cons_of_pos hqa, List.filter_nil, List.argmin_concat, hkept]
                simp only [if_neg hless]
            | false =>
                rw [List.filter_cons_of_neg (by simp [hqa]), List.filter_nil, List.append_nil, hkept]

/-- The choice from some of the elements differs from the choice from all of them only where that
one is not among them. -/
theorem argmin_filter_or (q : α → Bool) (l : List α) :
    (l.filter q).argmin f = l.argmin f ∨ ∃ m, l.argmin f = some m ∧ q m = false := by
  cases h : l.argmin f with
  | none =>
      rw [List.argmin_eq_none.mp h]
      exact .inl rfl
  | some m =>
      cases hq : q m with
      | true => exact .inl (argmin_filter h hq)
      | false => exact .inr ⟨m, rfl, hq⟩

end Workflow.Lib
