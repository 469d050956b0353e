/-
Module: Workflow.Lib.Threads
Layer: Lib
Purpose: Threads, counted and matched with the locks that they hold. When one thread goes from one
  place to another, the sum of a weight over all threads changes by the weights of the two places;
  with the weight of a predicate the sum is the number of threads for which it holds. A lock has an
  owner exactly when that thread is in the section of the lock.
Trusted boundary: none
Main exports: total, total_update, Matching, Matching.acquire, Matching.release
-/
import Mathlib.Algebra.BigOperators.Group.Finset.Piecewise
import Mathlib.Algebra.Order.BigOperators.Group.Finset

namespace Workflow.Lib

universe u v

/-! ### Sums over threads -/

section Totals

variable {ω : Type u} {α : Type v} [Fintype ω]

/-- The weights of where all threads are. -/
def total (weight : α → Nat) (place : ω → α) : Nat := ∑ w, weight (place w)

/-- When one thread moves, the sum changes by its weight alone. -/
theorem total_update [DecidableEq ω] (weight : α → Nat) (place : ω → α) (w : ω) (a : α) :
    total weight (Function.update place w a) + weight (place w) =
      total weight place + weight a := by
  have hupdate : (fun v => weight (Function.update place w a v)) =
      Function.update (fun v => weight (place v)) w (weight a) := by
    funext v
    rcases eq_or_ne v w with rfl | hne
    · simp
    · simp [hne]
  unfold total
  rw [hupdate, Finset.sum_update_of_mem (Finset.mem_univ w), Finset.sdiff_singleton_eq_erase,
    ← Finset.add_sum_erase Finset.univ (fun v => weight (place v)) (Finset.mem_univ w)]
  omega

/-- Moving between places of the same weight changes nothing. -/
theorem total_update_eq [DecidableEq ω] {weight : α → Nat} {place : ω → α} {w : ω} {a : α}
    (h : weight a = weight (place w)) :
    total weight (Function.update place w a) = total weight place := by
  have := total_update weight place w a
  omega

/-- No thread weighs anything. -/
theorem total_eq_zero {weight : α → Nat} {place : ω → α} (h : ∀ w, weight (place w) = 0) :
    total weight place = 0 :=
  Finset.sum_eq_zero fun w _ => h w

/-- Each thread weighs at most as much as all of them. -/
theorem le_total (weight : α → Nat) (place : ω → α) (w : ω) :
    weight (place w) ≤ total weight place :=
  Finset.single_le_sum (f := fun v => weight (place v)) (fun _ _ => Nat.zero_le _)
    (Finset.mem_univ w)

end Totals

/-! ### Locks and their holders -/

section Locks

variable {κ : Type u} {τ : Type v} {owner : κ → Option τ} {inside : τ → Option κ} {q : κ} {t : τ}

/-- The owner of a lock is the thread that is in its section. -/
def Matching (owner : κ → Option τ) (inside : τ → Option κ) : Prop :=
  ∀ q t, owner q = some t ↔ inside t = some q

variable [DecidableEq κ] [DecidableEq τ]

/-- A free section is entered by a thread that is in none. -/
theorem Matching.acquire (h : Matching owner inside) (howner : owner q = none)
    (hinside : inside t = none) :
    Matching (Function.update owner q (some t)) (Function.update inside t (some q)) := by
  intro q' t'
  have hold := h q' t'
  rcases eq_or_ne q' q with rfl | hq
  · rcases eq_or_ne t' t with rfl | ht
    · simp
    · rw [howner] at hold
      simpa [ht, ht.symm] using hold
  · rcases eq_or_ne t' t with rfl | ht
    · rw [hinside] at hold
      simpa [hq, hq.symm] using hold
    · simpa [hq, ht] using hold

/-- A section is left by the thread that holds it. -/
theorem Matching.release (h : Matching owner inside) (howner : owner q = some t) :
    Matching (Function.update owner q none) (Function.update inside t none) := by
  intro q' t'
  have hold := h q' t'
  have hinside := (h q t).mp howner
  rcases eq_or_ne q' q with rfl | hq
  · rcases eq_or_ne t' t with rfl | ht
    · simp
    · rw [howner] at hold
      simpa [ht, ht.symm] using hold
  · rcases eq_or_ne t' t with rfl | ht
    · rw [hinside] at hold
      simpa [hq, hq.symm] using hold
    · simpa [hq, ht] using hold

end Locks

end Workflow.Lib
