/-
Module: Workflow.Lib.BinarySearch
Layer: Lib
Purpose: `bsearch`, the binary search of the C library, over a list. `cmp x` says how the key compares
  with `x`; in an array that is in order, the elements before a match are below the key.
Trusted boundary: none
Main exports: searchBetween, bsearch, InOrder, bsearch_some, bsearch_none
-/
import Mathlib.Data.List.Basic

namespace Workflow.Lib

universe u

variable {α : Type u}

/-- The search among the positions from `l` up to `u`. -/
def searchBetween (cmp : α → Int) (xs : List α) (l u : Nat) : Option α :=
  if l < u then
    let idx := (l + u) / 2
    match xs[idx]? with
    | none => none
    | some x =>
        if cmp x < 0 then searchBetween cmp xs l idx
        else if cmp x > 0 then searchBetween cmp xs (idx + 1) u
        else some x
  else none
termination_by u - l

/-- `bsearch`. -/
def bsearch (cmp : α → Int) (xs : List α) : Option α :=
  searchBetween cmp xs 0 xs.length

/-- What lies in front of an element that is not above the key is below it. -/
def InOrder (cmp : α → Int) (xs : List α) : Prop :=
  xs.Pairwise fun x y => 0 ≤ cmp y → 0 < cmp x

variable {cmp : α → Int} {xs : List α}

theorem searchBetween_some {l u : Nat} {x : α} (h : searchBetween cmp xs l u = some x) :
    x ∈ xs ∧ cmp x = 0 := by
  fun_induction searchBetween cmp xs l u with
  | case1 => cases h
  | case2 l u hlt idx y hy hneg ih => exact ih h
  | case3 l u hlt idx y hy hneg hpos ih => exact ih h
  | case4 l u hlt idx y hy hneg hpos =>
      cases h
      exact ⟨List.mem_of_getElem? hy, by omega⟩
  | case5 => cases h

theorem searchBetween_none (horder : InOrder cmp xs) {l u : Nat} (hu : u ≤ xs.length)
    (hbelow : ∀ i < l, ∀ x, xs[i]? = some x → 0 < cmp x)
    (habove : ∀ i ≥ u, ∀ x, xs[i]? = some x → cmp x < 0)
    (h : searchBetween cmp xs l u = none) : ∀ x ∈ xs, cmp x ≠ 0 := by
  have hpair : ∀ (i j : Nat) (x y : α), i < j → xs[i]? = some x → xs[j]? = some y → 0 ≤ cmp y →
      0 < cmp x := by
    intro i j x y hij hx hy
    obtain ⟨hi, rfl⟩ := List.getElem?_eq_some_iff.mp hx
    obtain ⟨hj, rfl⟩ := List.getElem?_eq_some_iff.mp hy
    exact List.pairwise_iff_getElem.mp horder i j hi hj hij
  fun_induction searchBetween cmp xs l u with
  | case1 l u hlt idx hnone =>
      have hlen := List.getElem?_eq_none_iff.mp hnone
      omega
  | case2 l u hlt idx y hy hneg ih =>
      refine ih (by omega) hbelow (fun i hi x hx => ?_) h
      rcases Nat.lt_or_eq_of_le hi with hgt | rfl
      · -- otherwise the key would be above what is in front
        by_contra hge
        have hpos := hpair idx i y x hgt hy hx (by omega)
        omega
      · rw [hy] at hx
        cases hx
        exact hneg
  | case3 l u hlt idx y hy hneg hpos ih =>
      refine ih hu (fun i hi x hx => ?_) habove h
      rcases Nat.lt_or_eq_of_le (Nat.le_of_lt_succ hi) with hless | rfl
      · exact hpair i idx x y hless hx hy (by omega)
      · rw [hy] at hx
        cases hx
        exact hpos
  | case4 => cases h
  | case5 l u hge =>
      intro x hx
      obtain ⟨i, hi⟩ := List.getElem?_of_mem hx
      rcases Nat.lt_or_ge i l with hlt | hle
      · have hpos := hbelow i hlt x hi
        omega
      · have hneg := habove i (by omega) x hi
        omega

theorem bsearch_some {x : α} (h : bsearch cmp xs = some x) : x ∈ xs ∧ cmp x = 0 :=
  searchBetween_some h

/-- What is not found is not there. -/
theorem bsearch_none (horder : InOrder cmp xs) (h : bsearch cmp xs = none) :
    ∀ x ∈ xs, cmp x ≠ 0 := by
  refine searchBetween_none horder (Nat.le_refl _) (fun i hi => absurd hi (Nat.not_lt_zero i))
    (fun i hi x hx => ?_) h
  obtain ⟨hlt, -⟩ := List.getElem?_eq_some_iff.mp hx
  omega

end Workflow.Lib
