/-
Module: Workflow.Proofs.MergeTask
Layer: Proofs
Purpose: When a merge task merges. The two branches in place do; the branch with a destination of its own
  passes an empty second range to `std::merge`.
Trusted boundary: none
Main exports: merged_sorted, Placed, Merges, executeMerge_iff, mergeTask_iff
-/
import Workflow.Factory.AlgoTask

namespace Workflow.Factory

open Workflow.Lib

variable {α : Type} {comp : α → α → Bool} {input : MergeInput} {mem : List α}

theorem merged_sorted (h : StrictWeak comp) {xs ys : List α} (hx : Sorted comp xs)
    (hy : Sorted comp ys) : Sorted comp (merged comp xs ys) := by
  have hle : ∀ {zs : List α}, Sorted comp zs ↔ zs.Pairwise fun a b => StrictWeak.le comp a b = true := by
    intro zs
    simp only [Sorted, StrictWeak.le, Bool.not_eq_eq_eq_not, Bool.not_true]
  exact hle.mpr (List.pairwise_merge h.le_trans h.le_total xs ys (hle.mp hx) (hle.mp hy))

theorem merged_perm (xs ys : List α) : (merged comp xs ys).Perm (xs ++ ys) :=
  List.merge_perm_append _

theorem merged_length (xs ys : List α) : (merged comp xs ys).length = xs.length + ys.length :=
  List.length_merge _ _ _

/-- The ranges are in the array, and the destination is the first of two adjacent ranges or has room
beside both. -/
structure Placed (input : MergeInput) (mem : List α) : Prop where
  first : input.first1 ≤ input.last1 ∧ input.last1 ≤ mem.length
  second : input.first2 ≤ input.last2 ∧ input.last2 ≤ mem.length
  destination :
    (input.dFirst = input.first1 ∧ input.last1 = input.first2) ∨
    (input.dFirst = input.first2 ∧ input.last2 = input.first1) ∨
    (input.dFirst + (input.last1 - input.first1) + (input.last2 - input.first2) ≤ mem.length ∧
      (input.dFirst + (input.last1 - input.first1) + (input.last2 - input.first2) ≤ input.first1 ∨
        input.last1 ≤ input.dFirst) ∧
      (input.dFirst + (input.last1 - input.first1) + (input.last2 - input.first2) ≤ input.first2 ∨
        input.last2 ≤ input.dFirst))

/-- What a merge task is to leave: the output begins at the destination, is as long as both ranges, and
holds their elements in order. -/
structure Merges (comp : α → α → Bool) (input : MergeInput) (mem : List α)
    (result : MergeOutput × List α) : Prop where
  first : result.1.first = input.dFirst
  length : result.1.last - result.1.first =
    (input.last1 - input.first1) + (input.last2 - input.first2)
  sorted : Sorted comp (slice result.2 result.1.first result.1.last)
  perm : (slice result.2 result.1.first result.1.last).Perm
    (slice mem input.first1 input.last1 ++ slice mem input.first2 input.last2)

/-- Two adjacent ranges are merged in place. -/
theorem slice_inplaceMerge (comp : α → α → Bool) {first middle last : Nat}
    (hfirst : first ≤ middle) (hlast : middle ≤ last) (h : last ≤ mem.length) :
    slice (inplaceMerge comp mem first middle last) first last =
      merged comp (slice mem first middle) (slice mem middle last) := by
  have hlen : (merged comp (slice mem first middle) (slice mem middle last)).length = last - first := by
    rw [merged_length, length_slice _ (by omega), length_slice _ h]
    omega
  have hroom : first + (merged comp (slice mem first middle) (slice mem middle last)).length ≤
      mem.length := by
    omega
  have hself := slice_overwrite_self hroom
  rwa [hlen, Nat.add_sub_cancel' (by omega)] at hself

/-- The destination is the first of two adjacent ranges. -/
def MergeInput.InPlace (input : MergeInput) : Prop :=
  (input.first1 = input.dFirst ∧ input.last1 = input.first2) ∨
    (input.first2 = input.dFirst ∧ input.last2 = input.first1)

theorem executeMerge_iff (h : StrictWeak comp) (hplaced : Placed input mem)
    (hfirst : Sorted comp (slice mem input.first1 input.last1))
    (hsecond : Sorted comp (slice mem input.first2 input.last2)) :
    Merges comp input mem (executeMerge comp input mem) ↔
      input.InPlace ∨ input.first2 = input.last2 := by
  obtain ⟨⟨hle1, hend1⟩, ⟨hle2, hend2⟩, hdest⟩ := hplaced
  unfold executeMerge MergeInput.InPlace
  by_cases hfront : input.first1 = input.dFirst ∧ input.last1 = input.first2
  · rw [if_pos hfront]
    refine iff_of_true ?_ (.inl (.inl hfront))
    obtain ⟨hd, hadjacent⟩ := hfront
    have hle : input.first1 ≤ input.first2 := by omega
    have hslice := slice_inplaceMerge comp hle hle2 hend2
    rw [hd] at hslice hfirst
    refine ⟨rfl, by dsimp only; omega, ?_, ?_⟩
    · dsimp only
      rw [hd, hslice]
      exact merged_sorted h (hadjacent ▸ hfirst) hsecond
    · dsimp only
      rw [hd, hslice, hadjacent]
      exact merged_perm _ _
  · rw [if_neg hfront]
    by_cases hback : input.first2 = input.dFirst ∧ input.last2 = input.first1
    · rw [if_pos hback]
      refine iff_of_true ?_ (.inl (.inr hback))
      obtain ⟨hd, hadjacent⟩ := hback
      have hle : input.first2 ≤ input.first1 := by omega
      have hslice := slice_inplaceMerge comp hle hle1 hend1
      rw [hd] at hslice hsecond
      refine ⟨rfl, by dsimp only; omega, ?_, ?_⟩
      · dsimp only
        rw [hd, hslice]
        exact merged_sorted h (hadjacent ▸ hsecond) hfirst
      · dsimp only
        rw [hd, hslice, hadjacent]
        exact (merged_perm _ _).trans List.perm_append_comm
    · rw [if_neg hback, or_iff_right (not_or.mpr ⟨hfront, hback⟩)]
      have hlen1 := length_slice input.first1 hend1
      have hcopy : merged comp (slice mem input.first1 input.last1) (slice mem input.first2 input.first2) =
          slice mem input.first1 input.last1 := by
        rw [slice_self, merged, List.merge_right]
      rw [stdMerge, hcopy, hlen1]
      dsimp only
      constructor
      · intro hmerges
        have hlength := hmerges.length
        dsimp only at hlength
        omega
      · intro hempty
        have hroom : input.dFirst + (slice mem input.first1 input.last1).length ≤ mem.length := by
          rcases hdest with ⟨hd, hadjacent⟩ | ⟨hd, hadjacent⟩ | ⟨hroom, -⟩
          · exact absurd ⟨hd.symm, hadjacent⟩ hfront
          · exact absurd ⟨hd.symm, hadjacent⟩ hback
          · omega
        have hself := slice_overwrite_self hroom
        rw [hlen1] at hself
        refine ⟨rfl, by dsimp only; omega, ?_, ?_⟩
        · dsimp only
          rwa [hself]
        · dsimp only
          rw [hself, hempty, slice_self, List.append_nil]

/-- Both merge tasks, on sorted ranges: they merge if and only if the destination is the first of two
adjacent ranges, or the second range is empty. -/
theorem mergeTask_iff {α : Type} [LT α] [DecidableLT α]
    (hlt : StrictWeak fun a b : α => decide (a < b)) {comp : α → α → Bool} (hcomp : StrictWeak comp)
    {input : MergeInput} {mem : List α} (hplaced : Placed input mem) :
    (Sorted (fun a b : α => decide (a < b)) (slice mem input.first1 input.last1) →
      Sorted (fun a b : α => decide (a < b)) (slice mem input.first2 input.last2) →
      (Merges (fun a b : α => decide (a < b)) input mem (WFMergeTask.execute input mem) ↔
        input.InPlace ∨ input.first2 = input.last2)) ∧
    (Sorted comp (slice mem input.first1 input.last1) →
      Sorted comp (slice mem input.first2 input.last2) →
      (Merges comp input mem (WFMergeTaskCmp.execute comp input mem) ↔
        input.InPlace ∨ input.first2 = input.last2)) :=
  ⟨executeMerge_iff hlt hplaced, executeMerge_iff hcomp hplaced⟩

theorem strictWeak_nat : StrictWeak fun a b : Nat => decide (a < b) where
  irrefl := by simp
  trans := by
    intro a b c hab hbc
    exact decide_eq_true (Nat.lt_trans (of_decide_eq_true hab) (of_decide_eq_true hbc))
  split := by
    intro a b c hac
    simp only [decide_eq_true_eq] at hac ⊢
    omega

instance (xs : List α) : Decidable (Sorted comp xs) :=
  inferInstanceAs (Decidable (xs.Pairwise fun a b => comp b a = false))

/-- Two adjacent ranges, merged at the first one. -/
theorem mergeTask_iff_adjacent :
    (WFMergeTask.execute ⟨0, 2, 2, 4, 0⟩ [1, 3, 2, 4]).2 = [1, 2, 3, 4] ∧
      (Merges (fun a b => decide (a < b)) ⟨0, 2, 2, 4, 0⟩ [1, 3, 2, 4]
        (WFMergeTask.execute ⟨0, 2, 2, 4, 0⟩ [1, 3, 2, 4]) ↔
          MergeInput.InPlace ⟨0, 2, 2, 4, 0⟩ ∨ 2 = 4) := by
  constructor
  · simp [WFMergeTask.execute, executeMerge, inplaceMerge, merged, slice, overwrite]
  · exact (mergeTask_iff strictWeak_nat strictWeak_nat ⟨by decide, by decide, by decide⟩).1
      (by decide) (by decide)

/-- A separate destination: the second range is left out. -/
theorem mergeTask_separate :
    Placed ⟨0, 2, 2, 4, 4⟩ [1, 3, 2, 4, 0, 0, 0, 0] ∧
      WFMergeTask.execute ⟨0, 2, 2, 4, 4⟩ [1, 3, 2, 4, 0, 0, 0, 0] = (⟨4, 6⟩, [1, 3, 2, 4, 1, 3, 0, 0]) ∧
      ¬ Merges (fun a b => decide (a < b)) ⟨0, 2, 2, 4, 4⟩ [1, 3, 2, 4, 0, 0, 0, 0]
        (WFMergeTask.execute ⟨0, 2, 2, 4, 4⟩ [1, 3, 2, 4, 0, 0, 0, 0]) := by
  have hrun : WFMergeTask.execute ⟨0, 2, 2, 4, 4⟩ [1, 3, 2, 4, 0, 0, 0, 0] =
      (⟨4, 6⟩, [1, 3, 2, 4, 1, 3, 0, 0]) := by
    simp [WFMergeTask.execute, executeMerge, stdMerge, merged, slice, overwrite]
  refine ⟨⟨by decide, by decide, by decide⟩, hrun, fun h => ?_⟩
  rw [hrun] at h
  exact absurd h.length (by decide)

end Workflow.Factory
