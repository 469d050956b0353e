/-
Module: Workflow.Factory.AlgoTask
Layer: Factory
Purpose: The merge tasks of WFAlgoTaskFactory.inl. Pointers are indices into one array; `std::merge` and
  `std::inplace_merge` are the stable merge of two ranges, written to the destination.
Trusted boundary: human-reviewed model; the two library functions
Main exports: Sorted, stdMerge, inplaceMerge, MergeInput, MergeOutput, executeMerge, WFMergeTask.execute,
  WFMergeTaskCmp.execute
-/
import Workflow.Lib.Slice

namespace Workflow.Factory

open Workflow.Lib

variable {α : Type} (comp : α → α → Bool)

/-- Sorted: nothing stands behind something that is larger. -/
def Sorted (xs : List α) : Prop :=
  xs.Pairwise fun a b => comp b a = false

/-- The stable merge of two sequences. -/
def merged (xs ys : List α) : List α :=
  List.merge xs ys (StrictWeak.le comp)

/-- `std::merge`: the pointer that it returns, and the array. -/
def stdMerge (mem : List α) (first1 last1 first2 last2 dFirst : Nat) : Nat × List α :=
  let vals := merged comp (slice mem first1 last1) (slice mem first2 last2)
  (dFirst + vals.length, overwrite mem dFirst vals)

/-- `std::inplace_merge`. -/
def inplaceMerge (mem : List α) (first middle last : Nat) : List α :=
  overwrite mem first (merged comp (slice mem first middle) (slice mem middle last))

/-- `struct MergeInput`. -/
structure MergeInput where
  first1 : Nat
  last1 : Nat
  first2 : Nat
  last2 : Nat
  dFirst : Nat

/-- `struct MergeOutput`. -/
structure MergeOutput where
  first : Nat
  last : Nat
deriving DecidableEq

/-- `execute` of both merge tasks: the output, and the array. -/
def executeMerge (input : MergeInput) (mem : List α) : MergeOutput × List α :=
  let (last, mem) :=
    if input.first1 = input.dFirst ∧ input.last1 = input.first2 then
      (input.last2, inplaceMerge comp mem input.first1 input.first2 input.last2)
    else if input.first2 = input.dFirst ∧ input.last2 = input.first1 then
      (input.last1, inplaceMerge comp mem input.first2 input.first1 input.last1)
    else
      stdMerge comp mem input.first1 input.last1 input.first2 input.first2 input.dFirst
  ({ first := input.dFirst, last := last }, mem)

/-- `__WFMergeTask::execute`: the elements are compared by `operator<`. -/
def WFMergeTask.execute [LT α] [DecidableLT α] (input : MergeInput) (mem : List α) :
    MergeOutput × List α :=
  executeMerge (fun a b => decide (a < b)) input mem

/-- `__WFMergeTaskCmp::execute`. -/
def WFMergeTaskCmp.execute (input : MergeInput) (mem : List α) : MergeOutput × List α :=
  executeMerge comp input mem

end Workflow.Factory
