/-
Module: Workflow.Lib.Slice
Layer: Lib
Purpose: Ranges of an array, given by the first index and the one behind the last, and writing over them.
Trusted boundary: none
Main exports: slice, overwrite, slice_overwrite_self, slice_append, SameOn, SameOutside, slice_congr,
  StrictWeak, StrictWeak.le_trans, StrictWeak.le_total
-/
import Mathlib.Data.List.Basic

namespace Workflow.Lib

universe u

variable {α : Type u} {mem vals : List α} {first mid last d : Nat}

/-- The elements of `[first, last)`. -/
def slice (mem : List α) (first last : Nat) : List α :=
  (mem.drop first).take (last - first)

/-- `vals` written from `d` on. -/
def overwrite (mem : List α) (d : Nat) (vals : List α) : List α :=
  mem.take d ++ vals ++ mem.drop (d + vals.length)

theorem length_slice (first : Nat) (h : last ≤ mem.length) :
    (slice mem first last).length = last - first := by
  rw [slice, List.length_take, List.length_drop]
  omega

@[simp] theorem slice_self (mem : List α) (first : Nat) : slice mem first first = [] := by
  rw [slice, Nat.sub_self, List.take_zero]

theorem length_overwrite (h : d + vals.length ≤ mem.length) :
    (overwrite mem d vals).length = mem.length := by
  simp only [overwrite, List.length_append, List.length_take, List.length_drop]
  omega

/-- An element of the array after a write. -/
theorem getElem?_overwrite (h : d + vals.length ≤ mem.length) (i : Nat) :
    (overwrite mem d vals)[i]? =
      if i < d then mem[i]? else if i < d + vals.length then vals[i - d]? else mem[i]? := by
  have hd : (mem.take d).length = d := by
    rw [List.length_take]
    omega
  rw [overwrite, List.append_assoc]
  split
  · rename_i hi
    rw [List.getElem?_append_left (by omega), List.getElem?_take_of_lt hi]
  · rename_i hi
    rw [List.getElem?_append_right (by omega), hd]
    split
    · exact List.getElem?_append_left (by omega)
    · rw [List.getElem?_append_right (by omega), List.getElem?_drop]
      congr 1
      omega

/-- The elements of a range are those of the array. -/
theorem getElem?_slice (i : Nat) :
    (slice mem first last)[i]? = if i < last - first then mem[first + i]? else none := by
  rw [slice, List.getElem?_take]
  split
  · rw [List.getElem?_drop]
  · rfl

/-- What was written is read back. -/
theorem slice_overwrite_self (h : d + vals.length ≤ mem.length) :
    slice (overwrite mem d vals) d (d + vals.length) = vals := by
  refine List.ext_getElem? fun i => ?_
  rw [getElem?_slice, getElem?_overwrite h]
  split
  · rw [if_neg (by omega), if_pos (by omega), Nat.add_sub_cancel_left]
  · rw [List.getElem?_eq_none (by omega)]

/-- Two ranges that meet make one. -/
theorem slice_append (hfirst : first ≤ mid) (hlast : mid ≤ last) :
    slice mem first mid ++ slice mem mid last = slice mem first last := by
  have hsplit : last - first = (mid - first) + (last - mid) := by omega
  rw [slice, slice, slice, hsplit, List.take_add, List.drop_drop]
  congr 3
  omega

/-- The front of a range is a range. -/
theorem take_slice {k : Nat} (h : first + k ≤ last) :
    (slice mem first last).take k = slice mem first (first + k) := by
  rw [slice, slice, List.take_take, Nat.add_sub_cancel_left, Nat.min_eq_left (by omega)]

/-- So is its end. -/
theorem drop_slice {k : Nat} (mem : List α) (first last : Nat) :
    (slice mem first last).drop k = slice mem (first + k) last := by
  rw [slice, slice, List.drop_take, List.drop_drop, Nat.sub_sub]

/-! ### Arrays that agree -/

/-- The arrays agree in `[first, last)`. -/
def SameOn (mem mem' : List α) (first last : Nat) : Prop :=
  ∀ i, first ≤ i → i < last → mem[i]? = mem'[i]?

/-- The arrays agree everywhere else. -/
def SameOutside (mem mem' : List α) (first last : Nat) : Prop :=
  ∀ i, i < first ∨ last ≤ i → mem[i]? = mem'[i]?

variable {mem' mem'' : List α} {a b : Nat}

theorem SameOn.refl (mem : List α) (first last : Nat) : SameOn mem mem first last :=
  fun _ _ _ => rfl

/-- Arrays that agree on a range agree on each part of it. -/
theorem SameOn.mono (h : SameOn mem mem' first last) (ha : first ≤ a) (hb : b ≤ last) :
    SameOn mem mem' a b :=
  fun i hi hi' => h i (Nat.le_trans ha hi) (Nat.lt_of_lt_of_le hi' hb)

theorem SameOutside.refl (mem : List α) (first last : Nat) : SameOutside mem mem first last :=
  fun _ _ => rfl

/-- What two steps leave alone stays as it is. -/
theorem SameOutside.trans (h : SameOutside mem mem' first last)
    (h' : SameOutside mem' mem'' first last) : SameOutside mem mem'' first last :=
  fun i hi => (h i hi).trans (h' i hi)

/-- Outside of a larger range less is said. -/
theorem SameOutside.mono (h : SameOutside mem mem' a b) (ha : first ≤ a) (hb : b ≤ last) :
    SameOutside mem mem' first last :=
  fun i hi => h i (by omega)

/-- What lies beside the range is the same. -/
theorem SameOutside.sameOn (h : SameOutside mem mem' a b) (hbeside : last ≤ a ∨ b ≤ first) :
    SameOn mem mem' first last :=
  fun i hi hi' => h i (by omega)

/-- A range depends only on the elements in it. -/
theorem slice_congr (h : SameOn mem mem' first last) :
    slice mem first last = slice mem' first last := by
  refine List.ext_getElem? fun i => ?_
  rw [getElem?_slice, getElem?_slice]
  split
  · exact h _ (by omega) (by omega)
  · rfl

/-- Only the range that is written changes. -/
theorem sameOutside_overwrite (h : d + vals.length ≤ mem.length) :
    SameOutside mem (overwrite mem d vals) d (d + vals.length) := by
  intro i hi
  rw [getElem?_overwrite h]
  split
  · rfl
  · rw [if_neg (by omega)]

/-! ### Orders -/

/-- A comparison that is a strict weak order. -/
structure StrictWeak (comp : α → α → Bool) : Prop where
  irrefl : ∀ a, comp a a = false
  trans : ∀ a b c, comp a b = true → comp b c = true → comp a c = true
  split : ∀ a b c, comp a c = true → comp a b = true ∨ comp b c = true

namespace StrictWeak

variable {comp : α → α → Bool}

/-- `a` may stand before `b`. -/
abbrev le (comp : α → α → Bool) (a b : α) : Bool :=
  !comp b a

/-- The order of a comparison is transitive. -/
theorem le_trans (h : StrictWeak comp) (a b c : α) (hab : le comp a b = true) (hbc : le comp b c = true) :
    le comp a c = true := by
  simp only [le, Bool.not_eq_eq_eq_not, Bool.not_true] at hab hbc ⊢
  by_contra hca
  rcases h.split c b a (Bool.not_eq_false _ ▸ hca) with hcb | hba
  · rw [hcb] at hbc
    cases hbc
  · rw [hba] at hab
    cases hab

/-- Any two elements are in order one way or the other. -/
theorem le_total (h : StrictWeak comp) (a b : α) : (le comp a b || le comp b a) = true := by
  by_contra hnot
  simp only [le, Bool.or_eq_true, Bool.not_eq_eq_eq_not, Bool.not_true, not_or,
    Bool.not_eq_false] at hnot
  have hself := h.trans a b a hnot.2 hnot.1
  rw [h.irrefl] at hself
  cases hself

end StrictWeak

end Workflow.Lib
