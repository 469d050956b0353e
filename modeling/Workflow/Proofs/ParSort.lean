/-
Module: Workflow.Proofs.ParSort
Layer: Proofs
Purpose: Parallel sort in every order of its events. `Valid` says what a series has made of the range it
  is there for: untouched, in two halves that are being sorted, in two sorted halves, or sorted. Every
  event keeps it and leaves the rest of the array alone, so that the ranges in work stay apart; every
  event also makes the tree lighter, so that the events come to an end.
Trusted boundary: none
Main exports: Series.active, Series.weight, Valid, Moves, Valid.atPath, Valid.active, Valid.progress,
  parSort_correct
-/
import Workflow.Factory.ParSort
import Workflow.Proofs.MergeTask

namespace Workflow.Factory

open Workflow.Lib

variable {α : Type} {comp : α → α → Bool} {orig mem mem' : List α} {cb : Bool}
  {first last depth : Nat} {rest : Deque SortItem} {s s' : Series α} {w w' : SortWorld α}

/-! ### Series -/

namespace Series

/-- A series that has not come to its end. -/
def live : Series α → Nat
  | .ended => 0
  | _ => 1

/-- The sort is behind the series. -/
def isOver : Series α → Bool
  | .ended => true
  | .other _ _ => true
  | _ => false

/-- The ranges that the executor works on, or will. -/
def active : Series α → List (Nat × Nat)
  | .requested t _ => [(t.first, t.last)]
  | .executing t _ _ => [(t.first, t.last)]
  | .parallel _ series1 series2 _ => series1.active ++ series2.active
  | _ => []

/-- How many events a task takes at most that may be split `n` times. -/
def budget : Nat → Nat
  | 0 => 3
  | n + 1 => 2 * budget n + 4

/-- How many events are left at most. -/
def weight : Series α → Nat
  | .ready t _ => if t.flag then 3 else budget (7 - t.depth)
  | .requested _ _ => 2
  | .executing _ _ _ => 1
  | .parallel _ series1 series2 _ => series1.weight + series2.weight + 3
  | _ => 0

theorem three_le_budget (n : Nat) : 3 ≤ budget n := by
  cases n with
  | zero => exact Nat.le_refl _
  | succ n =>
      rw [budget]
      omega

end Series

/-! ### What a series is there for -/

/-- A task of the tree. -/
structure Fits (cb : Bool) (first last depth : Nat) (t : ParSortTask) : Prop where
  first : t.first = first
  last : t.last = last
  depth : t.depth = depth
  callback : t.callback = cb
  moved : t.moved = false

/-- The range before a task has worked on it: untouched, or in two sorted halves. -/
structure Before (comp : α → α → Bool) (orig mem : List α) (first last : Nat) (t : ParSortTask) :
    Prop where
  fresh : t.flag = false → SameOn mem orig first last
  halves : t.flag = true →
    Sorted comp (slice mem first t.middle) ∧ Sorted comp (slice mem t.middle last)
  perm : (slice mem first last).Perm (slice orig first last)

/-- The range when it is sorted. -/
structure Done (comp : α → α → Bool) (orig mem : List α) (first last : Nat) : Prop where
  sorted : Sorted comp (slice mem first last)
  perm : (slice mem first last).Perm (slice orig first last)

/-- What a series that sorts `[first, last)` and goes on with `rest` has made of the array `orig`. -/
inductive Valid (comp : α → α → Bool) (orig mem : List α) :
    Bool → Nat → Nat → Nat → Deque SortItem → Series α → Prop where
  | ready {cb : Bool} {first last depth : Nat} {rest : Deque SortItem} {t : ParSortTask}
      (ht : Fits cb first last depth t) (hmem : Before comp orig mem first last t) :
      Valid comp orig mem cb first last depth rest (.ready t rest)
  | requested {cb : Bool} {first last depth : Nat} {rest : Deque SortItem} {t : ParSortTask}
      (ht : Fits cb first last depth t) (hmem : Before comp orig mem first last t) :
      Valid comp orig mem cb first last depth rest (.requested t rest)
  | executing {cb : Bool} {first last depth : Nat} {rest : Deque SortItem} {t : ParSortTask}
      (ht : Fits cb first last depth t) (hmem : Before comp orig mem first last t) :
      Valid comp orig mem cb first last depth rest (.executing t (slice mem first last) rest)
  | parallel {cb : Bool} {first last depth nleft : Nat} {rest : Deque SortItem} {t : ParSortTask}
      {series1 series2 : Series α} (ht : Fits cb first last depth t) (hflag : t.flag = true)
      (hleft : nleft = series1.live + series2.live) (hpos : 0 < nleft)
      (h1 : Valid comp orig mem false first t.middle (depth + 1) .empty series1)
      (h2 : Valid comp orig mem false t.middle last (depth + 1) .empty series2) :
      Valid comp orig mem cb first last depth rest
        (.parallel nleft series1 series2 (rest.step (.pushFront (.sort t))))
  | other {cb : Bool} {first last depth id : Nat} {rest : Deque SortItem}
      (hrest : rest.front = some (.other id)) (hmem : Done comp orig mem first last) :
      Valid comp orig mem cb first last depth rest (.other id (rest.step .popTask))
  | ended {cb : Bool} {first last depth : Nat} {rest : Deque SortItem}
      (hrest : rest.front = none) (hmem : Done comp orig mem first last) :
      Valid comp orig mem cb first last depth rest .ended

/-- Behind the sort come tasks of the user, or nothing. -/
def Foreign (rest : Deque SortItem) : Prop :=
  ∀ item ∈ rest.front, ∃ id, item = .other id

theorem foreign_empty : Foreign .empty := by
  intro item hitem
  cases hitem

theorem Fits.middle {t : ParSortTask} (ht : Fits cb first last depth t) (hle : first ≤ last) :
    first ≤ t.middle ∧ t.middle ≤ last ∧ t.middle - first = t.size / 2 := by
  have hfirst := ht.first
  have hlast := ht.last
  rw [ParSortTask.middle, ParSortTask.size]
  omega

theorem Before.congr {t : ParSortTask} (ht : Fits cb first last depth t) (hle : first ≤ last)
    (hsame : SameOn mem mem' first last) (h : Before comp orig mem first last t) :
    Before comp orig mem' first last t := by
  obtain ⟨hfirst, hlast, -⟩ := ht.middle hle
  refine ⟨fun hflag => ?_, fun hflag => ?_, ?_⟩
  · exact fun i hi hi' => (hsame i hi hi').symm.trans (h.fresh hflag i hi hi')
  · rw [← slice_congr (hsame.mono (Nat.le_refl _) hlast),
      ← slice_congr (hsame.mono hfirst (Nat.le_refl _))]
    exact h.halves hflag
  · rw [← slice_congr hsame]
    exact h.perm

theorem Done.congr (hsame : SameOn mem mem' first last) (h : Done comp orig mem first last) :
    Done comp orig mem' first last := by
  obtain ⟨hsorted, hperm⟩ := h
  rw [slice_congr hsame] at hsorted hperm
  exact ⟨hsorted, hperm⟩

/-- A series is not touched by what happens outside of its range. -/
theorem Valid.congr (h : Valid comp orig mem cb first last depth rest s) (hle : first ≤ last)
    (hsame : SameOn mem mem' first last) : Valid comp orig mem' cb first last depth rest s := by
  induction h with
  | ready ht hmem => exact .ready ht (hmem.congr ht hle hsame)
  | requested ht hmem => exact .requested ht (hmem.congr ht hle hsame)
  | executing ht hmem =>
      rw [slice_congr hsame]
      exact .executing ht (hmem.congr ht hle hsame)
  | parallel ht hflag hleft hpos _ _ ih1 ih2 =>
      obtain ⟨hfirst, hlast, -⟩ := ht.middle hle
      exact .parallel ht hflag hleft hpos (ih1 hfirst (hsame.mono (Nat.le_refl _) hlast))
        (ih2 hlast (hsame.mono hfirst (Nat.le_refl _)))
  | other hrest hmem => exact .other hrest (hmem.congr hsame)
  | ended hrest hmem => exact .ended hrest (hmem.congr hsame)

/-- When the range is sorted, the series goes on with what is behind. -/
theorem Done.popNext (h : Done comp orig mem first last) (hrest : Foreign rest) :
    Valid comp orig mem cb first last depth rest (popNext rest) ∧
      (popNext rest : Series α).isOver = true ∧ (popNext rest : Series α).weight = 0 := by
  unfold Factory.popNext
  cases hfront : rest.front with
  | none => exact ⟨.ended hfront h, rfl, rfl⟩
  | some item =>
      obtain ⟨id, rfl⟩ := hrest item hfront
      exact ⟨.other hfront h, rfl, rfl⟩

/-! ### One event -/

/-- What an event in a series comes to. -/
structure Moves (comp : α → α → Bool) (orig : List α) (cb : Bool) (first last depth : Nat)
    (rest : Deque SortItem) (w : SortWorld α) (s : Series α) (w' : SortWorld α) (s' : Series α) :
    Prop where
  valid : Valid comp orig w'.mem cb first last depth rest s'
  length : w'.mem.length = w.mem.length
  outside : SameOutside w.mem w'.mem first last
  fault : w'.fault = w.fault
  called : w'.called.map ParSortTask.output =
    w.called.map ParSortTask.output ++ if cb && s'.isOver then [some (first, last)] else []
  weight : s'.weight < s.weight

/-- What is dispatched was ready. -/
theorem dispatchTask_some (h : dispatchTask w s = some (w', s')) :
    ∃ t queue, s = .ready t queue ∧ t.dispatch w queue = (w', s') := by
  cases s with
  | ready t queue => exact ⟨t, queue, rfl, Option.some.inj h⟩
  | _ => cases h

/-- What is started was requested. -/
theorem startTask_some (h : startTask w s = some (w', s')) :
    ∃ t queue, s = .requested t queue ∧ w' = w ∧
      s' = .executing t (slice w.mem t.first t.last) queue := by
  cases s with
  | requested t queue =>
      cases h
      exact ⟨t, queue, rfl, rfl, rfl⟩
  | _ => cases h

/-- What is finished was running. -/
theorem finishTask_some {cmp : Bool} {result : List α}
    (h : finishTask cmp result w s = some (w', s')) :
    ∃ t input queue, s = .executing t input queue ∧
      { (t.execute cmp w result).1 with success := true }.done (t.execute cmp w result).2 queue =
        (w', s') := by
  cases s with
  | executing t input queue => exact ⟨t, input, queue, rfl, Option.some.inj h⟩
  | _ => cases h

/-- An event that does not touch the array. -/
theorem Moves.still (hvalid : Valid comp orig w.mem cb first last depth rest s')
    (hover : s'.isOver = false) (hweight : s'.weight < s.weight) :
    Moves comp orig cb first last depth rest w s w s' where
  valid := hvalid
  length := rfl
  outside := .refl _ _ _
  fault := rfl
  called := by simp [hover]
  weight := hweight

/-- A large range is split, and a small one goes to the executor. -/
theorem Valid.dispatchTask (h : Valid comp orig w.mem cb first last depth rest s)
    (hle : first ≤ last) (hact : dispatchTask w s = some (w', s')) :
    Moves comp orig cb first last depth rest w s w' s' := by
  obtain ⟨t, queue, rfl, hdispatch⟩ := dispatchTask_some hact
  cases h with
  | ready ht hmem =>
      have hmiddle := ht.middle hle
      obtain ⟨rfl, rfl, rfl, rfl, hmoved⟩ := ht
      unfold ParSortTask.dispatch at hdispatch
      split at hdispatch
      · rename_i hsplit
        simp only [Bool.and_eq_true, Bool.not_eq_true', decide_eq_true_eq] at hsplit
        obtain ⟨⟨hflag, hdepth⟩, -⟩ := hsplit
        obtain ⟨hfirst, hlast, -⟩ := hmiddle
        have hsame := hmem.fresh hflag
        have hhalf : ∀ {a b : Nat}, t.first ≤ a → b ≤ t.last → Valid comp orig w.mem false a b
            (t.depth + 1) .empty (.ready (.new a b (t.depth + 1) false t.moved) .empty) :=
          fun ha hb => .ready ⟨rfl, rfl, rfl, rfl, hmoved⟩
            ⟨fun _ => hsame.mono ha hb, nofun, .of_eq (slice_congr (hsame.mono ha hb))⟩
        have hbudget : Series.budget (7 - t.depth) = 2 * Series.budget (7 - (t.depth + 1)) + 4 := by
          have hsub : 7 - t.depth = 7 - (t.depth + 1) + 1 := by omega
          rw [hsub, Series.budget]
        obtain ⟨rfl, rfl⟩ := Prod.mk.inj hdispatch.symm
        refine .still ?_ rfl ?_
        · exact .parallel (t := { t with flag := true }) ⟨rfl, rfl, rfl, rfl, hmoved⟩ rfl rfl
            (by decide) (hhalf (Nat.le_refl _) hlast) (hhalf hfirst (Nat.le_refl _))
        · show Series.budget (7 - (t.depth + 1)) + Series.budget (7 - (t.depth + 1)) + 3 <
            if t.flag then 3 else Series.budget (7 - t.depth)
          rw [hflag, if_neg Bool.false_ne_true, hbudget]
          omega
      · cases hdispatch
        refine .still (.requested ⟨rfl, rfl, rfl, rfl, hmoved⟩ hmem) rfl ?_
        have hthree := Series.three_le_budget (7 - t.depth)
        simp only [Series.weight]
        split <;> omega

/-- A task takes the elements of its range. -/
theorem Valid.startTask (h : Valid comp orig w.mem cb first last depth rest s)
    (hact : startTask w s = some (w', s')) :
    Moves comp orig cb first last depth rest w s w' s' := by
  obtain ⟨t, queue, rfl, rfl, rfl⟩ := startTask_some hact
  cases h with
  | requested ht hmem =>
      rw [ht.first, ht.last]
      exact .still (.executing ht hmem) rfl (Nat.lt_succ_self 1)

/-- What the task has sorted or merged. -/
theorem Before.sorts {t : ParSortTask} {result : List α} (ht : Fits cb first last depth t)
    (hle : first ≤ last) (hmem : Before comp orig mem first last t)
    (hcontract : Contract comp t (slice mem first last) result) :
    Sorted comp result ∧ result.Perm (slice mem first last) := by
  obtain ⟨hfirst, hlast, hsize⟩ := ht.middle hle
  unfold Contract at hcontract
  split at hcontract
  · rename_i hflag
    obtain ⟨h1, h2⟩ := hmem.halves hflag
    have hmiddle : first + t.size / 2 = t.middle := by omega
    rw [take_slice (by omega), drop_slice, hmiddle] at hcontract
    exact hcontract h1 h2
  · exact hcontract

/-- A task puts them back in order. -/
theorem Valid.finishTask {cmp : Bool} {result : List α}
    (h : Valid comp orig w.mem cb first last depth rest s) (hrest : Foreign rest)
    (hle : first ≤ last) (hlast : last ≤ w.mem.length)
    (hmeets : ∀ t input, s.executingAt [] = some (t, input) → Contract comp t input result)
    (hact : finishTask cmp result w s = some (w', s')) :
    Moves comp orig cb first last depth rest w s w' s' := by
  obtain ⟨t, input, queue, rfl, hdone⟩ := finishTask_some hact
  cases h with
  | executing ht hmem =>
      obtain ⟨hsorted, hperm⟩ := hmem.sorts ht hle (hmeets t _ rfl)
      obtain ⟨rfl, rfl, rfl, rfl, hmoved⟩ := ht
      have hlen : t.first + result.length = t.last := by
        rw [hperm.length_eq, length_slice _ hlast]
        omega
      have hroom : t.first + result.length ≤ w.mem.length := by omega
      have hself := slice_overwrite_self hroom
      have houtside := sameOutside_overwrite hroom
      rw [hlen] at hself houtside
      have hsorts : Done comp orig (overwrite w.mem t.first result) t.first t.last :=
        ⟨by rwa [hself], by rw [hself]; exact hperm.trans hmem.perm⟩
      obtain ⟨hvalid, hover, hweight⟩ := hsorts.popNext hrest
      obtain ⟨hw, rfl⟩ := Prod.mk.inj hdone
      have hfault : (w.fault || (cmp && t.moved) || !true) = w.fault := by simp [hmoved]
      have hlight : (popNext rest : Series α).weight < 1 := hweight ▸ Nat.zero_lt_one
      cases hcb : t.callback with
      | true => 
          have hw' : w' = ⟨overwrite w.mem t.first result, w.called ++ [{ t with
              flag := false, moved := t.moved || cmp, output := some (t.first, t.last)
              success := true }], w.fault || (cmp && t.moved) || !true⟩ := by
            rw [← hw]
            simp [ParSortTask.execute, hcb]
          subst hw'
          exact ⟨hcb ▸ hvalid, length_overwrite hroom, houtside, hfault, by simp [hover], hlight⟩
      | false =>
          have hw' : w' = ⟨overwrite w.mem t.first result, w.called,
              w.fault || (cmp && t.moved) || !true⟩ := by
            rw [← hw]
            simp [ParSortTask.execute, hcb]
          subst hw'
          exact ⟨hcb ▸ hvalid, length_overwrite hroom, houtside, hfault, by simp, hlight⟩

/-! ### Events in the tree -/

/-- A series that has not ended is counted once. -/
theorem Series.live_eq_one (h : s ≠ .ended) : s.live = 1 := by
  cases s with
  | ended => exact absurd rfl h
  | _ => rfl

theorem afterSubtask_of_ne {nleft : Nat} {series1 series2 : Series α} {queue : Deque SortItem}
    (h : s ≠ .ended) :
    afterSubtask nleft s series1 series2 queue = .parallel nleft series1 series2 queue := by
  cases s with
  | ended => exact absurd rfl h
  | _ => rfl

/-- A series that has ended has sorted its range. -/
theorem Valid.done_of_ended (h : Valid comp orig mem cb first last depth rest .ended) :
    Done comp orig mem first last := by
  cases h with
  | ended hrest hmem => exact hmem

/-- A range whose halves are sorted is there to be merged. -/
theorem Done.merge {t : ParSortTask} (ht : Fits cb first last depth t) (hflag : t.flag = true)
    (hle : first ≤ last) (h1 : Done comp orig mem first t.middle)
    (h2 : Done comp orig mem t.middle last) : Before comp orig mem first last t := by
  obtain ⟨hfirst, hlast, -⟩ := ht.middle hle
  refine ⟨fun hfresh => absurd hflag (by simp [hfresh]), fun _ => ⟨h1.sorted, h2.sorted⟩, ?_⟩
  rw [← slice_append hfirst hlast, ← slice_append hfirst hlast]
  exact h1.perm.append h2.perm

variable (rest) in
/-- A parallel work one of whose series has moved on: the last one that comes to its end brings the
task back that merges. -/
theorem Valid.afterSubtask {t : ParSortTask} {nleft : Nat} {series1 series2 : Series α}
    (ht : Fits cb first last depth t) (hflag : t.flag = true) (hle : first ≤ last)
    (h1 : Valid comp orig mem false first t.middle (depth + 1) .empty series1)
    (h2 : Valid comp orig mem false t.middle last (depth + 1) .empty series2)
    (hs : s = series1 ∨ s = series2)
    (hleft : nleft + s.live = series1.live + series2.live + 1) :
    let s' := afterSubtask nleft s series1 series2 (rest.step (.pushFront (.sort t)))
    Valid comp orig mem cb first last depth rest s' ∧ s'.isOver = false ∧
      s'.weight ≤ series1.weight + series2.weight + 3 := by
  by_cases hend : s = .ended
  · subst hend
    have hnleft : nleft - 1 = series1.live + series2.live := by
      rw [Series.live] at hleft
      omega
    by_cases hzero : nleft - 1 = 0
    · have hend1 : series1 = .ended := by
        by_contra hne
        have hlive := Series.live_eq_one hne
        omega
      have hend2 : series2 = .ended := by
        by_contra hne
        have hlive := Series.live_eq_one hne
        omega
      subst hend1 hend2
      have hmerge := Done.merge ht hflag hle h1.done_of_ended h2.done_of_ended
      have hnext : Factory.afterSubtask nleft .ended .ended .ended
          (rest.step (.pushFront (.sort t))) = (.ready t rest : Series α) := if_pos hzero
      rw [hnext]
      refine ⟨.ready ht hmerge, rfl, ?_⟩
      simp [Series.weight, hflag]
    · have hnext : Factory.afterSubtask nleft .ended series1 series2
          (rest.step (.pushFront (.sort t))) = .parallel (nleft - 1) series1 series2
            (rest.step (.pushFront (.sort t))) := if_neg hzero
      rw [hnext]
      exact ⟨.parallel ht hflag hnleft (Nat.pos_of_ne_zero hzero) h1 h2, rfl, Nat.le_refl _⟩
  · have hlive := Series.live_eq_one hend
    have hpos : 0 < series1.live + series2.live := by
      rcases hs with rfl | rfl <;> omega
    rw [afterSubtask_of_ne hend]
    exact ⟨.parallel ht hflag (by omega) (by omega) h1 h2, rfl, Nat.le_refl _⟩

/-- A series that moves was not at its end. -/
theorem Moves.live (h : Moves comp orig cb first last depth rest w s w' s') : s.live = 1 :=
  Series.live_eq_one fun hend => by
    have hweight := h.weight
    rw [hend] at hweight
    exact Nat.not_lt_zero _ hweight

theorem Moves.not_over (h : Moves comp orig cb first last depth rest w s w' s') :
    s.isOver = false := by
  have hweight := h.weight
  cases s with
  | other id queue => exact absurd hweight (Nat.not_lt_zero _)
  | ended => exact absurd hweight (Nat.not_lt_zero _)
  | _ => rfl

/-- What moves a series of a parallel work moves the series that the work lies in. -/
theorem Moves.lift {a b n : Nat} {series series' : Series α}
    (h : Moves comp orig false a b (depth + 1) .empty w series w' series') (ha : first ≤ a)
    (hb : b ≤ last) (hvalid : Valid comp orig w'.mem cb first last depth rest s')
    (hover : s'.isOver = false) (hbefore : s.weight = series.weight + n)
    (hafter : s'.weight ≤ series'.weight + n) :
    Moves comp orig cb first last depth rest w s w' s' where
  valid := hvalid
  length := h.length
  outside := h.outside.mono ha hb
  fault := h.fault
  called := by
    rw [h.called, hover]
    simp
  weight := by
    have hless := h.weight
    omega

/-- What holds of an action in the series where it takes place holds of it in the whole tree. -/
theorem Valid.atPath {act : SortWorld α → Series α → Option (SortWorld α × Series α)}
    {P : ParSortTask → List α → Prop}
    (hact : ∀ {cb : Bool} {first last depth : Nat} {rest : Deque SortItem} {w : SortWorld α}
      {s : Series α} {w' : SortWorld α} {s' : Series α},
      Valid comp orig w.mem cb first last depth rest s → Foreign rest → first ≤ last →
      last ≤ w.mem.length → (∀ t input, s.executingAt [] = some (t, input) → P t input) →
      act w s = some (w', s') → Moves comp orig cb first last depth rest w s w' s')
    {path : List Bool} (h : Valid comp orig w.mem cb first last depth rest s)
    (hrest : Foreign rest) (hle : first ≤ last) (hlast : last ≤ w.mem.length)
    (hmeets : ∀ t input, s.executingAt path = some (t, input) → P t input)
    (hat : s.atPath act path w = some (w', s')) :
    Moves comp orig cb first last depth rest w s w' s' := by
  induction path generalizing cb first last depth rest s s' w w' with
  | nil =>
      rw [Series.atPath] at hat
      exact hact h hrest hle hlast hmeets hat
  | cons b path ih =>
      cases h with
      | parallel ht hflag hleft hpos h1 h2 =>
          rename_i nleft t series1 series2
          obtain ⟨hmiddle, hmiddle', -⟩ := ht.middle hle
          cases b with
          | false =>
              obtain ⟨⟨w₁, s₁⟩, hsub, heq⟩ := Option.map_eq_some_iff.mp hat
              cases heq
              have hmoves := ih h1 foreign_empty hmiddle (Nat.le_trans hmiddle' hlast) hmeets hsub
              have hlive := hmoves.live
              have hother := h2.congr hmiddle' (hmoves.outside.sameOn (.inr (Nat.le_refl _)))
              obtain ⟨hvalid, hover, hweight⟩ := Valid.afterSubtask rest ht hflag hle
                hmoves.valid hother (.inl rfl) (show nleft + s₁.live = _ by omega)
              refine hmoves.lift (n := series2.weight + 3) (Nat.le_refl _) hmiddle' hvalid hover ?_ ?_
              · rw [Series.weight, Nat.add_assoc]
              · omega
          | true =>
              obtain ⟨⟨w₁, s₂⟩, hsub, heq⟩ := Option.map_eq_some_iff.mp hat
              cases heq
              have hmoves := ih h2 foreign_empty hmiddle' hlast hmeets hsub
              have hlive := hmoves.live
              have hother := h1.congr hmiddle (hmoves.outside.sameOn (.inl (Nat.le_refl _)))
              obtain ⟨hvalid, hover, hweight⟩ := Valid.afterSubtask rest ht hflag hle
                hother hmoves.valid (.inr rfl) (show nleft + s₂.live = _ by omega)
              refine hmoves.lift (n := series1.weight + 3) hmiddle (Nat.le_refl _) hvalid hover ?_ ?_
              · rw [Series.weight]
                omega
              · omega
      | _ => simp [Series.atPath] at hat

/-! ### What is in work -/

/-- The ranges in work lie in the range of the series, one behind the other. -/
theorem Valid.active (h : Valid comp orig mem cb first last depth rest s) (hle : first ≤ last) :
    (∀ r ∈ s.active, first ≤ r.1 ∧ r.2 ≤ last) ∧ s.active.Pairwise fun r r' => r.2 ≤ r'.1 := by
  induction h with
  | requested ht _ => simp [Series.active, ht.first, ht.last]
  | executing ht _ => simp [Series.active, ht.first, ht.last]
  | parallel ht _ _ _ _ _ ih1 ih2 =>
      obtain ⟨hfirst, hlast, -⟩ := ht.middle hle
      obtain ⟨hin1, hpair1⟩ := ih1 hfirst
      obtain ⟨hin2, hpair2⟩ := ih2 hlast
      rw [Series.active, List.forall_mem_append, List.pairwise_append]
      refine ⟨⟨fun r hr => ?_, fun r hr => ?_⟩, hpair1, hpair2, fun r hr r' hr' => ?_⟩
      · exact ⟨(hin1 r hr).1, Nat.le_trans (hin1 r hr).2 hlast⟩
      · exact ⟨Nat.le_trans hfirst (hin2 r hr).1, (hin2 r hr).2⟩
      · exact Nat.le_trans (hin1 r hr).2 (hin2 r' hr').1
  | _ => simp [Series.active]

/-- Nothing is left to do in a series that is over. -/
theorem Series.active_of_over (h : s.isOver = true) : s.active = [] := by
  cases s with
  | ended => rfl
  | other id queue => rfl
  | _ => cases h

/-- A series that is over has sorted its range. -/
theorem Valid.done_of_over (h : Valid comp orig mem cb first last depth rest s)
    (hover : s.isOver = true) : Done comp orig mem first last := by
  cases h with
  | other _ hmem => exact hmem
  | ended _ hmem => exact hmem
  | _ => cases hover

/-! ### There is always an event -/

/-- The event in the series at `b` of a parallel work. -/
def SortEvent.under (b : Bool) : SortEvent α → SortEvent α
  | .dispatch path => .dispatch (b :: path)
  | .start path => .start (b :: path)
  | .finish path result => .finish (b :: path) result

section

variable {cmp : Bool} {e : SortEvent α} {p : ParSort α} (nleft : Nat) (series : Series α)
  (queue : Deque SortItem)

/-- A step of the first half is a step of the whole. -/
theorem exec_under_false (h : ParSort.exec cmp 0 ⟨w, s⟩ e = some p) :
    ∃ q, ParSort.exec cmp 0 ⟨w, .parallel nleft s series queue⟩ (e.under false) = some q := by
  obtain ⟨r, hat, -⟩ := Option.map_eq_some_iff.mp h
  have hunder : (Series.parallel nleft s series queue).atPath (ParSort.act cmp e)
      (false :: ParSort.place e) w = some (r.1, afterSubtask nleft r.2 r.2 series queue) := by
    rw [Series.atPath, hat]
    rfl
  cases e <;> exact ⟨_, congrArg (Option.map _) hunder⟩

/-- So is a step of the second. -/
theorem exec_under_true (h : ParSort.exec cmp 0 ⟨w, s⟩ e = some p) :
    ∃ q, ParSort.exec cmp 0 ⟨w, .parallel nleft series s queue⟩ (e.under true) = some q := by
  obtain ⟨r, hat, -⟩ := Option.map_eq_some_iff.mp h
  have hunder : (Series.parallel nleft series s queue).atPath (ParSort.act cmp e)
      (true :: ParSort.place e) w = some (r.1, afterSubtask nleft r.2 series r.2 queue) := by
    rw [Series.atPath, hat]
    rfl
  cases e <;> exact ⟨_, congrArg (Option.map _) hunder⟩

end

/-- The contracts can be met. -/
theorem exists_sorted (hcomp : StrictWeak comp) (input : List α) :
    ∃ result, Sorted comp result ∧ result.Perm input := by
  refine ⟨input.mergeSort (StrictWeak.le comp), ?_, List.mergeSort_perm _ _⟩
  have hsorted := List.pairwise_mergeSort hcomp.le_trans hcomp.le_total input
  simpa only [Sorted, StrictWeak.le, Bool.not_eq_eq_eq_not, Bool.not_true] using hsorted

theorem Valid.over_of_live (h : Valid comp orig mem cb first last depth .empty s)
    (hlive : s.live = 1) : s.isOver = false := by
  cases h with
  | other hrest _ => cases hrest
  | ended _ _ => cases hlive
  | _ => rfl

/-- As long as a series is not over, some step can be taken. -/
theorem Valid.progress (cmp : Bool) (hcomp : StrictWeak comp) {w : SortWorld α}
    (h : Valid comp orig mem cb first last depth rest s) (hover : s.isOver = false) :
    ∃ e p, ParSort.exec cmp 0 ⟨w, s⟩ e = some p ∧ ParSort.Meets comp ⟨w, s⟩ e := by
  induction h with
  | ready ht _ => exact ⟨.dispatch [], _, rfl, trivial⟩
  | requested ht _ => exact ⟨.start [], _, rfl, trivial⟩
  | @executing cb first last depth rest t ht _ =>
      obtain ⟨result, hsorted, hperm⟩ := exists_sorted hcomp (slice mem first last)
      refine ⟨.finish [] result, _, rfl, fun t' input hat => ?_⟩
      cases hat
      unfold Contract
      split
      · exact fun _ _ => ⟨hsorted, hperm⟩
      · exact ⟨hsorted, hperm⟩
  | @parallel cb first last depth nleft rest t series1 series2 _ _ hleft hpos h1 h2 ih1 ih2 =>
      by_cases hend : series1.live = 1
      · obtain ⟨e, p, hexec, hmeets⟩ := ih1 (h1.over_of_live hend)
        obtain ⟨q, hunder⟩ := exec_under_false nleft series2 (rest.step (.pushFront (.sort t))) hexec
        exact ⟨e.under false, q, hunder, by cases e <;> exact hmeets⟩
      · have hlive : series2.live = 1 := Series.live_eq_one fun hend2 => by
          have hend1 : series1 = .ended := by
            by_contra hne
            exact hend (Series.live_eq_one hne)
          rw [hleft, hend1, hend2] at hpos
          exact Nat.lt_irrefl _ hpos
        obtain ⟨e, p, hexec, hmeets⟩ := ih2 (h2.over_of_live hlive)
        obtain ⟨q, hunder⟩ := exec_under_true nleft series1 (rest.step (.pushFront (.sort t))) hexec
        exact ⟨e.under true, q, hunder, by cases e <;> exact hmeets⟩
  | _ => cases hover

/-! ### Whole runs -/

/-- What holds at any time: no assertion fails, the ranges in work are apart, and the callback is called
when the array is sorted and nothing is in work, once. -/
structure ParSort.Sound (comp : α → α → Bool) (mem : List α) (first last : Nat) (p : ParSort α) :
    Prop where
  fault : p.fault = false
  apart : p.root.active.Pairwise fun r r' => r.2 ≤ r'.1 ∨ r'.2 ≤ r.1
  running : p.root.isOver = false → p.called = []
  finished : p.root.isOver = true → p.root.active = [] ∧
    p.called.map ParSortTask.output = [some (first, last)] ∧
    Sorted comp (slice p.mem first last) ∧
    (slice p.mem first last).Perm (slice mem first last) ∧ SameOutside mem p.mem first last

/-- The invariant of a run. -/
structure ParSort.Inv (comp : α → α → Bool) (mem : List α) (first last : Nat)
    (rest : Deque SortItem) (p : ParSort α) : Prop where
  valid : Valid comp mem p.mem true first last 0 rest p.root
  length : p.mem.length = mem.length
  outside : SameOutside mem p.mem first last
  fault : p.fault = false
  called : p.called.map ParSortTask.output = if p.root.isOver then [some (first, last)] else []

namespace ParSort

variable {p q : ParSort α} {e : SortEvent α} {cmp : Bool}

/-- The array as it was. -/
theorem Inv.create (rest : Deque SortItem) : Inv comp mem first last rest (create mem first last rest) where
  valid := .ready ⟨rfl, rfl, rfl, rfl, rfl⟩ ⟨fun _ => .refl _ _ _, nofun, .refl _⟩
  length := rfl
  outside := .refl _ _ _
  fault := rfl
  called := rfl

/-- What one event does to a sort. -/
theorem Inv.moves (h : Inv comp mem first last rest p) (hrest : Foreign rest) (hle : first ≤ last)
    (hlast : last ≤ mem.length) (hmeets : Meets comp p e) (hexec : exec cmp 0 p e = some q) :
    Moves comp mem true first last 0 rest p.toSortWorld p.root q.toSortWorld q.root := by
  obtain ⟨⟨w, s⟩, hat, rfl⟩ := Option.map_eq_some_iff.mp hexec
  have hroom : last ≤ p.mem.length := h.length ▸ hlast
  cases e with
  | dispatch path =>
      exact h.valid.atPath (P := fun _ _ => True)
        (fun hv _ hle _ _ hact => hv.dispatchTask hle hact) hrest hle hroom
        (fun _ _ _ => trivial) hat
  | start path =>
      exact h.valid.atPath (P := fun _ _ => True)
        (fun hv _ _ _ _ hact => hv.startTask hact) hrest hle hroom (fun _ _ _ => trivial) hat
  | finish path result =>
      exact h.valid.atPath (P := fun t input => Contract comp t input result)
        (fun hv hrest hle hlast hmeets hact => hv.finishTask hrest hle hlast hmeets hact)
        hrest hle hroom hmeets hat

/-- What each event keeps. -/
theorem Inv.step (h : Inv comp mem first last rest p) (hrest : Foreign rest) (hle : first ≤ last)
    (hlast : last ≤ mem.length) (hmeets : Meets comp p e) (hexec : exec cmp 0 p e = some q) :
    Inv comp mem first last rest q := by
  have hmoves := h.moves hrest hle hlast hmeets hexec
  have hover : p.root.isOver = false := hmoves.not_over
  refine ⟨hmoves.valid, hmoves.length.trans h.length, h.outside.trans hmoves.outside,
    hmoves.fault.trans h.fault, ?_⟩
  rw [hmoves.called, h.called, hover]
  simp

/-- What the invariant says about the array. -/
theorem Inv.sound (h : Inv comp mem first last rest p) (hle : first ≤ last) :
    Sound comp mem first last p := by
  have hcalled := h.called
  refine ⟨h.fault, (h.valid.active hle).2.imp .inl, fun hover => ?_, fun hover => ?_⟩
  · rw [hover] at hcalled
    exact List.map_eq_nil_iff.mp hcalled
  · rw [hover] at hcalled
    have hdone := h.valid.done_of_over hover
    exact ⟨Series.active_of_over hover, hcalled, hdone.sorted, hdone.perm, h.outside⟩

/-- The states of a sort. -/
abbrev Runs (comp : α → α → Bool) (cmp : Bool) (mem : List α) (first last : Nat)
    (rest : Deque SortItem) (p : ParSort α) : Prop :=
  Reachable (machine cmp mem first last rest) (Meets comp) p

/-- An event that may come next. -/
def Next (comp : α → α → Bool) (cmp : Bool) (mem : List α) (first last : Nat)
    (rest : Deque SortItem) (p q : ParSort α) : Prop :=
  ∃ e, Meets comp p e ∧ (machine cmp mem first last rest).step p e q

/-- Hence it holds after every run. -/
theorem Runs.inv (hrest : Foreign rest) (hle : first ≤ last) (hlast : last ≤ mem.length)
    (h : Runs comp cmp mem first last rest p) : Inv comp mem first last rest p := by
  refine h.invariant (fun p hp => ?_) fun p e q hp hmeets hstep => ?_
  · obtain rfl : p = create mem first last rest := hp
    exact Inv.create rest
  · obtain ⟨_, hexec⟩ := hstep
    exact hp.step hrest hle hlast hmeets hexec

end ParSort

/-- Parallel sort, with and without a comparator, in every order of its events: at any time the ranges
in work are apart; as long as the sort is not over there is a next event, and there are not infinitely
many; when it is over the range is sorted, and the callback was called once. -/
theorem parSort_correct (cmp : Bool) (hcomp : StrictWeak comp) (hle : first ≤ last)
    (hlast : last ≤ mem.length) (hrest : Foreign rest) :
    (∀ p, ParSort.Runs comp cmp mem first last rest p →
      ParSort.Sound comp mem first last p ∧
        (p.root.isOver = false → ∃ q, ParSort.Next comp cmp mem first last rest p q)) ∧
      ¬∃ run : Nat → ParSort α, run 0 = .create mem first last rest ∧
        ∀ i, ParSort.Next comp cmp mem first last rest (run i) (run (i + 1)) := by
  refine ⟨fun p hp => ?_, ?_⟩
  · have hinv := hp.inv hrest hle hlast
    refine ⟨hinv.sound hle, fun hover => ?_⟩
    obtain ⟨e, q, hexec, hmeets⟩ := hinv.valid.progress cmp hcomp hover
    exact ⟨q, e, hmeets, 0, hexec⟩
  · rintro ⟨run, hstart, hnext⟩
    have hruns : ∀ i, ParSort.Runs comp cmp mem first last rest (run i) := by
      intro i
      induction i with
      | zero => exact .init hstart
      | succ i ih =>
          obtain ⟨e, hmeets, hstep⟩ := hnext i
          exact ih.step hmeets hstep
    have hweight : ∀ i, (run i).root.weight + i ≤ (run 0).root.weight := by
      intro i
      induction i with
      | zero => exact Nat.le_refl _
      | succ i ih =>
          obtain ⟨e, hmeets, _, hexec⟩ := hnext i
          have hmoves := ((hruns i).inv hrest hle hlast).moves hrest hle hlast hmeets hexec
          have hless := hmoves.weight
          omega
    have hbeyond := hweight ((run 0).root.weight + 1)
    omega

instance (t : ParSortTask) (input result : List Nat) :
    Decidable (Contract (fun a b => decide (a < b)) t input result) := by
  unfold Contract Sorted
  infer_instance

instance (p : ParSort Nat) (e : SortEvent Nat) :
    Decidable (ParSort.Meets (fun a b => decide (a < b)) p e) :=
  match e with
  | .dispatch _ => inferInstanceAs (Decidable True)
  | .start _ => inferInstanceAs (Decidable True)
  | .finish path result =>
      decidable_of_iff (∀ r ∈ p.root.executingAt path,
          Contract (fun a b => decide (a < b)) r.1 r.2 result)
        ⟨fun h t input heq => h (t, input) heq, fun h r hr => h r.1 r.2 hr⟩

/-- The falling numbers below 32, sorted with `<`: the task is split, its halves are sorted at the same
time, and the task comes again and merges them. -/
theorem parSort_split :
    ∃ p, ParSort.Runs (fun a b : Nat => decide (a < b)) false (List.range 32).reverse 0 32 .empty p ∧
      p.root.isOver = true ∧ p.mem = List.range 32 ∧
      ParSort.Sound (fun a b => decide (a < b)) (List.range 32).reverse 0 32 p ∧
      ¬∃ run : Nat → ParSort Nat, run 0 = .create (List.range 32).reverse 0 32 .empty ∧
        ∀ i, ParSort.Next (fun a b => decide (a < b)) false (List.range 32).reverse 0 32 .empty
          (run i) (run (i + 1)) := by
  have hrun : (runChecked (ParSort.exec false) (ParSort.Meets fun a b : Nat => decide (a < b)) 0
      (.create (List.range 32).reverse 0 32 .empty)
      [.dispatch [], .dispatch [false], .dispatch [true], .start [true], .start [false],
        .finish [true] (List.range 16), .finish [false] (List.range' 16 16), .dispatch [],
        .start [], .finish [] (List.range 32)]).map (fun p => (p.root.isOver, p.mem)) =
      some (true, List.range 32) := by
    decide +kernel
  obtain ⟨p, hp, heq⟩ := Option.map_eq_some_iff.mp hrun
  have hreach := runChecked_reachable (Reachable.init rfl) hp
  have hcorrect : (∀ p, ParSort.Runs (fun a b : Nat => decide (a < b)) false
      (List.range 32).reverse 0 32 .empty p → _) ∧ _ :=
    parSort_correct false strictWeak_nat (by decide) (by decide) foreign_empty
  obtain ⟨hsound, hends⟩ := hcorrect
  exact ⟨p, hreach, congrArg Prod.fst heq, congrArg Prod.snd heq, (hsound p hreach).1, hends⟩

end Workflow.Factory
