/-
Module: Workflow.Proofs.SeriesQueue
Layer: Proofs
Purpose: The ring of a `SeriesWork` is a deque. `Holds` relates a ring to a list: the window from
  `front` on holds the tasks, and there is always a free cell, so that `front == back` means empty.
  Each operation keeps it; a push that fills the ring copies the window to the front of a larger one.
  A pop that finds nothing deletes the series, and nothing may come after it.
Trusted boundary: none
Main exports: Holds, copyQueue_spec, expandQueue_full, holds_popTask, queue_refines_deque
-/
import Workflow.Factory.SeriesQueue

namespace Workflow.Factory

open Workflow.Lib

variable {τ : Type}

/-- The next place in the ring. -/
theorem ring_next {c j : Nat} (h : j < c) : (if j + 1 = c then 0 else j + 1) = (j + 1) % c := by
  split
  · rename_i heq
    rw [heq, Nat.mod_self]
  · rw [Nat.mod_eq_of_lt (by omega)]

/-- The ring holds the tasks of the list, in order, and one cell is free. -/
structure Holds (s : SeriesWork τ) (d : Deque τ) : Prop where
  size : ∃ k, s.queueSize = 2 ^ (k + 2)
  size_le : s.queueSize ≤ 2 ^ 30
  front : s.front < s.queueSize
  back : s.back = (s.front + d.items.length) % s.queueSize
  room : d.items.length < s.queueSize
  cells : window s.queue s.queueSize s.front d.items.length = d.items.map some
  last : s.last = d.last

theorem holds_new : Holds (SeriesWork.new : SeriesWork τ) .empty where
  size := ⟨0, rfl⟩
  size_le := (by decide : 4 ≤ 2 ^ 30)
  front := (by decide : 0 < 4)
  back := rfl
  room := (by decide : 0 < 4)
  cells := rfl
  last := rfl

/-- Whether the series is in a parallel does not matter to the ring. -/
theorem Holds.intoParallel {s : SeriesWork τ} {d : Deque τ} (h : Holds s d) :
    Holds s.intoParallel d :=
  ⟨h.size, h.size_le, h.front, h.back, h.room, h.cells, h.last⟩

/-- `front == back` means empty. -/
theorem front_eq_back_iff {s : SeriesWork τ} {d : Deque τ} (h : Holds s d) :
    s.front = s.back ↔ d.items = [] := by
  have hfront := h.front
  have hroom := h.room
  rw [h.back]
  constructor
  · intro heq
    by_contra hne
    have hpos := List.length_pos_iff.mpr hne
    exact ring_front_ne hfront hpos hroom heq
  · intro hnil
    rw [hnil, List.length_nil, Nat.add_zero, Nat.mod_eq_of_lt hfront]

/-! ### Expansion -/

/-- The copy of a full ring, from place `i` of the new array on. -/
theorem copyQueue_spec {s : SeriesWork τ} (hfront : s.front < s.queueSize) (hfull : s.front = s.back)
    (n i : Nat) (hn : i + n + 1 = s.queueSize) (queue : Nat → Option τ) :
    ∃ queue', s.copyQueue (n + 1) i ((s.front + i) % s.queueSize) queue =
        some (queue', s.queueSize) ∧
      (∀ m, m < i → queue' m = queue m) ∧
      ∀ m, i ≤ m → m < s.queueSize → queue' m = s.queue ((s.front + m) % s.queueSize) := by
  have hj : (s.front + i) % s.queueSize < s.queueSize := Nat.mod_lt _ (by omega)
  have hnext : (if (s.front + i) % s.queueSize + 1 = s.queueSize then 0
      else (s.front + i) % s.queueSize + 1) = (s.front + (i + 1)) % s.queueSize := by
    rw [ring_next hj, Nat.mod_add_mod, Nat.add_assoc]
  induction n generalizing i queue with
  | zero =>
      have hturn : (s.front + (i + 1)) % s.queueSize = s.back := by
        rw [show i + 1 = s.queueSize by omega, Nat.add_mod_right, Nat.mod_eq_of_lt hfront, hfull]
      refine ⟨Function.update queue i (s.queue ((s.front + i) % s.queueSize)), ?_, ?_, ?_⟩
      · rw [SeriesWork.copyQueue]
        simp only [hnext, hturn, ne_eq, not_true_eq_false, if_false]
        rw [show i + 1 = s.queueSize by omega]
      · intro m hm
        rw [Function.update_of_ne (by omega)]
      · intro m hle hlt
        obtain rfl : m = i := by omega
        rw [Function.update_self]
  | succ n ih =>
      have hgo : (s.front + (i + 1)) % s.queueSize ≠ s.back := by
        rw [← hfull]
        exact (ring_front_ne hfront (Nat.succ_pos i) (show i + 1 < s.queueSize by omega)).symm
      obtain ⟨queue', hcopy, hbefore, hafter⟩ := ih (i + 1) (by omega)
        (Function.update queue i (s.queue ((s.front + i) % s.queueSize)))
        (Nat.mod_lt _ (by omega)) (by
          rw [ring_next (Nat.mod_lt _ (by omega)), Nat.mod_add_mod, Nat.add_assoc])
      refine ⟨queue', ?_, ?_, ?_⟩
      · rw [SeriesWork.copyQueue]
        simp only [hnext]
        rw [if_pos hgo]
        exact hcopy
      · intro m hm
        rw [hbefore m (by omega), Function.update_of_ne (by omega)]
      · intro m hle hlt
        rcases Nat.lt_or_ge i m with hlater | hhere
        · exact hafter m hlater hlt
        · obtain rfl : m = i := by omega
          rw [hbefore m (by omega), Function.update_self]

/-- A full ring that may grow becomes one with a free cell. -/
theorem expandQueue_full {s : SeriesWork τ} {d : Deque τ} (hsize : ∃ k, s.queueSize = 2 ^ (k + 2))
    (hbound : s.queueSize < 2 ^ 30) (hfront : s.front < s.queueSize) (hfull : s.front = s.back)
    (hlen : d.items.length = s.queueSize)
    (hcells : window s.queue s.queueSize s.front d.items.length = d.items.map some)
    (hlast : s.last = d.last) :
    ∃ t, s.expandQueue = some t ∧ t.inParallel = s.inParallel ∧ Holds t d := by
  obtain ⟨k, hk⟩ := hsize
  obtain ⟨queue', hcopy, -, hqueue⟩ := copyQueue_spec hfront hfull (s.queueSize - 1) 0 (by omega)
    (fun _ => none)
  rw [Nat.sub_add_cancel (by omega), Nat.add_zero, Nat.mod_eq_of_lt hfront] at hcopy
  refine ⟨{ s with
    queue := queue', queueSize := 2 * s.queueSize, front := 0, back := s.queueSize }, ?_, rfl, ?_⟩
  · rw [SeriesWork.expandQueue, if_pos (by omega), hcopy]
    rfl
  · have hdouble : 2 * s.queueSize = 2 ^ (k + 1 + 2) := by
      rw [hk, show k + 1 + 2 = k + 2 + 1 by omega, Nat.pow_succ 2 (k + 2), Nat.mul_comm]
    have hle : 2 * s.queueSize ≤ 2 ^ 30 := by
      rw [hk] at hbound
      have hexp := (Nat.pow_lt_pow_iff_right (by decide)).mp hbound
      rw [hdouble]
      exact Nat.pow_le_pow_right (by decide) (by omega)
    refine ⟨⟨k + 1, hdouble⟩, hle, by simp only; omega, ?_, by simp only; omega, ?_, hlast⟩
    · simp only [hlen, Nat.zero_add]
      rw [Nat.mod_eq_of_lt (by omega)]
    · rw [← hcells]
      refine window_congr fun m hm => ?_
      simp only [Nat.zero_add]
      rw [Nat.mod_eq_of_lt (by omega), hqueue m (Nat.zero_le m) (by omega)]

/-! ### Operations -/

/-- A push that leaves no free cell expands the queue. -/
theorem holds_pushed {s : SeriesWork τ} {d : Deque τ} (hsize : ∃ k, s.queueSize = 2 ^ (k + 2))
    (hsize_le : s.queueSize ≤ 2 ^ 30) (hfront : s.front < s.queueSize)
    (hback : s.back = (s.front + d.items.length) % s.queueSize) (hpos : 0 < d.items.length)
    (hlen : d.items.length ≤ s.queueSize) (hshort : d.items.length < 2 ^ 30)
    (hcells : window s.queue s.queueSize s.front d.items.length = d.items.map some)
    (hlast : s.last = d.last) :
    ∃ t, (if s.front = s.back then s.expandQueue else some s) = some t ∧
      t.inParallel = s.inParallel ∧ Holds t d := by
  rcases Nat.lt_or_ge d.items.length s.queueSize with hroom | hfull
  · have hne : ¬ s.front = s.back := by
      rw [hback]
      exact ring_front_ne hfront hpos hroom
    exact ⟨s, if_neg hne, rfl, hsize, hsize_le, hfront, hback, hroom, hcells, hlast⟩
  · have heq : d.items.length = s.queueSize := by omega
    have hmeet : s.front = s.back := by
      rw [hback, heq, Nat.add_mod_right, Nat.mod_eq_of_lt hfront]
    rw [if_pos hmeet]
    exact expandQueue_full hsize (by omega) hfront hmeet heq hcells hlast

theorem holds_pushBack {s : SeriesWork τ} {d : Deque τ} (h : Holds s d) (task : τ)
    (hshort : (d.step (.pushBack task)).items.length < 2 ^ 30) :
    ∃ t, s.pushBack task = some t ∧ t.inParallel = s.inParallel ∧
      Holds t (d.step (.pushBack task)) := by
  have hlen : (d.step (.pushBack task)).items.length = d.items.length + 1 := List.length_append
  have hroom := h.room
  have hback : s.back < s.queueSize := by
    rw [h.back]
    exact Nat.mod_lt _ (by omega)
  refine holds_pushed (s := { s with
      queue := Function.update s.queue s.back (some task)
      back := if s.back + 1 = s.queueSize then 0 else s.back + 1 })
    h.size h.size_le h.front ?_ (by omega) (by simp only; omega) hshort ?_ h.last
  · rw [hlen]
    simp only [ring_next hback]
    rw [h.back, Nat.mod_add_mod, Nat.add_assoc]
  · simp only [h.back, hlen]
    rw [window_push_back _ hroom, h.cells]
    simp [Deque.step]

theorem holds_pushFront {s : SeriesWork τ} {d : Deque τ} (h : Holds s d) (task : τ)
    (hshort : (d.step (.pushFront task)).items.length < 2 ^ 30) :
    ∃ t, s.pushFront task = some t ∧ t.inParallel = s.inParallel ∧
      Holds t (d.step (.pushFront task)) := by
  have hlen : (d.step (.pushFront task)).items.length = d.items.length + 1 := List.length_cons
  have hroom := h.room
  have hfront := h.front
  obtain ⟨front, hdef⟩ : ∃ f, f = if s.front = 0 then s.queueSize - 1 else s.front - 1 := ⟨_, rfl⟩
  have hlt : front < s.queueSize := by
    rw [hdef]
    split <;> omega
  have hnext : (front + 1) % s.queueSize = s.front := by
    rw [hdef]
    split
    · rename_i hzero
      rw [Nat.sub_add_cancel (by omega), Nat.mod_self, hzero]
    · rw [Nat.sub_add_cancel (by omega), Nat.mod_eq_of_lt hfront]
  have hpush : s.pushFront task =
      if front = s.back then
        ({ s with
          front := front
          queue := Function.update s.queue front (some task) } : SeriesWork τ).expandQueue
      else some { s with front := front, queue := Function.update s.queue front (some task) } := by
    rw [hdef]
    rfl
  rw [hpush]
  refine holds_pushed (s := { s with
      front := front
      queue := Function.update s.queue front (some task) })
    h.size h.size_le hlt ?_ (by omega) (by simp only; omega) hshort ?_ h.last
  · simp only [hlen]
    rw [h.back, ← hnext, Nat.mod_add_mod, Nat.add_assoc, Nat.add_comm 1]
  · simp only [hlen]
    rw [window_push_front _ hlt hnext hroom, h.cells]
    rfl

/-- What is taken is what the deque gives. -/
theorem holds_takeTask {s : SeriesWork τ} {d : Deque τ} (h : Holds s d) :
    s.takeTask.1 = d.front ∧ s.takeTask.2.inParallel = s.inParallel ∧
      Holds s.takeTask.2 (d.step .popTask) := by
  have hempty := front_eq_back_iff h
  obtain ⟨items, last⟩ := d
  cases items with
  | nil =>
      have hpop : s.takeTask = (s.last, { s with last := none }) := by
        rw [SeriesWork.takeTask, if_neg (not_not.mpr (hempty.mpr rfl))]
      rw [hpop]
      exact ⟨h.last, rfl, h.size, h.size_le, h.front, h.back, h.room, h.cells, rfl⟩
  | cons task rest =>
      have hpop : s.takeTask =
          (s.queue s.front, { s with front := (s.front + 1) % s.queueSize }) := by
        rw [SeriesWork.takeTask, if_pos (fun heq => by simpa using hempty.mp heq), ring_next h.front]
      have hcells := h.cells
      rw [List.length_cons, window_pop _ h.front, List.map_cons] at hcells
      injection hcells with hhead htail
      have hroom := h.room
      rw [hpop]
      refine ⟨hhead, rfl, h.size, h.size_le, Nat.mod_lt _ (by omega), ?_, ?_, htail, h.last⟩
      · rw [h.back, List.length_cons]
        simp only [Deque.step, Nat.mod_add_mod]
        rw [Nat.add_assoc, Nat.add_comm 1]
      · simp only [Deque.step]
        simp only [List.length_cons] at hroom
        omega

/-- A pop gives what the deque gives, and deletes the series if that is nothing. -/
theorem holds_popTask {s : SeriesWork τ} {d : Deque τ} (h : Holds s d) :
    s.popTask.1 = d.front ∧
      ((d.front.isSome ∨ s.inParallel = true) →
        ∃ t, s.popTask.2 = some t ∧ t.inParallel = s.inParallel ∧ Holds t (d.step .popTask)) ∧
      (d.front = none → s.inParallel = false → s.popTask.2 = none) := by
  obtain ⟨htask, hparallel, hholds⟩ := holds_takeTask h
  refine ⟨htask, fun hkept => ⟨s.takeTask.2, ?_, hparallel, hholds⟩, fun hnone hfree => ?_⟩
  · refine if_neg fun ⟨hnull, hfree⟩ => ?_
    rw [htask, Option.isNone_iff_eq_none] at hnull
    rw [hparallel] at hfree
    rcases hkept with hsome | hin
    · rw [hnull] at hsome
      exact Bool.false_ne_true hsome
    · exact Bool.false_ne_true (hfree.symm.trans hin)
  · exact if_pos ⟨by rw [htask, hnone]; rfl, hparallel.trans hfree⟩

/-! ### Runs -/

/-- An operation that is not a pop. -/
theorem run_of_exec {s t : SeriesWork τ} {op : QueueOp τ} (ops : List (QueueOp τ))
    (h : s.exec op = some ([], some t)) :
    SeriesWork.run (op :: ops) (some s) = SeriesWork.run ops (some t) := by
  rw [SeriesWork.run, h, Option.bind_some]
  exact Option.map_id'

/-- As long as the list stays short and the series is kept, the ring gives what the deque gives. -/
theorem run_eq (ops : List (QueueOp τ)) (s : SeriesWork τ) (d : Deque τ) (h : Holds s d)
    (hshort : d.Short ops) (hkept : d.Kept s.inParallel ops) :
    SeriesWork.run ops (some s) = some (d.run ops) := by
  induction ops generalizing s d with
  | nil => rfl
  | cons op ops ih =>
      obtain ⟨hnow, hlater⟩ := hshort
      cases op with
      | pushFront task =>
          obtain ⟨t, hpush, hparallel, ht⟩ := holds_pushFront h task hnow
          rw [run_of_exec ops (by rw [SeriesWork.exec, hpush]; rfl)]
          exact ih t _ ht hlater (hparallel ▸ hkept)
      | pushBack task =>
          obtain ⟨t, hpush, hparallel, ht⟩ := holds_pushBack h task hnow
          rw [run_of_exec ops (by rw [SeriesWork.exec, hpush]; rfl)]
          exact ih t _ ht hlater (hparallel ▸ hkept)
      | setLastTask task =>
          rw [run_of_exec ops rfl]
          exact ih _ _ ⟨h.size, h.size_le, h.front, h.back, h.room, h.cells, rfl⟩ hlater hkept
      | unsetLastTask =>
          rw [run_of_exec ops rfl]
          exact ih _ _ ⟨h.size, h.size_le, h.front, h.back, h.room, h.cells, rfl⟩ hlater hkept
      | popTask =>
          obtain ⟨hfront, hkeep, -⟩ := holds_popTask h
          obtain ⟨hlast, hkept⟩ := hkept
          have hrun : SeriesWork.run ops s.popTask.2 = some ((d.step .popTask).run ops) := by
            rcases or_assoc.mpr hlast with hmore | rfl
            · obtain ⟨t, ht, hparallel, hholds⟩ := hkeep hmore
              rw [ht]
              exact ih t _ hholds hlater (hparallel ▸ hkept)
            · rfl
          rw [SeriesWork.run, SeriesWork.exec, Option.bind_some]
          simp only
          rw [hrun, hfront]
          rfl

theorem holds_created (inParallel : Bool) :
    Holds (SeriesWork.created inParallel : SeriesWork τ) .empty := by
  cases inParallel with
  | true => exact holds_new.intoParallel
  | false => exact holds_new

theorem created_inParallel (inParallel : Bool) :
    (SeriesWork.created inParallel : SeriesWork τ).inParallel = inParallel := by
  cases inParallel <;> rfl

/-- As long as there are less than `2 ^ 30` tasks in the queue at a time and the series is not used
after a pop that deleted it, the pops of a new series give the tasks of a deque and then the last
task, whatever wrap-arounds and expansions occur. -/
theorem queue_refines_deque (inParallel : Bool) (ops : List (QueueOp τ))
    (hshort : Deque.empty.Short ops) (hkept : Deque.empty.Kept inParallel ops) :
    SeriesWork.run ops (some (.created inParallel)) = some (Deque.empty.run ops) :=
  run_eq ops _ _ (holds_created inParallel) hshort (by rwa [created_inParallel])

/-- Tasks at both ends, an expansion across the wrap-around, and the last task; a pop that finds
nothing comes last. -/
theorem queue_refines_deque_wrap :
    SeriesWork.run [.pushFront 1, .pushBack 2, .setLastTask 9, .pushFront 3, .pushFront 4,
        .popTask, .pushBack 5, .popTask, .popTask, .popTask, .popTask, .popTask, .popTask]
        (some (.created false)) =
      some [some 4, some 3, some 1, some 2, some 5, some 9, none] :=
  queue_refines_deque false _ (by simp [Deque.Short, Deque.step, Deque.empty])
    (by simp [Deque.Kept, Deque.step, Deque.front, Deque.empty])

/-! ### Too many tasks, and a deleted series -/

/-- With `2 ^ 30` cells the queue cannot be expanded. -/
theorem pushBack_full {s : SeriesWork τ} {d : Deque τ} (h : Holds s d)
    (hlen : d.items.length + 1 = 2 ^ 30) (task : τ) : s.pushBack task = none := by
  have hroom := h.room
  have hle := h.size_le
  have hsize : s.queueSize = 2 ^ 30 := by omega
  have hfront := h.front
  have hback : s.back < s.queueSize := by
    rw [h.back]
    exact Nat.mod_lt _ (by omega)
  have hmeet : s.front = (s.back + 1) % s.queueSize := by
    rw [h.back, Nat.mod_add_mod, Nat.add_assoc, hlen, ← hsize, Nat.add_mod_right,
      Nat.mod_eq_of_lt hfront]
  rw [SeriesWork.pushBack]
  simp only [ring_next hback]
  rw [if_pos hmeet, SeriesWork.expandQueue]
  simp only [hsize]
  rw [if_neg (by decide)]

theorem run_pushBack_many (task : τ) (n : Nat) (ops : List (QueueOp τ)) {s : SeriesWork τ}
    {d : Deque τ} (h : Holds s d) (hlen : d.items.length + n + 1 = 2 ^ 30) :
    SeriesWork.run (List.replicate n (.pushBack task) ++ .pushBack task :: ops) (some s) = none := by
  induction n generalizing s d with
  | zero =>
      rw [List.replicate_zero, List.nil_append, SeriesWork.run, SeriesWork.exec,
        pushBack_full h hlen]
      rfl
  | succ n ih =>
      have hstep : (d.step (.pushBack task)).items.length = d.items.length + 1 := List.length_append
      obtain ⟨t, hpush, -, ht⟩ := holds_pushBack h task (by omega)
      rw [List.replicate_succ, List.cons_append,
        run_of_exec _ (by rw [SeriesWork.exec, hpush]; rfl)]
      exact ih ht (by omega)

theorem kept_pushBack_many (inParallel : Bool) (task : τ) (n : Nat) (d : Deque τ) :
    d.Kept inParallel (List.replicate n (.pushBack task)) := by
  induction n generalizing d with
  | zero => trivial
  | succ n ih => exact ih _

/-- The push of the task number `2 ^ 30` does not return. -/
theorem not_refines {n : Nat} (hn : n + 1 = 2 ^ 30) :
    ¬ ∀ ops : List (QueueOp Nat), Deque.empty.Kept false ops →
      SeriesWork.run ops (some (.created false)) = some (Deque.empty.run ops) := by
  intro h
  have hnone := run_pushBack_many 0 n [] (holds_created (τ := Nat) false)
    (by rw [show (Deque.empty : Deque Nat).items.length = 0 from rfl]; omega)
  rw [← List.replicate_one, ← List.replicate_add] at hnone
  rw [h _ (kept_pushBack_many ..)] at hnone
  exact absurd hnone (by simp)

/-- A series that is used after its last pop is gone, and even without that the push of the task
number `2 ^ 30` does not return. -/
theorem queue_not_refined :
    (SeriesWork.run [.popTask, .pushBack 1, .popTask] (some (.created false)) = none ∧
      Deque.empty.run [.popTask, .pushBack 1, .popTask] = [none, some 1]) ∧
    ¬ ∀ ops : List (QueueOp Nat), Deque.empty.Kept false ops →
      SeriesWork.run ops (some (.created false)) = some (Deque.empty.run ops) :=
  ⟨by decide, not_refines (n := 2 ^ 30 - 1) (by decide)⟩

end Workflow.Factory
