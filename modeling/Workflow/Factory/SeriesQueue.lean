/-
Module: Workflow.Factory.SeriesQueue
Layer: Model
Purpose: The task queue of a `SeriesWork` (Workflow.cc): a ring of pointers that grows, and the last
  task. An expansion beyond an `int` does not return. A `pop_task` that finds neither a task nor a
  last task deletes the series, unless it is in a `ParallelWork`; using a deleted series is undefined
  behaviour, the result `none`. The callback that runs before gets the series as `const` and does
  not touch the queue. `Deque` is what the queue is for.
Trusted boundary: human-reviewed model
Main exports: SeriesWork, expandQueue, pushFront, pushBack, popTask, QueueOp, SeriesWork.run, Deque,
  Deque.run
-/
import Workflow.Lib.RingBuffer

namespace Workflow.Factory

open Workflow.Lib

variable {τ : Type}

/-- `SeriesWork`, as far as its queue goes. A cell that was never written holds nothing. -/
structure SeriesWork (τ : Type) where
  queue : Nat → Option τ
  queueSize : Nat
  front : Nat
  back : Nat
  last : Option τ
  inParallel : Bool

namespace SeriesWork

/-- The constructor. -/
def new : SeriesWork τ where
  queue := fun _ => none
  queueSize := 4
  front := 0
  back := 0
  last := none
  inParallel := false

/-- `ParallelWork::add_series` and its constructor take the series. -/
def intoParallel (s : SeriesWork τ) : SeriesWork τ :=
  { s with inParallel := true }

/-- A new series, taken by a `ParallelWork` or not. -/
def created (inParallel : Bool) : SeriesWork τ :=
  if inParallel then new.intoParallel else new

/-- The loop of `expand_queue`: the new array and `i`. -/
def copyQueue (s : SeriesWork τ) :
    Nat → Nat → Nat → (Nat → Option τ) → Option ((Nat → Option τ) × Nat)
  | 0, _, _, _ => none
  | fuel + 1, i, j, queue =>
      let queue := Function.update queue i (s.queue j)
      let j := if j + 1 = s.queueSize then 0 else j + 1
      if j ≠ s.back then s.copyQueue fuel (i + 1) j queue else some (queue, i + 1)

/-- `expand_queue`. `int size` overflows from `2 ^ 31` on. -/
def expandQueue (s : SeriesWork τ) : Option (SeriesWork τ) :=
  if 2 * s.queueSize < 2 ^ 31 then
    (s.copyQueue s.queueSize 0 s.front fun _ => none).map fun (queue, i) =>
      { s with queue := queue, queueSize := 2 * s.queueSize, front := 0, back := i }
  else none

/-- `push_front`. -/
def pushFront (task : τ) (s : SeriesWork τ) : Option (SeriesWork τ) :=
  let front := if s.front = 0 then s.queueSize - 1 else s.front - 1
  let s := { s with front := front, queue := Function.update s.queue front (some task) }
  if s.front = s.back then s.expandQueue else some s

/-- `push_back`. -/
def pushBack (task : τ) (s : SeriesWork τ) : Option (SeriesWork τ) :=
  let queue := Function.update s.queue s.back (some task)
  let back := if s.back + 1 = s.queueSize then 0 else s.back + 1
  let s := { s with queue := queue, back := back }
  if s.front = s.back then s.expandQueue else some s

/-- `set_last_task`. -/
def setLastTask (task : τ) (s : SeriesWork τ) : SeriesWork τ :=
  { s with last := some task }

/-- `unset_last_task`. -/
def unsetLastTask (s : SeriesWork τ) : SeriesWork τ :=
  { s with last := none }

/-- The part of `pop_task` that holds the lock. -/
def takeTask (s : SeriesWork τ) : Option τ × SeriesWork τ :=
  if s.front ≠ s.back then
    let front := if s.front + 1 = s.queueSize then 0 else s.front + 1
    (s.queue s.front, { s with front := front })
  else (s.last, { s with last := none })

/-- `pop_task`, with the series that is left: without a task it deletes itself. -/
def popTask (s : SeriesWork τ) : Option τ × Option (SeriesWork τ) :=
  (s.takeTask.1,
    if s.takeTask.1.isNone ∧ s.takeTask.2.inParallel = false then none else some s.takeTask.2)

end SeriesWork

/-- The operations on the queue. -/
inductive QueueOp (τ : Type) where
  | pushFront (task : τ)
  | pushBack (task : τ)
  | setLastTask (task : τ)
  | unsetLastTask
  | popTask

/-- One operation: what is popped, if it is a pop, and the series that is left. -/
def SeriesWork.exec (s : SeriesWork τ) : QueueOp τ → Option (List (Option τ) × Option (SeriesWork τ))
  | .pushFront task => (s.pushFront task).map fun s => ([], some s)
  | .pushBack task => (s.pushBack task).map fun s => ([], some s)
  | .setLastTask task => some ([], some (s.setLastTask task))
  | .unsetLastTask => some ([], some s.unsetLastTask)
  | .popTask => some ([s.popTask.1], s.popTask.2)

/-- The operations in turn on a series, which may be deleted by now; the results of the pops, in
order. -/
def SeriesWork.run : List (QueueOp τ) → Option (SeriesWork τ) → Option (List (Option τ))
  | [], _ => some []
  | _ :: _, none => none
  | op :: ops, some s =>
      (s.exec op).bind fun (popped, s) => (run ops s).map (popped ++ ·)

/-! ### The abstract queue -/

/-- A list and a last task. -/
structure Deque (τ : Type) where
  items : List τ
  last : Option τ

namespace Deque

def empty : Deque τ where
  items := []
  last := none

/-- What an operation makes of the queue. -/
def step (d : Deque τ) : QueueOp τ → Deque τ
  | .pushFront task => { d with items := task :: d.items }
  | .pushBack task => { d with items := d.items ++ [task] }
  | .setLastTask task => { d with last := some task }
  | .unsetLastTask => { d with last := none }
  | .popTask =>
      match d.items with
      | _ :: rest => { d with items := rest }
      | [] => { d with last := none }

/-- What a pop gives: the front of the list, or, if it is empty, the last task. -/
def front (d : Deque τ) : Option τ :=
  match d.items with
  | task :: _ => some task
  | [] => d.last

def run : List (QueueOp τ) → Deque τ → List (Option τ)
  | [], _ => []
  | .popTask :: ops, d => d.front :: run ops (d.step .popTask)
  | op :: ops, d => run ops (d.step op)

/-- At no time are there `2 ^ 30` tasks in the list. -/
def Short : List (QueueOp τ) → Deque τ → Prop
  | [], _ => True
  | op :: ops, d => (d.step op).items.length < 2 ^ 30 ∧ Short ops (d.step op)

/-- No operation comes after a pop that finds nothing, unless the series is in a parallel. -/
def Kept (inParallel : Bool) : List (QueueOp τ) → Deque τ → Prop
  | [], _ => True
  | .popTask :: ops, d =>
      (d.front.isSome ∨ inParallel = true ∨ ops = []) ∧ Kept inParallel ops (d.step .popTask)
  | op :: ops, d => Kept inParallel ops (d.step op)

end Deque

end Workflow.Factory
