/-
Module: Workflow.Factory.ParSort
Layer: Factory
Purpose: The parallel sort tasks of WFAlgoTaskFactory.inl in the series and parallel works that schedule
  them (Workflow.cc, SubTask.cc). A task lies in a series, a series in a parallel work, and that work
  in the series of the task that was split, so the works are a tree. What one thread does between two
  dispatches is one event; dispatches, the starts of the sub-tasks and their ends come in any order. A
  sub-task reads its range when it starts and writes it when it ends. The executor accepts every task,
  and no series is canceled.
Trusted boundary: human-reviewed model
Main exports: ParSortTask, ParSortTask.dispatch, ParSortTask.execute, Contract, Series, SortEvent,
  ParSort.exec
-/
import Workflow.Factory.AlgoTask
import Workflow.Factory.SeriesQueue
import Workflow.Lib.Run

namespace Workflow.Factory

open Workflow.Lib

variable {α : Type}

/-! ### The tasks -/

/-- `__WFParSortTask` and `__WFParSortTaskCmp`. Only the root has a callback; `moved` says that the
comparator was moved out, `success` that the state is `WFT_STATE_SUCCESS`. -/
structure ParSortTask where
  first : Nat
  last : Nat
  depth : Nat
  flag : Bool
  callback : Bool
  moved : Bool
  success : Bool
  output : Option (Nat × Nat)
deriving Repr, DecidableEq

namespace ParSortTask

/-- The constructor. The comparator of a sub-task is a copy. -/
def new (first last depth : Nat) (callback moved : Bool) : ParSortTask where
  first := first
  last := last
  depth := depth
  flag := false
  callback := callback
  moved := moved
  success := false
  output := none

/-- `this->input.last - this->input.first`. -/
def size (t : ParSortTask) : Nat :=
  t.last - t.first

def middle (t : ParSortTask) : Nat :=
  t.first + t.size / 2

end ParSortTask

/-- What a series queues: a task, a parallel work with the first tasks of its two series, or a task of
the user. -/
inductive SortItem where
  | sort (t : ParSortTask)
  | parallel (task1 task2 : ParSortTask)
  | other (id : Nat)
deriving Repr, DecidableEq

/-- A series by its current task: one that is to be dispatched, one that the executor has, one that a
thread executes on what it read, a parallel work, or a task of the user behind the sort. -/
inductive Series (α : Type) where
  | ready (t : ParSortTask) (queue : Deque SortItem)
  | requested (t : ParSortTask) (queue : Deque SortItem)
  | executing (t : ParSortTask) (input : List α) (queue : Deque SortItem)
  | parallel (nleft : Nat) (series1 series2 : Series α) (queue : Deque SortItem)
  | other (id : Nat) (queue : Deque SortItem)
  | ended

/-- The array, the tasks whose callback was called, and whether an assertion failed or a comparator was
used after it was moved out. -/
structure SortWorld (α : Type) where
  mem : List α
  called : List ParSortTask
  fault : Bool

/-- `pop`, and the `dispatch` of a parallel work. -/
def popNext (queue : Deque SortItem) : Series α :=
  match queue.front with
  | none => .ended
  | some (.sort t) => .ready t (queue.step .popTask)
  | some (.parallel task1 task2) =>
      .parallel 2 (.ready task1 .empty) (.ready task2 .empty) (queue.step .popTask)
  | some (.other id) => .other id (queue.step .popTask)

namespace ParSortTask

/-- `done`. -/
def done (t : ParSortTask) (w : SortWorld α) (queue : Deque SortItem) : SortWorld α × Series α :=
  if t.flag then (w, popNext queue)
  else
    let w := { w with fault := w.fault || !t.success }
    (if t.callback then { w with called := w.called ++ [t] } else w, popNext queue)

/-- `dispatch`: a large range is split, and the task queues behind its halves. -/
def dispatch (t : ParSortTask) (w : SortWorld α) (queue : Deque SortItem) :
    SortWorld α × Series α :=
  if !t.flag && t.depth < 7 && t.size ≥ 32 then
    let task1 := new t.first t.middle (t.depth + 1) false t.moved
    let task2 := new t.middle t.last (t.depth + 1) false t.moved
    let t := { t with flag := true }
    t.done w ((queue.step (.pushFront (.sort t))).step (.pushFront (.parallel task1 task2)))
  else (w, .requested t queue)

/-- `execute`, which leaves `result` in the range. The tasks with a comparator move it out. -/
def execute (cmp : Bool) (t : ParSortTask) (w : SortWorld α) (result : List α) :
    ParSortTask × SortWorld α :=
  ({ t with flag := false, moved := t.moved || cmp, output := some (t.first, t.last) },
    { w with mem := overwrite w.mem t.first result, fault := w.fault || (cmp && t.moved) })

end ParSortTask

/-- What `std::inplace_merge` and `std::sort` promise, for what `execute` calls them with: two halves
that are sorted are merged, and any range is sorted. -/
def Contract (comp : α → α → Bool) (t : ParSortTask) (input result : List α) : Prop :=
  if t.flag then
    Sorted comp (input.take (t.size / 2)) → Sorted comp (input.drop (t.size / 2)) →
      Sorted comp result ∧ result.Perm input
  else Sorted comp result ∧ result.Perm input

/-! ### The tree -/

/-- What `subtask_done` does in a parallel work when the series `s` has moved on: at its end `nleft` goes
down, and the last one of them deletes the work and goes on in the series that it lies in. -/
def afterSubtask (nleft : Nat) (s series1 series2 : Series α) (queue : Deque SortItem) : Series α :=
  match s with
  | .ended => if nleft - 1 = 0 then popNext queue else .parallel (nleft - 1) series1 series2 queue
  | _ => .parallel nleft series1 series2 queue

/-- An action on the series at a path; `true` is the second series of a parallel work. -/
def Series.atPath (act : SortWorld α → Series α → Option (SortWorld α × Series α)) :
    List Bool → SortWorld α → Series α → Option (SortWorld α × Series α)
  | [], w, s => act w s
  | false :: path, w, .parallel nleft series1 series2 queue =>
      (series1.atPath act path w).map fun (w, s) => (w, afterSubtask nleft s s series2 queue)
  | true :: path, w, .parallel nleft series1 series2 queue =>
      (series2.atPath act path w).map fun (w, s) => (w, afterSubtask nleft s series1 s queue)
  | _ :: _, _, _ => none

/-- The task that is executed at a path, and what it read. -/
def Series.executingAt : List Bool → Series α → Option (ParSortTask × List α)
  | [], .executing t input _ => some (t, input)
  | false :: path, .parallel _ series1 _ _ => series1.executingAt path
  | true :: path, .parallel _ _ series2 _ => series2.executingAt path
  | _, _ => none

/-! ### The events -/

inductive SortEvent (α : Type) where
  | dispatch (path : List Bool)
  | start (path : List Bool)
  | finish (path : List Bool) (result : List α)

def dispatchTask (w : SortWorld α) : Series α → Option (SortWorld α × Series α)
  | .ready t queue => some (t.dispatch w queue)
  | _ => none

/-- A thread of the executor takes a task. -/
def startTask (w : SortWorld α) : Series α → Option (SortWorld α × Series α)
  | .requested t queue => some (w, .executing t (slice w.mem t.first t.last) queue)
  | _ => none

/-- The thread is through with the task: `execute` has its effect, and `handle` calls `subtask_done`. -/
def finishTask (cmp : Bool) (result : List α) (w : SortWorld α) :
    Series α → Option (SortWorld α × Series α)
  | .executing t _ queue =>
      let (t, w) := t.execute cmp w result
      some ({ t with success := true }.done w queue)
  | _ => none

/-- A sort in progress. -/
structure ParSort (α : Type) extends SortWorld α where
  root : Series α

namespace ParSort

/-- `create_psort_task`, when its series has come to it. -/
def create (mem : List α) (first last : Nat) (rest : Deque SortItem) : ParSort α where
  mem := mem
  called := []
  fault := false
  root := .ready (.new first last 0 true false) rest

/-- The action of an event. -/
def act (cmp : Bool) : SortEvent α → SortWorld α → Series α → Option (SortWorld α × Series α)
  | .dispatch _ => dispatchTask
  | .start _ => startTask
  | .finish _ result => finishTask cmp result

/-- Where an event takes place. -/
def place : SortEvent α → List Bool
  | .dispatch path => path
  | .start path => path
  | .finish path _ => path

def exec (cmp : Bool) (_ : Nat) (p : ParSort α) (e : SortEvent α) : Option (ParSort α) :=
  (p.root.atPath (act cmp e) (place e) p.toSortWorld).map fun (w, s) => ⟨w, s⟩

/-- The library keeps its promises. -/
def Meets (comp : α → α → Bool) (p : ParSort α) : SortEvent α → Prop
  | .finish path result =>
      ∀ t input, p.root.executingAt path = some (t, input) → Contract comp t input result
  | _ => True

/-- The sort of `[first, last)` in a series that goes on with `rest`. -/
def machine (cmp : Bool) (mem : List α) (first last : Nat) (rest : Deque SortItem) :
    Machine (ParSort α) (SortEvent α) :=
  .ofFunction (create mem first last rest) (exec cmp)

end ParSort

end Workflow.Factory
