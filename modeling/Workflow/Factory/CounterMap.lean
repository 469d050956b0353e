/-
Module: Workflow.Factory.CounterMap
Layer: Factory
Purpose: Named counters (`__CounterMap`, `__CounterList` and `__WFCounterTask` in WFTaskFactory.cc,
  `WFCounterTask` in WFTask.h). A section under the mutex of the map is one step; the calls of
  `WFCounterTask::count` behind it are steps of their own, in any order. Tasks and lists have numbers
  in the order of their creation. A step that uses a deleted list or a deleted task sets `fault`.
Trusted boundary: human-reviewed model; the red-black tree is a map
Main exports: CounterTask, CounterList, CounterMap, CounterOp, CounterMap.exec, CounterMap.machine,
  CounterMap.doneBy, CounterMap.runDone
-/
import Workflow.Lib.Run
import Mathlib.Data.List.AList

namespace Workflow.Factory

open Workflow.Lib

variable {ν : Type}

/-- A named counter task with its node. -/
structure CounterTask (ν : Type) where
  name : ν
  targetValue : Nat
  value : Nat
  counters : Nat
  dispatched : Bool
deriving DecidableEq

/-- `__CounterList`: the nodes are those of the tasks with these numbers. -/
structure CounterList (ν : Type) where
  name : ν
  head : List Nat
deriving DecidableEq

/-- The map, the lists and the tasks. `ripe` are the tasks whose last count was taken and whose
`WFCounterTask::count` is still to be called; `unlinked` and `deleted` are the nodes that were
unlinked and the lists that were deleted so far. -/
structure CounterMap (ν : Type) where
  countersMap : AList fun _ : ν => Nat
  lists : Nat → Option (CounterList ν)
  listCnt : Nat
  task : Nat → Option (CounterTask ν)
  taskCnt : Nat
  ripe : List Nat
  unlinked : List Nat
  deleted : List Nat
  fault : Bool
  destroyed : Bool

/-- The calls; `fire` is the count of a task that is ripe. -/
inductive CounterOp (ν : Type) where
  | create (name : ν) (targetValue : Nat)
  | countByName (name : ν) (n : Nat)
  | count (task : Nat)
  | fire (task : Nat)
  | dispatch (task : Nat)
  | dismiss (task : Nat)
  | destroyMap

namespace CounterMap

/-- The map at the start. -/
def empty (ν : Type) : CounterMap ν where
  countersMap := ∅
  lists := fun _ => none
  listCnt := 0
  task := fun _ => none
  taskCnt := 0
  ripe := []
  unlinked := []
  deleted := []
  fault := false
  destroyed := false

def setList (m : CounterMap ν) (id : Nat) (l : Option (CounterList ν)) : CounterMap ν :=
  { m with lists := Function.update m.lists id l }

def setTask (m : CounterMap ν) (t : Nat) (task : Option (CounterTask ν)) : CounterMap ν :=
  { m with task := Function.update m.task t task }

/-- `counters->del(node)`. -/
def del (m : CounterMap ν) (id t : Nat) : CounterMap ν :=
  match m.lists id with
  | some l =>
      { m.setList id (some { l with head := l.head.erase t }) with unlinked := t :: m.unlinked }
  | none => { m with unlinked := t :: m.unlinked, fault := true }

/-- `delete counters`. -/
def deleteList (m : CounterMap ν) (id : Nat) : CounterMap ν :=
  { m.setList id none with deleted := id :: m.deleted, fault := m.fault || (m.lists id).isNone }

variable [DecidableEq ν]

/-- `if (counters->empty()) { rb_erase(&counters->rb, &counters_map_); delete counters; }` -/
def dropEmpty (m : CounterMap ν) (id : Nat) : CounterMap ν :=
  match m.lists id with
  | some l =>
      if l.head.isEmpty then
        { m with countersMap := m.countersMap.erase l.name }.deleteList id
      else m
  | none => { m with fault := true }

/-- `__CounterMap::remove`. -/
def remove (m : CounterMap ν) (id t : Nat) : CounterMap ν :=
  (m.del id t).dropEmpty id

/-- `delete task`: the destructor of `__WFCounterTask` and the memory of the task. -/
def deleteTask (m : CounterMap ν) (t : Nat) : CounterMap ν :=
  match m.task t with
  | some task => ((if task.value ≠ 0 then m.remove task.counters t else m).setTask t none)
  | none => { m with fault := true }

/-- `WFCounterTask::count`; `subtask_done` deletes the task. -/
def countTask (m : CounterMap ν) (t : Nat) : CounterMap ν :=
  match m.task t with
  | some task =>
      let m := m.setTask t (some { task with value := task.value - 1 })
      if task.value - 1 = 0 then m.deleteTask t else m
  | none => { m with fault := true }

/-- `__CounterMap::create`; a target of 0 makes a counter without a name. -/
def create (m : CounterMap ν) (name : ν) (targetValue : Nat) : CounterMap ν :=
  if targetValue = 0 then m
  else
    let t := m.taskCnt
    match m.countersMap.lookup name with
    | some id =>
        let m := { m with taskCnt := t + 1 }.setTask t (some ⟨name, targetValue, 2, id, false⟩)
        match m.lists id with
        | some l => m.setList id (some { l with head := l.head ++ [t] })
        | none => { m with fault := true }
    | none =>
        let id := m.listCnt
        let m := { m with
          taskCnt := t + 1, listCnt := id + 1, countersMap := m.countersMap.insert name id }
        (m.setTask t (some ⟨name, targetValue, 2, id, false⟩)).setList id (some ⟨name, [t]⟩)

/-- The loop of `count_n_locked` over the nodes of a list. -/
def countNodes (m : CounterMap ν) (id : Nat) : List Nat → Nat → CounterMap ν
  | [], _ => m
  | t :: rest, n =>
      if n = 0 then m
      else
        match m.task t with
        | none => { m with fault := true }
        | some task =>
            if task.targetValue ≤ n then
              let m := (m.setTask t (some { task with targetValue := 0 })).del id t
              let m := { m with ripe := t :: m.ripe }
              if (m.lists id).any fun l => l.head.isEmpty then m.dropEmpty id
              else m.countNodes id rest (n - task.targetValue)
            else
              let m := m.setTask t (some { task with targetValue := task.targetValue - n })
              m.countNodes id rest 0

/-- The section in `__CounterMap::count_n`. -/
def countN (m : CounterMap ν) (name : ν) (n : Nat) : CounterMap ν :=
  match m.countersMap.lookup name with
  | some id =>
      match m.lists id with
      | some l => m.countNodes id l.head n
      | none => { m with fault := true }
  | none => m

/-- The section in `__CounterMap::count`. -/
def count (m : CounterMap ν) (t : Nat) (task : CounterTask ν) : CounterMap ν :=
  let m := m.setTask t (some { task with targetValue := task.targetValue - 1 })
  if task.targetValue - 1 = 0 then
    let m := (m.del task.counters t).dropEmpty task.counters
    { m with ripe := t :: m.ripe }
  else m

/-- The inner loop of `~__CounterMap`. -/
def destroyNodes (m : CounterMap ν) (id : Nat) : List Nat → CounterMap ν
  | [] => m
  | t :: rest => ((m.del id t).deleteTask t).destroyNodes id rest

/-- The outer loop of `~__CounterMap`, at most `fuel` times. -/
def destroyLists (m : CounterMap ν) : Nat → CounterMap ν
  | 0 => m
  | fuel + 1 =>
      match m.countersMap.entries with
      | [] => m
      | ⟨_, id⟩ :: _ =>
          let m := m.destroyNodes id (((m.lists id).map CounterList.head).getD [])
          let m :=
            match m.countersMap.entries with
            | [] => { m with fault := true }
            | ⟨root, _⟩ :: _ => { m with countersMap := m.countersMap.erase root }
          (m.deleteList id).destroyLists fuel

/-- One step; `none` when it cannot be taken. A task is counted at most as often as its target says,
and only a task that was never dispatched is dismissed. -/
def exec (_fuel : Nat) (m : CounterMap ν) (op : CounterOp ν) : Option (CounterMap ν) :=
  if m.destroyed then none
  else
    match op with
    | .create name targetValue => some (m.create name targetValue)
    | .countByName name n => some (m.countN name n)
    | .count t =>
        match m.task t with
        | some task => if 0 < task.targetValue then some (m.count t task) else none
        | none => none
    | .fire t => if t ∈ m.ripe then some ({ m with ripe := m.ripe.erase t }.countTask t) else none
    | .dispatch t =>
        match m.task t with
        | some task =>
            if task.dispatched then none
            else some ((m.setTask t (some { task with dispatched := true })).countTask t)
        | none => none
    | .dismiss t =>
        match m.task t with
        | some task => if task.dispatched then none else some (m.deleteTask t)
        | none => none
    | .destroyMap => some { m.destroyLists m.countersMap.entries.length with destroyed := true }

/-- The task on which a step calls `subtask_done`: its counter goes to zero. -/
def doneBy (m : CounterMap ν) : CounterOp ν → List Nat
  | .fire t | .dispatch t =>
      if (m.task t).any fun task => task.value - 1 = 0 then [t] else []
  | .create _ _ | .countByName _ _ | .count _ | .dismiss _ | .destroyMap => []

/-- A sequence of steps, with the calls of `subtask_done`. -/
def runDone (m : CounterMap ν) : List (CounterOp ν) → Option (CounterMap ν × List Nat)
  | [] => some (m, [])
  | op :: ops =>
      (m.exec 0 op).bind fun m' => (m'.runDone ops).map fun (t, done) => (t, m.doneBy op ++ done)

/-- All runs of named counters. -/
def machine (ν : Type) [DecidableEq ν] : Machine (CounterMap ν) (CounterOp ν) :=
  .ofFunction (.empty ν) exec

end CounterMap

end Workflow.Factory
