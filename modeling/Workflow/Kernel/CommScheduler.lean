/-
Module: Workflow.Kernel.CommScheduler
Layer: Model
Purpose: `CommSchedTarget` and `CommSchedGroup` (CommScheduler.cc): targets with a load, groups that
  keep their targets in a heap by relative load, and the operations that take and give back load.
  Targets and groups are numbered; each operation runs under its locks, and a thread that waits on
  a condition variable has left its operation until it is woken.
Trusted boundary: human-reviewed model
Main exports: Target, Group, Slots, targetCmp, heapAdjust, heapify, heapInsert, heapRemove, Sched,
  groupAdd, groupRemove, groupAcquire, targetAcquire, targetRelease, SchedOp, Sched.exec
-/
import Workflow.Lib.CString
import Workflow.Lib.Run
import Mathlib.Logic.Function.Basic

namespace Workflow.Kernel

open Workflow.Lib

/-- `size_t` multiplication. -/
def mulSize (a b : Nat) : Nat :=
  a * b % 2 ^ 64

/-- `CommSchedTarget`; its `index` is kept in `Sched.index`. -/
structure Target where
  maxLoad : Nat
  curLoad : Nat
  group : Option Nat
  waitCnt : Nat
deriving Repr, DecidableEq

/-- `CommSchedGroup`. The array behind `tg_heap` is a function; `heapSize` slots of it are used and
`heapBufSize` are allocated. -/
structure Group where
  tgHeap : Nat → Nat
  heapSize : Nat
  heapBufSize : Nat
  maxLoad : Nat
  curLoad : Nat
  waitCnt : Nat

/-- What the heap functions write: the array of a group and the `index` of every target. -/
structure Slots where
  tgHeap : Nat → Nat
  index : Nat → Nat

/-- `this->tg_heap[i] = target; target->index = i;`. -/
def Slots.place (h : Slots) (i target : Nat) : Slots where
  tgHeap := Function.update h.tgHeap i target
  index := Function.update h.index target i

/-! ### The heap -/

section Heap

variable (targets : Nat → Target)

/-- `target_cmp`. -/
def targetCmp (target1 target2 : Nat) : Int :=
  let load1 := mulSize (targets target1).curLoad (targets target2).maxLoad
  let load2 := mulSize (targets target2).curLoad (targets target1).maxLoad
  if load1 < load2 then -1 else if load1 > load2 then 1 else 0

/-- The loop of `heap_adjust`, with `target` in hand. -/
def heapAdjustLoop (swapOnEqual : Bool) (target : Nat) (h : Slots) (index : Nat) : Slots :=
  if 0 < index then
    if targetCmp targets target (h.tgHeap ((index - 1) / 2)) < (if swapOnEqual then 1 else 0) then
      heapAdjustLoop swapOnEqual target (h.place index (h.tgHeap ((index - 1) / 2)))
        ((index - 1) / 2)
    else
      h.place index target
  else
    h.place index target
termination_by index

/-- `heap_adjust(index, swap_on_equal)`. -/
def heapAdjust (h : Slots) (index : Nat) (swapOnEqual : Bool) : Slots :=
  heapAdjustLoop targets swapOnEqual (h.tgHeap index) h index

/-- The loop of `heapify` on `size` targets, with `target` in hand. -/
def heapifyLoop (size target : Nat) (h : Slots) (top : Nat) : Slots :=
  if 2 * top + 1 + 1 < size then
    if targetCmp targets (h.tgHeap (2 * top + 1)) target < 0 then
      if targetCmp targets (h.tgHeap (2 * top + 2)) (h.tgHeap (2 * top + 1)) < 0 then
        heapifyLoop size target (h.place top (h.tgHeap (2 * top + 2))) (2 * top + 2)
      else
        heapifyLoop size target (h.place top (h.tgHeap (2 * top + 1))) (2 * top + 1)
    else
      if targetCmp targets (h.tgHeap (2 * top + 2)) target < 0 then
        heapifyLoop size target (h.place top (h.tgHeap (2 * top + 2))) (2 * top + 2)
      else
        h.place top target
  else if 2 * top + 1 + 1 = size ∧ targetCmp targets (h.tgHeap (2 * top + 1)) target < 0 then
    (h.place top (h.tgHeap (2 * top + 1))).place (2 * top + 1) target
  else
    h.place top target
termination_by size - top

/-- `heapify(top)`. -/
def heapify (h : Slots) (size top : Nat) : Slots :=
  heapifyLoop targets size (h.tgHeap top) h top

/-- What `heap_remove(index)` does to the other targets; `size` is the heap size after it. -/
def heapRemove (h : Slots) (size index : Nat) : Slots :=
  if index = size then h
  else
    let target := h.tgHeap size
    let h := heapAdjust targets (h.place index target) index false
    heapify targets h size (h.index target)

end Heap

/-! ### The operations -/

/-- All targets and groups. `acquired` counts, for each target, the acquisitions that were not
released yet. -/
structure Sched where
  targets : Nat → Target
  index : Nat → Nat
  groups : Nat → Group
  acquired : Nat → Nat

namespace Sched

/-- `CommSchedTarget::init(.., max_connections)` of all targets and `CommSchedGroup::init` of all
groups. -/
def init (maxConnections : Nat → UInt64) : Sched where
  targets := fun t =>
    { maxLoad := (maxConnections t).toNat, curLoad := 0, group := none, waitCnt := 0 }
  index := fun _ => 0
  groups := fun _ =>
    { tgHeap := fun _ => 0, heapSize := 0, heapBufSize := 4, maxLoad := 0, curLoad := 0,
      waitCnt := 0 }
  acquired := fun _ => 0

def slots (s : Sched) (g : Nat) : Slots where
  tgHeap := (s.groups g).tgHeap
  index := s.index

/-- The heap functions of group `g` have run. -/
def withSlots (s : Sched) (g : Nat) (h : Slots) : Sched :=
  { s with
    groups := Function.update s.groups g { s.groups g with tgHeap := h.tgHeap }
    index := h.index }

def setTarget (s : Sched) (t : Nat) (target : Target) : Sched :=
  { s with targets := Function.update s.targets t target }

def setGroup (s : Sched) (g : Nat) (group : Group) : Sched :=
  { s with groups := Function.update s.groups g group }

/-- `heap_insert(target)`; `none` if `realloc` finds no memory, as it never does for the negative
`int` that doubling makes of `2 ^ 30` and more. -/
def heapInsert (s : Sched) (g t : Nat) (memory : Bool) : Option Sched :=
  let group := s.groups g
  if group.heapSize = group.heapBufSize ∧ (memory = false ∨ 2 ^ 30 ≤ group.heapBufSize) then none
  else
    let bufSize := if group.heapSize = group.heapBufSize then 2 * group.heapBufSize
      else group.heapBufSize
    let h := (s.slots g).place group.heapSize t
    let s := s.withSlots g (heapAdjust s.targets h group.heapSize false)
    some (s.setGroup g
      { s.groups g with heapSize := group.heapSize + 1, heapBufSize := bufSize })

/-- `CommSchedGroup::add`; a failed one changes nothing. -/
def groupAdd (s : Sched) (g t : Nat) (memory : Bool) : Sched :=
  let target := s.targets t
  if target.group = none ∧ target.waitCnt = 0 then
    match s.heapInsert g t memory with
    | none => s
    | some s =>
        let s := s.setTarget t { target with group := some g }
        s.setGroup g
          { s.groups g with
            maxLoad := addSize (s.groups g).maxLoad target.maxLoad
            curLoad := addSize (s.groups g).curLoad target.curLoad }
  else
    s

/-- `CommSchedGroup::remove`; a failed one changes nothing. -/
def groupRemove (s : Sched) (g t : Nat) : Sched :=
  let target := s.targets t
  if target.group = some g ∧ target.waitCnt = 0 then
    let size := (s.groups g).heapSize - 1
    let s := s.withSlots g (heapRemove s.targets (s.slots g) size (s.index t))
    let s := s.setGroup g
      { s.groups g with
        heapSize := size
        maxLoad := subSize (s.groups g).maxLoad target.maxLoad
        curLoad := subSize (s.groups g).curLoad target.curLoad }
    s.setTarget t { target with group := none }
  else
    s

/-- The load of a target and of its group, if it has one, goes up by one. -/
def takeLoad (s : Sched) (t : Nat) (group : Option Nat) : Sched :=
  let s := s.setTarget t { s.targets t with curLoad := addSize (s.targets t).curLoad 1 }
  match group with
  | none => s
  | some g => s.setGroup g { s.groups g with curLoad := addSize (s.groups g).curLoad 1 }

/-- `CommSchedGroup::acquire`, from the start or, if `woken`, from the end of a wait, and the target
that it returns. -/
def groupAcquire (s : Sched) (g : Nat) (woken : Bool) : Sched × Option Nat :=
  let s := if woken then s.setGroup g { s.groups g with waitCnt := (s.groups g).waitCnt - 1 } else s
  if (s.groups g).curLoad < (s.groups g).maxLoad then
    let t := (s.groups g).tgHeap 0
    let s := s.takeLoad t (some g)
    (s.withSlots g (heapify s.targets (s.slots g) (s.groups g).heapSize 0), some t)
  else
    (s, none)

/-- `CommSchedTarget::acquire`, and whether it succeeds. -/
def targetAcquire (s : Sched) (t : Nat) (woken : Bool) : Sched × Bool :=
  let s := if woken then s.setTarget t { s.targets t with waitCnt := (s.targets t).waitCnt - 1 }
    else s
  if (s.targets t).curLoad < (s.targets t).maxLoad then
    let s := s.takeLoad t (s.targets t).group
    match (s.targets t).group with
    | none => (s, true)
    | some g =>
        (s.withSlots g (heapify s.targets (s.slots g) (s.groups g).heapSize (s.index t)), true)
  else
    (s, false)

/-- `CommSchedTarget::release(keep_alive)`. -/
def targetRelease (s : Sched) (t : Nat) (keepAlive : Bool) : Sched :=
  let s := s.setTarget t { s.targets t with curLoad := subSize (s.targets t).curLoad 1 }
  match (s.targets t).group with
  | none => s
  | some g =>
      let s := s.setGroup g { s.groups g with curLoad := subSize (s.groups g).curLoad 1 }
      s.withSlots g (heapAdjust s.targets (s.slots g) (s.index t) keepAlive)

/-- Somebody has acquired `t`. -/
def countAcquired (s : Sched) (t : Nat) : Sched :=
  { s with acquired := Function.update s.acquired t (s.acquired t + 1) }

end Sched

/-- The operations; `groupWait` and `targetWait` are what `acquire` does before it waits. -/
inductive SchedOp where
  | add (g t : Nat) (memory : Bool)
  | remove (g t : Nat)
  | groupAcquire (g : Nat) (woken : Bool)
  | groupWait (g : Nat)
  | targetAcquire (t : Nat) (woken : Bool)
  | targetWait (t : Nat)
  | release (t : Nat) (keepAlive : Bool)

/-- One operation. A thread is woken only where one waits, and each acquired target is released
once. -/
def Sched.exec (_fuel : Nat) (s : Sched) : SchedOp → Option Sched
  | .add g t memory => some (s.groupAdd g t memory)
  | .remove g t => some (s.groupRemove g t)
  | .groupAcquire g woken =>
      if woken = true ∧ (s.groups g).waitCnt = 0 then none
      else
        match s.groupAcquire g woken with
        | (s, none) => some s
        | (s, some t) => some (s.countAcquired t)
  | .groupWait g =>
      if (s.groups g).curLoad < (s.groups g).maxLoad then none
      else some (s.setGroup g { s.groups g with waitCnt := (s.groups g).waitCnt + 1 })
  | .targetAcquire t woken =>
      if woken = true ∧ (s.targets t).waitCnt = 0 then none
      else
        match s.targetAcquire t woken with
        | (s, false) => some s
        | (s, true) => some (s.countAcquired t)
  | .targetWait t =>
      if (s.targets t).curLoad < (s.targets t).maxLoad then none
      else some (s.setTarget t { s.targets t with waitCnt := (s.targets t).waitCnt + 1 })
  | .release t keepAlive =>
      if s.acquired t = 0 then none
      else
        let s := s.targetRelease t keepAlive
        some { s with acquired := Function.update s.acquired t (s.acquired t - 1) }

/-- All runs from empty groups and idle targets. -/
def Sched.machine (maxConnections : Nat → UInt64) : Machine Sched SchedOp :=
  .ofFunction (.init maxConnections) Sched.exec

end Workflow.Kernel
