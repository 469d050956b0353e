/-
Module: Workflow.Kernel.SchedWaiters
Layer: Model
Purpose: The waiting threads of the connection scheduler (CommScheduler.cc). The counters and heaps
  are those of `Sched`; here it is also kept how many of the threads in `wait_cnt` a signal has
  woken and have not run yet. Each section between taking a mutex and giving it up or waiting is one
  step.
Trusted boundary: human-reviewed model
Main exports: Wake, Waiters, WaitOp, Waiters.exec, Waiters.machine
-/
import Workflow.Kernel.CommScheduler

namespace Workflow.Kernel

open Workflow.Lib

/-- How a thread comes back from `pthread_cond_timedwait`. -/
inductive Wake where
  | signalled
  | timedOut
  | spurious
deriving DecidableEq

/-- The scheduler, and how many waiting threads of each group and target are woken. -/
structure Waiters where
  sched : Sched
  groupSignalled : Nat → Nat
  targetSignalled : Nat → Nat

namespace Waiters

def init (maxConnections : Nat → UInt64) : Waiters where
  sched := .init maxConnections
  groupSignalled := fun _ => 0
  targetSignalled := fun _ => 0

def group (w : Waiters) (g : Nat) : Group := w.sched.groups g

def target (w : Waiters) (t : Nat) : Target := w.sched.targets t

/-- `pthread_cond_signal(&group->cond)`. -/
def signalGroup (w : Waiters) (g : Nat) : Waiters :=
  if w.groupSignalled g < (w.group g).waitCnt then
    { w with groupSignalled := Function.update w.groupSignalled g (w.groupSignalled g + 1) }
  else w

/-- `pthread_cond_signal(&target->cond)`. -/
def signalTarget (w : Waiters) (t : Nat) : Waiters :=
  if w.targetSignalled t < (w.target t).waitCnt then
    { w with targetSignalled := Function.update w.targetSignalled t (w.targetSignalled t + 1) }
  else w

/-- A thread that the signal woke is no longer to run. -/
def settled (signalled : Nat → Nat) (k : Nat) (how : Wake) : Nat → Nat :=
  if how = .signalled then Function.update signalled k (signalled k - 1) else signalled

/-- A thread can come back from a wait in this way: it was woken, or it sleeps. -/
def CanWake (signalled waitCnt : Nat) : Wake → Prop
  | .signalled => 0 < signalled
  | _ => signalled < waitCnt

instance (signalled waitCnt : Nat) (how : Wake) : Decidable (CanWake signalled waitCnt how) := by
  cases how <;> unfold CanWake <;> infer_instance

end Waiters

/-- The steps. An `acquire` with `mayWait` has a `wait_timeout` other than 0. -/
inductive WaitOp where
  | add (g t : Nat) (memory : Bool)
  | remove (g t : Nat)
  | groupAcquire (g : Nat) (mayWait : Bool)
  | groupWake (g : Nat) (how : Wake)
  | targetAcquire (t : Nat) (mayWait : Bool)
  | targetWake (t : Nat) (how : Wake)
  | release (t : Nat) (keepAlive : Bool)

namespace Waiters

/-- `add` puts the target into the heap. -/
def Adds (w : Waiters) (g t : Nat) (memory : Bool) : Prop :=
  (w.target t).group = none ∧ (w.target t).waitCnt = 0 ∧ (w.sched.heapInsert g t memory).isSome

instance (w : Waiters) (g t : Nat) (memory : Bool) : Decidable (w.Adds g t memory) := by
  unfold Adds
  infer_instance

/-- `CommSchedGroup::add`. -/
def add (w : Waiters) (g t : Nat) (memory : Bool) : Waiters :=
  let w' := { w with sched := w.sched.groupAdd g t memory }
  if w.Adds g t memory ∧ 0 < (w'.group g).waitCnt ∧ (w'.group g).curLoad < (w'.group g).maxLoad then
    w'.signalGroup g
  else w'

/-- `CommSchedTarget::release`. -/
def release (fuel : Nat) (w : Waiters) (t : Nat) (keepAlive : Bool) : Option Waiters := do
  let sched ← w.sched.exec fuel (.release t keepAlive)
  let w' := { w with sched := sched }
  let w' := if 0 < (w.target t).waitCnt then w'.signalTarget t else w'
  match (w.target t).group with
  | none => return w'
  | some g =>
      return if (w.target t).waitCnt = 0 ∧ 0 < (w'.group g).waitCnt then w'.signalGroup g else w'

/-- One step. A thread that comes back from its wait to a full group or target waits again, unless
its time is over. -/
def exec (fuel : Nat) (w : Waiters) : WaitOp → Option Waiters
  | .add g t memory => some (w.add g t memory)
  | .remove g t => some { w with sched := w.sched.groupRemove g t }
  | .groupAcquire g mayWait =>
      if (w.group g).curLoad < (w.group g).maxLoad ∨ mayWait = false then
        (w.sched.exec fuel (.groupAcquire g false)).map fun sched => { w with sched := sched }
      else
        (w.sched.exec fuel (.groupWait g)).map fun sched => { w with sched := sched }
  | .groupWake g how =>
      if CanWake (w.groupSignalled g) (w.group g).waitCnt how then do
        let sched ← w.sched.exec fuel (.groupAcquire g true)
        let w' := { w with sched := sched, groupSignalled := settled w.groupSignalled g how }
        if (w.group g).curLoad < (w.group g).maxLoad ∨ how = .timedOut then return w'
        else (sched.exec fuel (.groupWait g)).map fun sched => { w' with sched := sched }
      else none
  | .targetAcquire t mayWait =>
      if (w.target t).curLoad < (w.target t).maxLoad ∨ mayWait = false then
        (w.sched.exec fuel (.targetAcquire t false)).map fun sched => { w with sched := sched }
      else
        (w.sched.exec fuel (.targetWait t)).map fun sched => { w with sched := sched }
  | .targetWake t how =>
      if CanWake (w.targetSignalled t) (w.target t).waitCnt how then do
        let sched ← w.sched.exec fuel (.targetAcquire t true)
        let w' := { w with sched := sched, targetSignalled := settled w.targetSignalled t how }
        if (w.target t).curLoad < (w.target t).maxLoad ∨ how = .timedOut then return w'
        else (sched.exec fuel (.targetWait t)).map fun sched => { w' with sched := sched }
      else none
  | .release t keepAlive => w.release fuel t keepAlive

/-- All runs from empty groups and idle targets. -/
def machine (maxConnections : Nat → UInt64) : Machine Waiters WaitOp :=
  .ofFunction (.init maxConnections) exec

end Waiters

end Workflow.Kernel
