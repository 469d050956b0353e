/-
Module: Workflow.Kernel.Thrdpool
Layer: Kernel
Purpose: The thread pool and its end (thrdpool.c), with any number of threads. A section under the
  mutex is one step. A thread in `pthread_cond_wait` sleeps until it is woken, by a signal, by the
  broadcast or by itself. The unlock at the end of the last section of a thread is a step of its own,
  and so is each join. A step that reads or writes a pool that is freed sets `fault`.
  A pool is not used any more by the task that destroyed it.
Trusted boundary: human-reviewed model
Main exports: ThreadPc, DestroyPc, Thrdpool, ThrdpoolOp, Thrdpool.exec, Thrdpool.machine
-/
import Workflow.Lib.Run
import Mathlib.Data.Fintype.Card

namespace Workflow.Kernel

open Workflow.Lib

/-- Where a thread of the pool is: before its section at the head of the loop, asleep in it, in a
task, in `thrdpool_destroy` called by its task, in the rest of that task, before the unlock behind
the loop, before the join of the thread whose id it found, at its end, or at its end behind the
`free` of the pool. -/
inductive ThreadPc (ω τ : Type) where
  | ready
  | waiting
  | running (task : τ)
  | destroying
  | returned
  | unlocking (tid : Option ω)
  | leaving (tid : Option ω)
  | ended
  | released
deriving DecidableEq

/-- Where `thrdpool_destroy` is: asleep on `term`, woken, behind the loop, at the join, at the rest
of the queue, returned. -/
inductive DestroyPc where
  | notCalled
  | asleep
  | woken
  | unlocked
  | joining
  | draining
  | returned
deriving DecidableEq

/-- The pool; `tid` is `none` for `__zero_tid`. `caller` is the thread whose task called
`thrdpool_destroy`. The other fields are what happened so far: the tasks that were scheduled, those
that a thread began and those that were passed to `pending`, the threads that were joined and
detached, and how often the pool was freed. -/
structure Thrdpool (ω τ : Type) where
  taskQueue : List τ
  nthreads : Nat
  tid : Option ω
  terminate : Bool
  worker : ω → ThreadPc ω τ
  destroy : DestroyPc
  caller : Option ω
  scheduled : List τ
  started : List τ
  pended : List τ
  joined : List ω
  detached : List ω
  freed : Nat
  fault : Bool

/-- The steps. A signal on `cond` wakes the thread `woken`. -/
inductive ThrdpoolOp (ω τ : Type) where
  | schedule (task : τ) (woken : Option ω)
  | scheduleFrom (w : ω) (task : τ) (woken : Option ω)
  | loopSection (w : ω)
  | wake (w : ω)
  | finish (w : ω)
  | unlock (w : ω)
  | join (w : ω)
  | destroy (caller : Option ω)
  | termWake
  | termSection
  | termTid
  | termJoin
  | pending
  | destroyed

namespace Thrdpool

variable {ω τ : Type}

/-- `thrdpool_create`. -/
def create (ω τ : Type) [Fintype ω] : Thrdpool ω τ where
  taskQueue := []
  nthreads := Fintype.card ω
  tid := none
  terminate := false
  worker := fun _ => .ready
  destroy := .notCalled
  caller := none
  scheduled := []
  started := []
  pended := []
  joined := []
  detached := []
  freed := 0
  fault := false

/-- The pool is read or written. -/
def touch (p : Thrdpool ω τ) : Thrdpool ω τ :=
  { p with fault := p.fault || decide (0 < p.freed) }

variable [DecidableEq ω]

def setWorker (p : Thrdpool ω τ) (w : ω) (pc : ThreadPc ω τ) : Thrdpool ω τ :=
  { p with worker := Function.update p.worker w pc }

variable [DecidableEq τ]

/-- `pthread_cond_signal(&pool->cond)`: one sleeping thread is woken, if there is one. -/
def signal [Fintype ω] (p : Thrdpool ω τ) : Option ω → Option (Thrdpool ω τ)
  | none => if ∀ v, p.worker v ≠ .waiting then some p else none
  | some v => if p.worker v = .waiting then some (p.setWorker v .ready) else none

/-- `__thrdpool_schedule`. -/
def schedule [Fintype ω] (p : Thrdpool ω τ) (task : τ) (woken : Option ω) :
    Option (Thrdpool ω τ) :=
  let p := p.touch
  { p with taskQueue := p.taskQueue ++ [task], scheduled := p.scheduled ++ [task] }.signal woken

/-- `pthread_cond_signal(pool->terminate)`. -/
def signalTerm (p : Thrdpool ω τ) : Thrdpool ω τ :=
  { p with destroy := if p.destroy = .asleep then .woken else p.destroy }

/-- The section of a thread in `__thrdpool_routine`: it sleeps, takes a task, or leaves the loop and
puts its id into the pool. -/
def routineSection (p : Thrdpool ω τ) (w : ω) : Thrdpool ω τ :=
  let p := p.touch
  if p.terminate then
    let p := { p with tid := some w, nthreads := p.nthreads - 1 }.setWorker w (.unlocking p.tid)
    if p.nthreads = 0 then p.signalTerm else p
  else
    match p.taskQueue with
    | [] => p.setWorker w .waiting
    | task :: rest =>
        { p with taskQueue := rest, started := p.started ++ [task] }.setWorker w (.running task)

/-- Behind a task: `if (pool->nthreads == 0)` the pool was destroyed by the task. -/
def finish (p : Thrdpool ω τ) (w : ω) : Thrdpool ω τ :=
  let p := p.touch
  if p.nthreads = 0 then { p with freed := p.freed + 1 }.setWorker w .released
  else p.setWorker w .ready

/-- `while (pool->nthreads > 0) pthread_cond_wait(&term, &pool->mutex);` -/
def termLoop (p : Thrdpool ω τ) : Thrdpool ω τ :=
  { p with destroy := if 0 < p.nthreads then .asleep else .unlocked }

/-- `pthread_cond_broadcast(&pool->cond)`. -/
def broadcast (p : Thrdpool ω τ) : Thrdpool ω τ :=
  { p with worker := fun v => if p.worker v = .waiting then .ready else p.worker v }

/-- The section of `__thrdpool_terminate`, up to the loop. -/
def terminateSection (p : Thrdpool ω τ) (caller : Option ω) : Thrdpool ω τ :=
  let p := { p.touch with terminate := true, caller := caller }.broadcast
  match caller with
  | some w =>
      { p with detached := w :: p.detached, nthreads := p.nthreads - 1 }.setWorker w .destroying
  | none => p

/-- The end of `thrdpool_destroy`: the key and the locks are gone, and outside of the pool it is
freed. -/
def destroyEnd (p : Thrdpool ω τ) : Thrdpool ω τ :=
  let p := { p.touch with destroy := .returned }
  match p.caller with
  | some w => p.setWorker w .returned
  | none => { p with freed := p.freed + 1 }

/-- One step; `none` when it cannot be taken. -/
def exec [Fintype ω] (_fuel : Nat) (p : Thrdpool ω τ) : ThrdpoolOp ω τ → Option (Thrdpool ω τ)
  | .schedule task woken => if p.destroy = .notCalled then p.schedule task woken else none
  | .scheduleFrom w task woken =>
      match p.worker w with
      | .running _ => p.schedule task woken
      | _ => none
  | .loopSection w => if p.worker w = .ready then some (p.routineSection w) else none
  | .wake w => if p.worker w = .waiting then some (p.setWorker w .ready) else none
  | .finish w =>
      match p.worker w with
      | .running _ | .returned => some (p.finish w)
      | _ => none
  | .unlock w =>
      match p.worker w with
      | .unlocking tid => some (p.touch.setWorker w (.leaving tid))
      | _ => none
  | .join w =>
      match p.worker w with
      | .leaving none => some (p.setWorker w .ended)
      | .leaving (some v) =>
          if p.worker v = .ended then
            some ({ p with joined := v :: p.joined }.setWorker w .ended)
          else none
      | _ => none
  | .destroy caller =>
      if p.destroy = .notCalled then
        match caller with
        | none => some (p.terminateSection none).termLoop
        | some w =>
            match p.worker w with
            | .running _ => some (p.terminateSection (some w)).termLoop
            | _ => none
      else none
  | .termWake => if p.destroy = .asleep then some { p with destroy := .woken } else none
  | .termSection => if p.destroy = .woken then some p.touch.termLoop else none
  | .termTid => if p.destroy = .unlocked then some { p.touch with destroy := .joining } else none
  | .termJoin =>
      if p.destroy = .joining then
        match p.tid with
        | none => some { p.touch with destroy := .draining }
        | some v =>
            if p.worker v = .ended then
              some { p.touch with destroy := .draining, joined := v :: p.joined }
            else none
      else none
  | .pending =>
      match p.destroy, p.taskQueue with
      | .draining, task :: rest =>
          some { p.touch with taskQueue := rest, pended := p.pended ++ [task] }
      | _, _ => none
  | .destroyed =>
      match p.destroy, p.taskQueue with
      | .draining, [] => some p.destroyEnd
      | _, _ => none

/-- All runs of a pool. -/
def machine (ω τ : Type) [DecidableEq ω] [DecidableEq τ] [Fintype ω] :
    Machine (Thrdpool ω τ) (ThrdpoolOp ω τ) :=
  .ofFunction (.create ω τ) exec

end Thrdpool

end Workflow.Kernel
