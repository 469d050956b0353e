/-
Module: Workflow.Kernel.Executor
Layer: Kernel
Purpose: `Executor` with any number of queues and pool threads (Executor.cc). A section under the
  mutex of a queue is several steps, with the steps of all other threads between them; the sections
  under the mutex of the thread pool are one step each. A worker that would take an entry off an
  empty `task_list` is `none`.
Trusted boundary: human-reviewed model
Main exports: Critical, WorkerPc, RequestPc, DeinitPc, Executor, ExecutorOp, Executor.exec,
  Executor.Orderly, Executor.machine
-/
import Workflow.Lib.Run
import Mathlib.Data.Fintype.Defs
import Mathlib.Data.List.Basic

namespace Workflow.Kernel

open Workflow.Lib

/-- The mutex of a queue: free, or where its holder is. `removed` and `rearmed` are
`executor_thread_routine` behind `list_del` and behind the `if`; `entered`, `added` and `decided` are
`request` behind the lock, behind `list_add_tail` and behind the `if`. `before` is the `task_list`
that `request` found. -/
inductive Critical (ω γ σ : Type) where
  | free
  | removed (w : ω) (session : σ)
  | rearmed (w : ω) (session : σ)
  | entered (c : γ) (session : σ) (before : List σ)
  | added (c : γ) (session : σ) (before : List σ)
  | decided (c : γ) (session : σ) (before : List σ) (ok : Bool)

/-- Where a thread of the pool is: at the head of its loop, with a pool task in hand, in the section
of a queue, behind it, behind `execute`, or out of its loop. -/
inductive WorkerPc (κ σ : Type) where
  | idle
  | taken (queue : κ)
  | critical (queue : κ)
  | unlocked (queue : κ) (session : σ)
  | executed (queue : κ) (session : σ)
  | left
deriving DecidableEq

/-- Where a caller of `request` is. -/
inductive RequestPc (κ σ : Type) where
  | away
  | allocated (queue : κ) (session : σ)
  | critical (queue : κ)
deriving DecidableEq

/-- Where `deinit` is: not called, waiting for the threads in `__thrdpool_terminate`, between two
tasks that are left in the pool, in `executor_cancel_tasks`, returned. -/
inductive DeinitPc (κ : Type) where
  | running
  | waiting
  | draining
  | cancelling (queue : κ)
  | finished
deriving DecidableEq

/-- The executor. `pool` is the task queue of the thread pool. The last five fields are what
happened so far: the requests that succeeded, the sessions that left a `task_list`, those that were
executed, and those that were handled, by the two states. -/
structure Executor (κ σ ω γ : Type) where
  tasks : κ → List σ
  mutex : κ → Critical ω γ σ
  pool : List κ
  worker : ω → WorkerPc κ σ
  client : γ → RequestPc κ σ
  deinit : DeinitPc κ
  accepted : List (κ × σ)
  taken : List (κ × σ)
  executed : List (κ × σ)
  finished : List (κ × σ)
  canceled : List (κ × σ)

/-- The steps; a step in a section belongs to the holder of the mutex. -/
inductive ExecutorOp (κ σ ω γ : Type) where
  | malloc (c : γ) (queue : κ) (session : σ) (ok : Bool)
  | lock (c : γ)
  | addTail (queue : κ)
  | schedule (queue : κ) (ok : Bool)
  | unlock (queue : κ)
  | take (w : ω)
  | enter (w : ω)
  | rearm (queue : κ)
  | leave (queue : κ)
  | execute (w : ω)
  | handle (w : ω)
  | exit (w : ω)
  | terminate
  | joined
  | pending
  | cancel
  | cancelled
  | destroyed

namespace Executor

variable {κ σ ω γ : Type}

/-- Empty queues, and all threads in their loops. -/
def create (κ σ ω γ : Type) : Executor κ σ ω γ where
  tasks := fun _ => []
  mutex := fun _ => .free
  pool := []
  worker := fun _ => .idle
  client := fun _ => .away
  deinit := .running
  accepted := []
  taken := []
  executed := []
  finished := []
  canceled := []

variable [DecidableEq κ] [DecidableEq ω] [DecidableEq γ]

def setQueue (e : Executor κ σ ω γ) (queue : κ) (tasks : List σ) (mutex : Critical ω γ σ) :
    Executor κ σ ω γ :=
  { e with
    tasks := Function.update e.tasks queue tasks
    mutex := Function.update e.mutex queue mutex }

def setWorker (e : Executor κ σ ω γ) (w : ω) (pc : WorkerPc κ σ) : Executor κ σ ω γ :=
  { e with worker := Function.update e.worker w pc }

def setClient (e : Executor κ σ ω γ) (c : γ) (pc : RequestPc κ σ) : Executor κ σ ω γ :=
  { e with client := Function.update e.client c pc }

/-- `list_add_tail(&entry->list, &queue->task_list)`. -/
def addTail (e : Executor κ σ ω γ) (queue : κ) : Option (Executor κ σ ω γ) :=
  match e.mutex queue with
  | .entered c session before =>
      some (e.setQueue queue (e.tasks queue ++ [session]) (.added c session before))
  | _ => none

/-- The `if` of `request`. The entry is the last one, so that it is `task_list.next` exactly when it
is the only one; `ok` is whether `thrdpool_schedule` finds memory. -/
def schedule (e : Executor κ σ ω γ) (queue : κ) (ok : Bool) : Option (Executor κ σ ω γ) :=
  match e.mutex queue with
  | .added c session before =>
      let tasks := e.tasks queue
      if tasks.length = 1 then
        if ok then
          let e := { e with pool := e.pool ++ [queue], accepted := e.accepted ++ [(queue, session)] }
          some (e.setQueue queue tasks (.decided c session before true))
        else
          some (e.setQueue queue tasks.dropLast (.decided c session before false))
      else
        let e := { e with accepted := e.accepted ++ [(queue, session)] }
        some (e.setQueue queue tasks (.decided c session before true))
  | _ => none

/-- `list_del` of the first entry in `executor_thread_routine`. -/
def enter (e : Executor κ σ ω γ) (w : ω) : Option (Executor κ σ ω γ) :=
  match e.worker w with
  | .taken queue =>
      match e.mutex queue, e.tasks queue with
      | .free, session :: rest =>
          let e := { e with taken := e.taken ++ [(queue, session)] }
          some ((e.setQueue queue rest (.removed w session)).setWorker w (.critical queue))
      | _, _ => none
  | _ => none

/-- `__thrdpool_schedule` with the entry, or `free`. -/
def rearm (e : Executor κ σ ω γ) (queue : κ) : Option (Executor κ σ ω γ) :=
  match e.mutex queue with
  | .removed w session =>
      let tasks := e.tasks queue
      let e := if tasks = [] then e else { e with pool := e.pool ++ [queue] }
      some (e.setQueue queue tasks (.rearmed w session))
  | _ => none

/-- One round of the loop in `executor_cancel_tasks`. -/
def cancel (e : Executor κ σ ω γ) : Option (Executor κ σ ω γ) :=
  match e.deinit with
  | .cancelling queue =>
      match e.tasks queue with
      | session :: rest =>
          let e := { e with
            taken := e.taken ++ [(queue, session)], canceled := e.canceled ++ [(queue, session)] }
          some (e.setQueue queue rest (e.mutex queue))
      | [] => none
  | _ => none

/-- One step; `none` when it cannot be taken. -/
def exec [DecidableEq σ] [Fintype ω] (_fuel : Nat) (e : Executor κ σ ω γ) :
    ExecutorOp κ σ ω γ → Option (Executor κ σ ω γ)
  | .malloc c queue session ok =>
      match e.client c with
      | .away => some (if ok then e.setClient c (.allocated queue session) else e)
      | _ => none
  | .lock c =>
      match e.client c with
      | .allocated queue session =>
          match e.mutex queue with
          | .free =>
              let tasks := e.tasks queue
              some ((e.setQueue queue tasks (.entered c session tasks)).setClient c
                (.critical queue))
          | _ => none
      | _ => none
  | .addTail queue => e.addTail queue
  | .schedule queue ok => e.schedule queue ok
  | .unlock queue =>
      match e.mutex queue with
      | .decided c _ _ _ => some ((e.setQueue queue (e.tasks queue) .free).setClient c .away)
      | _ => none
  | .take w =>
      match e.worker w, e.deinit, e.pool with
      | .idle, .running, queue :: rest => some ({ e with pool := rest }.setWorker w (.taken queue))
      | _, _, _ => none
  | .enter w => e.enter w
  | .rearm queue => e.rearm queue
  | .leave queue =>
      match e.mutex queue with
      | .rearmed w session =>
          some ((e.setQueue queue (e.tasks queue) .free).setWorker w (.unlocked queue session))
      | _ => none
  | .execute w =>
      match e.worker w with
      | .unlocked queue session =>
          some ({ e with executed := e.executed ++ [(queue, session)] }.setWorker w
            (.executed queue session))
      | _ => none
  | .handle w =>
      match e.worker w with
      | .executed queue session =>
          some ({ e with finished := e.finished ++ [(queue, session)] }.setWorker w .idle)
      | _ => none
  | .exit w =>
      match e.worker w, e.deinit with
      | .idle, .running => none
      | .idle, _ => some (e.setWorker w .left)
      | _, _ => none
  | .terminate =>
      match e.deinit with
      | .running => some { e with deinit := .waiting }
      | _ => none
  | .joined =>
      match e.deinit with
      | .waiting => if ∀ w, e.worker w = .left then some { e with deinit := .draining } else none
      | _ => none
  | .pending =>
      match e.deinit, e.pool with
      | .draining, queue :: rest => some { e with pool := rest, deinit := .cancelling queue }
      | _, _ => none
  | .cancel => e.cancel
  | .cancelled =>
      match e.deinit with
      | .cancelling queue =>
          if (e.tasks queue).isEmpty then some { e with deinit := .draining } else none
      | _ => none
  | .destroyed =>
      match e.deinit, e.pool with
      | .draining, [] => some { e with deinit := .finished }
      | _, _ => none

/-- No `request` runs when `deinit` is called, and none comes after it. -/
def Orderly (e : Executor κ σ ω γ) : ExecutorOp κ σ ω γ → Prop
  | .malloc _ _ _ _ => e.deinit = .running
  | .terminate => ∀ c, e.client c = .away
  | _ => True

instance [DecidableEq σ] [Fintype γ] (e : Executor κ σ ω γ) (op : ExecutorOp κ σ ω γ) :
    Decidable (Orderly e op) :=
  match op with
  | .malloc _ _ _ _ => inferInstanceAs (Decidable (e.deinit = .running))
  | .terminate => inferInstanceAs (Decidable (∀ c, e.client c = .away))
  | .lock _ | .addTail _ | .schedule _ _ | .unlock _ | .take _ | .enter _ | .rearm _ | .leave _
  | .execute _ | .handle _ | .exit _ | .joined | .pending | .cancel | .cancelled | .destroyed =>
      inferInstanceAs (Decidable True)

/-- All runs of the executor. -/
def machine (κ σ ω γ : Type) [DecidableEq κ] [DecidableEq ω] [DecidableEq γ] [DecidableEq σ]
    [Fintype ω] : Machine (Executor κ σ ω γ) (ExecutorOp κ σ ω γ) :=
  .ofFunction (.create κ σ ω γ) exec

end Executor

end Workflow.Kernel
