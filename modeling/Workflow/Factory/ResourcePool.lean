/-
Module: Workflow.Factory.ResourcePool
Layer: Factory
Purpose: `WFResourcePool` and the conditionals it hands out (WFResourcePool.cc, `WFConditional` of
  WFTask.h). A section under the mutex of the pool is one step; what `dispatch` and `signal` of a
  conditional do outside of it are steps of their own, in any order. Taking from an empty array,
  putting into a full one and taking from an empty wait list are `none`.
Trusted boundary: human-reviewed model
Main exports: Conditional, Conditional.exchange, ResourcePool, PoolOp, ResourcePool.exec,
  ResourcePool.machine
-/
import Workflow.Lib.Run
import Mathlib.Logic.Function.Basic

namespace Workflow.Factory

open Workflow.Lib

/-- How far the thread is that dispatches a conditional: before the section under the mutex, behind
it, behind `push_front`, behind the exchange of the flag. -/
inductive DispatchPc where
  | ready
  | locked
  | pushed
  | finished
deriving DecidableEq

/-- How far the thread is that signals a conditional: it has no resource yet, it has one, the message
buffer is written, the flag is exchanged. -/
inductive SignalPc where
  | waiting
  | granted
  | written
  | finished
deriving DecidableEq

/-- A conditional. `grant` is the resource that it was given, and `done` counts the calls of
`subtask_done`. -/
structure Conditional (ρ : Type) where
  dispatchPc : DispatchPc
  signalPc : SignalPc
  flag : Bool
  msgbuf : Option ρ
  grant : Option ρ
  done : Nat

namespace Conditional

variable {ρ : Type}

/-- The constructor. -/
def create : Conditional ρ where
  dispatchPc := .ready
  signalPc := .waiting
  flag := false
  msgbuf := none
  grant := none
  done := 0

/-- `if (flag.exchange(true)) subtask_done();` -/
def exchange (c : Conditional ρ) : Conditional ρ :=
  { c with flag := true, done := if c.flag then c.done + 1 else c.done }

/-- A resource is found for the conditional; `signal` is still to be called. -/
def granted (c : Conditional ρ) (res : ρ) : Conditional ρ :=
  { c with signalPc := .granted, grant := some res }

/-- The first half of `signal`: `*this->msgbuf = msg`. -/
def write (c : Conditional ρ) : Conditional ρ :=
  { c with signalPc := .written, msgbuf := c.grant }

/-- The second half of `signal`. -/
def signalFlag (c : Conditional ρ) : Conditional ρ :=
  { c.exchange with signalPc := .finished }

/-- The second half of `WFConditional::dispatch`. -/
def dispatchFlag (c : Conditional ρ) : Conditional ρ :=
  { c.exchange with dispatchPc := .finished }

end Conditional

/-- The pool, the conditionals of its `get`, and what is outstanding: `held` are the resources that
were granted and not posted back, each with its conditional; `waited` and `served` are all that ever
began to wait and all waiting ones that were granted a resource, in order. -/
structure ResourcePool (ι ρ : Type) where
  res : List ρ
  value : Int
  index : Nat
  waitList : List ι
  cond : ι → Conditional ρ
  held : List (ι × ρ)
  waited : List ι
  served : List ι

/-- The steps. -/
inductive PoolOp (ι ρ : Type) where
  | dispatch (c : ι)
  | pushFront (c : ι)
  | dispatchFlag (c : ι)
  | post (c : ι) (res : ρ)
  | signalWrite (c : ι)
  | signalFlag (c : ι)

namespace ResourcePool

variable {ι ρ : Type} [DecidableEq ι] [DecidableEq ρ]

/-- The constructor with an array of resources. -/
def create (ι : Type) (res : List ρ) : ResourcePool ι ρ where
  res := res
  value := res.length
  index := 0
  waitList := []
  cond := fun _ => .create
  held := []
  waited := []
  served := []

def setCond (p : ResourcePool ι ρ) (c : ι) (cond : Conditional ρ) : ResourcePool ι ρ :=
  { p with cond := Function.update p.cond c cond }

/-- `pop`. -/
def pop (p : ResourcePool ι ρ) : Option (ResourcePool ι ρ × ρ) :=
  (p.res[p.index]?).map fun res => ({ p with index := p.index + 1 }, res)

/-- `push`. -/
def push (p : ResourcePool ι ρ) (res : ρ) : Option (ResourcePool ι ρ) :=
  if p.index = 0 then none
  else some { p with index := p.index - 1, res := p.res.set (p.index - 1) res }

/-- The section under the mutex in `__WFConditional::dispatch`. A resource that is there is signalled
at once. -/
def dispatch (p : ResourcePool ι ρ) (c : ι) : Option (ResourcePool ι ρ) :=
  let cond := { p.cond c with dispatchPc := .locked }
  let p := { p with value := p.value - 1 }
  if 0 ≤ p.value then
    p.pop.map fun (p, res) =>
      { p.setCond c (cond.granted res).write.signalFlag with held := (c, res) :: p.held }
  else
    some { p.setCond c cond with waitList := p.waitList ++ [c], waited := p.waited ++ [c] }

/-- The section under the mutex in `WFResourcePool::post`, for the resource that `c` holds. -/
def post (p : ResourcePool ι ρ) (c : ι) (res : ρ) : Option (ResourcePool ι ρ) :=
  let p := { p with value := p.value + 1, held := p.held.erase (c, res) }
  if p.value ≤ 0 then
    match p.waitList with
    | [] => none
    | w :: rest =>
        some { p.setCond w ((p.cond w).granted res) with
          waitList := rest, held := (w, res) :: p.held, served := p.served ++ [w] }
  else p.push res

/-- One step; `none` when it cannot be taken. -/
def exec (_fuel : Nat) (p : ResourcePool ι ρ) : PoolOp ι ρ → Option (ResourcePool ι ρ)
  | .dispatch c => if (p.cond c).dispatchPc = .ready then p.dispatch c else none
  | .pushFront c =>
      if (p.cond c).dispatchPc = .locked then
        some (p.setCond c { p.cond c with dispatchPc := .pushed })
      else none
  | .dispatchFlag c =>
      if (p.cond c).dispatchPc = .pushed then some (p.setCond c (p.cond c).dispatchFlag) else none
  | .post c res => if (c, res) ∈ p.held then p.post c res else none
  | .signalWrite c =>
      if (p.cond c).signalPc = .granted then some (p.setCond c (p.cond c).write) else none
  | .signalFlag c =>
      if (p.cond c).signalPc = .written then some (p.setCond c (p.cond c).signalFlag) else none

/-- All runs of a pool of these resources. -/
def machine (ι : Type) [DecidableEq ι] (res : List ρ) : Machine (ResourcePool ι ρ) (PoolOp ι ρ) :=
  .ofFunction (.create ι res) exec

end ResourcePool

end Workflow.Factory
