/-
Module: Workflow.Manager.RouteResultEntry
Layer: Manager
Purpose: `RouteResultEntry` (RouteManager.cc) with several targets: the targets that are taken out of
  their `CommSchedGroup` when they fail, and the breaker list that brings them back. The test before
  the lock and the section under it are two steps, so that calls of several threads interleave; the
  scheduler goes on with its own operations in between. The counters `nleft` and `nbreak` are `int`s in
  the source and integers here: fewer than 2^31 targets are left, and fewer than 2^31 are broken.
Trusted boundary: human-reviewed model
Main exports: Errno, Sched.addError, Sched.removeError, RouteResultEntry, addGroupTargets,
  notifyUnavailable, notifyAvailable, checkBreaker, RouteCall, RouteOp, Route.exec, Route.machine
-/
import Workflow.Kernel.CommScheduler

namespace Workflow.Manager

open Workflow.Lib
open Workflow.Kernel

inductive Errno where
  | enoent
  | enomem
  | ebusy
  | eexist
  | einval
deriving Repr, DecidableEq

/-- The `errno` of a `CommSchedGroup::add` that fails. -/
def addError (s : Sched) (g t : Nat) (memory : Bool) : Option Errno :=
  let target := s.targets t
  if target.group = none ∧ target.waitCnt = 0 then
    if (s.heapInsert g t memory).isSome then none else some .enomem
  else if target.group = some g then some .eexist
  else if target.group.isSome then some .einval
  else some .ebusy

/-- The `errno` of a `CommSchedGroup::remove` that fails. -/
def removeError (s : Sched) (g t : Nat) : Option Errno :=
  let target := s.targets t
  if target.group = some g ∧ target.waitCnt = 0 then none
  else if target.group ≠ some g then some .enoent
  else some .ebusy

/-- `__breaker_node`. -/
structure BreakerNode where
  target : Nat
  timeout : Int
deriving Repr, DecidableEq

structure RouteResultEntry where
  group : Nat
  targets : List Nat
  breakerList : List BreakerNode
  nleft : Int
  nbreak : Int
deriving Repr, DecidableEq

/-- `MTTR_SECOND`. -/
def mttrSecond : Int := 30

/-- The public functions; `check_breaker` reads the clock before it takes the lock. -/
inductive RouteCall where
  | notifyUnavailable (target : Nat)
  | notifyAvailable (target : Nat)
  | checkBreaker (curTime : Int)
deriving Repr, DecidableEq

/-- `add_group_targets`, with what `create_target` gives for each address; a failure takes the
targets out again. -/
def addGroupTargets (memory : Nat → Bool) :
    List (Option Nat) → Sched → RouteResultEntry → Sched × Option RouteResultEntry
  | [], s, entry => (s, some entry)
  | created :: rest, s, entry =>
      match created.filter fun t => (addError s entry.group t (memory t)).isNone with
      | some t =>
          addGroupTargets memory rest (s.groupAdd entry.group t (memory t))
            { entry with targets := entry.targets ++ [t], nleft := entry.nleft + 1 }
      | none => (entry.targets.foldl (fun s t => s.groupRemove entry.group t) s, none)

/-- The scheduler, an entry, the calls that have passed the test before the lock, and the errors of
`add` and `remove` so far. -/
structure Route where
  sched : Sched
  entry : RouteResultEntry
  pending : List RouteCall
  addErrors : List Errno
  removeErrors : List Errno

namespace Route

/-- `if (this->group->add(target) == 0) this->nleft++;` -/
def add (r : Route) (t : Nat) (memory : Bool) : Route :=
  match addError r.sched r.entry.group t memory with
  | none =>
      { r with
        sched := r.sched.groupAdd r.entry.group t memory
        entry := { r.entry with nleft := r.entry.nleft + 1 } }
  | some error => { r with addErrors := error :: r.addErrors }

/-- The section of `notify_unavailable`. -/
def notifyUnavailable (r : Route) (t : Nat) (now : Int) : Route :=
  if r.entry.nleft ≤ 1 then r
  else
    match removeError r.sched r.entry.group t with
    | none =>
        { r with
          sched := r.sched.groupRemove r.entry.group t
          entry := { r.entry with
            breakerList := r.entry.breakerList ++ [⟨t, now + mttrSecond⟩]
            nbreak := r.entry.nbreak + 1
            nleft := r.entry.nleft - 1 } }
    | some error => { r with removeErrors := error :: r.removeErrors }

/-- The section of `notify_available`. -/
def notifyAvailable (r : Route) (t : Nat) (memory : Bool) : Route :=
  r.add t memory

/-- The loop of `check_breaker` over the nodes that are left; `kept` are those that stay. -/
def checkNodes (r : Route) (curTime : Int) (memory : Nat → Bool) (kept : List BreakerNode) :
    List BreakerNode → Route
  | [] => { r with entry := { r.entry with breakerList := kept } }
  | node :: rest =>
      if node.timeout ≤ curTime then
        let r := r.add node.target (memory node.target)
        { r with entry := { r.entry with nbreak := r.entry.nbreak - 1 } }.checkNodes curTime memory
          kept rest
      else r.checkNodes curTime memory (kept ++ [node]) rest

/-- The section of `check_breaker`. -/
def checkBreaker (r : Route) (curTime : Int) (memory : Nat → Bool) : Route :=
  r.checkNodes curTime memory [] r.entry.breakerList

/-- The test before the lock. -/
def passes (r : Route) : RouteCall → Bool
  | .notifyUnavailable _ => 1 < r.entry.targets.length
  | .notifyAvailable _ | .checkBreaker _ => 1 < r.entry.targets.length && r.entry.nbreak ≠ 0

/-- The target of a call is one of the entry's. -/
def Concerns (r : Route) : RouteCall → Prop
  | .notifyUnavailable t | .notifyAvailable t => t ∈ r.entry.targets
  | .checkBreaker _ => True

instance (r : Route) : (call : RouteCall) → Decidable (r.Concerns call)
  | .notifyUnavailable t | .notifyAvailable t => inferInstanceAs (Decidable (t ∈ r.entry.targets))
  | .checkBreaker _ => inferInstanceAs (Decidable True)

/-- The section of a call under the lock. -/
def runLocked (r : Route) (now : Int) (memory : Nat → Bool) : RouteCall → Route
  | .notifyUnavailable t => r.notifyUnavailable t now
  | .notifyAvailable t => r.notifyAvailable t (memory t)
  | .checkBreaker curTime => r.checkBreaker curTime memory

end Route

/-- The steps: a call begins, a call takes the lock, or the scheduler does something. -/
inductive RouteOp where
  | call (call : RouteCall)
  | locked (call : RouteCall) (now : Int) (memory : Nat → Bool)
  | sched (op : SchedOp)

/-- Targets are added to groups and taken out of them by their entry alone. -/
def Foreign (targets : List Nat) : SchedOp → Prop
  | .add _ t _ | .remove _ t => t ∉ targets
  | _ => True

instance (targets : List Nat) : (op : SchedOp) → Decidable (Foreign targets op)
  | .add _ t _ | .remove _ t => inferInstanceAs (Decidable (t ∉ targets))
  | .groupAcquire _ _ | .groupWait _ | .targetAcquire _ _ | .targetWait _ | .release _ _ =>
      inferInstanceAs (Decidable True)

namespace Route

def exec (fuel : Nat) (r : Route) : RouteOp → Option Route
  | .call call =>
      if r.Concerns call then
        some (if r.passes call then { r with pending := call :: r.pending } else r)
      else none
  | .locked call now memory =>
      if call ∈ r.pending then
        some ({ r with pending := r.pending.erase call }.runLocked now memory call)
      else none
  | .sched op =>
      if Foreign r.entry.targets op then (r.sched.exec fuel op).map fun s => { r with sched := s }
      else none

/-- An entry that `init` has made for two addresses or more, with new targets. -/
def Start (r : Route) : Prop :=
  (∃ created memory s group,
    (∀ t, some t ∈ created → (s.targets t).group = none) ∧
      addGroupTargets memory created s ⟨group, [], [], 0, 0⟩ = (r.sched, some r.entry)) ∧
    2 ≤ r.entry.targets.length ∧ r.pending = [] ∧ r.addErrors = [] ∧ r.removeErrors = []

/-- All runs of an entry. -/
def machine : Machine Route RouteOp where
  init := Start
  step := fun r op r' => ∃ fuel, r.exec fuel op = some r'

/-- The target is in the group of the entry. -/
def inGroup (r : Route) (t : Nat) : Bool :=
  (r.sched.targets t).group = some r.entry.group

end Route

end Workflow.Manager
