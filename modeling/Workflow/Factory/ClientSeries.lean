/-
Module: Workflow.Factory.ClientSeries
Layer: Factory
Purpose: A `WFComplexClientTask` in its series: `subtask_done` and `SeriesWork::pop` around the member
  functions of the task, with the router task and the timer that the task puts into the queue. Other
  tasks of the series, and other threads, push and pop tasks of their own at any time. The series is
  not canceled, and the user's callback does not redirect. `log` is what the task has done so far.
Trusted boundary: human-reviewed model
Main exports: Item, Event, Control, ClientSeries, SeriesOp, ClientSeries.exec, ClientSeries.machine
-/
import Workflow.Factory.ComplexClientTask
import Workflow.Factory.SeriesQueue

namespace Workflow.Factory

open Workflow.Lib
open Workflow.Nameservice

/-- What is in the queue: the client task, its router task, the timer that runs `switch_callback`, or
another task. -/
inductive Item where
  | client
  | router (router : Router)
  | timer
  | other (id : Nat)
deriving Repr, DecidableEq

/-- What the client task does. A round starts with `dispatched`; `restarted` is a start over after
`WFT_STATE_SYS_ERROR`, `redirected` a redirect by `finish_once`, and `internal` the end of an internal
request. -/
inductive Event where
  | dispatched
  | routed
  | replied
  | finished
  | internal
  | redirected
  | restarted
  | switched
  | callback
  | deleted
deriving Repr, DecidableEq

/-- Where the series is: a task was popped and is dispatched, the client task waits for its peer or is
in `subtask_done`, the next task is popped, or the series is over. -/
inductive Control where
  | running (item : Item)
  | requesting
  | finishing
  | popping
  | over
deriving Repr, DecidableEq

/-- `hasCallback`: the user gave a callback; `target`: `this->target` is not NULL. The latest event
comes first in `log`. -/
structure ClientSeries where
  gov : Governance
  task : Task
  hasCallback : Bool
  target : Bool
  series : Deque Item
  control : Control
  log : List Event

/-- The steps. The last five are those of other tasks and of other threads. -/
inductive SeriesOp where
  | dispatch (input : DispatchInput)
  | routed (state : TaskState) (error : Int)
  | replied (state : TaskState) (error : Int) (target : Bool)
  | done (now : Int) (f : FinishOnce)
  | timer
  | pop
  | otherDone
  | push (id : Nat)
  | pushBack (id : Nat)
  | setLastTask (id : Option Nat)
  | governance (gov : Governance)

/-- The branch of `dispatch` that makes a router task. -/
def Task.routes (task : Task) (input : DispatchInput) : Bool :=
  task.state = .undefined && input.checkRequest.isNone && !task.requestObject

/-- The branch of `done` that starts over. -/
def Task.restarts (task : Task) (f : FinishOnce) : Bool :=
  (task.finishOnce f).state = .sysError &&
    decide ((task.finishOnce f).retryTimes < (task.finishOnce f).retryMax)

/-- The branch of `done` after an internal request. -/
def Task.continues (task : Task) (f : FinishOnce) : Bool :=
  (task.finishOnce f).state = .success && !f.isUserRequest

namespace ClientSeries

/-- `series->push_front(item)`. -/
def pushFront (s : ClientSeries) (item : Item) : ClientSeries :=
  { s with series := s.series.step (.pushFront item) }

/-- What `done` logs, `finish_once` included. -/
def doneEvents (task : Task) (f : FinishOnce) : List Event :=
  (if task.restarts f then [.restarted] else []) ++
    (if task.continues f then [.internal] else []) ++
    (if f.redirect.isSome then [.redirected] else [])

/-- `switch_callback`. The task is deleted or goes to the front of the queue. -/
def switchCallback (s : ClientSeries) : ClientSeries :=
  if s.task.redirect then
    { s with task := s.task.switchCallback none, target := false }.pushFront .client
  else
    { s with
      task := s.task.switchCallback none
      log := .deleted :: ((if s.hasCallback then [.callback] else []) ++ s.log) }

/-- `dispatch`, and `subtask_done` as far as `done`. -/
def dispatch (fuel : Nat) (s : ClientSeries) (input : DispatchInput) : Option ClientSeries :=
  (s.task.dispatch fuel input s.gov).map fun (gov, task) =>
    let t := { s with
      gov := gov
      task := task
      control := if task.phase = .requesting then .requesting else .finishing
      log := .dispatched :: s.log }
    match task.routerTask with
    | some router => if s.task.routes input then (t.pushFront .client).pushFront (.router router) else t
    | none => t

/-- `done`, without the `pop` at its end. -/
def done (s : ClientSeries) (now : Int) (f : FinishOnce) : Option ClientSeries :=
  (s.task.done now f s.gov).map fun (gov, task) =>
    let t := { s with gov := gov, task := task, control := .popping, log := .finished :: s.log }
    if s.task.routerTask.isSome then t
    else
      let t := { t with log := doneEvents s.task f ++ t.log }
      if s.task.continues f then { t with control := .running .client }
      else if t.target then t.switchCallback
      else t.pushFront .timer

/-- `series->pop()` on a series that is not canceled. -/
def pop (s : ClientSeries) : ClientSeries :=
  { s with
    series := s.series.step .popTask
    control := match s.series.front with
      | some item => .running item
      | none => .over }

def exec (fuel : Nat) (s : ClientSeries) : SeriesOp → Option ClientSeries
  | .dispatch input => if s.control = .running .client then s.dispatch fuel input else none
  | .routed state error =>
      match s.control with
      | .running (.router router) =>
          some { s with
            task := { s.task.routerCallback (Clients.routerState (.routing router) state) error with
              phase := .ready }
            control := .popping
            log := .routed :: s.log }
      | _ => none
  | .replied state error target =>
      if s.control = .requesting then
        some { s with
          task := { s.task with state := state, error := error, phase := .finishing }
          target := target
          control := .finishing
          log := .replied :: s.log }
      else none
  | .done now f => if s.control = .finishing then s.done now f else none
  | .timer =>
      if s.control = .running .timer then
        some { s with control := .popping, log := .switched :: s.log }.switchCallback
      else none
  | .pop => if s.control = .popping then some s.pop else none
  | .otherDone =>
      match s.control with
      | .running (.other _) => some { s with control := .popping }
      | _ => none
  | .push id => if s.control = .over then none else some (s.pushFront (.other id))
  | .pushBack id =>
      if s.control = .over then none
      else some { s with series := s.series.step (.pushBack (.other id)) }
  | .setLastTask id =>
      if s.control = .over ∨ s.series.last = some .client then none
      else some { s with series := { s.series with last := id.map .other } }
  | .governance gov => some { s with gov := gov }

/-- Other tasks only. -/
def Others (items : List Item) : Prop :=
  ∀ item ∈ items, ∃ id, item = .other id

/-- A series in which the client task is to be dispatched or is waiting somewhere in the queue. -/
structure Start (retryMax : Int) (s : ClientSeries) : Prop where
  task : ∃ outcome, s.task = (Task.new retryMax).init outcome
  log : s.log = []
  place :
    (s.control = .running .client ∧ Others s.series.items ∧ Others s.series.last.toList) ∨
    (∃ id, s.control = .running (.other id) ∧
      ((∃ before after, s.series.items = before ++ .client :: after ∧ Others before ∧ Others after ∧
          Others s.series.last.toList) ∨
        (Others s.series.items ∧ s.series.last = some .client)))

/-- All runs of a client task in a series. -/
def machine (retryMax : Int) : Machine ClientSeries SeriesOp where
  init := Start retryMax
  step := fun s op t => ∃ fuel, exec fuel s op = some t

/-- The times the task started over since its last redirect. -/
def restarts (s : ClientSeries) : Nat :=
  (s.log.takeWhile (· ≠ .redirected)).count .restarted

end ClientSeries

end Workflow.Factory
