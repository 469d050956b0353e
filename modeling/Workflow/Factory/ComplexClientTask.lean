/-
Module: Workflow.Factory.ComplexClientTask
Layer: Model
Purpose: `WFComplexClientTask` (WFTaskFactory.inl): routing, requests, internal requests, retries and
  redirects of client tasks, of which any number run against one `WFServiceGovernance`. A step is one
  member function; what the series, the network, the resolver and the overridden virtual functions
  do is the label of the step. Parts of the task that do not bear on routing (URI, messages, target)
  are left out.
Trusted boundary: human-reviewed model
Main exports: TaskState, Task, clearPrevState, createRouterTask, route, dispatch, routerCallback,
  done, switchCallback, ClientOp, Clients, Clients.exec
-/
import Workflow.Nameservice.ServiceGovernance

namespace Workflow.Factory

open Workflow.Lib
open Workflow.Nameservice

/-- `WFT_STATE_*`. -/
inductive TaskState where
  | undefined
  | success
  | toReply
  | noReply
  | sysError
  | sslError
  | dnsError
  | taskError
  | aborted
deriving Repr, DecidableEq

/-- What `get_policy` finds: the service governance, or another policy, which selects no server. -/
inductive Policy where
  | governance
  | other
deriving Repr, DecidableEq

/-- The task that `create_router_task` makes. -/
inductive Router where
  | selectorFail
  | resolver
deriving Repr, DecidableEq

/-- Where a task is: first in its series, behind its router task, waiting for the peer, past
`subtask_done`, on its way through `switch_callback`, or deleted. -/
inductive Phase where
  | ready
  | routing (router : Router)
  | requesting
  | finishing
  | switching
  | gone
deriving Repr, DecidableEq

/-- `WFComplexClientTask`. The servers of `tracing_` are a list, whether it is one address or a
vector; `selects` and `notifies` count the calls of `select` that found a server and of `success` or
`failed`. -/
structure Task where
  state : TaskState
  error : Int
  retryMax : Int
  retryTimes : Int
  redirect : Bool
  nsPolicy : Option Policy
  routerTask : Option Router
  requestObject : Bool
  tracing : List Nat
  phase : Phase
  selects : Nat
  notifies : Nat
deriving Repr, DecidableEq

/-- What `init` comes to: the URI is fine and has to be routed, the address was given and the route
manager knows it, or there is a system error or a task error, perhaps found by `init_success` after
the route manager was asked. -/
inductive Init where
  | toRoute
  | routed
  | sysError (error : Int) (routed : Bool)
  | taskError (error : Int) (routed : Bool)
deriving Repr, DecidableEq

/-- What an overridden `finish_once` does: its result, the state it leaves, `disable_retry`, and
`set_redirect`. -/
structure FinishOnce where
  isUserRequest : Bool
  state : TaskState
  error : Int
  disableRetry : Bool
  redirect : Option Init
deriving Repr, DecidableEq

/-- What a `dispatch` meets: the error of `check_request`, the policy of the host, the clock and the
random numbers of `select`, and whether `copy_host_port` finds memory. -/
structure DispatchInput where
  checkRequest : Option (TaskState × Int)
  policy : Policy
  now : Int
  rand : Nat
  another : Nat
  copyHostPort : Bool
deriving Repr, DecidableEq

namespace Task

/-- The constructor. -/
def new (retryMax : Int) : Task where
  state := .undefined
  error := 0
  retryMax := retryMax
  retryTimes := 0
  redirect := false
  nsPolicy := none
  routerTask := none
  requestObject := false
  tracing := []
  phase := .ready
  selects := 0
  notifies := 0

def clearPrevState (task : Task) : Task :=
  { task with
    nsPolicy := none
    requestObject := false
    tracing := []
    retryTimes := 0
    state := .undefined
    error := 0 }

/-- Both forms of `init`. -/
def init (task : Task) (outcome : Init) : Task :=
  let task := if task.redirect then task.clearPrevState else task
  match outcome with
  | .toRoute => task
  | .routed => { task with requestObject := true }
  | .sysError error routed =>
      { task with state := .sysError, error := error, requestObject := routed }
  | .taskError error routed =>
      { task with state := .taskError, error := error, requestObject := routed }

/-- `set_redirect`. -/
def setRedirect (task : Task) (outcome : Init) : Task :=
  ({ task with redirect := true } : Task).init outcome

/-- `finish_once`. -/
def finishOnce (task : Task) (f : FinishOnce) : Task :=
  let task := if f.disableRetry then { task with retryTimes := task.retryMax } else task
  match f.redirect with
  | none => { task with state := f.state, error := f.error }
  | some outcome => task.setRedirect outcome

/-- `WFServiceGovernance::create_router_task`. -/
def createRouterTask (fuel : Nat) (input : DispatchInput) (g : Governance) (task : Task) :
    Option (Governance × Task) :=
  (g.select fuel input.now input.rand input.another).map fun
    | (g, none) => (g, { task with routerTask := some .selectorFail })
    | (g, some i) =>
        if input.copyHostPort then
          (g, { task with
            routerTask := some .resolver
            tracing := task.tracing ++ [i]
            selects := task.selects + 1 })
        else
          (g, { task with routerTask := some .selectorFail, selects := task.selects + 1 })

/-- `route`: the policy is looked up once and kept. -/
def route (fuel : Nat) (input : DispatchInput) (g : Governance) (task : Task) :
    Option (Governance × Task) :=
  let task := { task with nsPolicy := some (task.nsPolicy.getD input.policy) }
  match task.nsPolicy with
  | some .governance => createRouterTask fuel input g task
  | _ => some (g, { task with routerTask := some .resolver })

/-- `dispatch`. -/
def dispatch (fuel : Nat) (input : DispatchInput) (g : Governance) (task : Task) :
    Option (Governance × Task) :=
  match task.state with
  | .undefined =>
      match input.checkRequest with
      | some (state, error) =>
          some (g, { task with state := state, error := error, phase := .finishing })
      | none =>
          if task.requestObject then some (g, { task with phase := .requesting })
          else (route fuel input g task).map fun (g, task) =>
            (g, { task with phase := .finishing })
  | .success => some (g, { task with phase := .requesting })
  | _ => some (g, { task with phase := .finishing })

/-- `router_callback`, with what the router task came to. -/
def routerCallback (task : Task) (state : TaskState) (error : Int) : Task :=
  match state with
  | .success => { task with state := .success, requestObject := true }
  | .undefined => { task with state := .sysError, error := 38 }
  | _ => { task with state := state, error := error }

/-- `ns_policy_->failed` or `ns_policy_->success`. -/
def report (now : Int) (state : TaskState) (g : Governance) (i : Nat) : Option Governance :=
  if state = .sysError then Governance.failed now g i else g.success i

/-- The policy is told about the server that was selected last. -/
def notify (now : Int) (g : Governance) (task : Task) : Option (Governance × Task) :=
  if task.nsPolicy = some .governance ∧ task.requestObject then do
    let i ← task.tracing.getLast?
    let g ← report now task.state g i
    return (g, { task with notifies := task.notifies + 1 })
  else
    some (g, task)

/-- The rest of `done`, after the policy was told. -/
def afterNotify (isUserRequest : Bool) (task : Task) : Task :=
  match task.state with
  | .success =>
      if isUserRequest then { task with phase := .switching } else { task with phase := .ready }
  | .sysError =>
      if task.retryTimes < task.retryMax then
        { task with
          redirect := true
          requestObject := if task.nsPolicy.isSome then false else task.requestObject
          state := .undefined
          error := 0
          retryTimes := task.retryTimes + 1
          phase := .switching }
      else
        { task with phase := .switching }
  | _ => { task with phase := .switching }

/-- `done`. -/
def done (now : Int) (f : FinishOnce) (g : Governance) (task : Task) :
    Option (Governance × Task) :=
  match task.routerTask with
  | some router => some (g, { task with routerTask := none, phase := .routing router })
  | none =>
      (notify now g (task.finishOnce f)).map fun (g, task) => (g, task.afterNotify f.isUserRequest)

/-- The state that the user's callback sees. -/
def switchState (task : Task) : Task :=
  if task.state = .sysError ∧ task.error < 0 then
    { task with state := .sslError, error := -task.error }
  else
    task

/-- `switch_callback`, called by `done` or by its timer; the user's callback may redirect. -/
def switchCallback (callback : Option Init) (task : Task) : Task :=
  let task :=
    if task.redirect then task
    else
      match callback with
      | none => task.switchState
      | some outcome => task.switchState.setRedirect outcome
  if task.redirect then { task with redirect := false, phase := .ready }
  else { task with phase := .gone }

end Task

/-! ### The system -/

/-- One governance and the client tasks of the process. -/
structure Clients where
  gov : Governance
  tasks : List Task

/-- The steps: a task is made and perhaps initialised with an address; a member function of the
`t`-th task runs; its series is cancelled; or somebody changes the servers. -/
inductive ClientOp where
  | create (retryMax : Int) (outcome : Init)
  | dispatch (t : Nat) (input : DispatchInput)
  | routed (t : Nat) (state : TaskState) (error : Int)
  | replied (t : Nat) (state : TaskState) (error : Int)
  | done (t : Nat) (now : Int) (f : FinishOnce)
  | switchCallback (t : Nat) (callback : Option Init)
  | canceled (t : Nat)
  | addServer (address : String) (maxFails : UInt32)
  | removeServer (address : String)
  | replaceServer (address : String) (maxFails : UInt32)
  | enableServer (address : String)
  | disableServer (address : String) (now : Int)
  | checkBreaker (now : Int)

namespace Clients

def new (mttrSecond : UInt32) (tryAnother : Bool) : Clients where
  gov := .new mttrSecond tryAnother
  tasks := []

/-- Run a function of the `t`-th task, if it is where the function can be called. -/
def onTask (s : Clients) (t : Nat) (callable : Phase → Bool)
    (f : Governance → Task → Option (Governance × Task)) : Option Clients := do
  let task ← s.tasks[t]?
  if callable task.phase then
    let (g, task) ← f s.gov task
    return { gov := g, tasks := s.tasks.set t task }
  else
    none

/-- A step that only concerns the servers. -/
def onServers (s : Clients) (g : Option Governance) : Option Clients :=
  g.map fun g => { s with gov := g }

/-- The state with which a router task ends: a failed selection is always `WFT_STATE_TASK_ERROR`. -/
def routerState : Phase → TaskState → TaskState
  | .routing .selectorFail, _ => .taskError
  | _, state => state

def exec (fuel : Nat) (s : Clients) : ClientOp → Option Clients
  | .create retryMax outcome =>
      some { s with tasks := s.tasks ++ [(Task.new retryMax).init outcome] }
  | .dispatch t input =>
      s.onTask t (fun phase => phase = .ready) (Task.dispatch fuel input)
  | .routed t state error =>
      s.onTask t (fun phase => phase = .routing .selectorFail ∨ phase = .routing .resolver)
        fun g task => some (g, { task.routerCallback (routerState task.phase state) error with
          phase := .ready })
  | .replied t state error =>
      s.onTask t (fun phase => phase = .requesting) fun g task =>
        some (g, { task with state := state, error := error, phase := .finishing })
  | .done t now f => s.onTask t (fun phase => phase = .finishing) (Task.done now f)
  | .switchCallback t callback =>
      s.onTask t (fun phase => phase = .switching) fun g task =>
        some (g, task.switchCallback callback)
  | .canceled t =>
      s.onTask t (fun phase => phase = .ready ∨ phase = .routing .selectorFail ∨
        phase = .routing .resolver) fun g task => some (g, { task with phase := .gone })
  | .addServer address maxFails => s.onServers (s.gov.addServer address maxFails)
  | .removeServer address => s.onServers (s.gov.removeServer address)
  | .replaceServer address maxFails => s.onServers (s.gov.replaceServer address maxFails)
  | .enableServer address => s.onServers (s.gov.enableServer address)
  | .disableServer address now => s.onServers (s.gov.disableServer now address)
  | .checkBreaker now => s.onServers (s.gov.checkBreaker fuel now)

/-- All runs from an empty governance and no tasks. -/
def machine (mttrSecond : UInt32) (tryAnother : Bool) : Machine Clients ClientOp :=
  .ofFunction (.new mttrSecond tryAnother) exec

end Clients

end Workflow.Factory
