/-
Module: Workflow.Kernel.Poller
Layer: Model
Purpose: The poller (poller.c) as far as its timers go: the nodes, the table `nodes[fd]`, the list
  and the tree of timeouts, the timerfd, which goes off once for each time it is set, and every function
  that changes them. Each operation runs under the mutex. Nodes are numbered in the order in which they
  are allocated.
  The red-black tree is given by `TreeOps`; what the clock says, whether `malloc` and `epoll_ctl`
  succeed and which events come are arguments.
Trusted boundary: human-reviewed model
Main exports: Timespec, timeoutCmp, PollerNode, Poller, insertNode, pollerAdd, pollerDel, pollerMod,
  pollerSetTimeout, pollerAddTimer, removeNode, handleTimeout, setTimer, PollerOp, Poller.exec
-/
import Workflow.Lib.Run
import Workflow.Lib.SearchTree
import Mathlib.Algebra.Ring.Int.Defs
import Mathlib.Algebra.Ring.Nat
import Mathlib.Logic.Function.Basic

namespace Workflow.Kernel

open Workflow.Lib

/-! ### Time -/

/-- `struct timespec`. -/
structure Timespec where
  sec : Int
  nsec : Int
deriving Repr, DecidableEq

/-- What an addition or subtraction of `long` gives. -/
def wrapLong (x : Int) : Int :=
  x.bmod (2 ^ 64)

/-- `__timeout_cmp` of the two nodes with these timeouts. -/
def timeoutCmp (timeout1 timeout2 : Timespec) : Int :=
  let ret := wrapLong (timeout1.sec - timeout2.sec)
  if ret = 0 then wrapLong (timeout1.nsec - timeout2.nsec) else ret

/-- A reading of `CLOCK_MONOTONIC`, some time after its start. -/
structure ClockTime extends Timespec where
  valid : 0 ≤ sec ∧ sec < 2 ^ 63 ∧ 0 ≤ nsec ∧ nsec < 1000000000 ∧ (sec ≠ 0 ∨ nsec ≠ 0)

/-- The time that a timer is to run for. -/
structure Duration extends Timespec where
  valid : 0 ≤ sec ∧ sec < 2 ^ 63 ∧ 0 ≤ nsec ∧ nsec < 1000000000

/-- Add to a time and carry the nanoseconds. -/
def Timespec.add (now : Timespec) (sec nsec : Int) : Timespec :=
  if 1000000000 ≤ now.nsec + nsec then
    { sec := wrapLong (wrapLong (now.sec + sec) + 1), nsec := now.nsec + nsec - 1000000000 }
  else
    { sec := wrapLong (now.sec + sec), nsec := now.nsec + nsec }

/-- `__poller_node_set_timeout(timeout, node)` for a `timeout` in milliseconds. -/
def nodeSetTimeout (timeout : Nat) (now : ClockTime) : Timespec :=
  now.toTimespec.add ((timeout / 1000 : Nat) : Int) ((timeout % 1000 * 1000000 : Nat) : Int)

/-! ### Nodes -/

/-- `PD_OP_*`. -/
inductive Operation where
  | read
  | write
  | listen
  | connect
  | sslAccept
  | sslConnect
  | sslShutdown
  | event
  | notify
  | timer
deriving Repr, DecidableEq

inductive Event where
  | input
  | output
deriving Repr, DecidableEq

inductive Errno where
  | ebadf
  | emfile
  | einval
  | eexist
  | enoent
  | enomem
  | etimedout
  | other (code : Nat)
deriving Repr, DecidableEq

/-- What a node is passed to the callback with: `state` and `error`. -/
inductive ResultState where
  | finished
  | error (errno : Errno)
  | deleted
  | modified
deriving Repr, DecidableEq

/-- `struct poller_data`; `message` tells whether there is one. -/
structure PollerData where
  operation : Operation
  fd : Int
  message : Bool
deriving Repr, DecidableEq

/-- `struct __poller_node`; `res` tells whether a result was allocated with it. `timed` is not in the
source: it records whether the node was last given a timeout. -/
structure PollerNode where
  data : PollerData
  event : Option Event
  inRbtree : Bool
  removed : Bool
  res : Bool
  timeout : Timespec
  timed : Bool
deriving Repr, DecidableEq

/-- What the system does in one call: whether there is memory for a result and for a node, and what
`epoll_ctl` fails with. -/
structure PollerEnv where
  resMemory : Bool
  nodeMemory : Bool
  epoll : Option Errno
deriving Repr, DecidableEq

/-- `nodes[fd]`; `reserved` is `POLLER_NODE_ERROR`. -/
inductive NodeSlot where
  | empty
  | reserved
  | node (n : Nat)
deriving Repr, DecidableEq

/-- `struct __poller`. `armed` is the deadline that the timerfd was last set to, and `fired` tells that
it has gone off since; it does not go off again. `waiting` tells that the poller thread has gone to
`__poller_wait` and nothing has called it back. `pipe` are the nodes that were written to the pipe and
not read yet, and `results` are the nodes passed to the callback for good. -/
structure Poller where
  maxOpenFiles : Nat
  stopped : Bool
  nodes : Nat → NodeSlot
  timeoTree : SearchTree Nat
  treeFirst : Option Nat
  timeoList : List Nat
  noTimeoList : List Nat
  armed : Option Timespec
  fired : Bool
  waiting : Bool
  pipe : List (Nat × ResultState)
  results : List (Nat × ResultState)
  heap : Nat → PollerNode
  next : Nat

namespace Poller

variable (s : Poller) (n : Nat)

def timeout : Timespec :=
  (s.heap n).timeout

def setNode (node : PollerNode) : Poller :=
  { s with heap := Function.update s.heap n node }

/-- `poller->nodes[fd] = slot`. -/
def setSlot (fd : Int) (slot : NodeSlot) : Poller :=
  { s with nodes := Function.update s.nodes fd.toNat slot }

/-- `malloc` of a node. -/
def alloc (node : PollerNode) : Poller :=
  { s.setNode s.next node with next := s.next + 1 }

/-- `poller->cb(node)`. -/
def callback (state : ResultState) : Poller :=
  { s with results := s.results ++ [(n, state)] }

/-- `__poller_set_timerfd`: a deadline of zero disarms the timer, and the kernel refuses one that is
not a time. -/
def setTimerfd (abstime : Timespec) : Poller :=
  if abstime.sec < 0 ∨ abstime.nsec < 0 ∨ 1000000000 ≤ abstime.nsec then s
  else if abstime.sec = 0 ∧ abstime.nsec = 0 then { s with armed := none, fired := false }
  else { s with armed := some abstime, fired := false }

/-! ### The containers -/

section Containers

variable (ops : TreeOps Nat)

/-- `__poller_tree_insert(node)`. -/
def treeInsert : Poller :=
  let (tree, first) := s.timeoTree.link
    (fun entry => decide (timeoutCmp (s.timeout n) (s.timeout entry) < 0)) n
  { s.setNode n { s.heap n with inRbtree := true } with
    timeoTree := ops.insertColor tree n
    treeFirst := if first then some n else s.treeFirst }

/-- `__poller_tree_erase(node)`. -/
def treeErase : Poller :=
  { s.setNode n { s.heap n with inRbtree := false } with
    treeFirst := if s.treeFirst = some n then ops.next s.timeoTree n else s.treeFirst
    timeoTree := ops.erase s.timeoTree n }

/-- `list_del(&node->list)`, from the list that the node is in. -/
def listDel : Poller :=
  { s with timeoList := s.timeoList.erase n, noTimeoList := s.noTimeoList.erase n }

/-- Take a node out of its container. -/
def takeOut : Poller :=
  if (s.heap n).inRbtree then s.treeErase n ops else s.listDel n

/-- Arm the timer for `n` unless `other` times out first. -/
def armBefore (other : Option Nat) : Poller :=
  match other with
  | none => s.setTimerfd (s.timeout n)
  | some m =>
      if timeoutCmp (s.timeout n) (s.timeout m) < 0 then s.setTimerfd (s.timeout n) else s

/-- The first half of `__poller_insert_node(node)`: the end of the list, or the tree. -/
def addToContainer : Poller :=
  match s.timeoList.getLast? with
  | none => { s with timeoList := s.timeoList ++ [n] }
  | some last =>
      if 0 ≤ timeoutCmp (s.timeout n) (s.timeout last) then
        { s with timeoList := s.timeoList ++ [n] }
      else
        s.treeInsert n ops

/-- `__poller_insert_node(node)`. -/
def insertNode : Poller :=
  let s := s.addToContainer n ops
  if s.timeoList.head? = some n then s.armBefore n s.treeFirst
  else if s.treeFirst = some n then s.armBefore n s.timeoList.head?
  else s

/-- A node goes where its new timeout, if it has one, puts it. -/
def place (timeout : Option Timespec) : Poller :=
  match timeout with
  | some t => (s.setNode n { s.heap n with timeout := t, timed := true }).insertNode n ops
  | none =>
      let s := s.setNode n { s.heap n with timed := false }
      { s with noTimeoList := s.noTimeoList ++ [n] }

/-- A node that was taken out by `poller_del` or `poller_mod`: to the callback or into the pipe. -/
def handOver (state : ResultState) : Poller :=
  if s.stopped then s.callback n state
  else
    { s.setNode n { s.heap n with removed := true } with pipe := s.pipe ++ [(n, state)] }

end Containers

/-! ### The interface -/

/-- `__poller_data_get_event`: the event, and whether a result is needed. -/
def dataGetEvent (data : PollerData) : Option (Event × Bool) :=
  match data.operation with
  | .read => some (.input, data.message)
  | .write => some (.output, false)
  | .listen => some (.input, true)
  | .connect => some (.output, false)
  | .sslAccept => some (.input, false)
  | .sslConnect => some (.output, false)
  | .sslShutdown => some (.output, false)
  | .event => some (.input, true)
  | .notify => some (.input, true)
  | .timer => none

/-- The check of `fd` that all functions begin with. -/
def checkFd (fd : Int) : Option Errno :=
  if fd < 0 then some .ebadf
  else if s.maxOpenFiles ≤ fd.toNat then some .emfile
  else none

/-- The absolute time of a timeout in milliseconds; there is none for a negative one. -/
def deadline (timeout : Int32) (now : ClockTime) : Option Timespec :=
  if 0 ≤ timeout.toInt then some (nodeSetTimeout timeout.toInt.toNat now) else none

/-- What `poller_add` and `poller_mod` do before they lock: the new node. -/
def newNode (data : PollerData) (env : PollerEnv) : Except Errno PollerNode :=
  match s.checkFd data.fd with
  | some e => .error e
  | none =>
      match dataGetEvent data with
      | none => .error .einval
      | some (event, needRes) =>
          if needRes = true ∧ env.resMemory = false then .error .enomem
          else if env.nodeMemory = false then .error .enomem
          else
            .ok
              { data := data
                event := some event
                inRbtree := false
                removed := false
                res := needRes
                timeout := { sec := 0, nsec := 0 }
                timed := false }

section Interface

variable (ops : TreeOps Nat)

/-- `poller_add`; with an error nothing has changed. -/
def pollerAdd (data : PollerData) (timeout : Int32) (now : ClockTime) (env : PollerEnv) :
    Except Errno Poller :=
  match s.newNode data env with
  | .error e => .error e
  | .ok node =>
      match s.nodes data.fd.toNat with
      | .empty =>
          match env.epoll with
          | some e => .error e
          | none =>
              let n := s.next
              let s := (s.alloc node).place n ops (deadline timeout now)
              .ok (s.setSlot data.fd (.node n))
      | .reserved => .error .einval
      | .node _ => .error .eexist

/-- `poller_del` on an `fd` that is not reserved. -/
def pollerDel (fd : Int) : Except Errno Poller :=
  match s.checkFd fd with
  | some e => .error e
  | none =>
      match s.nodes fd.toNat with
      | .node n => .ok (((s.setSlot fd .empty).takeOut n ops).handOver n .deleted)
      | _ => .error .enoent

/-- `poller_mod`. -/
def pollerMod (data : PollerData) (timeout : Int32) (now : ClockTime) (env : PollerEnv) :
    Except Errno Poller :=
  match s.newNode data env with
  | .error e => .error e
  | .ok node =>
      match s.nodes data.fd.toNat with
      | .empty => .error .enoent
      | .reserved => .error .einval
      | .node old =>
          match env.epoll with
          | some e => .error e
          | none =>
              let n := s.next
              let s := (s.alloc node).takeOut old ops
              let s := s.handOver old .modified
              let s := s.place n ops (deadline timeout now)
              .ok (s.setSlot data.fd (.node n))

/-- `poller_set_timeout` on an `fd` that is not reserved. -/
def pollerSetTimeout (fd : Int) (timeout : Int32) (now : ClockTime) : Except Errno Poller :=
  match s.checkFd fd with
  | some e => .error e
  | none =>
      match s.nodes fd.toNat with
      | .node n => .ok ((s.takeOut n ops).place n ops (deadline timeout now))
      | _ => .error .enoent

/-- `poller_add_timer`. -/
def pollerAddTimer (value : Duration) (now : ClockTime) (memory : Bool) : Except Errno Poller :=
  if memory then
    let node : PollerNode :=
      { data := { operation := .timer, fd := -1, message := false }
        event := none
        inRbtree := false
        removed := false
        res := false
        timeout := { sec := 0, nsec := 0 }
        timed := false }
    .ok ((s.alloc node).place s.next ops (some (now.toTimespec.add value.sec value.nsec)))
  else
    .error .enomem

/-- An event that ends the node: `__poller_remove_node`, and the callback unless the node is in the
pipe already. -/
def removeNode (state : ResultState) : Poller :=
  if (s.heap n).removed then s
  else ((s.setSlot (s.heap n).data.fd .empty).takeOut n ops).callback n state

/-- `__poller_handle_pipe`, when `read` gives the first `count` nodes. -/
def handlePipe (count : Nat) : Poller :=
  { s with pipe := s.pipe.drop count, results := s.results ++ s.pipe.take count }

/-! ### The timer -/

/-- `poller->nodes[fd] = NULL` for a node with a file. -/
def dropFd : Poller :=
  if 0 ≤ (s.heap n).data.fd then s.setSlot (s.heap n).data.fd .empty else s

/-- The loop of `__poller_handle_timeout` over the list, from its first node on. It returns the nodes
that it has moved to its own list. -/
def expireList (now : Timespec) : List Nat → Poller → Poller × List Nat
  | [], s => (s, [])
  | n :: rest, s =>
      if timeoutCmp (s.timeout n) now ≤ 0 then
        let (s, expired) := expireList now rest { s.dropFd n with timeoList := rest }
        (s, n :: expired)
      else
        (s, [])

/-- The loop over the tree; there are at most as many passes as nodes in the tree. -/
def expireTree (now : Timespec) : Nat → Poller → Poller × List Nat
  | 0, s => (s, [])
  | passes + 1, s =>
      match s.treeFirst with
      | none => (s, [])
      | some n =>
          if timeoutCmp (s.timeout n) now < 0 then
            let s := s.dropFd n
            let (s, expired) := expireTree now passes
              { s with
                treeFirst := ops.next s.timeoTree n
                timeoTree := ops.erase s.timeoTree n }
            (s, n :: expired)
          else
            (s, [])

/-- `__poller_handle_timeout(time_node)`. -/
def handleTimeout (now : Timespec) : Poller :=
  let (s, listed) := expireList now s.timeoList s
  let (s, treed) := expireTree ops now s.timeoTree.inorder.length s
  { s with results := s.results ++ (listed ++ treed).map fun n => (n, .error .etimedout) }

/-- `__poller_set_timer`. -/
def setTimer : Poller :=
  let node := s.timeoList.head?
  let node :=
    match s.treeFirst, node with
    | none, node => node
    | some first, none => some first
    | some first, some n =>
        if timeoutCmp (s.timeout first) (s.timeout n) < 0 then some first else some n
  match node with
  | some n => s.setTimerfd (s.timeout n)
  | none => s.setTimerfd { sec := 0, nsec := 0 }

end Interface

/-! ### Runs -/

/-- `poller_create`, and `poller_start` if it is not `stopped`; the files that the poller keeps for
itself are `reserved`. -/
def create (maxOpenFiles : Nat) (reserved : Nat → Bool) (stopped : Bool) : Poller where
  maxOpenFiles := maxOpenFiles
  stopped := stopped
  nodes := fun fd => if reserved fd then .reserved else .empty
  timeoTree := .leaf
  treeFirst := none
  timeoList := []
  noTimeoList := []
  armed := none
  fired := false
  waiting := false
  pipe := []
  results := []
  heap := fun _ =>
    { data := { operation := .timer, fd := -1, message := false }
      event := none
      inRbtree := false
      removed := false
      res := false
      timeout := { sec := 0, nsec := 0 }
      timed := false }
  next := 0

end Poller

/-- The calls that other threads make, what the poller thread does between and after its waits, and the
end of the time that the timerfd was set to. -/
inductive PollerOp where
  | add (data : PollerData) (timeout : Int32) (now : ClockTime) (env : PollerEnv)
  | del (fd : Int)
  | mod (data : PollerData) (timeout : Int32) (now : ClockTime) (env : PollerEnv)
  | setTimeout (fd : Int) (timeout : Int32) (now : ClockTime)
  | addTimer (value : Duration) (now : ClockTime) (memory : Bool)
  | event (n : Nat) (state : ResultState)
  | handlePipe (count : Nat)
  | handleTimeout (now : ClockTime)
  | setTimer
  | expire

namespace Poller

/-- The new state, or the old one after an error. -/
def orSame (s : Poller) : Except Errno Poller → Poller
  | .ok s' => s'
  | .error _ => s

/-- The nodes in the two containers of timeouts. -/
def pending (s : Poller) : List Nat :=
  s.timeoList ++ s.timeoTree.inorder

/-- All nodes that wait for something. -/
def contained (s : Poller) : List Nat :=
  s.pending ++ s.noTimeoList

/-- One operation. Events come for files only, and not after the node was passed to the callback; what
the poller thread handles, it handles when it does not wait. The functions that do not look for a
reserved `fd` are not called with one. -/
def exec (ops : TreeOps Nat) (_fuel : Nat) (s : Poller) : PollerOp → Option Poller
  | .add data timeout now env => some (s.orSame (s.pollerAdd ops data timeout now env))
  | .del fd =>
      if s.nodes fd.toNat = .reserved then none else some (s.orSame (s.pollerDel ops fd))
  | .mod data timeout now env => some (s.orSame (s.pollerMod ops data timeout now env))
  | .setTimeout fd timeout now =>
      if s.nodes fd.toNat = .reserved then none
      else some (s.orSame (s.pollerSetTimeout ops fd timeout now))
  | .addTimer value now memory => some (s.orSame (s.pollerAddTimer ops value now memory))
  | .event n state =>
      if 0 ≤ (s.heap n).data.fd ∧ (n ∈ s.contained ∨ n ∈ s.pipe.map Prod.fst) then
        some (removeNode { s with waiting := false } n ops state)
      else
        none
  | .handlePipe count => some (handlePipe { s with waiting := false } count)
  | .handleTimeout now => some (handleTimeout { s with waiting := false } ops now.toTimespec)
  | .setTimer => some { s.setTimer with waiting := true }
  | .expire =>
      if s.armed.isSome = true ∧ s.fired = false then some { s with fired := true, waiting := false }
      else none

/-- All runs of a poller. -/
def machine (ops : TreeOps Nat) (maxOpenFiles : Nat) (reserved : Nat → Bool) (stopped : Bool) :
    Machine Poller PollerOp :=
  .ofFunction (create maxOpenFiles reserved stopped) (exec ops)

end Poller

end Workflow.Kernel
