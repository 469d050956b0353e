/-
Module: Workflow.Kernel.MsgQueue
Layer: Model
Purpose: The message queue of msgqueue.c under any number of threads. The links are cells that point
  at each other: the two heads, and the one inside of each message. A section under `put_mutex`, from
  taking it to giving it up or waiting, is one step; `get_mutex` is held over several of them. A
  waiting thread may wake up at any time, so the condition variables carry no state.
Trusted boundary: human-reviewed model
Main exports: Link, Pc, MsgQueue, MsgEvent, MsgOp, MsgQueue.exec
-/
import Workflow.Lib.Trace
import Mathlib.Logic.Function.Basic

namespace Workflow.Kernel

/-- Where a `void **` of the queue points: at a head, or at the link inside of a message. -/
inductive Link (ι : Type) where
  | head1
  | head2
  | of (msg : ι)
deriving DecidableEq

/-- Where a thread is. `swap` and `swapWait` carry the local variable `get_head`. -/
inductive Pc (ι : Type) where
  | idle
  | put (msg : ι)
  | putWait (msg : ι)
  | get
  | swap (getHead : Link ι)
  | swapWait (getHead : Link ι)
  | take
deriving DecidableEq

/-- The queue, and where its threads are. `cell` is what the links hold. `live` are the messages that
have been handed to the queue and not been returned by it; their memory belongs to the queue. -/
structure MsgQueue (θ ι : Type) where
  msgMax : UInt64
  msgCnt : Nat
  nonblock : Bool
  cell : Link ι → Option (Link ι)
  getHead : Link ι
  putHead : Link ι
  putTail : Link ι
  getMutex : Option θ
  pc : θ → Pc ι
  live : List ι

/-- What a caller sees: a message is queued, a message is returned, NULL is returned. -/
inductive MsgEvent (ι : Type) where
  | put (msg : ι)
  | got (msg : ι)
  | null
deriving DecidableEq

/-- The steps of the threads. -/
inductive MsgOp (θ ι : Type) where
  | callPut (t : θ) (msg : ι)
  | putLock (t : θ)
  | putWake (t : θ)
  | callGet (t : θ)
  | getTest (t : θ)
  | swapLock (t : θ)
  | swapWake (t : θ)
  | take (t : θ)
  | setNonblock
  | setBlock

namespace MsgQueue

variable {θ ι : Type} [DecidableEq θ] [DecidableEq ι]

/-- `msgqueue_create`. -/
def create (θ : Type) (ι : Type) (maxlen : UInt64) : MsgQueue θ ι where
  msgMax := maxlen
  msgCnt := 0
  nonblock := false
  cell := fun _ => none
  getHead := .head1
  putHead := .head2
  putTail := .head2
  getMutex := none
  pc := fun _ => .idle
  live := []

def goto (s : MsgQueue θ ι) (t : θ) (pc : Pc ι) : MsgQueue θ ι :=
  { s with pc := Function.update s.pc t pc }

/-- `msgqueue_put` up to taking the mutex: the link of the message is cleared. -/
def enterPut (s : MsgQueue θ ι) (t : θ) (msg : ι) : MsgQueue θ ι where
  msgMax := s.msgMax
  msgCnt := s.msgCnt
  nonblock := s.nonblock
  cell := Function.update s.cell (.of msg) none
  getHead := s.getHead
  putHead := s.putHead
  putTail := s.putTail
  getMutex := s.getMutex
  pc := Function.update s.pc t (.put msg)
  live := msg :: s.live

/-- `msg_cnt > msg_max - 1`, where 0 - 1 is the largest `size_t`. -/
def full (s : MsgQueue θ ι) : Bool :=
  (s.msgMax - 1).toNat < s.msgCnt

/-- The end of `msgqueue_put`. -/
def append (s : MsgQueue θ ι) (msg : ι) : MsgQueue θ ι :=
  { s with
    cell := Function.update s.cell s.putTail (some (.of msg))
    putTail := .of msg
    msgCnt := s.msgCnt + 1 }

/-- The beginning of `__msgqueue_swap`: the heads are exchanged without `put_mutex`. -/
def enterSwap (s : MsgQueue θ ι) (t : θ) : MsgQueue θ ι :=
  { s.goto t (.swap s.getHead) with getHead := s.putHead }

/-- The end of `__msgqueue_swap`. -/
def finishSwap (s : MsgQueue θ ι) (getHead : Link ι) : MsgQueue θ ι :=
  { s with putHead := getHead, putTail := getHead, msgCnt := 0 }

/-- Return from `msgqueue_get`. -/
def leaveGet (s : MsgQueue θ ι) (t : θ) : MsgQueue θ ι :=
  { s.goto t .idle with getMutex := none }

/-- `*queue->get_head = *(void **)*queue->get_head`. -/
def pop (s : MsgQueue θ ι) (msg : ι) : MsgQueue θ ι :=
  { s with
    cell := Function.update s.cell s.getHead (s.cell (.of msg))
    live := s.live.erase msg }

/-- One step; `none` when it cannot be taken. -/
def exec (s : MsgQueue θ ι) : MsgOp θ ι → Option (MsgQueue θ ι × Option (MsgEvent ι))
  | .callPut t msg =>
      -- a message that the queue still owns is not handed to it again
      if s.pc t = .idle ∧ msg ∉ s.live then some (s.enterPut t msg, none) else none
  | .putLock t =>
      match s.pc t with
      | .put msg =>
          if s.full ∧ s.nonblock = false then some (s.goto t (.putWait msg), none)
          else some ((s.append msg).goto t .idle, some (.put msg))
      | _ => none
  | .putWake t =>
      match s.pc t with
      | .putWait msg => some (s.goto t (.put msg), none)
      | _ => none
  | .callGet t =>
      if s.pc t = .idle ∧ s.getMutex = none then
        some ({ s.goto t .get with getMutex := some t }, none)
      else none
  | .getTest t =>
      if s.pc t = .get then
        if (s.cell s.getHead).isSome then some (s.goto t .take, none)
        else some (s.enterSwap t, none)
      else none
  | .swapLock t =>
      match s.pc t with
      | .swap getHead =>
          if s.msgCnt = 0 ∧ s.nonblock = false then some (s.goto t (.swapWait getHead), none)
          else if 0 < s.msgCnt then some ((s.finishSwap getHead).goto t .take, none)
          else some ((s.finishSwap getHead).leaveGet t, some .null)
      | _ => none
  | .swapWake t =>
      match s.pc t with
      | .swapWait getHead => some (s.goto t (.swap getHead), none)
      | _ => none
  | .take t =>
      match s.pc t, s.cell s.getHead with
      | .take, some (.of msg) => some ((s.pop msg).leaveGet t, some (.got msg))
      | _, _ => none
  | .setNonblock => some ({ s with nonblock := true }, none)
  | .setBlock => some ({ s with nonblock := false }, none)

end MsgQueue

end Workflow.Kernel
