/-
Module: Workflow.Kernel.SendMessage
Layer: Kernel
Purpose: How a message goes out on a connection without SSL: the loop of
  `Communicator::send_message_sync`, the hand-over in `send_message`, and `__poller_handle_write`.
  Both loops adjust the vectors in place. What `writev` does is an input; registering with the poller
  and the copy of the vectors succeed.
Trusted boundary: human-reviewed model
Main exports: IoVec, bytesOf, WriteResult, syncAdvance, sendMessageSync, pollAdvance, handleWrite,
  sendMessage, sendAll
-/
import Workflow.Lib.CString

namespace Workflow.Kernel

open Workflow.Lib

/-- `struct iovec`. -/
structure IoVec where
  base : Nat
  len : Nat
deriving DecidableEq

/-- The bytes that a vector points at. -/
def IoVec.bytes (mem : Nat → Byte) (v : IoVec) : List Byte :=
  (List.range' v.base v.len).map mem

/-- The bytes of the vectors, one behind the other. -/
def bytesOf (mem : Nat → Byte) (vectors : List IoVec) : List Byte :=
  (vectors.map (IoVec.bytes mem)).flatten

/-- What `writev` does: it accepts up to `n` of the bytes that it is offered, or fails with `EAGAIN`, or
with another error. -/
inductive WriteResult where
  | accepts (n : Nat)
  | again
  | error
deriving DecidableEq

/-- The bytes that `writev` is offered: those of the first `IOV_MAX` vectors. -/
def offered (mem : Nat → Byte) (iovMax : Nat) (vectors : List IoVec) : List Byte :=
  bytesOf mem (vectors.take iovMax)

/-! ### `send_message_sync` -/

/-- The loop `for (i = 0; i < cnt; i++)` behind `writev`: `i` and the vectors as it leaves them. -/
def syncAdvance (n : Nat) : List IoVec → Nat × List IoVec
  | [] => (0, [])
  | v :: vectors =>
      if n ≥ v.len then
        ((syncAdvance (n - v.len) vectors).1 + 1, v :: (syncAdvance (n - v.len) vectors).2)
      else (0, ⟨v.base + n, v.len - n⟩ :: vectors)

/-- The loop of `send_message_sync`: `ahead` are the `cnt` vectors from `vectors` on, `passed` those
before them in the array, and `accepted` is what the kernel has. -/
structure Sending where
  passed : List IoVec
  ahead : List IoVec
  accepted : List Byte

/-- `writev` returns, and the vectors are adjusted. -/
def Sending.accept (mem : Nat → Byte) (iovMax n : Nat) (s : Sending) : Sending :=
  let taken := (offered mem iovMax s.ahead).take n
  let (i, vectors) := syncAdvance taken.length s.ahead
  { passed := s.passed ++ vectors.take i
    ahead := vectors.drop i
    accepted := s.accepted ++ taken }

/-- `send_message_sync` for the results of its `writev` calls. `none` means that it waits for the next
one. -/
def sendMessageSync (mem : Nat → Byte) (iovMax : Nat) : List WriteResult → Sending → Option Int × Sending
  | [], s => (if s.ahead = [] then some 0 else none, s)
  | r :: results, s =>
      if s.ahead = [] then (some 0, s)
      else
        match r with
        | .accepts n => sendMessageSync mem iovMax results (s.accept mem iovMax n)
        | .again => (some s.ahead.length, s)
        | .error => (some (-1), s)

/-! ### `__poller_handle_write` -/

/-- The node of the connection: the vectors from `write_iov` on, `iovcnt` of them. -/
structure WriteNode where
  iov : List IoVec
  accepted : List Byte

/-- What has been reported: a call still waits for `writev`, the node waits in the poller, the message is
complete (0 or `PR_ST_FINISHED`), or sending it failed (-1 or `PR_ST_ERROR`). -/
inductive Report where
  | running
  | pending
  | complete
  | failed
deriving DecidableEq

/-- `while (iovcnt > 0 && iov->iov_len == 0)`. -/
def skipEmpty : List IoVec → List IoVec
  | [] => []
  | v :: iov => if v.len = 0 then skipEmpty iov else v :: iov

/-- The loop `do … while (iovcnt > 0)` behind `writev`. The vectors that it leaves behind are not looked
at again. -/
def pollAdvance (nleft : Nat) : List IoVec → List IoVec
  | [] => []
  | v :: iov =>
      if nleft ≥ v.len then pollAdvance (nleft - v.len) iov
      else ⟨v.base + nleft, v.len - nleft⟩ :: iov

/-- `writev` returns, and the vectors are adjusted. -/
def WriteNode.accept (mem : Nat → Byte) (iovMax n : Nat) (node : WriteNode) : WriteNode :=
  let taken := (offered mem iovMax node.iov).take n
  { iov := pollAdvance taken.length node.iov
    accepted := node.accepted ++ taken }

/-- What `Communicator::partial_written` returns. -/
def partialWritten (_count : Nat) : Int := 0

/-- The loop of `__poller_handle_write` for the results of its `writev` calls, and what follows it. -/
def writeLoop (mem : Nat → Byte) (iovMax : Nat) :
    List WriteResult → Nat → WriteNode → Report × WriteNode
  | [], _, node => (if node.iov = [] then .complete else .running, node)
  | r :: results, count, node =>
      if node.iov = [] then (.complete, node)
      else
        match r with
        | .accepts n =>
            writeLoop mem iovMax results (count + ((offered mem iovMax node.iov).take n).length)
              (node.accept mem iovMax n)
        | .again =>
            (if count = 0 then .pending else if partialWritten count ≥ 0 then .pending else .failed,
              node)
        | .error => (.failed, node)

/-- `__poller_handle_write`. -/
def handleWrite (mem : Nat → Byte) (iovMax : Nat) (results : List WriteResult) (node : WriteNode) :
    Report × WriteNode :=
  writeLoop mem iovMax results 0 { node with iov := skipEmpty node.iov }

/-! ### A message -/

/-- `send_message` on the encoded vectors. What is left is found from the end of the array. -/
def sendMessage (mem : Nat → Byte) (iovMax : Nat) (vectors : List IoVec) (results : List WriteResult) :
    Report × WriteNode :=
  let (ret, s) := sendMessageSync mem iovMax results ⟨[], vectors, []⟩
  match ret with
  | none => (.running, ⟨s.ahead, s.accepted⟩)
  | some cnt =>
      if cnt = 0 then (.complete, ⟨s.ahead, s.accepted⟩)
      else if cnt < 0 then (.failed, ⟨s.ahead, s.accepted⟩)
      else
        let array := s.passed ++ s.ahead
        (.pending, ⟨array.drop (array.length - cnt.toNat), s.accepted⟩)

/-- One more call of `__poller_handle_write`, while the node is in the poller. -/
def nextWrite (mem : Nat → Byte) (iovMax : Nat) (state : Report × WriteNode)
    (results : List WriteResult) : Report × WriteNode :=
  if state.1 = .pending then handleWrite mem iovMax results state.2 else state

/-- `send_message`, and then any number of calls of `__poller_handle_write`. -/
def sendAll (mem : Nat → Byte) (iovMax : Nat) (vectors : List IoVec) (results : List WriteResult)
    (calls : List (List WriteResult)) : Report × WriteNode :=
  calls.foldl (nextWrite mem iovMax) (sendMessage mem iovMax vectors results)

end Workflow.Kernel
