/-
Module: Workflow.Kernel.Transmission
Layer: Kernel
Purpose: The timeouts of a message that is being sent or received: `first_timeout`, `next_timeout`,
  `first_timeout_send`, `first_timeout_recv`, and what `partial_written` and `append` do with them
  (Communicator.cc). The clock is read once in each call.
Trusted boundary: human-reviewed model
Main exports: TransmissionSession, firstTimeout, nextTimeout, firstTimeoutSend, firstTimeoutRecv,
  TransmissionSession.partialWritten, TransmissionSession.append, Transmission, Transmission.exec
-/
import Workflow.Kernel.Poller
import Workflow.Lib.Run

namespace Workflow.Kernel

open Workflow.Lib

/-- The members of a `CommSession` that its timeouts depend on, with what `send_timeout`,
`receive_timeout` and `response_timeout` return. -/
structure TransmissionSession where
  sendTimeout : Int32
  receiveTimeout : Int32
  responseTimeout : Int32
  timeout : Int32
  beginTime : Timespec
deriving Repr, DecidableEq

/-- `first_timeout`. -/
def firstTimeout (now : ClockTime) (s : TransmissionSession) : Int32 × TransmissionSession :=
  let timeout := s.responseTimeout
  if timeout < 0 ∨ s.timeout.toUInt32 ≤ timeout.toUInt32 then
    (s.timeout, { s with timeout := 0, beginTime := { s.beginTime with nsec := 0 } })
  else (timeout, { s with beginTime := now.toTimespec })

/-- The milliseconds since `begin_time`, as an `int`. -/
def timeUsed (now : ClockTime) (s : TransmissionSession) : Int32 :=
  Int32.ofInt (1000 * (now.sec - s.beginTime.sec) + (now.nsec - s.beginTime.nsec).tdiv 1000000)

/-- `next_timeout`. -/
def nextTimeout (now : ClockTime) (s : TransmissionSession) : Int32 × TransmissionSession :=
  let timeout := s.responseTimeout
  if s.timeout > 0 then
    let timeLeft := s.timeout - timeUsed now s
    if timeLeft ≤ timeout then (if timeLeft < 0 then 0 else timeLeft, { s with timeout := 0 })
    else (timeout, s)
  else (timeout, s)

def firstTimeoutSend (now : ClockTime) (s : TransmissionSession) : Int32 × TransmissionSession :=
  firstTimeout now { s with timeout := s.sendTimeout }

def firstTimeoutRecv (now : ClockTime) (s : TransmissionSession) : Int32 × TransmissionSession :=
  firstTimeout now { s with timeout := s.receiveTimeout }

/-- What is done to the registration of the connection: `mpoller_set_timeout`, `mpoller_del`, or
nothing. -/
inductive TimeoutAction where
  | set (timeout : Int32)
  | del
  | keep
deriving Repr, DecidableEq

/-- `partial_written`. -/
def TransmissionSession.partialWritten (now : ClockTime) (s : TransmissionSession) :
    TimeoutAction × TransmissionSession :=
  let (timeout, s) := nextTimeout now s
  (.set timeout, s)

/-- `append`, where the message returns `ret`. -/
def TransmissionSession.append (ret : Int) (service : Bool) (keepAliveTimeout : Int32)
    (now : ClockTime) (s : TransmissionSession) : TimeoutAction × TransmissionSession :=
  if ret > 0 then
    if service then (.set (-1), s)
    else
      let s := { s with timeout := keepAliveTimeout }
      if keepAliveTimeout = 0 then (.del, s) else (.set keepAliveTimeout, s)
  else if ret = 0 ∧ s.timeout ≠ 0 then
    let (timeout, s) :=
      if s.beginTime.nsec = -1 then firstTimeoutRecv now s else nextTimeout now s
    (.set timeout, s)
  else (.keep, s)

/-! ### A transmission -/

/-- A time in nanoseconds. -/
def nanoseconds (t : Timespec) : Int :=
  t.sec * 1000000000 + t.nsec

def millisecond : Int := 1000000

/-- The time at which the poller gives up. -/
def deadlineAt (timeout : Int32) (now : ClockTime) : Option Int :=
  if 0 ≤ timeout then some (nanoseconds now.toTimespec + timeout.toInt * millisecond) else none

/-- A message on its way: when its transmission began, when it went on last, and the deadline in
force. -/
structure Transmission where
  session : TransmissionSession
  sending : Bool
  start : Int
  last : Int
  deadline : Option Int
deriving Repr, DecidableEq

namespace Transmission

/-- The total timeout. -/
def total (t : Transmission) : Int32 :=
  if t.sending then t.session.sendTimeout else t.session.receiveTimeout

/-- `first_timeout_send` or `first_timeout_recv`. -/
def begin (sending : Bool) (now : ClockTime) (s : TransmissionSession) : Transmission :=
  let (timeout, s) := if sending then firstTimeoutSend now s else firstTimeoutRecv now s
  { session := s
    sending := sending
    start := nanoseconds now.toTimespec
    last := nanoseconds now.toTimespec
    deadline := deadlineAt timeout now }

/-- Progress: some bytes were written or appended. -/
def exec (t : Transmission) (now : ClockTime) : Option Transmission :=
  if t.last ≤ nanoseconds now.toTimespec then
    let (action, s) :=
      if t.sending then TransmissionSession.partialWritten now t.session
      else TransmissionSession.append 0 false 0 now t.session
    some { t with
      session := s
      last := nanoseconds now.toTimespec
      deadline := match action with
        | .set timeout => deadlineAt timeout now
        | .del => none
        | .keep => t.deadline }
  else none

/-- All transmissions, with any timeouts. -/
def machine : Machine Transmission ClockTime where
  init := fun t => ∃ sending now s, t = begin sending now s
  step := fun t now t' => t.exec now = some t'

end Transmission

end Workflow.Kernel
