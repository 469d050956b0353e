/-
Module: Workflow.Factory.MysqlTransaction
Layer: Factory
Purpose: `ComplexMySQLTask` of `MySQLTaskImpl.cc` in a transaction: what `message_out` sends on a
  connection and does to the state of the target, `keep_alive_timeout`, `finish_once`, and the run of
  such a task through the retries of `WFComplexClientTask` (WFTaskFactory.inl) and the failures that
  `request_idle_conn` of `Communicator.cc` reports. The policy's `success` and `failed` do not change
  the task and are left out, and so are the texts of the internal messages and the user's `prepare`.
Trusted boundary: human-reviewed model
Main exports: MysqlTask, MysqlTask.messageOut, MysqlTask.keepAliveTimeout, MysqlTask.finishOnce,
  MysqlRun, MysqlRun.exec, MysqlRun.machine
-/
import Workflow.Factory.ComplexClientTask
import Workflow.Protocol.HttpHeaderStore

namespace Workflow.Factory

open Workflow.Lib
open Workflow.Http

/-! ### Requests -/

/-- A `MySQLRequest`: the command of its parser, and `buf_`. -/
structure MysqlRequest where
  command : Int
  buf : List Byte
deriving Repr, DecidableEq

def mysqlComQuery : Int := 3

/-- `WFT_ERR_MYSQL_*`. -/
def errMysqlHostNotAllowed : Int := 4001
def errMysqlAccessDenied : Int := 4002
def errMysqlInvalidCharacterSet : Int := 4003
def errMysqlCommandDisallowed : Int := 4004
def errMysqlQueryNotSet : Int := 4005
def errMysqlSslNotSupported : Int := 4006

/-- `ECONNRESET`. -/
def econnreset : Int := 104

namespace MysqlRequest

/-- `get_query`. -/
def getQuery (req : MysqlRequest) : List Byte :=
  match req.buf with
  | 3 :: c :: query => (c :: query).takeWhile (· != 0)
  | _ => []

/-- The error of `check_request`. -/
def check (req : MysqlRequest) : Option Int :=
  if req.buf = [] then some errMysqlQueryNotSet
  else
    let query := req.getQuery
    if req.command = mysqlComQuery ∧ ¬ strncasecmpEq 4 query (ascii "USE ") ∧
        ¬ strncasecmpEq 10 query (ascii "SET NAMES ") ∧
        ¬ strncasecmpEq 12 query (ascii "SET CHARSET ") ∧
        ¬ strncasecmpEq 18 query (ascii "SET CHARACTER SET ") then none
    else some errMysqlCommandDisallowed

end MysqlRequest

def isTransBegin (cmd : List Byte) : Bool :=
  strncasecmpEq 5 cmd (ascii "BEGIN") || strncasecmpEq 17 cmd (ascii "START TRANSACTION")

def isTransEnd (cmd : List Byte) : Bool :=
  strncasecmpEq 8 cmd (ascii "ROLLBACK") || strncasecmpEq 6 cmd (ascii "COMMIT")

def isPrepare (cmd : List Byte) : Bool :=
  strncasecmpEq 7 cmd (ascii "PREPARE")

/-! ### The task -/

/-- The values of `transaction_state_`. -/
inductive TransactionState where
  | noTransaction
  | transactionOut
  | transactionIn
  | connReset
deriving Repr, DecidableEq

/-- What `message_out` sends: the messages of the login, or the user's request. -/
inductive MysqlOut where
  | handshake
  | sslRequest
  | auth
  | setNames (charset : List Byte)
  | user
deriving Repr, DecidableEq

/-- What `keep_alive_timeout` reads of a reply to an internal request, and the `errno` of an
`init_ssl_connection` that fails. -/
structure MysqlReply where
  hostDisallowed : Bool
  sslSupported : Bool
  sslError : Option Int
  isOkPacket : Bool
deriving Repr, DecidableEq

/-- `ComplexMySQLTask`; `replyState` and `replyError` are `state_` and `error_`. -/
structure MysqlTask extends Task where
  req : MysqlRequest
  keepAliveTimeo : Int
  resCharset : List Byte
  isSsl : Bool
  transactionState : TransactionState
  replyState : TaskState
  replyError : Int
  isUserRequest : Bool
deriving Repr, DecidableEq

def mysqlKeepaliveDefault : Int := 180 * 1000

namespace MysqlTask

def isTransaction (t : MysqlTask) : Bool :=
  t.transactionState == .transactionIn || t.transactionState == .transactionOut

/-! #### `message_out` -/

/-- The sequence number less the one of the SSL request. -/
def plainSeq (seqid : Nat) (t : MysqlTask) : Nat :=
  if t.isSsl then seqid - 1 else seqid

/-- The message of the login that belongs to a sequence number. -/
def loginMessage (seqid : Nat) (t : MysqlTask) : Option MysqlOut :=
  if seqid = 0 then some .handshake
  else if t.isSsl ∧ seqid = 1 then some .sslRequest
  else if t.plainSeq seqid = 1 then some .auth
  else if t.plainSeq seqid = 2 ∧ t.resCharset ≠ [] then some (.setNames t.resCharset)
  else none

/-- The user's request is the first one on its connection, and the transaction has begun on another. -/
def connectionLost (seqid : Nat) (target : BitVec 32) (t : MysqlTask) : Bool :=
  decide (seqid ≤ 3 ∧ (seqid = 2 ∨ t.resCharset ≠ []) ∧ target &&& 3#32 ≠ 0#32)

/-- The state of the transaction behind a query, and the state of its target. -/
def advance (query : List Byte) (target : BitVec 32) : TransactionState × BitVec 32 :=
  let isIn := target &&& 1#32 ≠ 0#32
  let inPrepare := target &&& 2#32 ≠ 0#32
  let prepares := ¬ inPrepare ∧ isPrepare query
  let turns := if isIn then isTransEnd query else isTransBegin query
  let isIn := if turns then ¬ isIn else isIn
  let target :=
    if prepares ∨ turns then
      (if isIn then 1#32 else 0#32) ||| (if inPrepare ∨ prepares then 2#32 else 0#32)
    else target
  (if isIn then .transactionIn else .transactionOut, target)

/-- The part of `message_out` about the user's request. An error is the `errno` behind a NULL. -/
def userMessage (seqid : Nat) (target : BitVec 32) (t : MysqlTask) :
    Except Int MysqlOut × BitVec 32 × MysqlTask :=
  if t.isTransaction then
    if t.connectionLost seqid target then
      (.error econnreset, 0#32, { t with transactionState := .connReset })
    else
      let (state, target) := advance t.req.getQuery target
      (.ok .user, target, { t with transactionState := state })
  else (.ok .user, target, t)

/-- `message_out`, with the state of the target. -/
def messageOut (seqid : Nat) (target : BitVec 32) (t : MysqlTask) :
    Except Int MysqlOut × BitVec 32 × MysqlTask :=
  match t.loginMessage seqid with
  | some message => (.ok message, target, { t with isUserRequest := false })
  | none => userMessage (t.plainSeq seqid) target { t with isUserRequest := true }

/-! #### Replies -/

/-- The error in the reply to an internal request. -/
def replyErrorOf (seqid : Nat) (reply : MysqlReply) (t : MysqlTask) : Option (TaskState × Int) :=
  if seqid = 0 then
    if reply.hostDisallowed then some (.taskError, errMysqlHostNotAllowed)
    else if t.isSsl ∧ ¬ reply.sslSupported then some (.taskError, errMysqlSslNotSupported)
    else if t.isSsl then reply.sslError.map fun error => (.sysError, error)
    else none
  else if (¬ t.isSsl ∨ seqid ≠ 1) ∧ ¬ reply.isOkPacket then
    some (.taskError,
      if t.plainSeq seqid = 1 then errMysqlAccessDenied else errMysqlInvalidCharacterSet)
  else none

/-- `keep_alive_timeout`. -/
def keepAliveTimeout (seqid : Nat) (reply : MysqlReply) (t : MysqlTask) : Int × MysqlTask :=
  let t := { t with replyState := .success, replyError := 0 }
  if seqid = 0 ∨ ¬ t.isUserRequest then
    match t.replyErrorOf seqid reply with
    | some (state, error) =>
        (if seqid = 0 then 0 else mysqlKeepaliveDefault,
          { t with replyState := state, replyError := error })
    | none => (mysqlKeepaliveDefault, t)
  else (t.keepAliveTimeo, t)

/-! #### The end of a request -/

/-- `finish_once`. -/
def finishOnce (t : MysqlTask) : FinishOnce × MysqlTask :=
  if t.isUserRequest then
    (⟨true, t.state, t.error, false, none⟩, t)
  else
    let fails := t.state = .success ∧ t.replyState ≠ .success
    (⟨false, if fails then t.replyState else t.state, if fails then t.replyError else t.error, fails,
      none⟩, { t with isUserRequest := true })

/-- `dispatch`; `router` is the task that the policy makes. -/
def dispatch (router : Router) (t : MysqlTask) : MysqlTask :=
  match t.state with
  | .undefined =>
      match t.req.check with
      | some error => { t with state := .taskError, error := error, phase := .finishing }
      | none =>
          if t.requestObject then { t with phase := .requesting }
          else
            { t with
              nsPolicy := some (t.nsPolicy.getD .other)
              routerTask := some router
              phase := .finishing }
  | .success => { t with phase := .requesting }
  | _ => { t with phase := .finishing }

/-- `done`. -/
def done (t : MysqlTask) : MysqlTask :=
  match t.routerTask with
  | some router => { t with routerTask := none, phase := .routing router }
  | none =>
      let (f, t) := t.finishOnce
      { t with toTask := (t.toTask.finishOnce f).afterNotify f.isUserRequest }

end MysqlTask

/-! ### Runs -/

/-- A task, the state of the target that its requests go to, what `message_out` has returned for the
request that is under way, and all that it has returned. -/
structure MysqlRun where
  task : MysqlTask
  target : BitVec 32
  out : Option (Except Int MysqlOut)
  log : List (Except Int MysqlOut)
deriving DecidableEq

/-- The member functions of the task. `seqid` says on what connection a message is sent, `failed` is
an error or the end of the communicator, and `other` a step of another task of the transaction. -/
inductive MysqlOp where
  | dispatch (router : Router)
  | routed (state : TaskState) (error : Int)
  | messageOut (seqid : Nat)
  | replied (seqid : Nat) (reply : MysqlReply)
  | failed (stopped : Bool) (error : Int)
  | done
  | switchCallback
  | canceled
  | other (target : BitVec 32)

namespace MysqlRun

/-- How a request fails: where there is no message the communicator reports the `errno`. -/
def failure (stopped : Bool) (error : Int) (s : MysqlRun) : TaskState × Int :=
  match s.out with
  | some (.error errno) => (.sysError, errno)
  | _ => (if stopped then .aborted else .sysError, error)

/-- The phases before a request. -/
def waits : Phase → Bool
  | .ready | .routing _ => true
  | _ => false

def exec (s : MysqlRun) : MysqlOp → Option MysqlRun
  | .dispatch router =>
      if s.task.phase = .ready then some { s with task := s.task.dispatch router, out := none }
      else none
  | .routed state error =>
      if waits s.task.phase ∧ s.task.phase ≠ .ready then
        some { s with task := { s.task with toTask :=
          { s.task.toTask.routerCallback (Clients.routerState s.task.phase state) error with
            phase := .ready } } }
      else none
  | .messageOut seqid =>
      if s.task.phase = .requesting ∧ s.out = none then
        let (out, target, task) := s.task.messageOut seqid s.target
        some { task := task, target := target, out := some out, log := s.log ++ [out] }
      else none
  | .replied seqid reply =>
      match s.out with
      | some (.ok _) =>
          if s.task.phase = .requesting then
            some { s with task := { (s.task.keepAliveTimeout seqid reply).2 with
              state := .success, error := 0, phase := .finishing } }
          else none
      | _ => none
  | .failed stopped error =>
      if s.task.phase = .requesting then
        let (state, error) := s.failure stopped error
        some { s with task := { s.task with state := state, error := error, phase := .finishing } }
      else none
  | .done => if s.task.phase = .finishing then some { s with task := s.task.done } else none
  | .switchCallback =>
      if s.task.phase = .switching then
        some { s with task := { s.task with toTask := s.task.toTask.switchCallback none } }
      else none
  | .canceled =>
      if waits s.task.phase then some { s with task := { s.task with phase := .gone } } else none
  | .other target => some { s with target := target }

/-- A task that `init_success` has found to be of a transaction, before its first `dispatch`. -/
structure Start (s : MysqlRun) : Prop where
  state : s.task.state = .undefined
  transaction : s.task.transactionState = .transactionOut
  retryTimes : s.task.retryTimes = 0
  redirect : s.task.redirect = false
  routerTask : s.task.routerTask = none
  requestObject : s.task.requestObject = false
  phase : s.task.phase = .ready
  isUserRequest : s.task.isUserRequest = true
  out : s.out = none
  log : s.log = []

/-- All runs of a task. -/
def machine : Machine MysqlRun MysqlOp where
  init := Start
  step := fun s op s' => s.exec op = some s'

end MysqlRun

end Workflow.Factory
