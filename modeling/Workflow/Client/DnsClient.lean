/-
Module: Workflow.Client.DnsClient
Layer: Client
Purpose: `WFDnsClient`: its configuration, the search for a name over the search domains and the servers,
  and the part of `ComplexDnsTask` that sends a query again. A task is a sequence of queries; what comes
  back for each (also that it could not be sent) is an input. The user's callback makes no redirects.
Trusted boundary: human-reviewed model
Main exports: DnsParams, init, DnsStatus, hasNextName, DnsReply, DnsTask, callbackInternal, finishOnce,
  createDnsTask, DnsQuery, search
-/
import Workflow.Factory.ComplexClientTask
import Workflow.Protocol.DnsMessage
import Workflow.Protocol.DnsUtil
import Workflow.Util.QueryString
import Workflow.Util.URIParser

namespace Workflow.Dns

open Workflow.Factory
open Workflow.Lib
open Workflow.Uri
open Workflow.Util

/-- `StringUtil::split_filter_empty`. -/
def splitFilterEmpty (str : List Byte) (sep : Byte) : List (List Byte) :=
  (split str sep).filter fun piece => piece ≠ []

/-! ### The configuration -/

/-- `struct dns_params`, as `init` leaves it. -/
structure DnsParams where
  uris : List ParsedURI
  searchList : List (List Byte)
  ndots : Int
  attempts : Int
  rotate : Bool
  uris_ne_nil : uris ≠ []
  attempts_pos : 0 < attempts

/-- A `ParsedURI` that was constructed, or moved away. -/
def noUri : ParsedURI where
  scheme := none
  userinfo := none
  host := none
  port := none
  path := none
  query := none
  fragment := none
  state := .init
  error := 0

/-- `strncasecmp(host, pre, n) == 0` for a `pre` of `n` characters. -/
def startsWithNoCase (pre host : List Byte) : Bool :=
  strcasecmpEq (host.take pre.length) pre

/-- The body of the loop in `init`. -/
def parseServer (host : List Byte) : Option ParsedURI :=
  let host :=
    if !startsWithNoCase (ascii "dns://") host && !startsWithNoCase (ascii "dnss://") host then
      ascii "dns://" ++ host
    else host
  match parse host noUri with
  | (0, uri) => some uri
  | _ => none

/-- `WFDnsClient::init`; `none` is -1. -/
def init (url searchList : List Byte) (ndots attempts : Int) (rotate : Bool) : Option DnsParams :=
  ((splitFilterEmpty url 44).mapM parseServer).bind fun uris =>
    if h : uris ≠ [] ∧ 0 ≤ ndots ∧ 1 ≤ attempts then
      some {
        uris := uris
        searchList := splitFilterEmpty searchList 44
        ndots := if ndots > 15 then 15 else ndots
        attempts := if attempts > 5 then 5 else attempts
        rotate := rotate
        uris_ne_nil := h.1
        attempts_pos := by split <;> omega }
    else none

/-- `p->uris[i]`. -/
def DnsParams.uri (p : DnsParams) (i : Nat) : ParsedURI :=
  p.uris.getD i noUri

/-! ### The names -/

/-- `DNS_STATUS_TRY_ORIGIN_*`. -/
inductive TryOrigin where
  | done
  | first
  | last
deriving DecidableEq

/-- `struct DnsStatus`. -/
structure DnsStatus where
  originName : List Byte
  currentName : List Byte
  nextServer : Nat
  lastServer : Nat
  nextDomain : Nat
  attemptsLeft : Int
  tryOriginState : TryOrigin

/-- `__get_ndots`. -/
def getNdots (s : List Byte) : Int :=
  s.count 46

/-- `__has_next_name`; `none` is `false`, which leaves the status as it is. -/
def hasNextName (p : DnsParams) (s : DnsStatus) : Option DnsStatus :=
  if s.tryOriginState = .first then
    some { s with currentName := s.originName, tryOriginState := .done }
  else if h : s.nextDomain < p.searchList.length then
    some { s with
      currentName := s.originName ++ [46] ++ p.searchList[s.nextDomain]
      nextDomain := s.nextDomain + 1 }
  else if s.tryOriginState = .last then
    some { s with currentName := s.originName, tryOriginState := .done }
  else none

/-! ### The task -/

/-- `enum TransportType`. -/
inductive TransportType where
  | tcp
  | udp
  | sctp
  | tcpSsl
  | sctpSsl
deriving DecidableEq

/-- What a query ends with: the state of the task, and the header in its response. -/
structure DnsReply where
  state : TaskState
  header : DnsHeader

/-- `parser->header.tc`: the second lowest bit of the first byte of flags. -/
def DnsHeader.tc (h : DnsHeader) : Bool :=
  h.flags.getD 0 0 &&& 2 != 0

/-- The task with its context. `uri` is `uri_`, `type` is `type_`. -/
structure DnsTask where
  params : DnsParams
  status : DnsStatus
  uri : ParsedURI
  type : TransportType
  req : DnsParser

/-- `set_redirect`, with what `init_success` makes of the transport type. -/
def DnsTask.setRedirect (t : DnsTask) (uri : ParsedURI) : DnsTask :=
  { t with
    uri := uri
    type := if (uri.scheme.map fun scheme => strcasecmpEq scheme (ascii "dnss")) = some true then .tcpSsl
      else t.type }

/-- `DnsMessage::set_question_name`. -/
def DnsTask.setQuestionName (t : DnsTask) (name : List Byte) : DnsTask :=
  { t with req := { t.req with question := { t.req.question with qname := some (cString name) } } }

/-- `try_next_server` of `__callback_internal`. -/
def DnsReply.tryNextServer (r : DnsReply) : Bool :=
  r.state ≠ .success || r.header.rcode == 2 || r.header.rcode == 4 || r.header.rcode == 5

/-- `try_next_name` of `__callback_internal`. -/
def DnsReply.tryNextName (r : DnsReply) : Bool :=
  r.header.rcode == 1 || r.header.rcode == 3 || r.header.ancount == 0

/-- `__callback_internal`; `none` if it does not redirect. -/
def callbackInternal (t : DnsTask) (r : DnsReply) : Option DnsTask :=
  if r.tryNextServer then
    let attemptsLeft :=
      if t.status.lastServer = t.status.nextServer then t.status.attemptsLeft - 1
      else t.status.attemptsLeft
    if attemptsLeft ≤ 0 then none
    else
      let nextServer := (t.status.nextServer + 1) % t.params.uris.length
      let status := { t.status with attemptsLeft := attemptsLeft, nextServer := nextServer }
      some ({ t with status := status }.setRedirect (t.params.uri nextServer))
  else if r.tryNextName then
    (hasNextName t.params t.status).map fun status =>
      ({ t with status := status }.setQuestionName status.currentName).setRedirect
        (t.params.uri status.nextServer)
  else none

/-- `ComplexDnsTask::finish_once` of a task without retries; `none` if the task ends. -/
def finishOnce (t : DnsTask) (r : DnsReply) : Option DnsTask :=
  if r.state = .success ∧ t.type = .udp ∧ r.header.tc = true then
    some ({ t with type := .tcp }.setRedirect t.uri)
  else callbackInternal { t with type := .udp } r

/-- `WFDnsClient::create_dns_task`; `id` is the counter of the client. -/
def createDnsTask (p : DnsParams) (id : Nat) (name : List Byte) : DnsTask :=
  let nextServer := if p.rotate then id % p.uris.length else 0
  let status : DnsStatus :=
    { originName := name
      currentName := []
      nextServer := nextServer
      lastServer := (nextServer + p.uris.length - 1) % p.uris.length
      nextDomain := if name.getLast? = some 46 then p.uris.length else 0
      attemptsLeft := p.attempts
      tryOriginState :=
        if name.getLast? ≠ some 46 ∧ getNdots name < p.ndots then .last else .first }
  let status := (hasNextName p status).getD status
  let task : DnsTask :=
    { params := p
      status := status
      uri := noUri
      type := .udp
      req := setQuestion (cString status.currentName) 1 1 (dnsParserInit false) }
  task.setRedirect (p.uri nextServer)

/-! ### The queries -/

/-- One query: the server, the transport and the name that is asked for. -/
structure DnsQuery where
  uri : ParsedURI
  type : TransportType
  name : List Byte

def DnsTask.query (t : DnsTask) : DnsQuery where
  uri := t.uri
  type := t.type
  name := t.req.question.qname.getD (ascii ".")

/-- The queries of a task that are made when these replies come. -/
def search (t : DnsTask) : List DnsReply → List DnsQuery
  | [] => [t.query]
  | r :: replies =>
      match finishOnce t r with
      | some t' => t.query :: search t' replies
      | none => [t.query]

end Workflow.Dns
