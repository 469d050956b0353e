/-
Module: Workflow.Factory.HttpProxy
Layer: Factory
Purpose: How an HTTP task prepares its request: `init_with_uri` of `WFTaskFactory.inl` with the
  `init_success` of `ComplexHttpTask` and the one of `ComplexHttpProxyTask` (HttpTaskImpl.cc). The
  base64 coding of the proxy's user and password is OpenSSL's and a parameter.
Trusted boundary: human-reviewed model
Main exports: HttpClient, HttpProxyClient, HttpClient.initSuccess, HttpProxyClient.initSuccess,
  initWithUri, HttpClient.create, HttpProxyClient.create
-/
import Workflow.Factory.HttpRedirect

namespace Workflow.Factory

open Workflow.Lib
open Workflow.Uri

inductive TransportType where
  | tcp
  | tcpSsl
deriving Repr, DecidableEq

/-- `WFT_ERR_URI_PARSE_FAILED`. -/
def errUriParseFailed : Int := 1001

/-- A `ComplexHttpTask` with the request URI and the value of `Host` in its request. -/
structure HttpClient where
  task : HttpTask
  uri : ParsedURI
  type : TransportType
  info : List Byte
  requestUri : Option (List Byte)
  host : Option (List Byte)
deriving Repr, DecidableEq

/-- A `ComplexHttpProxyTask`: `uri` of the task is the proxy's, and `userUri` is where the request
goes. -/
structure HttpProxyClient extends HttpClient where
  userUri : ParsedURI
  isSsl : Bool
  proxyAuth : List Byte
deriving Repr, DecidableEq

/-! ### The request -/

/-- `uri.scheme && strcasecmp(uri.scheme, name) == 0`. -/
def schemeIs (uri : ParsedURI) (name : List Byte) : Bool :=
  uri.scheme.any fun scheme => strcasecmpEq scheme name

/-- The request URI, which both functions put together in the same way. -/
def requestUriOf (uri : ParsedURI) : List Byte :=
  let path := uri.path.getD []
  let query := uri.query.getD []
  let requestUri := if path ≠ [] then path else ascii "/"
  if query ≠ [] then requestUri ++ (ascii "?" ++ query) else requestUri

/-- `is_ssl ? 443 : 80`. -/
def httpPort (isSsl : Bool) : Int :=
  if isSsl then 443 else 80

/-- The same as a text. -/
def httpPortText (isSsl : Bool) : List Byte :=
  if isSsl then ascii "443" else ascii "80"

namespace HttpClient

def fail (state : TaskState) (error : Int) (c : HttpClient) : HttpClient :=
  { c with task := { c.task with state := state, error := error } }

/-- `set_empty_request`. -/
def setEmptyRequest (c : HttpClient) : HttpClient :=
  { c with requestUri := some (ascii "/"), host := some [] }

/-- The part of `init_success` behind the scheme. -/
def setRequest (isSsl : Bool) (c : HttpClient) : HttpClient :=
  let host := c.uri.host.getD []
  let isUnix := host.head? = some 47
  let port := c.uri.port.getD []
  let headerHost :=
    if ¬ isUnix ∧ port ≠ [] ∧ atoi port ≠ httpPort isSsl then host ++ (ascii ":" ++ port) else host
  { c with
    type := if isSsl then .tcpSsl else .tcp
    requestUri := some (requestUriOf c.uri)
    host := some headerHost }

/-- `ComplexHttpTask::init_success`. -/
def initSuccess (c : HttpClient) : Bool × HttpClient :=
  if schemeIs c.uri (ascii "http") then (true, c.setRequest false)
  else if schemeIs c.uri (ascii "https") then (true, c.setRequest true)
  else (false, (c.fail .taskError errUriSchemeInvalid).setEmptyRequest)

end HttpClient

namespace HttpProxyClient

def fail (state : TaskState) (error : Int) (t : HttpProxyClient) : HttpProxyClient :=
  { t with toHttpClient := t.toHttpClient.fail state error }

/-- The information that tells connections apart. There is none where a NULL host would be added to a
string. -/
def proxyInfo (t : HttpProxyClient) : Option (List Byte) := do
  let host ← t.userUri.host
  pure (ascii "http-proxy|remote:" ++ (if t.isSsl then ascii "https://" else ascii "http://") ++ host ++
    ascii ":" ++ t.userUri.port.getD (httpPortText t.isSsl) ++ ascii "|auth:" ++ t.proxyAuth)

/-- The value of `Host`; to a port other than the default one the text of `uri_.port` is added. There
is none where that is NULL. -/
def headerHost (t : HttpProxyClient) (userPort : Int) : Option (List Byte) :=
  let host := t.userUri.host.getD []
  if userPort ≠ httpPort t.isSsl then t.uri.port.map fun port => host ++ (ascii ":" ++ port)
  else some host

/-- The part of `init_success` behind the user's port. -/
def setRequest (userPort : Int) (t : HttpProxyClient) : Option HttpProxyClient := do
  let info ← t.proxyInfo
  let host ← t.headerHost userPort
  pure { t with
    info := info
    requestUri := some (requestUriOf t.userUri)
    host := some host
    type := .tcp }

/-- The part of `init_success` behind the user's scheme. `encodeAuth` is `__encode_auth`, with the
`errno` of a failure. -/
def initUser (encodeAuth : List Byte → Except Int (List Byte)) (t : HttpProxyClient) :
    Option (Bool × HttpProxyClient) :=
  let userPort := t.userUri.port.elim (httpPort t.isSsl) atoi
  if t.userUri.port.isSome ∧ (userPort ≤ 0 ∨ userPort > 65535) then
    some (false, t.fail .taskError errUriPortInvalid)
  else
    let userinfo := t.uri.userinfo.getD []
    if userinfo ≠ [] then
      match encodeAuth userinfo with
      | .ok auth => (setRequest userPort { t with proxyAuth := auth }).map fun t => (true, t)
      | .error error => some (false, { t with proxyAuth := [] }.fail .sysError error)
    else (setRequest userPort t).map fun t => (true, t)

/-- `ComplexHttpProxyTask::init_success`. -/
def initSuccess (encodeAuth : List Byte → Except Int (List Byte)) (t : HttpProxyClient) :
    Option (Bool × HttpProxyClient) :=
  if ¬ schemeIs t.uri (ascii "http") then some (false, t.fail .taskError errUriSchemeInvalid)
  else
    match t.userUri.state with
    | .error => some (false, t.fail .sysError t.uri.error)
    | .success =>
        if schemeIs t.userUri (ascii "http") then { t with isSsl := false }.initUser encodeAuth
        else if schemeIs t.userUri (ascii "https") then { t with isSsl := true }.initUser encodeAuth
        else
          some (false, { t with toHttpClient :=
            (t.toHttpClient.fail .taskError errUriSchemeInvalid).setEmptyRequest })
    | _ => some (false, t.fail .taskError errUriParseFailed)

end HttpProxyClient

/-! ### Initialisation -/

/-- `WFComplexClientTask::init_with_uri` on the members of a task: `init_success` and `init_failed` are
virtual, and both kinds of task have the `init_failed` of `ComplexHttpTask`. -/
def initWithUri {τ : Type} (user : List Byte → Option UInt16) (get : τ → HttpClient)
    (put : τ → HttpClient → τ) (initSuccess : τ → Option (Bool × τ)) (t : τ) : Option τ :=
  let c := get t
  let initFailed := fun t => put t (get t).setEmptyRequest
  match c.uri.state with
  | .success =>
      let (ok, task, uri) := setPort user c.task c.uri
      let t := put t { c with task := task, uri := uri }
      if ok then (initSuccess t).map fun (ok, t) => if ok then t else initFailed t
      else some (initFailed t)
  | .error => some (initFailed (put t (c.fail .sysError c.uri.error)))
  | _ => some (initFailed (put t (c.fail .taskError errUriParseFailed)))

/-- A new `ComplexHttpTask`. -/
def HttpClient.new (redirectMax : Int) (uri : ParsedURI) : HttpClient where
  task := { redirectMax := redirectMax, redirectCount := 0, state := .undefined, error := 0 }
  uri := uri
  type := .tcp
  info := []
  requestUri := none
  host := none

/-- `create_http_task` without a proxy. -/
def HttpClient.create (user : List Byte → Option UInt16) (redirectMax : Int) (uri : ParsedURI) :
    Option HttpClient :=
  initWithUri user id (fun _ c => c) (fun c => some c.initSuccess) (HttpClient.new redirectMax uri)

/-- `create_http_task` with a proxy. -/
def HttpProxyClient.create (user : List Byte → Option UInt16)
    (encodeAuth : List Byte → Except Int (List Byte)) (redirectMax : Int)
    (userUri proxyUri : ParsedURI) : Option HttpProxyClient :=
  initWithUri user toHttpClient (fun t c => { t with toHttpClient := c }) (initSuccess encodeAuth)
    { HttpClient.new redirectMax proxyUri with userUri := userUri, isSsl := false, proxyAuth := [] }

end Workflow.Factory
