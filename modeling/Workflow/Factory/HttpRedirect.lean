/-
Module: Workflow.Factory.HttpRedirect
Layer: Factory
Purpose: `ComplexHttpTask::redirect_url` of `HttpTaskImpl.cc`, and what comes before it:
  `WFComplexClientTask::set_port` of `WFTaskFactory.inl` with the ports of `WFGlobal.cc`. `strdup`
  finds memory throughout.
Trusted boundary: human-reviewed spec
Main exports: HttpTask, getDefaultPort, setPort, redirectText, redirectUrl
-/
import Workflow.Factory.ComplexClientTask
import Workflow.Protocol.HttpHeaderStore
import Workflow.Util.URIParser

namespace Workflow.Factory

open Workflow.Lib
open Workflow.Http
open Workflow.Uri

/-- The fields of a `ComplexHttpTask` that `set_port` and `redirect_url` use. -/
structure HttpTask where
  redirectMax : Int
  redirectCount : Int
  state : TaskState
  error : Int
deriving Repr, DecidableEq

/-! ### The port -/

/-- `static_scheme_port_`. -/
def staticSchemePort : List (List Byte × List Byte) :=
  [(ascii "dns", ascii "53"), (ascii "Dns", ascii "53"), (ascii "DNS", ascii "53"),
    (ascii "dnss", ascii "853"), (ascii "Dnss", ascii "853"), (ascii "DNSs", ascii "853"),
    (ascii "DNSS", ascii "853"),
    (ascii "http", ascii "80"), (ascii "Http", ascii "80"), (ascii "HTTP", ascii "80"),
    (ascii "https", ascii "443"), (ascii "Https", ascii "443"), (ascii "HTTPs", ascii "443"),
    (ascii "HTTPS", ascii "443"),
    (ascii "redis", ascii "6379"), (ascii "Redis", ascii "6379"), (ascii "REDIS", ascii "6379"),
    (ascii "rediss", ascii "6379"), (ascii "Rediss", ascii "6379"), (ascii "REDISs", ascii "6379"),
    (ascii "REDISS", ascii "6379"),
    (ascii "mysql", ascii "3306"), (ascii "Mysql", ascii "3306"), (ascii "MySql", ascii "3306"),
    (ascii "MySQL", ascii "3306"), (ascii "MYSQL", ascii "3306"),
    (ascii "mysqls", ascii "3306"), (ascii "Mysqls", ascii "3306"), (ascii "MySqls", ascii "3306"),
    (ascii "MySQLs", ascii "3306"), (ascii "MYSQLs", ascii "3306"), (ascii "MYSQLS", ascii "3306"),
    (ascii "kafka", ascii "9092"), (ascii "Kafka", ascii "9092"), (ascii "KAFKA", ascii "9092")]

/-- `__WFGlobal::get_default_port`. `user` is what `register_scheme_port` was called with last for a
scheme. -/
def getDefaultPort (user : List Byte → Option UInt16) (scheme : List Byte) : Option (List Byte) :=
  match staticSchemePort.lookup scheme with
  | some port => some port
  | none => (user scheme).map fun port => toDecimal port.toNat

/-- `WFT_ERR_URI_SCHEME_INVALID`. -/
def errUriSchemeInvalid : Int := 1002

/-- `WFT_ERR_URI_PORT_INVALID`. -/
def errUriPortInvalid : Int := 1003

/-- `WFT_ERR_HTTP_BAD_REDIRECT_HEADER`. -/
def errHttpBadRedirectHeader : Int := 2001

/-- `WFComplexClientTask::set_port`. -/
def setPort (user : List Byte → Option UInt16) (t : HttpTask) (uri : ParsedURI) :
    Bool × HttpTask × ParsedURI :=
  match uri.port with
  | some text =>
      let port := atoi text
      if port ≤ 0 ∨ port > 65535 then
        (false, { t with state := .taskError, error := errUriPortInvalid }, uri)
      else (true, t, uri)
  | none =>
      match uri.scheme.bind (getDefaultPort user) with
      | some port => (true, t, { uri with port := some port })
      | none => (false, { t with state := .taskError, error := errUriSchemeInvalid }, uri)

/-! ### The redirect -/

/-- The text that `redirect_url` parses, for a value of `Location` that is not empty. There is none
where a NULL host or scheme would be added to a string. -/
def redirectText (uri : ParsedURI) (url : List Byte) : Option (List Byte) :=
  if charAt url 0 == 47 then do
    let url ←
      if charAt url 1 != 47 then do
        let url := match uri.port with
          | some port => 58 :: (port ++ url)
          | none => url
        let host ← uri.host
        pure (ascii "//" ++ (host ++ url))
      else pure url
    let scheme ← uri.scheme
    pure (scheme ++ 58 :: url)
  else pure url

/-- `ComplexHttpTask::redirect_url` on the header of the response. -/
def redirectUrl (t : HttpTask) (lines : List BufferedLine) (uri : ParsedURI) :
    Option (Bool × HttpTask × ParsedURI) :=
  if t.redirectCount < t.redirectMax then do
    let t := { t with redirectCount := t.redirectCount + 1 }
    let (_, location) ← cursorFind (ascii "Location") lines 0
    let url := location.getD []
    if url = [] then
      pure (false, { t with state := .taskError, error := errHttpBadRedirectHeader }, uri)
    else do
      let url ← redirectText uri url
      pure (true, t, (parse url uri).2)
  else pure (false, t, uri)

end Workflow.Factory
