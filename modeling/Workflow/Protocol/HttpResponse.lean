/-
Module: Workflow.Protocol.HttpResponse
Layer: Protocol
Purpose: The receiving side of a response: `HttpMessage::append`, `HttpResponse::append`, which starts
  over behind an interim response, `ComplexHttpTask::message_in`, and the loop of the poller that
  hands a message the bytes of every read until they are used up.
Trusted boundary: human-reviewed spec
Main exports: HttpResponse, HttpResponse.init, messageIn, messageAppend, responseAppend, receive
-/
import Workflow.Protocol.HttpParser

namespace Workflow.Http

open Workflow.Lib

/-- The values that `append` gives `errno`. -/
inductive AppendError where
  | msgSize
  | badMsg
deriving Repr, DecidableEq

/-- The fields of `HttpMessage` that receiving uses, and `errno`. -/
structure HttpResponse where
  parser : HttpParser
  curSize : Nat
  sizeLimit : Nat
  errno : Option AppendError
deriving DecidableEq

/-- `HttpResponse()` with a size limit. `memory` is what the parser's memory held before. -/
def HttpResponse.init (memory : HttpParser) (sizeLimit : Nat) : HttpResponse where
  parser := httpParserInit true memory
  curSize := 0
  sizeLimit := sizeLimit
  errno := none

/-- `HttpResponse::parse_zero_body`. -/
def parseZeroBody (r : HttpResponse) : HttpResponse :=
  { r with parser := { r.parser with transferLength := 0 } }

/-- `ComplexHttpTask::message_in` for a request with this method. -/
def messageIn (method : List Byte) (r : HttpResponse) : HttpResponse :=
  if method = ascii "HEAD" then parseZeroBody r else r

/-- `HttpMessage::append`: the code, the value left in `*size`, and the message. -/
def messageAppend (buf : List Byte) (r : HttpResponse) : Int × Nat × HttpResponse :=
  let (ret, n, parser) := httpParserAppendMessage buf r.parser
  if ret ≥ 0 then
    let curSize := addSize r.curSize n
    if curSize > r.sizeLimit then
      (-1, n, { r with parser := parser, curSize := curSize, errno := some .msgSize })
    else (ret, n, { r with parser := parser, curSize := curSize })
  else if ret = -2 then (-1, n, { r with parser := parser, errno := some .badMsg })
  else (ret, n, { r with parser := parser })

/-- `HttpResponse::append`: a complete response with the code 100 makes the parser start over. -/
def responseAppend (buf : List Byte) (r : HttpResponse) : Int × Nat × HttpResponse :=
  let (ret, n, r) := messageAppend buf r
  if ret > 0 ∧ r.parser.code = some (ascii "100") then
    (0, n, { r with parser := httpParserInit true r.parser })
  else (ret, n, r)

/-- The loop of `__poller_handle_read` over the reads of a connection, up to the first code other than
0: what a call has not used is handed in again. `none` is a call that uses nothing of a read and asks
for more, which the loop would repeat for ever. -/
def receive : List (List Byte) → HttpResponse → Option (Int × HttpResponse)
  | [], r => some (0, r)
  | chunk :: chunks, r =>
      let (ret, n, r) := responseAppend chunk r
      if ret ≠ 0 then some (ret, r)
      else if chunk.length ≤ n then receive chunks r
      else if n = 0 then none
      else receive (chunk.drop n :: chunks) r
termination_by chunks => chunks.flatten.length + chunks.length
decreasing_by
  · simp only [List.flatten_cons, List.length_append, List.length_cons]
    omega
  · simp only [List.flatten_cons, List.length_append, List.length_cons, List.length_drop]
    omega

end Workflow.Http
