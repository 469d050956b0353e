/-
Module: Workflow.Protocol.DnsMessage
Layer: Protocol
Purpose: `DnsMessage.cc`: a question is encoded by hand into the bytes of a message, with a length in
  front when it goes over a stream, and a response is put together from what is received, with the
  check that it answers the request.
Trusted boundary: human-reviewed model
Main exports: setQuestionName, encodeLabels, encodeReply, encode, DnsResponse, udpResponse,
  messageAppend, responseAppend, appendAll, receiveAll
-/
import Workflow.Protocol.DnsParser

namespace Workflow.Dns

open Workflow.Lib

/-! ### Encoding -/

/-- `dns_parser_set_question_name`: the name without the dot at the end, except for ".". -/
def setQuestionName (name : List Byte) (p : DnsParser) : DnsParser :=
  let newname := if name.length > 1 ∧ name.getLast? = some 46 then name.dropLast else name
  { p with question := { p.question with qname := some newname } }

/-- `dns_parser_set_question`. -/
def setQuestion (name : List Byte) (qtype qclass : Nat) (p : DnsParser) : DnsParser :=
  let q := setQuestionName name p
  { q with
    question := { q.question with qtype := qtype, qclass := qclass }
    header := { q.header with qdcount := 1 } }

/-- `__append_uint16`. -/
def appendUint16 (n : Nat) : List Byte :=
  [UInt8.ofNat (n / 2 ^ 8), UInt8.ofNat n]

/-- The loop over the labels of a name: `p` is what is left of the string, and `none` is `EINVAL`. -/
def encodeLabels (p : List Byte) : Option (List Byte) :=
  if p = [] then some []
  else
    let name := p.takeWhile (· ≠ 46)
    let rest := p.dropWhile (· ≠ 46)
    -- an empty label is accepted only at the end of the string
    if name.length > dnsLabelsMax ∨ (name.length = 0 ∧ rest.length > 1) then none
    else
      (encodeLabels rest.tail).map fun more =>
        (if name.length > 0 then UInt8.ofNat name.length :: name else []) ++ more
termination_by p.length
decreasing_by
  have hpos : 0 < p.length := List.length_pos_of_ne_nil ‹_›
  have hle : (p.dropWhile (· ≠ 46)).length ≤ p.length := (List.dropWhile_sublist _).length_le
  rw [List.length_tail]
  omega

/-- `struct dns_header` in network byte order, as `encode_reply` fills it in. -/
def headerBytes (h : DnsHeader) : List Byte :=
  appendUint16 h.id ++ h.flags ++ appendUint16 1 ++ appendUint16 0 ++ appendUint16 0 ++
    appendUint16 0

/-- `DnsMessage::encode_reply`: the bytes of `msgbuf`. -/
def encodeReply (p : DnsParser) : Option (List Byte) :=
  (encodeLabels (p.question.qname.getD (ascii "."))).bind fun labels =>
    let msgbuf := headerBytes p.header ++ labels ++ [0] ++ appendUint16 p.question.qtype ++
      appendUint16 p.question.qclass
    if msgbuf.length ≥ 1 <<< 16 then none else some msgbuf

/-- `DnsMessage::encode`: the vectors. -/
def encode (p : DnsParser) : Option (List (List Byte)) :=
  (encodeReply p).map fun msgbuf =>
    if p.singlePacket then [msgbuf] else [appendUint16 msgbuf.length, msgbuf]

/-! ### Receiving -/

/-- `DnsResponse`, with the limit of its base class. -/
structure DnsResponse where
  parser : DnsParser
  curSize : Nat
  sizeLimit : Nat
  requestId : Nat
  requestName : List Byte

/-- The response of a task over UDP when its request is sent, as `ComplexDnsTask::message_out` sets it
up. -/
def udpResponse (requestId : Nat) (requestName : List Byte) (sizeLimit : Nat) : DnsResponse where
  parser := dnsParserInit true
  curSize := 0
  sizeLimit := sizeLimit
  requestId := requestId
  requestName := requestName

/-- `DnsMessage::append`: the code, `*size` and the message. -/
def messageAppend (fuel : Nat) (fresh : Nat → Byte) (buf : List Byte) (r : DnsResponse) :
    Option (Int × Nat × DnsResponse) :=
  (dnsParserAppendMessage fuel fresh buf r.parser).map fun (ret, size, parser) =>
    if ret ≥ 0 then
      let curSize := addSize r.curSize size
      (if curSize > r.sizeLimit then -1 else ret, size,
        { r with parser := parser, curSize := curSize })
    else (if ret = -2 then -1 else ret, size, { r with parser := parser })

/-- The response answers the request: its id, and its name up to case. -/
def DnsResponse.answers (r : DnsResponse) : Bool :=
  r.requestId == r.parser.header.id &&
    strcasecmpEq (r.requestName.takeWhile (· ≠ 0)) (r.parser.question.qname.getD [])

/-- `DnsResponse::append`. -/
def responseAppend (fuel : Nat) (fresh : Nat → Byte) (buf : List Byte) (r : DnsResponse) :
    Option (Int × Nat × DnsResponse) :=
  (messageAppend fuel fresh buf r).map fun (ret, size, r) =>
    if ret ≥ 1 ∧ r.answers = false then
      if !r.parser.singlePacket then (-1, size, r)
      else (0, size, { r with parser := dnsParserInit false })
    else (ret, size, r)

/-- Successive calls of `dns_parser_append_message`, up to the first code that is not 0. `fresh` is
what newly allocated memory holds, by the number of chunks still to come. -/
def appendAll (fuel : Nat) (fresh : Nat → Nat → Byte) :
    List (List Byte) → DnsParser → Option (List Int × DnsParser)
  | [], p => some ([], p)
  | chunk :: chunks, p =>
      (dnsParserAppendMessage fuel (fresh chunks.length) chunk p).bind fun (ret, _, q) =>
        if ret = 0 then (appendAll fuel fresh chunks q).map fun (codes, q) => (0 :: codes, q)
        else some ([ret], q)

/-- Successive calls of `DnsResponse::append`, up to the first code that is not 0: the last code and
the response. -/
def receiveAll (fuel : Nat) (fresh : Nat → Nat → Byte) :
    List (List Byte) → DnsResponse → Option (Int × DnsResponse)
  | [], r => some (0, r)
  | chunk :: chunks, r =>
      (responseAppend fuel (fresh chunks.length) chunk r).bind fun (ret, _, q) =>
        if ret = 0 then receiveAll fuel fresh chunks q else some (ret, q)

end Workflow.Dns
