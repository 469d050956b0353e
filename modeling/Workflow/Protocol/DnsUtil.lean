/-
Module: Workflow.Protocol.DnsUtil
Layer: Protocol
Purpose: `DnsUtil.cc`: the addresses in a DNS response, found by following the CNAME records from the
  name of the question. The loop over the records takes fuel and `none` means "still running".
  Allocation succeeds, so `EAI_MEMORY` does not occur.
Trusted boundary: human-reviewed model
Main exports: DnsRecordCursor, findCname, chainStep, EaiError, AddrInfo, getaddrinfo
-/
import Workflow.Protocol.DnsMessage

namespace Workflow.Dns

open Workflow.Lib

/-! ### Cursors -/

/-- `dns_record_cursor_t`: the records of the section, and those behind the one it stands at. -/
structure DnsRecordCursor where
  head : List DnsRecord
  next : List DnsRecord

/-- `dns_answer_cursor_init`. -/
def dnsAnswerCursorInit (p : DnsParser) : DnsRecordCursor where
  head := p.answerList
  next := p.answerList

/-- What `(const char *)e->record.rdata` points to in a record with a name. -/
def DnsRdata.cname : DnsRdata → List Byte
  | .name n => n
  | _ => []

/-- The loop in `dns_record_cursor_find_cname`: the alias, and the records behind it. -/
def findCnameLoop (name : List Byte) : List DnsRecord → Option (List Byte) × List DnsRecord
  | [] => (none, [])
  | e :: rest =>
      if e.type = 5 ∧ strcasecmpEq name e.name then (some e.rdata.cname, rest)
      else findCnameLoop name rest

/-- `dns_record_cursor_find_cname`: it begins with the first record. -/
def findCname (name : List Byte) (cursor : DnsRecordCursor) : Option (List Byte) × DnsRecordCursor :=
  let (cname, next) := findCnameLoop name cursor.head
  (cname, { cursor with next := next })

/-! ### `DnsUtil::getaddrinfo` -/

/-- `EAI_NODATA` and so on. -/
inductive EaiError where
  | noname
  | again
  | fail
  | nodata
  deriving DecidableEq

inductive Family where
  | inet
  | inet6
  deriving DecidableEq

/-- `struct addrinfo` with its socket address; the port is in network byte order. -/
structure AddrInfo where
  family : Family
  port : List Byte
  addr : List Byte
  canonname : Option (List Byte)
  deriving DecidableEq

/-- `parser->header.rcode`: the low half of the second byte of flags. -/
def DnsHeader.rcode (h : DnsHeader) : Nat :=
  (h.flags.getD 1 0 &&& 0x0F).toNat

/-- The `switch` over the response code; `none` is 0. -/
def rcodeStatus (rcode : Nat) : Option EaiError :=
  match rcode with
  | 3 => some .noname
  | 2 => some .again
  | 1 => some .fail
  | 4 => some .fail
  | 5 => some .fail
  | _ => none

/-- The variables of the loop over the CNAME records. -/
structure ChainState where
  cname : List Byte
  ancount : Int
  cursor : DnsRecordCursor

/-- `while (cursor.find_cname(cname, &cname) && ancount-- > 0) { }`. -/
def chainStep (s : ChainState) : Step ChainState ChainState :=
  match findCname s.cname s.cursor with
  | (none, cursor) => .done { s with cursor := cursor }
  | (some cname, cursor) =>
      let t : ChainState := { cname := cname, ancount := s.ancount - 1, cursor := cursor }
      if s.ancount > 0 then .next t else .done t

/-- `htons` into memory. -/
def htons (port : UInt16) : List Byte :=
  appendUint16 port.toNat

/-- The first `size` bytes that `record->rdata` points to. -/
def DnsRdata.addressBytes (size : Nat) : DnsRdata → List Byte
  | .address bytes => bytes.take size
  | _ => []

/-- The body of the loop over the records: the entry for one of them. -/
def addressOf (port : UInt16) (cname : List Byte) (record : DnsRecord) : Option AddrInfo :=
  if ¬ (record.rclass = 1 ∧ (record.type = 1 ∨ record.type = 28) ∧ strcasecmpEq record.name cname)
  then none
  else if record.type = 1 then
    some { family := .inet, port := htons port, addr := record.rdata.addressBytes 4, canonname := none }
  else
    some { family := .inet6, port := htons port, addr := record.rdata.addressBytes 16,
           canonname := none }

/-- `while (cursor.next(&record))`, over the records behind the cursor. -/
def collect (port : UInt16) (cname : List Byte) : List DnsRecord → List AddrInfo
  | [] => []
  | record :: rest => (addressOf port cname record).toList ++ collect port cname rest

/-- The statements behind that loop: the first entry gets the name. -/
def named (cname : List Byte) : List AddrInfo → Except EaiError (List AddrInfo)
  | [] => .error .nodata
  | res :: rest => .ok ({ res with canonname := some cname } :: rest)

/-- `DnsUtil::getaddrinfo`. -/
def getaddrinfo (fuel : Nat) (resp : DnsParser) (port : UInt16) :
    Option (Except EaiError (List AddrInfo)) :=
  let status := rcodeStatus resp.header.rcode
  (loop chainStep fuel {
      cname := resp.question.qname.getD []
      ancount := resp.header.ancount
      cursor := dnsAnswerCursorInit resp }).map fun (s : ChainState) =>
    let status := if resp.header.rcode = 0 ∧ s.ancount ≤ 0 then some .nodata else status
    match status with
    | some e => .error e
    | none => named s.cname (collect port s.cname (dnsAnswerCursorInit resp).next)

end Workflow.Dns
