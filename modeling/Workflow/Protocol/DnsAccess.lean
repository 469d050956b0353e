/-
Module: Workflow.Protocol.DnsAccess
Layer: Protocol
Purpose: `dns_parser.c` again, with a log of the memory that the functions over a name, a question
  and a record touch. Each function is the one of `Workflow.Protocol.DnsParser` with notes between
  its statements. The copy of the header in `dns_parser_parse_all` is not written down.
Trusted boundary: human-reviewed spec
Main exports: Access, TraceM, passAccesses, tracedHost, tracedRecord, tracedQuestion, tracedParseAll,
  tracedAppendMessage
-/
import Workflow.Protocol.DnsParser

namespace Workflow.Dns

open Workflow.Lib

/-- One entry of the log. -/
inductive Access where
  /-- The byte at this offset from `msgbuf` is read. -/
  | read (pos : Nat)
  /-- The byte of `phost` at this index is read or written. -/
  | buffer (index : Nat)
  /-- `while (*cur < msgend)` is tested at this offset. -/
  | test (pos : Nat)
  /-- The name that begins at this offset is accepted. -/
  | accepted (start : Nat)
  deriving DecidableEq

/-- `len` bytes of the message from `pos` on. -/
def reads (pos len : Nat) : List Access :=
  (List.range len).map fun i => .read (pos + i)

/-- `len` bytes of `phost` from `index` on. -/
def buffers (index len : Nat) : List Access :=
  (List.range len).map fun i => .buffer (index + i)

/-- A function of the parser that keeps the log. -/
abbrev TraceM := ExceptT Int (StateT (DnsParser × List Access) Option)

/-- Statements that touch neither the message nor the buffer of a name. -/
def quiet {α : Type} (f : ParseM α) : TraceM α :=
  ExceptT.mk fun (p, log) => (f.run.run p).map fun (r, q) => (r, (q, log))

def note (accesses : List Access) : TraceM Unit :=
  modify fun (p, log) => (p, log ++ accesses)

/-! ### Domain names -/

/-- What the body of the loop touches behind its test. -/
def bodyAccesses (m : DnsMessage) (s : HostState) : List Access :=
  let len := (m.msgbuf s.cur).toNat
  .read s.cur ::
    if m.msgbuf s.cur &&& 0xC0 = 0 then
      let cur := s.cur + 1
      if len = 0 then []
      else if len > dnsLabelsMax ∨ cur + len > m.msgend ∨ s.host.length + len + 1 > dnsNamesMax then
        []
      -- the label is copied, and a dot is put behind it
      else reads cur len ++ buffers s.host.length (len + 1)
    else if m.msgbuf s.cur &&& 0xC0 = 0xC0 then reads s.cur 2
    else []

/-- A pass through the loop in `__dns_parser_parse_host`. -/
def passAccesses (m : DnsMessage) (s : HostState) : List Access :=
  .test s.cur :: if s.cur < m.msgend then bodyAccesses m s else []

/-- The statements behind the loop: the dot at the end is dropped, the terminator is written. -/
def endAccesses (host : List Byte) : List Access :=
  let hcur := host.length
  let last := if hcur > 1 then [.buffer (hcur - 1)] else []
  let hcur := if hcur > 1 ∧ host.getLast? = some 46 then hcur - 1 else hcur
  last ++ if hcur = 0 then [.buffer 0, .buffer 1] else [.buffer hcur]

/-- `__dns_parser_parse_host`. -/
def tracedHost (fuel : Nat) : TraceM (List Byte) :=
  ExceptT.mk fun (p, log) =>
    if p.cur ≥ p.msgend then some (.error (-2), (p, log))
    else
      (loop (logged (hostStep p.toDnsMessage) (passAccesses p.toDnsMessage)) fuel
          (hostStart p.cur, log)).map fun ((ret, s), log) =>
        if ret < 0 then (.error ret, ({ p with cur := s.cur }, log))
        else
          (.ok (hostName s.host), ({ p with cur := s.curbackup.getD s.cur },
            log ++ (endAccesses s.host ++ [.accepted p.cur])))

/-! ### Records -/

/-- `__dns_parser_parse_a` and `__dns_parser_parse_aaaa`. -/
def tracedAddress (size rdlength : Nat) : TraceM DnsRdata := do
  if size ≠ rdlength then throw (-2)
  let p ← quiet get
  note (reads p.cur rdlength)
  quiet (advance rdlength)
  return .address (p.bytes p.cur rdlength)

/-- `__dns_parser_parse_names`. -/
def tracedNames (fuel rdlength : Nat) : TraceM DnsRdata := do
  let p ← quiet get
  let name ← tracedHost fuel
  let q ← quiet get
  if q.cur ≠ p.cur + rdlength then throw (-2)
  return .name name

/-- `__dns_parser_parse_soa`. -/
def tracedSoa (fuel rdlength : Nat) : TraceM DnsRdata := do
  let start ← quiet get
  let mname ← tracedHost fuel
  let rname ← tracedHost fuel
  let p ← quiet get
  if p.cur + 20 ≠ start.cur + rdlength then throw (-2)
  note (reads p.cur 20)
  quiet (advance 20)
  return .soa mname rname (p.uint32 p.cur) (p.uint32 (p.cur + 4)) (p.uint32 (p.cur + 8))
    (p.uint32 (p.cur + 12)) (p.uint32 (p.cur + 16))

/-- `__dns_parser_parse_srv`. -/
def tracedSrv (fuel rdlength : Nat) : TraceM DnsRdata := do
  let p ← quiet get
  if p.cur + 6 > p.cur + rdlength then throw (-2)
  note (reads p.cur 6)
  quiet (advance 6)
  let target ← tracedHost fuel
  let q ← quiet get
  if q.cur ≠ p.cur + rdlength then throw (-2)
  return .srv (p.uint16 p.cur) (p.uint16 (p.cur + 2)) (p.uint16 (p.cur + 4)) target

/-- `__dns_parser_parse_mx`. -/
def tracedMx (fuel rdlength : Nat) : TraceM DnsRdata := do
  let p ← quiet get
  if p.cur + 2 > p.cur + rdlength then throw (-2)
  note (reads p.cur 2)
  quiet (advance 2)
  let exchange ← tracedHost fuel
  let q ← quiet get
  if q.cur ≠ p.cur + rdlength then throw (-2)
  return .mx (p.uint16 p.cur) exchange

/-- `__dns_parser_parse_others`. -/
def tracedOthers (rdlength : Nat) : TraceM DnsRdata := do
  let p ← quiet get
  note (reads p.cur rdlength)
  quiet (advance rdlength)
  return .others (p.bytes p.cur rdlength)

/-- The switch over the type of a record. -/
def tracedRdata (fuel type rdlength : Nat) : TraceM DnsRdata :=
  match type with
  | 1 => tracedAddress 4 rdlength
  | 28 => tracedAddress 16 rdlength
  | 2 => tracedNames fuel rdlength
  | 5 => tracedNames fuel rdlength
  | 12 => tracedNames fuel rdlength
  | 6 => tracedSoa fuel rdlength
  | 33 => tracedSrv fuel rdlength
  | 15 => tracedMx fuel rdlength
  | _ => tracedOthers rdlength

/-- The body of the loop in `__dns_parser_parse_record`. -/
def tracedOneRecord (fuel : Nat) (idx : Section) : TraceM Unit := do
  let host ← tracedHost fuel
  let p ← quiet get
  if p.cur + 10 > p.msgend then throw (-2)
  note (reads p.cur 10)
  let type := p.uint16 p.cur
  let rdlength := p.uint16 (p.cur + 8)
  quiet (advance 10)
  if p.cur + 10 + rdlength > p.msgend then throw (-2)
  let rdata ← tracedRdata fuel type rdlength
  quiet (modify (idx.addTail {
    name := host
    type := type
    rclass := p.uint16 (p.cur + 2)
    ttl := p.uint32 (p.cur + 4)
    rdlength := rdlength
    rdata := rdata }))

/-- `for (i = 0; i < count; i++)`. -/
def tracedRecords (fuel : Nat) (idx : Section) : Nat → TraceM Unit
  | 0 => return ()
  | count + 1 => do
      tracedOneRecord fuel idx
      tracedRecords fuel idx count

/-- `__dns_parser_parse_record`. -/
def tracedRecord (fuel : Nat) (idx : Section) : TraceM Unit := do
  let p ← quiet get
  tracedRecords fuel idx (idx.count p.header)

/-- `__dns_parser_parse_question`. -/
def tracedQuestion (fuel : Nat) : TraceM Unit := do
  let start ← quiet get
  if start.header.qdcount ≠ 1 then throw (-2)
  let host ← tracedHost fuel
  let p ← quiet get
  if p.cur + 4 > p.msgend then throw (-2)
  note (reads p.cur 4)
  quiet (advance 4)
  quiet (modify fun p' => { p' with
    question := { qname := some host, qtype := p.uint16 p.cur, qclass := p.uint16 (p.cur + 2) } })

/-! ### The message -/

/-- The statements of `dns_parser_parse_all` up to its first `return`. -/
def tracedAllM (fuel : Nat) : TraceM Unit := do
  quiet (modify fun p => { p with complete := true, cur := p.msgbase })
  let p ← quiet get
  if p.msgsize < dnsHeaderSize then throw (-2)
  quiet (modify fun p => { p with header := p.readHeader, cur := p.cur + dnsHeaderSize })
  tracedQuestion fuel
  tracedRecord fuel .answer
  tracedRecord fuel .authority
  tracedRecord fuel .additional

/-- `dns_parser_parse_all`: the code, the parser and the log. -/
def tracedParseAll (fuel : Nat) (p : DnsParser) : Option (Int × DnsParser × List Access) :=
  ((tracedAllM fuel).run.run (p, [])).map fun
    | (.ok (), q, log) => (0, q, log)
    | (.error ret, q, log) => (ret, q, log)

/-- `dns_parser_append_message`: the code, the value left in `*n`, the parser and the log. -/
def tracedAppendMessage (fuel : Nat) (fresh : Nat → Byte) (buf : List Byte) (p : DnsParser) :
    Option (Int × Nat × DnsParser × List Access) :=
  match receive fresh buf p with
  | .error (ret, n, q) => some (ret, n, q, [])
  | .ok (n, q) =>
      (tracedParseAll fuel q).map fun (ret, r, log) => (if ret < 0 then ret else 1, n, r, log)

end Workflow.Dns
