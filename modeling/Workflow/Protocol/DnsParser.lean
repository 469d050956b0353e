/-
Module: Workflow.Protocol.DnsParser
Layer: Protocol
Purpose: `dns_parser.c`: the parser of a DNS message. The memory from `msgbuf` on is a function, so
  that a read behind the message sees whatever lies there; positions are offsets from `msgbuf`. The
  loop over a domain name may not end, so every function takes fuel and `none` means "still running".
  Allocation succeeds throughout, so the code -1 does not occur.
Trusted boundary: human-reviewed spec
Main exports: DnsParser, ParseM, hostStep, parseHost, parseRecord, parseQuestion, dnsParserParseAll,
  dnsParserAppendMessage
-/
import Workflow.Lib.CString
import Workflow.Lib.Loop

namespace Workflow.Dns

open Workflow.Lib

def dnsLabelsMax : Nat := 63
def dnsNamesMax : Nat := 256
def dnsMsgbaseInitSize : Nat := 514
def dnsHeaderSize : Nat := 12

/-- The message: the memory at `msgbuf`, and the offset of `msgbase` in it. -/
structure DnsMessage where
  msgbuf : Nat → Byte
  msgbase : Nat
  msgsize : Nat

def DnsMessage.msgend (m : DnsMessage) : Nat :=
  m.msgsize

/-- `__dns_parser_uint16`. -/
def DnsMessage.uint16 (m : DnsMessage) (pos : Nat) : Nat :=
  (m.msgbuf pos).toNat * 2 ^ 8 + (m.msgbuf (pos + 1)).toNat

/-- `__dns_parser_uint32`. -/
def DnsMessage.uint32 (m : DnsMessage) (pos : Nat) : Nat :=
  m.uint16 pos * 2 ^ 16 + m.uint16 (pos + 2)

/-- `len` bytes from `pos` on. -/
def DnsMessage.bytes (m : DnsMessage) (pos len : Nat) : List Byte :=
  (List.range len).map fun i => m.msgbuf (pos + i)

/-- `struct dns_header`; the two bytes of flags are not taken apart. -/
structure DnsHeader where
  id : Nat
  flags : List Byte
  qdcount : Nat
  ancount : Nat
  nscount : Nat
  arcount : Nat

/-- `struct dns_question`; `qname` is `none` for NULL. -/
structure DnsQuestion where
  qname : Option (List Byte)
  qtype : Nat
  qclass : Nat

/-- What `rdata` points to, by the type of the record. -/
inductive DnsRdata where
  | address (bytes : List Byte)
  | name (name : List Byte)
  | soa (mname rname : List Byte) (serial refresh retry expire minimum : Nat)
  | srv (priority weight port : Nat) (target : List Byte)
  | mx (preference : Nat) (exchange : List Byte)
  | others (bytes : List Byte)

structure DnsRecord where
  name : List Byte
  type : Nat
  rclass : Nat
  ttl : Nat
  rdlength : Nat
  rdata : DnsRdata

/-- `dns_parser_t`. -/
structure DnsParser extends DnsMessage where
  cur : Nat
  bufsize : Nat
  complete : Bool
  singlePacket : Bool
  header : DnsHeader
  question : DnsQuestion
  answerList : List DnsRecord
  authorityList : List DnsRecord
  additionalList : List DnsRecord

/-- `dns_parser_init`, followed by `set_single_packet`. The memory at a NULL `msgbuf` is not read. -/
def dnsParserInit (singlePacket : Bool) : DnsParser where
  msgbuf := fun _ => 0
  msgbase := 0
  msgsize := 0
  cur := 0
  bufsize := 0
  complete := false
  singlePacket := singlePacket
  header := { id := 0, flags := [0, 0], qdcount := 0, ancount := 0, nscount := 0, arcount := 0 }
  question := { qname := none, qtype := 0, qclass := 0 }
  answerList := []
  authorityList := []
  additionalList := []

/-- A function of the parser: it may still be running, or fail with a code; the parser keeps what was
written before the failure. -/
abbrev ParseM := ExceptT Int (StateT DnsParser Option)

/-! ### Domain names -/

/-- The variables of the loop over a domain name. `host` holds the first `hcur` bytes of `phost`. -/
structure HostState where
  cur : Nat
  host : List Byte
  curbackup : Option Nat

/-- The body of the loop in `__dns_parser_parse_host`. -/
def hostStep (m : DnsMessage) (s : HostState) : Step HostState (Int × HostState) :=
  if s.cur < m.msgend then
    let len := (m.msgbuf s.cur).toNat
    if m.msgbuf s.cur &&& 0xC0 = 0 then
      let cur := s.cur + 1
      if len = 0 then .done (0, { s with cur := cur })
      else if len > dnsLabelsMax ∨ cur + len > m.msgend ∨ s.host.length + len + 1 > dnsNamesMax then
        .done (-2, { s with cur := cur })
      else .next { s with cur := cur + len, host := s.host ++ m.bytes cur len ++ ascii "." }
    else if m.msgbuf s.cur &&& 0xC0 = 0xC0 then
      let pointer := m.uint16 s.cur % 2 ^ 14
      let cur := s.cur + 2
      if pointer ≥ m.msgsize then .done (-2, { s with cur := cur })
      else .next { s with
        cur := m.msgbase + pointer
        -- only the first pointer is backed up
        curbackup := some (s.curbackup.getD cur) }
    else .done (-2, s)
  else .done (0, s)

/-- The C string that is left in `phost`: without the dot at the end, up to the first NUL. -/
def hostName (host : List Byte) : List Byte :=
  let trimmed := if host.length > 1 ∧ host.getLast? = some 46 then host.dropLast else host
  (if trimmed = [] then ascii "." else trimmed).takeWhile (· ≠ 0)

/-- The variables of the loop when it begins at the position `pos`. -/
def hostStart (pos : Nat) : HostState :=
  { cur := pos, host := [], curbackup := none }

/-- `__dns_parser_parse_host`. -/
def parseHost (fuel : Nat) : ParseM (List Byte) :=
  ExceptT.mk fun p =>
    if p.cur ≥ p.msgend then some (.error (-2), p)
    else
      (loop (hostStep p.toDnsMessage) fuel (hostStart p.cur)).map fun (ret, s) =>
        if ret < 0 then (.error ret, { p with cur := s.cur })
        else (.ok (hostName s.host), { p with cur := s.curbackup.getD s.cur })

/-! ### Records -/

/-- `*cur += n`. -/
def advance (n : Nat) : ParseM Unit :=
  modify fun p => { p with cur := p.cur + n }

/-- The bodies of `__dns_parser_parse_a` and `__dns_parser_parse_aaaa`: an address of `size` bytes. -/
def parseAddress (size rdlength : Nat) : ParseM DnsRdata := do
  if size ≠ rdlength then throw (-2)
  let p ← get
  advance rdlength
  return .address (p.bytes p.cur rdlength)

/-- `__dns_parser_parse_a`. -/
def parseA (rdlength : Nat) : ParseM DnsRdata :=
  parseAddress 4 rdlength

/-- `__dns_parser_parse_aaaa`. -/
def parseAaaa (rdlength : Nat) : ParseM DnsRdata :=
  parseAddress 16 rdlength

/-- `__dns_parser_parse_names`. -/
def parseNames (fuel rdlength : Nat) : ParseM DnsRdata := do
  let rcdend := (← get).cur + rdlength
  let name ← parseHost fuel
  if (← get).cur ≠ rcdend then throw (-2)
  return .name name

/-- `__dns_parser_parse_soa`. -/
def parseSoa (fuel rdlength : Nat) : ParseM DnsRdata := do
  let rcdend := (← get).cur + rdlength
  let mname ← parseHost fuel
  let rname ← parseHost fuel
  let p ← get
  if p.cur + 20 ≠ rcdend then throw (-2)
  advance 20
  return .soa mname rname (p.uint32 p.cur) (p.uint32 (p.cur + 4)) (p.uint32 (p.cur + 8))
    (p.uint32 (p.cur + 12)) (p.uint32 (p.cur + 16))

/-- `__dns_parser_parse_srv`. -/
def parseSrv (fuel rdlength : Nat) : ParseM DnsRdata := do
  let p ← get
  let rcdend := p.cur + rdlength
  if p.cur + 6 > rcdend then throw (-2)
  advance 6
  let target ← parseHost fuel
  if (← get).cur ≠ rcdend then throw (-2)
  return .srv (p.uint16 p.cur) (p.uint16 (p.cur + 2)) (p.uint16 (p.cur + 4)) target

/-- `__dns_parser_parse_mx`. -/
def parseMx (fuel rdlength : Nat) : ParseM DnsRdata := do
  let p ← get
  let rcdend := p.cur + rdlength
  if p.cur + 2 > rcdend then throw (-2)
  advance 2
  let exchange ← parseHost fuel
  if (← get).cur ≠ rcdend then throw (-2)
  return .mx (p.uint16 p.cur) exchange

/-- `__dns_parser_parse_others`. -/
def parseOthers (rdlength : Nat) : ParseM DnsRdata := do
  let p ← get
  advance rdlength
  return .others (p.bytes p.cur rdlength)

/-- The switch over the type of a record. -/
def parseRdata (fuel type rdlength : Nat) : ParseM DnsRdata :=
  match type with
  | 1 => parseA rdlength
  | 28 => parseAaaa rdlength
  | 2 => parseNames fuel rdlength
  | 5 => parseNames fuel rdlength
  | 12 => parseNames fuel rdlength
  | 6 => parseSoa fuel rdlength
  | 33 => parseSrv fuel rdlength
  | 15 => parseMx fuel rdlength
  | _ => parseOthers rdlength

/-- The three sections of records, the `idx` of `__dns_parser_parse_record`. -/
inductive Section where
  | answer
  | authority
  | additional

def Section.count (idx : Section) (h : DnsHeader) : Nat :=
  match idx with
  | .answer => h.ancount
  | .authority => h.nscount
  | .additional => h.arcount

/-- `list_add_tail` to the list of the section. -/
def Section.addTail (idx : Section) (r : DnsRecord) (p : DnsParser) : DnsParser :=
  match idx with
  | .answer => { p with answerList := p.answerList ++ [r] }
  | .authority => { p with authorityList := p.authorityList ++ [r] }
  | .additional => { p with additionalList := p.additionalList ++ [r] }

/-- The body of the loop in `__dns_parser_parse_record`. -/
def parseOneRecord (fuel : Nat) (idx : Section) : ParseM Unit := do
  let host ← parseHost fuel
  let p ← get
  if p.cur + 10 > p.msgend then throw (-2)
  let type := p.uint16 p.cur
  let rdlength := p.uint16 (p.cur + 8)
  advance 10
  if p.cur + 10 + rdlength > p.msgend then throw (-2)
  let rdata ← parseRdata fuel type rdlength
  modify (idx.addTail {
    name := host
    type := type
    rclass := p.uint16 (p.cur + 2)
    ttl := p.uint32 (p.cur + 4)
    rdlength := rdlength
    rdata := rdata })

/-- `for (i = 0; i < count; i++)`. -/
def parseRecords (fuel : Nat) (idx : Section) : Nat → ParseM Unit
  | 0 => return ()
  | count + 1 => do
      parseOneRecord fuel idx
      parseRecords fuel idx count

/-- `__dns_parser_parse_record`. -/
def parseRecord (fuel : Nat) (idx : Section) : ParseM Unit := do
  parseRecords fuel idx (idx.count (← get).header)

/-- `__dns_parser_parse_question`. -/
def parseQuestion (fuel : Nat) : ParseM Unit := do
  if (← get).header.qdcount ≠ 1 then throw (-2)
  let host ← parseHost fuel
  let p ← get
  if p.cur + 4 > p.msgend then throw (-2)
  advance 4
  modify fun p' => { p' with
    question := { qname := some host, qtype := p.uint16 p.cur, qclass := p.uint16 (p.cur + 2) } }

/-! ### The message -/

/-- The header in network byte order at `msgbase`. -/
def DnsMessage.readHeader (m : DnsMessage) : DnsHeader where
  id := m.uint16 m.msgbase
  flags := m.bytes (m.msgbase + 2) 2
  qdcount := m.uint16 (m.msgbase + 4)
  ancount := m.uint16 (m.msgbase + 6)
  nscount := m.uint16 (m.msgbase + 8)
  arcount := m.uint16 (m.msgbase + 10)

/-- The statements of `dns_parser_parse_all` up to its first `return`. -/
def parseAllM (fuel : Nat) : ParseM Unit := do
  modify fun p => { p with complete := true, cur := p.msgbase }
  let p ← get
  if p.msgsize < dnsHeaderSize then throw (-2)
  modify fun p => { p with header := p.readHeader, cur := p.cur + dnsHeaderSize }
  parseQuestion fuel
  parseRecord fuel .answer
  parseRecord fuel .authority
  parseRecord fuel .additional

/-- `dns_parser_parse_all`: the code and the parser. -/
def dnsParserParseAll (fuel : Nat) (p : DnsParser) : Option (Int × DnsParser) :=
  ((parseAllM fuel).run.run p).map fun
    | (.ok (), q) => (0, q)
    | (.error ret, q) => (ret, q)

/-- Memory after `memcpy(mem + pos, buf, n)`. -/
def memcpy (mem : Nat → Byte) (pos : Nat) (buf : List Byte) : Nat → Byte :=
  fun i => if pos ≤ i then (buf[i - pos]?).getD (mem i) else mem i

/-- Store the bytes received behind those already there. `fresh` is what newly allocated memory
holds. -/
def copyIn (fresh : Nat → Byte) (buf : List Byte) (p : DnsParser) : DnsParser :=
  let need := p.msgsize + buf.length
  let q := if need > p.bufsize then
      { p with
        msgbuf := fun i => if i < p.bufsize then p.msgbuf i else fresh i
        bufsize := growBuf need (max dnsMsgbaseInitSize (2 * p.bufsize)) }
    else p
  { q with msgbuf := memcpy q.msgbuf p.msgsize buf, msgsize := need }

/-- The part of `dns_parser_append_message` in front of `dns_parser_parse_all`: it returns at once
(`error`), or it hands on the value left in `*n` and the parser with the message. -/
def receive (fresh : Nat → Byte) (buf : List Byte) (p : DnsParser) :
    Except (Int × Nat × DnsParser) (Nat × DnsParser) :=
  if p.complete then .error (1, 0, p)
  else if !p.singlePacket then
    let q := copyIn fresh buf p
    if q.msgsize < 2 then .error (0, buf.length, q)
    else
      let total := q.uint16 0
      if q.msgsize < total + 2 then .error (0, buf.length, q)
      else .ok (subSize (total + 2) p.msgsize, { q with msgsize := total + 2, msgbase := 2 })
  else
    .ok (buf.length, { p with
      msgbuf := memcpy fresh 0 buf
      msgbase := 0
      msgsize := buf.length
      bufsize := buf.length })

/-- `dns_parser_append_message`: the code, the value left in `*n`, and the parser. -/
def dnsParserAppendMessage (fuel : Nat) (fresh : Nat → Byte) (buf : List Byte) (p : DnsParser) :
    Option (Int × Nat × DnsParser) :=
  match receive fresh buf p with
  | .error r => some r
  | .ok (n, q) =>
      (dnsParserParseAll fuel q).map fun (ret, r) => (if ret < 0 then ret else 1, n, r)

end Workflow.Dns
