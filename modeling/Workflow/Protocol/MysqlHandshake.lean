/-
Module: Workflow.Protocol.MysqlHandshake
Layer: Protocol
Purpose: `MySQLHandshakeResponse` (MySQLMessage.cc): the greeting of a MySQL server as it is written
  and as it is read, on a little-endian machine. Reading keeps a record of the addresses; of the
  parser, the two functions that an error packet goes through are read in the same way.
Trusted boundary: human-reviewed model
Main exports: HandshakeResponse, encodePayload, parseErrorPacketReading, mysqlParserParseReading,
  skipText, decodeFields, decodePacket
-/
import Workflow.Lib.Reading
import Workflow.Protocol.MysqlParser

namespace Workflow.Mysql

open Workflow.Lib Reading

/-- The members of `MySQLHandshakeResponse` that encoding and decoding use, with the parser. -/
structure HandshakeResponse where
  protocolVersion : UInt8
  serverVersion : List Byte
  connectionId : UInt32
  authPluginDataPart1 : Vector Byte 8
  capabilityFlags : UInt32
  characterSet : UInt8
  statusFlags : UInt16
  authPluginDataPart2 : Vector Byte 12
  disallowed : Bool
  parser : MysqlParser

/-! ### Encoding -/

/-- `buf_.append((const char *)&n, 2)`. -/
def bytes16 (n : UInt16) : List Byte :=
  [n.toUInt8, (n >>> 8).toUInt8]

/-- `buf_.append((const char *)&n, 4)`. -/
def bytes32 (n : UInt32) : List Byte :=
  [n.toUInt8, (n >>> 8).toUInt8, (n >>> 16).toUInt8, (n >>> 24).toUInt8]

/-- What `encode` puts into `buf_`. -/
def HandshakeResponse.encodePayload (r : HandshakeResponse) : List Byte :=
  let capFlagsLower := r.capabilityFlags.toUInt16
  let capFlagsUpper := (r.capabilityFlags >>> 16).toUInt16
  [r.protocolVersion] ++ ((r.serverVersion ++ [0]) ++ (bytes32 r.connectionId ++
    (r.authPluginDataPart1.toList ++ ([0] ++ (bytes16 capFlagsLower ++ ([r.characterSet] ++
      (bytes16 r.statusFlags ++ (bytes16 capFlagsUpper ++ (List.replicate 11 0 ++
        r.authPluginDataPart2.toList)))))))))

/-! ### The error packet -/

/-- `parse_base_packet`. -/
def parseBasePacketReading (b : Reply) (p : MysqlParser) : Reading (Int × MysqlParser) := do
  let header ← load b.mem (p.pos b)
  pure (0, { p with parse :=
    if header = 0 then .okPacket
    else if header = 255 then .errorPacket
    else if header = 254 then .eofPacket
    else if header = 251 then .localInline
    else .fieldCount })

/-- `uint2korr`. -/
def uint2korr (b : Reply) (p : Nat) : Reading UInt16 := do
  let low ← load b.mem p
  let high ← load b.mem (p + 1)
  pure (low.toUInt16 + high.toUInt16 <<< 8)

/-- `parse_error_packet`. -/
def parseErrorPacketReading (b : Reply) (p : MysqlParser) : Reading (Int × MysqlParser) :=
  let pos := p.pos b
  if addSize pos 9 > b.bufEnd then pure (-2, p)
  else do
    let error ← uint2korr b (pos + 1)
    let mark ← load b.mem (pos + 3)
    let q := { p with error := error.toNat, offset := b.len, packetType := .error }
    if mark = 35 then
      pure (1, { q with
        netStateOffset := b.offsetOf (pos + 4)
        errMsgOffset := b.offsetOf (pos + 4 + stateLength)
        errMsgLen := toInt (subSize b.len (p.offset + 9)) })
    else
      pure (1, { q with errMsgOffset := sizeMax, errMsgLen := 0 })

/-- `parser->parse(buf, len, parser)` for the functions that an error packet goes through. -/
def callParseReading (b : Reply) (p : MysqlParser) : Option (Reading (Int × MysqlParser)) :=
  match p.parse with
  | .basePacket => some (parseBasePacketReading b p)
  | .errorPacket => some (parseErrorPacketReading b p)
  | _ => none

/-- `mysql_parser_parse` as long as it stays with these functions. -/
def mysqlParserParseReading (b : Reply) : Nat → MysqlParser → Option (Reading (Int × MysqlParser))
  | 0, _ => none
  | fuel + 1, p => do
      let m ← callParseReading b p
      let (ret, q) := m.value
      if ret < 0 then some m
      else if ret > 0 ∧ q.offset ≠ b.len then some ⟨(-2, q), m.reads⟩
      else if q.offset < b.len then
        let rest ← mysqlParserParseReading b fuel q
        some ⟨rest.value, m.reads ++ rest.reads⟩
      else some m

/-! ### Decoding -/

/-- Store a byte. -/
def Reply.put (b : Reply) (p : Nat) (c : Byte) : Reply :=
  { b with mem := Function.update b.mem p c }

/-- `while (pos < end && *pos) pos++`, with `left` bytes up to the end. -/
def skipText (b : Reply) : Nat → Nat → Reading Nat
  | 0, pos => pure pos
  | left + 1, pos => do
      let c ← load b.mem pos
      if c = 0 then pure pos else skipText b left (pos + 1)

/-- `uint4korr`. -/
def uint4korr (b : Reply) (p : Nat) : Reading UInt32 := do
  let low ← uint2korr b p
  let high ← uint2korr b (p + 2)
  pure (low.toUInt32 + high.toUInt32 <<< 16)

/-- `memcpy` into an array of `n` bytes. -/
def memcpyFrom (b : Reply) (n p : Nat) : Reading (Vector Byte n) :=
  ⟨⟨(loadAll b.mem n p).value.toArray, by simp⟩, (loadAll b.mem n p).reads⟩

/-- The part of `decode_packet` behind the test of the length. -/
def decodeFields (b : Reply) (r : HandshakeResponse) (buf pos : Nat) :
    Reading HandshakeResponse := do
  let serverVersion ← loadAll b.mem (pos - buf) buf
  let buf := pos + 1
  let connectionId ← uint4korr b buf
  let buf := buf + 4
  let authPluginDataPart1 ← memcpyFrom b 8 buf
  let buf := buf + 9
  let capFlagsLower ← uint2korr b buf
  let buf := buf + 2
  let characterSet ← load b.mem buf
  let buf := buf + 1
  let statusFlags ← uint2korr b buf
  let buf := buf + 2
  let capFlagsUpper ← uint2korr b buf
  let buf := buf + 13
  let authPluginDataPart2 ← memcpyFrom b 12 buf
  pure { r with
    serverVersion := serverVersion
    connectionId := connectionId
    authPluginDataPart1 := authPluginDataPart1
    characterSet := characterSet
    statusFlags := statusFlags
    authPluginDataPart2 := authPluginDataPart2
    capabilityFlags := capFlagsUpper.toUInt32 <<< 16 + capFlagsLower.toUInt32 }

/-- What `decode_packet` does with a packet that reports an error. -/
def decodeError (fuel : Nat) (b : Reply) (r : HandshakeResponse) :
    Option (Reading (Int × HandshakeResponse)) :=
  if b.len ≥ 4 then do
    let m ← mysqlParserParseReading (b.put (b.base + 3) 35) fuel r.parser
    let (ret, parser) := m.value
    if ret = 1 then some ⟨(1, { r with parser := parser, disallowed := true }), m.reads⟩
    else some ⟨(-1, { r with parser := parser }), m.reads⟩
  else some (pure (-1, r))

/-- What `decode_packet` does with the greeting. -/
def decodeGreeting (b : Reply) (r : HandshakeResponse) : Reading (Int × HandshakeResponse) := do
  let buf := b.base + 1
  let pos ← skipText b (b.bufEnd - buf) buf
  if pos ≥ b.bufEnd ∨ b.bufEnd - pos < 43 then pure (-2, r)
  else do
    let r ← decodeFields b r buf pos
    pure (1, r)

/-- `decode_packet`. The fuel is for the parser. -/
def decodePacket (fuel : Nat) (b : Reply) (r : HandshakeResponse) :
    Option (Reading (Int × HandshakeResponse)) :=
  if b.len = 0 then some (pure (-2, r))
  else
    let version := b.mem b.base
    let r := { r with protocolVersion := version }
    if version = 255 then
      (decodeError fuel b r).map fun m => ⟨m.value, b.base :: m.reads⟩
    else
      let m := decodeGreeting b r
      some ⟨m.value, b.base :: m.reads⟩

end Workflow.Mysql
