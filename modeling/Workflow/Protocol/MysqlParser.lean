/-
Module: Workflow.Protocol.MysqlParser
Layer: Protocol
Purpose: `mysql_parser.c` and `mysql_byteorder.c`: the parser of a MySQL reply. Pointers are 64-bit
  addresses and pointer arithmetic wraps; the memory is a function of the address, so that a read
  behind the buffer sees whatever lies there. Allocation succeeds throughout, so the code -1 does not
  occur. The rows of a set are counted in numbers, where the source has an `int`: they are fewer than
  2^31.
Trusted boundary: human-reviewed spec
Main exports: Reply, decodeLengthSafe, decodeString, MysqlParser, mysqlParserInit, callParse,
  parseStep, mysqlParserParse
-/
import Workflow.Lib.CString
import Workflow.Lib.Loop

namespace Workflow.Mysql

open Workflow.Lib

/-- The buffer: its address, its length and the memory. Addresses of a user program are below
`2 ^ 63`. -/
structure Reply where
  base : Nat
  len : Nat
  mem : Nat → Byte
  user : base + len < 2 ^ 63

/-- `buf_end`. -/
def Reply.bufEnd (b : Reply) : Nat :=
  b.base + b.len

/-- `uint2korr` and its relatives: `size` bytes from `p` on, the lowest first. -/
def Reply.korr (b : Reply) : Nat → Nat → Nat
  | 0, _ => 0
  | size + 1, p => (b.mem p).toNat + 2 ^ 8 * b.korr size (p + 1)

/-- `decode_length_safe`: the returned code, `*res` and `*pos`. With a code below 1 nothing is
written to `*res`. -/
def decodeLengthSafe (b : Reply) (p : Nat) : Int × Nat × Nat :=
  if b.mem p = 251 then (1, sizeMax, addSize p 1)
  else if b.mem p = 252 then
    if addSize p 2 > b.bufEnd then (0, 0, p) else (1, b.korr 2 (p + 1), addSize p 3)
  else if b.mem p = 253 then
    if addSize p 3 > b.bufEnd then (0, 0, p) else (1, b.korr 3 (p + 1), addSize p 4)
  else if b.mem p = 254 then
    if addSize p 8 > b.bufEnd then (0, 0, p) else (1, b.korr 8 (p + 1), addSize p 9)
  else if b.mem p = 255 then (-1, 0, p)
  else (1, (b.mem p).toNat, addSize p 1)

/-- A decoded string: `*str`, `*len` and `*pos`. -/
structure Decoded where
  str : Nat
  len : Nat
  pos : Nat
deriving DecidableEq

/-- `decode_string`; `none` is the code 0. -/
def decodeString (b : Reply) (p : Nat) : Option Decoded :=
  let (ret, length, pos) := decodeLengthSafe b p
  if ret ≤ 0 then none
  else if length = 0 ∨ length = sizeMax then some { str := 0, len := 0, pos := pos }
  else if addSize pos length > b.bufEnd then none
  else some { str := pos, len := length, pos := addSize pos length }

/-! ### The parser -/

inductive PacketType where
  | other
  | ok
  | eof
  | error
  | getResult
  | localInline
deriving DecidableEq, Inhabited

/-- The functions that `parser->parse` can point to. -/
inductive ParseFn where
  | basePacket
  | errorPacket
  | okPacket
  | eofPacket
  | fieldEofPacket
  | fieldCount
  | columnDefPacket
  | localInline
  | rowPacket
deriving DecidableEq, Inhabited

/-- A string of a column definition, as an offset from the buffer and an `int` length. -/
structure FieldString where
  offset : Nat
  length : Int

/-- `mysql_field_t`. -/
structure MysqlField where
  catalog : FieldString
  db : FieldString
  table : FieldString
  orgTable : FieldString
  name : FieldString
  orgName : FieldString
  dflt : FieldString
  charsetnr : Nat
  length : Nat
  dataType : Nat
  flags : Nat
  decimals : Nat

/-- `struct __mysql_result_set`. A field that the packet does not write holds 0 here. -/
structure ResultSet where
  type : PacketType
  serverStatus : Nat := 0
  fieldCount : Int := 0
  rowCount : Nat := 0
  rowsBeginOffset : Nat := 0
  rowsEndOffset : Nat := 0
  fields : List MysqlField := []
  affectedRows : Nat := 0
  insertId : Nat := 0
  warningCount : Nat := 0
  infoOffset : Nat := 0
  infoLen : Int := 0

/-- `mysql_parser_t`. `current_result_set` points to the last of the list. -/
structure MysqlParser where
  offset : Nat
  cmd : Nat
  packetType : PacketType
  parse : ParseFn
  netStateOffset : Nat
  errMsgOffset : Nat
  errMsgLen : Int
  localInlineOffset : Nat
  localInlineLength : Int
  error : Nat
  resultSetList : List ResultSet
  currentFieldCount : Int
deriving Inhabited

def comQuery : Nat := 3
def comFieldList : Nat := 4
def moreResultsExist : Nat := 8
def stateLength : Nat := 5

/-- `mysql_parser_init`. The fields it does not write keep what the memory held. -/
def mysqlParserInit (p : MysqlParser) : MysqlParser :=
  { p with
    offset := 0
    cmd := comQuery
    packetType := .other
    parse := .basePacket
    resultSetList := [] }

/-- `mysql_parser_set_command`. -/
def mysqlParserSetCommand (cmd : Nat) (p : MysqlParser) : MysqlParser :=
  { p with cmd := cmd }

/-- `parser->current_result_set`. -/
def MysqlParser.current (p : MysqlParser) : ResultSet :=
  p.resultSetList.getLastD { type := .other }

/-- Write through `parser->current_result_set`. -/
def MysqlParser.setCurrent (rs : ResultSet) (p : MysqlParser) : MysqlParser :=
  { p with resultSetList := p.resultSetList.dropLast ++ [rs] }

@[simp] theorem MysqlParser.setCurrent_current (rs : ResultSet) (p : MysqlParser) :
    (p.setCurrent rs).current = rs := by
  simp [MysqlParser.setCurrent, MysqlParser.current]

/-- The pointer to the offset. -/
def MysqlParser.pos (b : Reply) (p : MysqlParser) : Nat :=
  addSize b.base p.offset

/-- The offset of a pointer. -/
def Reply.offsetOf (b : Reply) (p : Nat) : Nat :=
  subSize p b.base

/-! ### The packets -/

/-- `parse_base_packet`. -/
def parseBasePacket (b : Reply) (p : MysqlParser) : Int × MysqlParser :=
  let header := b.mem (p.pos b)
  (0, { p with parse :=
    if header = 0 then .okPacket
    else if header = 255 then .errorPacket
    else if header = 254 then .eofPacket
    else if header = 251 then .localInline
    else .fieldCount })

/-- `parse_error_packet`. -/
def parseErrorPacket (b : Reply) (p : MysqlParser) : Int × MysqlParser :=
  let pos := p.pos b
  if addSize pos 9 > b.bufEnd then (-2, p)
  else
    let q := { p with error := b.korr 2 (pos + 1), offset := b.len, packetType := .error }
    if b.mem (pos + 3) = 35 then
      (1, { q with
        netStateOffset := b.offsetOf (pos + 4)
        errMsgOffset := b.offsetOf (pos + 4 + stateLength)
        errMsgLen := toInt (subSize b.len (p.offset + 9)) })
    else
      (1, { q with errMsgOffset := sizeMax, errMsgLen := 0 })

/-- What an OK packet says. `ret` is the code for the length of its message, `pos` the pointer behind
that length. -/
structure OkPacket where
  affectedRows : Nat
  insertId : Nat
  serverStatus : Nat
  warningCount : Nat
  ret : Int
  infoLen : Nat
  pos : Nat
deriving DecidableEq

/-- The pointer behind the fixed part of an OK packet, with the two numbers in front of it. -/
def readOkNumbers (b : Reply) (pos : Nat) : Option (Nat × Nat × Nat) :=
  let (ret, affectedRows, p) := decodeLengthSafe b (addSize pos 1)
  if ret ≤ 0 then none
  else
    let (ret, insertId, p) := decodeLengthSafe b p
    if ret ≤ 0 then none
    else if addSize p 4 > b.bufEnd then none
    else some (affectedRows, insertId, p)

/-- `(n == ~0ULL) ? 0 : n`. -/
def nullToZero (n : Nat) : Nat :=
  if n = sizeMax then 0 else n

/-- The part of `parse_ok_packet` that reads; `none` is the code -2. -/
def readOkPacket (b : Reply) (pos : Nat) : Option OkPacket := do
  let (affectedRows, insertId, p) ← readOkNumbers b pos
  let packet : OkPacket :=
    { affectedRows := affectedRows
      insertId := insertId
      serverStatus := b.korr 2 p
      warningCount := b.korr 2 (p + 2)
      ret := 1
      infoLen := 0
      pos := addSize p 4 }
  if packet.pos < b.bufEnd then
    let (ret, infoLen, next) := decodeLengthSafe b packet.pos
    if ret > 0 then
      let infoLen := nullToZero infoLen
      if addSize next infoLen > b.bufEnd then none
      else some { packet with infoLen := infoLen, pos := next }
    else if ret < 0 then some { packet with ret := ret }
    else none
  else some packet

/-- The result set of an OK packet. The length of the message is stored in an `int`. -/
def OkPacket.resultSet (b : Reply) (packet : OkPacket) : ResultSet where
  type := .ok
  serverStatus := packet.serverStatus
  affectedRows := nullToZero packet.affectedRows
  insertId := nullToZero packet.insertId
  warningCount := packet.warningCount
  infoOffset := b.offsetOf packet.pos
  infoLen := toInt packet.infoLen

/-- `parse_ok_packet`. -/
def parseOkPacket (b : Reply) (p : MysqlParser) : Int × MysqlParser :=
  match readOkPacket b (p.pos b) with
  | none => (-2, p)
  | some packet =>
      let rs := packet.resultSet b
      let q := { p with
        resultSetList := p.resultSetList ++ [rs]
        packetType := .ok
        offset := addSize rs.infoOffset (toSize rs.infoLen) }
      if packet.ret < 0 then (0, { q with parse := .errorPacket })
      else if packet.serverStatus &&& moreResultsExist ≠ 0 then (0, { q with parse := .basePacket })
      else (1, q)

/-- `parse_eof_packet`. -/
def parseEofPacket (b : Reply) (p : MysqlParser) : Int × MysqlParser :=
  let pos := p.pos b
  if addSize pos 5 > b.bufEnd then (-2, p)
  else
    let q := { p with offset := addSize p.offset 5, packetType := .eof }
    if b.korr 2 (pos + 3) &&& moreResultsExist ≠ 0 then (0, { q with parse := .basePacket })
    else (1, q)

/-- `parse_field_eof_packet`. -/
def parseFieldEofPacket (b : Reply) (p : MysqlParser) : Int × MysqlParser :=
  if addSize (p.pos b) 5 > b.bufEnd then (-2, p)
  else
    let offset := addSize p.offset 5
    (0, { p.setCurrent { p.current with rowsBeginOffset := offset } with
      offset := offset
      parse := .rowPacket })

/-- `parse_local_inline`. -/
def parseLocalInline (b : Reply) (p : MysqlParser) : Int × MysqlParser :=
  (1, { p with
    localInlineOffset := p.offset
    localInlineLength := toInt (subSize b.len p.offset)
    offset := b.len
    packetType := .localInline })

/-- One cell of a row: the pointer behind it. -/
def rowCell (b : Reply) (p : Nat) : Option Nat :=
  if b.mem p = 251 then some (addSize p 1) else (decodeString b p).map Decoded.pos

/-- The loop over the cells of a row; `none` when it is left before the last one. -/
def rowCells (b : Reply) : Nat → Nat → Option Nat
  | 0, p => some p
  | count + 1, p => (rowCell b p).bind (rowCells b count)

/-- `parse_row_packet`. -/
def parseRowPacket (b : Reply) (p : MysqlParser) : Int × MysqlParser :=
  let pos := p.pos b
  if b.mem pos = 255 then (0, { p with parse := .errorPacket })
  else if b.mem pos = 254 then
    (0, { p.setCurrent { p.current with rowsEndOffset := p.offset } with parse := .eofPacket })
  else
    match rowCells b (toSize p.current.fieldCount) pos with
    | none => (-2, p)
    | some next =>
        (0, { p.setCurrent { p.current with rowCount := p.current.rowCount + 1 } with
          offset := b.offsetOf next })

/-- `parse_field_count`. -/
def parseFieldCount (b : Reply) (p : MysqlParser) : Int × MysqlParser :=
  let (ret, fieldCount, next) := decodeLengthSafe b (p.pos b)
  if ret ≤ 0 then (-2, p)
  else if fieldCount = sizeMax ∨ fieldCount = 0 then (0, { p with parse := .okPacket })
  else
    (0, { p with
      resultSetList := p.resultSetList ++ [{ type := .getResult, fieldCount := toInt fieldCount }]
      currentFieldCount := 0
      packetType := .getResult
      parse := .columnDefPacket
      offset := b.offsetOf next })

/-- Where a decoded string lies. -/
def Decoded.field (b : Reply) (d : Decoded) : FieldString :=
  { offset := b.offsetOf d.str, length := toInt d.len }

/-- The part of `parse_column_def_packet` that reads: the field and the pointer behind it; `none` is
the code -2. -/
def readColumnDef (b : Reply) (cmd pos : Nat) : Option (MysqlField × Nat) := do
  let catalog ← decodeString b pos
  let db ← decodeString b catalog.pos
  let table ← decodeString b db.pos
  let orgTable ← decodeString b table.pos
  let name ← decodeString b orgTable.pos
  let orgName ← decodeString b name.pos
  if addSize orgName.pos 13 > b.bufEnd then none
  else
    let p := addSize orgName.pos 1
    let field : MysqlField :=
      { catalog := catalog.field b
        db := db.field b
        table := table.field b
        orgTable := orgTable.field b
        name := name.field b
        orgName := orgName.field b
        dflt := { offset := sizeMax, length := 0 }
        charsetnr := b.korr 2 p
        length := b.korr 4 (p + 2)
        dataType := (b.mem (p + 6)).toNat
        flags := b.korr 2 (p + 7)
        decimals := (b.mem (p + 9)).toNat }
    let next := addSize p 12
    if cmd = comFieldList then
      let dflt ← decodeString b next
      some ({ field with dflt := dflt.field b }, dflt.pos)
    else some (field, next)

/-- `parse_column_def_packet`. -/
def parseColumnDefPacket (b : Reply) (p : MysqlParser) : Int × MysqlParser :=
  match readColumnDef b p.cmd (p.pos b) with
  | none => (-2, p)
  | some (field, next) =>
      let q := p.setCurrent { p.current with fields := p.current.fields ++ [field] }
      let count := p.currentFieldCount + 1
      (0, { q with
        offset := b.offsetOf next
        currentFieldCount := count
        parse := if count = p.current.fieldCount then .fieldEofPacket else p.parse })

/-- `parser->parse(buf, len, parser)`. -/
def callParse (b : Reply) (p : MysqlParser) : Int × MysqlParser :=
  match p.parse with
  | .basePacket => parseBasePacket b p
  | .errorPacket => parseErrorPacket b p
  | .okPacket => parseOkPacket b p
  | .eofPacket => parseEofPacket b p
  | .fieldEofPacket => parseFieldEofPacket b p
  | .fieldCount => parseFieldCount b p
  | .columnDefPacket => parseColumnDefPacket b p
  | .localInline => parseLocalInline b p
  | .rowPacket => parseRowPacket b p

/-- The body of the loop in `mysql_parser_parse`, with the test at its end. -/
def parseStep (b : Reply) (p : MysqlParser) : Step MysqlParser (Int × MysqlParser) :=
  let (ret, q) := callParse b p
  if ret < 0 then .done (ret, q)
  else if ret > 0 ∧ q.offset ≠ b.len then .done (-2, q)
  else if q.offset < b.len then .next q
  else .done (ret, q)

/-- `mysql_parser_parse`. -/
def mysqlParserParse (fuel : Nat) (b : Reply) (p : MysqlParser) : Option (Int × MysqlParser) :=
  loop (parseStep b) fuel p

end Workflow.Mysql
