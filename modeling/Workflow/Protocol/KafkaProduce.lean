/-
Module: Workflow.Protocol.KafkaProduce
Layer: Protocol
Purpose: `KafkaRequest::encode_produce` (KafkaMessage.cc) with the cursor of a `KafkaToppar` and the
  `KafkaBuffer` that the blocks are collected in (KafkaDataTypes.h). Positions in the circular lists
  are counted from the head, which is 0. The compression libraries, the two checksums and the clock
  are parameters; a library that fails gives `none`. Memory is always granted.
Trusted boundary: human-reviewed model
Main exports: KafkaToppar, KafkaBuffer, Libraries, appendMessageSet, Produce.appendRecord,
  ProduceLoop, recordPass, recordLoop, finishRecordBatch, finishMessageSet, encodeToppar,
  encodeToppars, encodeProduce
-/
import Workflow.Protocol.KafkaMemberAssignment
import Workflow.Protocol.KafkaRecord
import Workflow.Lib.Loop
import Workflow.Util.EncodeStream

namespace Workflow.Kafka

open Workflow.Lib Workflow.Util

/-! ### The record cursor of a partition -/

/-- `KafkaToppar`: its topic and partition, its records and the three pointers into their list. The
null pointer is `none`. -/
structure KafkaToppar where
  topic : List Byte
  partition : Int32
  recordList : List Record
  curpos : Nat
  startpos : Nat
  endpos : Option Nat

namespace KafkaToppar

/-- `pos->next`. -/
def next (t : KafkaToppar) (pos : Nat) : Nat :=
  if pos = t.recordList.length then 0 else pos + 1

/-- `pos->prev`. -/
def prev (t : KafkaToppar) (pos : Nat) : Nat :=
  if pos = 0 then t.recordList.length else pos - 1

/-- `get_record_next`. -/
def getRecordNext (t : KafkaToppar) : Option (Record × KafkaToppar) :=
  if t.next t.curpos = 0 then none
  else t.recordList[t.next t.curpos - 1]?.map fun record =>
    (record, { t with curpos := t.next t.curpos })

/-- `record->get_raw_ptr()->timestamp = now` for the record at the cursor. -/
def setTimestamp (now : Int64) (t : KafkaToppar) : KafkaToppar :=
  { t with recordList := t.recordList.modify (t.curpos - 1) fun r => { r with timestamp := now } }

def saveRecordStartpos (t : KafkaToppar) : KafkaToppar :=
  { t with startpos := t.curpos }

def saveRecordEndpos (t : KafkaToppar) : KafkaToppar :=
  { t with endpos := some (t.next t.curpos) }

def recordReachEnd (t : KafkaToppar) : Bool :=
  t.endpos == some 0

def recordRollback (t : KafkaToppar) : KafkaToppar :=
  { t with curpos := t.prev t.curpos }

end KafkaToppar

/-- A `KafkaToppar` with records and with its pointers as the constructor sets them. -/
def freshToppar (topic : List Byte) (partition : Int32) (records : List Record) : KafkaToppar where
  topic := topic
  partition := partition
  recordList := records
  curpos := 0
  startpos := 0
  endpos := some 0

/-! ### The buffer of blocks -/

/-- `KafkaBuffer`, as far as encoding uses it. -/
structure KafkaBuffer where
  blockList : List (List Byte)
  insertPos : Nat
  bufSize : Nat

namespace KafkaBuffer

def empty : KafkaBuffer where
  blockList := []
  insertPos := 0
  bufSize := 0

def addItem (block : List Byte) (b : KafkaBuffer) : KafkaBuffer :=
  { b with bufSize := b.bufSize + block.length, blockList := b.blockList ++ [block] }

def setInsertPos (b : KafkaBuffer) : KafkaBuffer :=
  { b with insertPos := b.blockList.length }

/-- `insert_list`. -/
def insertList (block : List Byte) (b : KafkaBuffer) : KafkaBuffer where
  blockList := b.blockList.take b.insertPos ++ block :: b.blockList.drop b.insertPos
  insertPos := b.insertPos + 1
  bufSize := b.bufSize + block.length

/-- The blocks that `get_block_insert_next` gives one after the other after `block_insert_rewind`. -/
def insertedBlocks (b : KafkaBuffer) : List (List Byte) :=
  b.blockList.drop b.insertPos

/-- `*(int *)ptr = htonl(val)`, where `ptr` points into the block at `pos`. -/
def storeI32 (pos off : Nat) (val : Int32) (b : KafkaBuffer) : KafkaBuffer :=
  { b with blockList := b.blockList.modify (pos - 1) (overwriteI32 off val) }

end KafkaBuffer

/-! ### One record -/

/-- The members of `KafkaConfig` that `encode_produce` reads. -/
structure KafkaConfig extends ProduceConfig where
  produceAcks : Int32
  produceTimeout : Int32
  compressType : Int32

/-- The members of a `KafkaRequest` that `encode_produce` reads. -/
structure KafkaRequest where
  apiVersion : Int32
  messageVersion : Int32
  config : KafkaConfig
  msgbuf : List Byte

/-- What is outside: for every type of compression how it begins, takes a block and ends, and the two
checksums. `ε` is what `compress_env` points at. -/
structure Libraries (ε : Type) where
  prepare : Int32 → Option (ε × List Byte)
  compress : Int32 → ε → List Byte → Option (ε × List Byte)
  finish : Int32 → ε → KafkaBuffer → Option (KafkaBuffer × Int32)
  crc32c : UInt32 → List Byte → UInt32
  crc32 : UInt32 → List Byte → UInt32

def kafkaNoCompress : Int32 := 0

/-- `Kafka_Gzip`, `Kafka_Snappy`, `Kafka_Lz4` or `Kafka_Zstd`: the cases of the `switch` in the three
functions for compression. -/
def isCompressType (type : Int32) : Bool :=
  type == 1 || type == 2 || type == 3 || type == 4

section Encoding

variable {ε : Type} (libs : Libraries ε)

/-- `kafka_compress_prepare`: the environment and `compress_block`. -/
def kafkaCompressPrepare (type : Int32) (env : ε) : Option (ε × List Byte) :=
  if isCompressType type then libs.prepare type else some (env, [])

/-- `compress_buf`. -/
def compressBuf (type : Int32) (env : ε) (block : List Byte) : Option (ε × List Byte) :=
  if isCompressType type then libs.compress type env block else some (env, block)

/-- `kafka_compress_finish`. -/
def kafkaCompressFinish (type : Int32) (env : ε) (buffer : KafkaBuffer) :
    Option (KafkaBuffer × Int32) :=
  if isCompressType type then libs.finish type env buffer else some (buffer, 0)

/-- What a function that appends a record returns: 0 with the block and the environment, 1, or -1. -/
inductive Appended (ε : Type) where
  | filled (block : List Byte) (env : ε)
  | full
  | failed

/-- What the two functions do with a block once it is written. -/
def compressed (config : KafkaConfig) (env : ε) (block : List Byte) : Appended ε :=
  match compressBuf libs config.compressType env block with
  | none => .failed
  | some (env, block) => .filled block env

/-- `append_nullable_bytes(&cur, str, len)`. -/
def appendNullableBytes (str : List Byte) : List Byte :=
  if str.length = 0 then appendI32 (-1) else appendBytes str

/-- The part of a message that its checksum is over. -/
def messageBody (record : Record) (msgVersion : Int32) : List Byte :=
  appendI8 msgVersion.toInt8 ++ appendI8 0 ++
    (if msgVersion = 1 then appendI64 record.timestamp else []) ++ appendBytes (contents record.key) ++
    appendNullableBytes (contents record.value)

/-- `append_message_set`. -/
def appendMessageSet (config : KafkaConfig) (record : Record) (offset msgVersion : Int32) (env : ε)
    (curMsgSize : Int32) : Appended ε :=
  let messageSize := Int32.ofNat (4 + 1 + 1 + 4 + 4 + (contents record.key).length +
    (contents record.value).length)
  let messageSize := if msgVersion = 1 then messageSize + 8 else messageSize
  if config.maxMsgSize < messageSize + 8 + 4 + curMsgSize then .full
  else
    let body := messageBody record msgVersion
    compressed libs config env (appendI64 offset.toInt64 ++ appendI32 messageSize ++
      appendI32 (libs.crc32 0 body).toInt32 ++ body)

/-- `append_batch_record`. -/
def Produce.appendBatchRecord (config : KafkaConfig) (record : Record) (offset : Int32)
    (firstTimestamp : Int64) (env : ε) (curMsgSize : Int32) : Appended ε :=
  match Kafka.appendBatchRecord config.toProduceConfig record offset firstTimestamp curMsgSize with
  | none => .full
  | some block => compressed libs config env block

/-- The `switch` of `append_record`. -/
def appendVersioned (config : KafkaConfig) (record : Record) (offset msgVersion : Int32)
    (firstTimestamp : Int64) (env : ε) (curMsgSize : Int32) : Appended ε :=
  if msgVersion = 0 ∨ msgVersion = 1 then
    appendMessageSet libs config record offset msgVersion env curMsgSize
  else if msgVersion = 2 then
    Produce.appendBatchRecord libs config record offset firstTimestamp env curMsgSize
  else .filled [] env

/-- `append_record`. -/
def Produce.appendRecord (config : KafkaConfig) (record : Record) (offset msgVersion : Int32)
    (firstTimestamp : Int64) (env : ε) (curMsgSize : Int32) : Appended ε :=
  if config.produceMsgsetCnt < offset then .full
  else appendVersioned libs config record offset msgVersion firstTimestamp env curMsgSize

/-! ### The records of one partition -/

/-- The variables of the loop over the records of a partition. `recordsetNode` is the block that
`recordset_size_ptr` points into, `pass` counts the readings of the clock. -/
structure ProduceLoop (ε : Type) where
  toppar : KafkaToppar
  serialized : KafkaBuffer
  recordsetNode : Nat
  compressEnv : ε
  pass : Nat
  recordFlag : Int
  batchLength : Int32
  batchCnt : Int32
  curSerializedLen : Nat
  firstTimestamp : Int64
  maxTimestamp : Int64

/-- `topic_header`. -/
def topicHeader (t : KafkaToppar) : List Byte :=
  appendString t.topic ++ appendI32 1 ++ appendI32 t.partition ++ appendI32 0

/-- `MSGV2HSize`. -/
def msgV2HSize : Int32 := 8 + 4 + 4 + 1 + 4 + 2 + 4 + 8 + 8 + 8 + 2 + 4 + 4

/-- The variables before the loop. -/
def ProduceLoop.start (messageVersion : Int32) (toppar : KafkaToppar) (serialized : KafkaBuffer)
    (env : ε) : ProduceLoop ε where
  toppar := toppar.saveRecordStartpos
  serialized := serialized
  recordsetNode := 0
  compressEnv := env
  pass := 0
  recordFlag := -1
  batchLength := if messageVersion = 2 then msgV2HSize - (8 + 4) else 0
  batchCnt := 0
  curSerializedLen := serialized.bufSize
  firstTimestamp := 0
  maxTimestamp := 0

namespace ProduceLoop

variable (req : KafkaRequest)

/-- What is done before the first record of a batch; the block is `compress_block`. -/
def prepareBatch (record : Record) (s : ProduceLoop ε) : Option (ProduceLoop ε × List Byte) :=
  if s.batchCnt = 0 then
    (kafkaCompressPrepare libs req.config.compressType s.compressEnv).map fun (env, block) =>
      ({ s with compressEnv := env, firstTimestamp := record.timestamp }, block)
  else some (s, [])

/-- What is done when a record has filled its block and is the first one: the header of the topic goes
in front. -/
def beginBatch (compressBlock : List Byte) (s : ProduceLoop ε) : ProduceLoop ε :=
  if s.batchCnt = 0 then
    let serialized := (s.serialized.addItem (topicHeader s.toppar)).setInsertPos
    { s with
      serialized :=
        if compressBlock.length > 0 then serialized.addItem compressBlock else serialized
      recordsetNode := serialized.blockList.length
      curSerializedLen := serialized.bufSize }
  else s

/-- What is done with the block of a record. -/
def addBlock (record : Record) (block : List Byte) (env : ε) (s : ProduceLoop ε) : ProduceLoop ε :=
  let serialized := if block.length > 0 then s.serialized.addItem block else s.serialized
  { s with
    toppar := s.toppar.saveRecordEndpos
    serialized := serialized
    compressEnv := env
    recordFlag := 0
    batchLength :=
      Int32.ofInt (s.batchLength.toInt + ((serialized.bufSize - s.curSerializedLen : Nat) : Int))
    batchCnt := s.batchCnt + 1
    curSerializedLen := serialized.bufSize
    maxTimestamp := record.timestamp }

/-- What is done with a record that does not fit. The result says whether to go on. -/
def refuse (s : ProduceLoop ε) : Bool × ProduceLoop ε :=
  let toppar := s.toppar.recordRollback.saveRecordEndpos
  if s.recordFlag < 0 then (false, { s with toppar := toppar })
  else (true, { s with toppar := toppar, recordFlag := 1 })

end ProduceLoop

/-- One pass of the loop over the records. With `false` the function returns -1. -/
def recordPass (req : KafkaRequest) (clock : Nat → Int64) (s : ProduceLoop ε) :
    Step (ProduceLoop ε) (Bool × ProduceLoop ε) :=
  match s.toppar.getRecordNext with
  | none => .done (true, s)
  | some (record, toppar) =>
      let record := { record with timestamp := clock s.pass }
      let s := { s with toppar := toppar.setTimestamp (clock s.pass), pass := s.pass + 1 }
      match s.prepareBatch libs req record with
      | none => .done (false, s)
      | some (s, compressBlock) =>
          match Produce.appendRecord libs req.config record s.batchCnt req.messageVersion
              s.firstTimestamp s.compressEnv s.batchLength with
          | .failed => .done (false, s)
          | .full => .done s.refuse
          | .filled block env => .next ((s.beginBatch compressBlock).addBlock record block env)

/-- The loop over the records: a pass for every record, and one more. -/
def recordLoop (req : KafkaRequest) (clock : Nat → Int64) (s : ProduceLoop ε) :
    Option (Bool × ProduceLoop ε) :=
  loop (recordPass libs req clock) (s.toppar.recordList.length + 1) s

/-! ### The header of a batch -/

/-- The compression is ended and what it adds is counted. -/
def finishCompression (req : KafkaRequest) (s : ProduceLoop ε) : Option (ProduceLoop ε) :=
  if req.config.compressType ≠ kafkaNoCompress then
    (kafkaCompressFinish libs req.config.compressType s.compressEnv s.serialized).map
      fun (serialized, addon) =>
        { s with serialized := serialized, batchLength := s.batchLength + addon }
  else some s

/-- `record_header`. -/
def recordHeader (req : KafkaRequest) (s : ProduceLoop ε) : List Byte :=
  appendI64 0 ++ appendI32 s.batchLength ++ appendI32 0 ++ appendI8 2 ++ appendI32 0 ++
    (appendI16 req.config.compressType.toInt16 ++ appendI32 (s.batchCnt - 1) ++
      appendI64 s.firstTimestamp ++ appendI64 s.maxTimestamp ++ appendI64 (-1) ++ appendI16 (-1) ++
      appendI32 (-1) ++ appendI32 s.batchCnt)

/-- Where the checksum stands in the header. -/
def crc32Offset : Nat := 8 + 4 + 4 + 1

/-- `*recordset_size_ptr = htonl(size)`. -/
def ProduceLoop.storeRecordsetSize (size : Int32) (s : ProduceLoop ε) (buffer : KafkaBuffer) :
    KafkaBuffer :=
  buffer.storeI32 s.recordsetNode ((topicHeader s.toppar).length - 4) size

/-- What follows the loop for message version 2. -/
def finishRecordBatch (req : KafkaRequest) (s : ProduceLoop ε) : KafkaBuffer :=
  let header := recordHeader req s
  let buffer := s.serialized.insertList header
  let crc := buffer.insertedBlocks.foldl libs.crc32c (libs.crc32c 0 (header.drop (crc32Offset + 4)))
  s.storeRecordsetSize (s.batchLength + 4 + 8) (buffer.storeI32 buffer.insertPos crc32Offset crc.toInt32)

/-- What follows the loop for the older versions. -/
def finishMessageSet (req : KafkaRequest) (s : ProduceLoop ε) : KafkaBuffer :=
  if req.config.compressType ≠ kafkaNoCompress then
    let messageSize := 4 + 1 + 1 + 4 + 4 + s.batchLength
    let messageSize := if req.messageVersion = 1 then messageSize + 8 else messageSize
    let body := appendI8 req.messageVersion.toInt8 ++ appendI8 req.config.compressType.toInt8 ++
      (if req.messageVersion = 1 then appendI64 s.firstTimestamp else []) ++ appendBytes [] ++
      appendI32 s.batchLength
    let crc := s.serialized.insertedBlocks.foldl libs.crc32 (libs.crc32 0 body)
    let header := appendI64 0 ++ appendI32 messageSize ++ appendI32 crc.toInt32 ++ body
    s.storeRecordsetSize (messageSize + 8 + 4) (s.serialized.insertList header)
  else s.storeRecordsetSize s.batchLength s.serialized

/-- What follows the loop when there is a batch. -/
def finishBatch (req : KafkaRequest) (s : ProduceLoop ε) : Option KafkaBuffer :=
  (finishCompression libs req s).map fun s =>
    if req.messageVersion = 2 then finishRecordBatch libs req s else finishMessageSet libs req s

/-! ### The request -/

/-- The variables of `encode_produce` that go from one partition to the next. -/
structure ProduceState (ε : Type) where
  serialized : KafkaBuffer
  compressEnv : ε
  topicCnt : Int32

/-- One pass of the loop over the partitions. With `false` the function returns -1. -/
def encodeToppar (req : KafkaRequest) (clock : Nat → Int64) (toppar : KafkaToppar)
    (s : ProduceState ε) : Bool × KafkaToppar × ProduceState ε :=
  match recordLoop libs req clock
      (ProduceLoop.start req.messageVersion toppar s.serialized s.compressEnv) with
  | none => (false, toppar, s)
  | some (ok, l) =>
      let after := { s with serialized := l.serialized, compressEnv := l.compressEnv }
      if ¬ ok then (false, l.toppar, after)
      else if l.recordFlag < 0 then (true, l.toppar, after)
      else
        match finishBatch libs req l with
        | none => (false, l.toppar, after)
        | some serialized =>
            (true, l.toppar, { after with serialized := serialized, topicCnt := s.topicCnt + 1 })

/-- The loop over the partitions. `clock i` is the clock as it is read for the `i`-th one. -/
def encodeToppars (req : KafkaRequest) :
    (Nat → Nat → Int64) → List KafkaToppar → ProduceState ε →
      Bool × List KafkaToppar × ProduceState ε
  | _, [], s => (true, [], s)
  | clock, toppar :: toppars, s =>
      let (ok, toppar', s') := encodeToppar libs req (clock 0) toppar s
      if ok then
        let (ok, toppars', s'') := encodeToppars req (fun i => clock (i + 1)) toppars s'
        (ok, toppar' :: toppars', s'')
      else (false, toppar' :: toppars, s')

/-- What is appended to `msgbuf` before the partitions. -/
def produceHead (req : KafkaRequest) : List Byte :=
  (if req.apiVersion ≥ 3 then appendI16 (-1) else []) ++ appendI16 req.config.produceAcks.toInt16 ++
    appendI32 req.config.produceTimeout

/-- What `encode_produce` leaves behind when it succeeds. -/
structure Produced where
  msgbuf : List Byte
  serialized : KafkaBuffer
  stream : EncodeStream

/-- `encode_produce`; `none` is the value -1. -/
def encodeProduce (req : KafkaRequest) (env : ε) (clock : Nat → Nat → Int64) (max : Nat)
    (topparList : List KafkaToppar) : Option Produced × List KafkaToppar :=
  let (ok, toppars, s) := encodeToppars libs req clock topparList
    { serialized := KafkaBuffer.empty, compressEnv := env, topicCnt := 0 }
  if ok then
    let msgbuf := req.msgbuf ++ produceHead req ++ appendI32 s.topicCnt
    let stream := s.serialized.blockList.foldl (fun stream block => stream.appendNocopy block)
      ((EncodeStream.reset max).appendNocopy msgbuf)
    (some { msgbuf := msgbuf, serialized := s.serialized, stream := stream }, toppars)
  else (none, toppars)

end Encoding

end Workflow.Kafka
