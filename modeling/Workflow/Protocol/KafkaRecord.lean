/-
Module: Workflow.Protocol.KafkaRecord
Layer: Protocol
Purpose: The record batches of `KafkaMessage.cc` (message version 2, `Kafka_NoCompress`): how
  `encode_produce` lays out the records of one partition, and how `parse_record_batch` reads a batch.
  A pointer with a length is an `Option (List Byte)`, `none` being the null pointer; freeing a pointer
  into the buffer is undefined behaviour, and nothing is returned. `crc32c` and the
  decompression are parameters, memory is always granted, and the time stamps of the records are the
  ones `encode_produce` has put there.
Trusted boundary: human-reviewed model
Main exports: RecordHeader, Record, ProduceConfig, appendBatchRecord, appendRecord, BatchState,
  appendRecords, encodeBatch, parseVarintBytes, parseMessageRecord, parseBatchHeader,
  parseRecordBatch
-/
import Workflow.Protocol.KafkaVarint
import Workflow.Lib.Cursor

namespace Workflow.Kafka

open Workflow.Lib

/-- `kafka_record_header_t`. -/
structure RecordHeader where
  key : Option (List Byte)
  value : Option (List Byte)
  deriving DecidableEq

/-- `kafka_record_t`, without its topic and status. -/
structure Record where
  key : Option (List Byte)
  value : Option (List Byte)
  timestamp : Int64
  offset : Int64
  headerList : List RecordHeader
  deriving DecidableEq

/-- The bytes behind a pointer and a length. -/
def contents (blob : Option (List Byte)) : List Byte :=
  blob.getD []

/-! ### Integers in network order -/

def appendI8 (val : Int8) : List Byte :=
  bigEndian 1 val.toUInt8.toNat

def appendI16 (val : Int16) : List Byte :=
  bigEndian 2 val.toUInt16.toNat

def appendI32 (val : Int32) : List Byte :=
  bigEndian 4 val.toUInt32.toNat

def appendI64 (val : Int64) : List Byte :=
  bigEndian 8 val.toUInt64.toNat

/-! ### Writing a batch -/

/-- The limits of `KafkaConfig` on what goes into one batch. -/
structure ProduceConfig where
  produceMsgMaxBytes : Int32
  produceMsgsetCnt : Int32
  produceMsgsetMaxBytes : Int32

/-- `std::min` of the two limits. -/
def ProduceConfig.maxMsgSize (config : ProduceConfig) : Int32 :=
  if config.produceMsgMaxBytes < config.produceMsgsetMaxBytes then config.produceMsgMaxBytes
  else config.produceMsgsetMaxBytes

/-- `klen_str`: an empty key is written as a missing one. -/
def klenStr (record : Record) : List Byte :=
  if (contents record.key).length > 0 then
    appendVarintI32 (Int32.ofNat (contents record.key).length)
  else appendVarintI32 (-1)

/-- `vlen_str`: an empty value is not written as a missing one. -/
def vlenStr (record : Record) : List Byte :=
  match record.value with
  | some value => appendVarintI32 (Int32.ofNat value.length)
  | none => appendVarintI32 (-1)

/-- What the loop over the header list appends to `hdr_str` for one header. -/
def headerStr (header : RecordHeader) : List Byte :=
  appendVarintI32 (Int32.ofNat (contents header.key).length) ++ contents header.key ++
    appendVarintI32 (Int32.ofNat (contents header.value).length) ++ contents header.value

/-- `hdr_str`. -/
def hdrStr (record : Record) : List Byte :=
  (record.headerList.map headerStr).flatten

/-- `hdr_cnt_str`. -/
def hdrCntStr (record : Record) : List Byte :=
  appendVarintI32 (Int32.ofNat record.headerList.length)

/-- What follows the length of the record: attributes, deltas, key, value and headers. -/
def recordBody (record : Record) (offset : Int32) (firstTimestamp : Int64) : List Byte :=
  appendI8 0 ++ appendVarintI64 (record.timestamp - firstTimestamp) ++
    appendVarintI64 offset.toInt64 ++ klenStr record ++ contents record.key ++ vlenStr record ++
    contents record.value ++ hdrCntStr record ++ hdrStr record

/-- `length_str`; the length is an `int`. -/
def lengthStr (record : Record) (offset : Int32) (firstTimestamp : Int64) : List Byte :=
  appendVarintI32 (Int32.ofNat (recordBody record offset firstTimestamp).length)

/-- `append_batch_record`: the block that is filled; `none` when the record does not fit (the
function returns 1). -/
def appendBatchRecord (config : ProduceConfig) (record : Record) (offset : Int32)
    (firstTimestamp : Int64) (curMsgSize : Int32) : Option (List Byte) :=
  let length := Int32.ofNat (recordBody record offset firstTimestamp).length
  let lengthSize := (lengthStr record offset firstTimestamp).length
  if config.maxMsgSize < Int32.ofInt (length.toInt + lengthSize + curMsgSize.toInt) then none
  else some (lengthStr record offset firstTimestamp ++ recordBody record offset firstTimestamp)

/-- `append_record` for message version 2. -/
def appendRecord (config : ProduceConfig) (record : Record) (offset : Int32)
    (firstTimestamp : Int64) (curMsgSize : Int32) : Option (List Byte) :=
  if config.produceMsgsetCnt < offset then none
  else appendBatchRecord config record offset firstTimestamp curMsgSize

/-- The variables of the loop over the records of a partition. -/
structure BatchState where
  blocks : List (List Byte)
  batchLength : Int32
  batchCnt : Int32
  firstTimestamp : Int64
  maxTimestamp : Int64

def batchStart : BatchState where
  blocks := []
  batchLength := 8 + 4 + 4 + 1 + 4 + 2 + 4 + 8 + 8 + 8 + 2 + 4 + 4 - (8 + 4)
  batchCnt := 0
  firstTimestamp := 0
  maxTimestamp := 0

/-- `first_timestamp` when `record` is at hand: the first record sets it. -/
def BatchState.first (s : BatchState) (record : Record) : Int64 :=
  if s.batchCnt = 0 then record.timestamp else s.firstTimestamp

/-- The state after `record` has filled `block`. -/
def BatchState.push (s : BatchState) (record : Record) (block : List Byte) : BatchState where
  blocks := s.blocks ++ [block]
  batchLength := Int32.ofInt (s.batchLength.toInt + block.length)
  batchCnt := s.batchCnt + 1
  firstTimestamp := s.first record
  maxTimestamp := record.timestamp

/-- The loop over the records of a partition; a record that does not fit ends it. -/
def appendRecords (config : ProduceConfig) : List Record → BatchState → BatchState
  | [], s => s
  | record :: rest, s =>
      match appendRecord config record s.batchCnt (s.first record) s.batchLength with
      | none => s
      | some block => appendRecords config rest (s.push record block)

/-- The batch header behind the `crc` field. -/
def batchHeader (s : BatchState) : List Byte :=
  appendI16 0 ++ appendI32 (s.batchCnt - 1) ++ appendI64 s.firstTimestamp ++
    appendI64 s.maxTimestamp ++ appendI64 (-1) ++ appendI16 (-1) ++ appendI32 (-1) ++
    appendI32 s.batchCnt

/-- `crc_32`, over the header and then over one block after the other. -/
def batchCrc (crc32c : UInt32 → List Byte → UInt32) (s : BatchState) : UInt32 :=
  s.blocks.foldl crc32c (crc32c 0 (batchHeader s))

/-- The batch as it stands in `serialized`: the header block and the blocks of the records. -/
def batchBytes (crc32c : UInt32 → List Byte → UInt32) (s : BatchState) : List Byte :=
  appendI64 0 ++ appendI32 s.batchLength ++ appendI32 0 ++ appendI8 2 ++
    appendI32 (batchCrc crc32c s).toInt32 ++ batchHeader s ++ s.blocks.flatten

/-- `encode_produce` on the records of one partition: the batch, and how many of the records are in
it. There is no batch when there is no record or the first one does not fit. -/
def encodeBatch (crc32c : UInt32 → List Byte → UInt32) (config : ProduceConfig)
    (records : List Record) : Option (List Byte × Nat) :=
  let s := appendRecords config records batchStart
  if s.blocks = [] then none else some (batchBytes crc32c s, s.blocks.length)

/-! ### Reading a batch -/

section Parsing

variable (fuel : Nat) (mem : Int → Byte)

def parseI8 : Action Cursor Int8 := do
  let val ← readFixed mem 1
  pure (UInt8.ofNat val).toInt8

def parseI16 : Action Cursor Int16 := do
  let val ← readFixed mem 2
  pure (UInt16.ofNat val).toInt16

def parseI32 : Action Cursor Int32 := do
  let val ← readFixed mem 4
  pure (UInt32.ofNat val).toInt32

def parseI64 : Action Cursor Int64 := do
  let val ← readFixed mem 8
  pure (UInt64.ofNat val).toInt64

/-- A parser of `KafkaVarint` at the cursor. A parser that returns an error has moved nothing. -/
def atCursor {α : Type} (parse : Nat → (Int → Byte) → Nat → Option (Option (Parsed α))) :
    Action Cursor α :=
  fun c => (parse fuel (fun i => mem (c.off + i)) c.size).map fun
    | some p => (some p.val, { off := c.off + p.off, size := p.size })
    | none => (none, c)

/-- The bytes that `parse_varint_bytes` points at, if `(int64_t)*size >= len`. -/
def takeBytes (len : Int64) : Action Cursor (Option (List Byte)) :=
  fun c =>
    if len.toInt ≤ (UInt64.ofNat c.size).toInt64.toInt then
      some (some (some (bytesAt mem c.off len.toInt.toNat)),
        { off := c.off + len.toInt.toNat, size := c.size - len.toInt.toNat })
    else some (none, c)

/-- `parse_varint_bytes`. The length stays read when the bytes are missing. -/
def parseVarintBytes : Action Cursor (Option (List Byte)) := do
  let len ← atCursor fuel mem parseVarintI64
  if len < -1 then Action.fail
  else if len ≤ 0 then pure none
  else takeBytes mem len

/-- What `parse_message_record` works on. -/
structure Decoding where
  cur : Cursor
  record : Record

def onCursor {α : Type} (m : Action Cursor α) : Action Decoding α :=
  Action.zoom Decoding.cur (fun d c => { d with cur := c }) m

def setRecord (f : Record → Record) : Action Decoding Unit :=
  Action.update fun d => { d with record := f d.record }

/-- `kafka_record_header_deinit` on a header of which only the key was read. A key that is not NULL
points into the buffer that was received, and to free that is undefined behaviour. -/
def kafkaRecordHeaderDeinit (key : Option (List Byte)) : Action Decoding Unit :=
  match key with
  | none => pure ()
  | some _ => fun _ => none

/-- One pass of the loop over the headers. -/
def parseHeader : Action Decoding Unit := do
  let key ← onCursor (parseVarintBytes fuel mem)
  let value ← Action.onError (onCursor (parseVarintBytes fuel mem)) (kafkaRecordHeaderDeinit key)
  setRecord fun r => { r with headerList := r.headerList ++ [{ key := key, value := value }] }

/-- `parse_message_record`. The record keeps what was stored before an error. -/
def parseMessageRecord : Action Decoding Unit := do
  let _length ← onCursor (atCursor fuel mem parseVarintI64)
  let _attributes ← onCursor (parseI8 mem)
  let timestampDelta ← onCursor (atCursor fuel mem parseVarintI64)
  let offsetDelta ← onCursor (atCursor fuel mem parseVarintI64)
  setRecord fun r => { r with timestamp := r.timestamp + timestampDelta }
  setRecord fun r => { r with offset := r.offset + offsetDelta }
  let key ← onCursor (parseVarintBytes fuel mem)
  setRecord fun r => { r with key := key }
  let value ← onCursor (parseVarintBytes fuel mem)
  setRecord fun r => { r with value := value }
  let hdrSize ← onCursor (atCursor fuel mem parseVarintI32)
  Action.times (parseHeader fuel mem) hdrSize.toInt.toNat

/-- The members of `KafkaBatchRecordHeader` that are looked at again. -/
structure BatchRecordHeader where
  baseOffset : Int64
  length : Int32
  attributes : Int16
  baseTimestamp : Int64
  recordCount : Int32

/-- The check of the sum that the batch claims. -/
def checkCrc (crc32c : UInt32 → List Byte → UInt32) (length crc : Int32) : Action Cursor Unit :=
  fun c =>
    if Int32.ofInt ((Int32.ofNat c.size).toInt + 9) < length then some (none, c)
    else if (crc32c 0 (bytesAt mem c.off (toSize (length - 9).toInt))).toInt32 ≠ crc then
      some (none, c)
    else some (some (), c)

/-- The header of `parse_record_batch`. -/
def parseBatchHeader (crc32c : UInt32 → List Byte → UInt32) (checkCrcs : Bool) :
    Action Cursor BatchRecordHeader := do
  let baseOffset ← parseI64 mem
  let length ← parseI32 mem
  let _partitionLeaderEpoch ← parseI32 mem
  let _magic ← parseI8 mem
  let crc ← parseI32 mem
  if checkCrcs then checkCrc mem crc32c length crc else pure ()
  let attributes ← parseI16 mem
  let _lastOffsetDelta ← parseI32 mem
  let baseTimestamp ← parseI64 mem
  let _maxTimestamp ← parseI64 mem
  let _produceId ← parseI64 mem
  let _producerEpoch ← parseI16 mem
  let _baseSequence ← parseI32 mem
  let recordCount ← parseI32 mem
  pure { baseOffset, length, attributes, baseTimestamp, recordCount }

/-- What the loop over the records of a batch works on: `p` and `n`, the record list and the offset
of the partition. -/
structure RecordLoop where
  cur : Cursor
  recordList : List Record
  offset : Int64

/-- A record as the loop makes it before it is parsed. -/
def freshRecord (hdr : BatchRecordHeader) : Record where
  key := none
  value := none
  timestamp := hdr.baseTimestamp
  offset := hdr.baseOffset
  headerList := []

/-- One pass of the loop over the records. What `parse_message_record` returns is not looked at. -/
def decodeRecord (hdr : BatchRecordHeader) : Action RecordLoop Unit :=
  fun s => (parseMessageRecord fuel mem { cur := s.cur, record := freshRecord hdr }).map fun (_, d) =>
    (some (), { cur := d.cur, recordList := s.recordList ++ [d.record], offset := d.record.offset })

/-- What `parse_record_batch` works on. -/
structure BatchDecoding where
  cur : Cursor
  recordList : List Record
  offset : Int64
  uncompressed : List (List Byte)

/-- The loop over the records, from the block if there is one and else from the buffer, and what
follows it. -/
def decodeRecords (hdr : BatchRecordHeader) (block : List Byte) : Action BatchDecoding Nat :=
  fun d =>
    let source := if block.length > 0 then fun i => block.getD i.toNat 0 else mem
    let start := if block.length > 0 then { off := 0, size := block.length } else d.cur
    (Action.times (decodeRecord fuel source hdr) hdr.recordCount.toInt.toNat
      { cur := start, recordList := d.recordList, offset := d.offset }).map fun (_, s) =>
        (some 0,
          { cur := if hdr.attributes = 0 then s.cur else d.cur
            recordList := s.recordList
            offset := s.offset
            uncompressed := if block.length > 0 then d.uncompressed ++ [block] else d.uncompressed })

/-- What `parse_record_batch` does after the header. -/
def parseBatchBody (uncompressBuf : Int16 → List Byte → Option (List Byte))
    (hdr : BatchRecordHeader) : Action BatchDecoding Nat :=
  fun d =>
    let len := toSize (hdr.length - 61 + 12).toInt
    if d.cur.size < len then some (some 1, d)
    else if hdr.attributes &&& 7 ≠ 0 then
      match uncompressBuf (hdr.attributes &&& 7) (bytesAt mem d.cur.off len) with
      | none => some (none, d)
      | some block =>
          let after : Cursor := { off := d.cur.off + len, size := d.cur.size - len }
          decodeRecords fuel mem hdr block { d with cur := after }
    else decodeRecords fuel mem hdr [] d

/-- `parse_record_batch`, with the value it returns; an error is -1. -/
def parseRecordBatch (crc32c : UInt32 → List Byte → UInt32)
    (uncompressBuf : Int16 → List Byte → Option (List Byte)) (checkCrcs : Bool) :
    Action BatchDecoding Nat := do
  let hdr ← Action.zoom BatchDecoding.cur (fun d c => { d with cur := c })
    (parseBatchHeader mem crc32c checkCrcs)
  parseBatchBody fuel mem uncompressBuf hdr

end Parsing

end Workflow.Kafka
