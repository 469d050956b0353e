/-
Module: Workflow.Protocol.MysqlStream
Layer: Protocol
Purpose: The packets under a MySQL message. `MySQLMessage::encode` cuts the payload into packets and
  hands out vectors that point to the message's heads and to its buffer; `mysql_stream.c` puts the
  payload together again, with a function pointer that says which part of a packet it is in.
  `realloc` is a parameter, since it may fail.
Trusted boundary: human-reviewed model
Main exports: Iov, encode, wireBytes, MysqlStream, writeHead, writePayload, mysqlStreamWrite,
  mysqlStreamInit
-/
import Workflow.Lib.CString

namespace Workflow.MysqlWire

open Workflow.Lib

/-- `MYSQL_PAYLOAD_MAX`. -/
def payloadMax : Nat := (1 <<< 24) - 1

/-! ### Encoding -/

/-- `int3store` followed by the sequence id. -/
def packetHead (length : Nat) (seqid : UInt8) : List Byte :=
  [UInt8.ofNat length, UInt8.ofNat (length >>> 8), UInt8.ofNat (length >>> 16), seqid]

/-- What an element of `vectors` points to: a row of `heads_` or a piece of `buf_`. -/
inductive Iov where
  | head (row : UInt8)
  | data (bytes : List Byte)

/-- The members of a message that `encode` changes, and the vectors; `none` is `EOVERFLOW`. -/
structure Encoded where
  heads : UInt8 → List Byte
  seqid : UInt8
  vectors : Option (List Iov)

/-- The loop of `MySQLMessage::encode`; `i` vectors are filled in and `p` is what is left. -/
def encodeLoop (max : Nat) (seqidStart : UInt8) (i : Nat) (heads : UInt8 → List Byte)
    (seqid : UInt8) (p : List Byte) : Encoded :=
  let length := if p.length ≥ payloadMax then payloadMax else p.length
  let heads := Function.update heads seqid (packetHead length seqid)
  let vectors := [.head seqid, .data (p.take length)]
  if i + 2 > max then ⟨heads, seqid + 1, none⟩
  else if p.length < payloadMax then ⟨heads, seqid + 1, some vectors⟩
  else if seqid + 1 = seqidStart then ⟨heads, seqid + 1, none⟩
  else
    let r := encodeLoop max seqidStart (i + 2) heads (seqid + 1) (p.drop payloadMax)
    { r with vectors := r.vectors.map (vectors ++ ·) }
termination_by p.length
decreasing_by
  have : 0 < payloadMax := by decide
  simp only [List.length_drop]
  omega

/-- `MySQLMessage::encode`. -/
def encode (max : Nat) (heads : UInt8 → List Byte) (seqid : UInt8) (buf : List Byte) : Encoded :=
  encodeLoop max seqid 0 heads seqid buf

/-- The bytes that a vector points to once `encode` has returned. -/
def Iov.bytes (heads : UInt8 → List Byte) : Iov → List Byte
  | .head row => heads row
  | .data bytes => bytes

/-- The bytes that are sent. -/
def Encoded.wireBytes (e : Encoded) : Option (List Byte) :=
  e.vectors.map fun vectors => vectors.flatMap (Iov.bytes e.heads)

/-- `ENCODE_IOV_MAX`, with which the communicator calls `encode`. -/
def encodeIovMax : Nat := 8192

/-! ### The stream -/

/-- The functions that `stream->write` can point to. -/
inductive WriteFn where
  | head
  | payload
deriving DecidableEq

/-- `mysql_stream_t`. `buf` holds the `length` bytes written so far. -/
structure MysqlStream where
  head : List Byte
  headLeft : Nat
  sequenceId : UInt8
  payloadLength : Nat
  payloadLeft : Nat
  buf : List Byte
  bufsize : Nat
  write : WriteFn
  head_length : head.length = 4
  headLeft_pos : 0 < headLeft
  headLeft_le : headLeft ≤ 4

/-- `memcpy` of `bytes` to `dst + pos`. -/
def store (dst : List Byte) (pos : Nat) (bytes : List Byte) : List Byte :=
  dst.take pos ++ bytes ++ dst.drop (pos + bytes.length)

theorem length_store {dst bytes : List Byte} {pos : Nat} (h : pos + bytes.length ≤ dst.length) :
    (store dst pos bytes).length = dst.length := by
  simp only [store, List.length_append, List.length_take, List.length_drop]
  omega

/-- Bytes that are stored behind those of the head that are there leave it 4 bytes long. -/
theorem length_store_head {s : MysqlStream} {bytes : List Byte} (h : bytes.length ≤ s.headLeft) :
    (store s.head (4 - s.headLeft) bytes).length = 4 := by
  have hlen := s.head_length
  have hle := s.headLeft_le
  rw [length_store (by omega), hlen]

/-- `(head[2] << 16) + (head[1] << 8) + head[0]`. -/
def headLength (head : List Byte) : Nat :=
  ((head.getD 2 0).toNat <<< 16) + ((head.getD 1 0).toNat <<< 8) + (head.getD 0 0).toNat

/-- The new `bufsize`, when the buffer has to grow and `realloc` succeeds. -/
def growTo (realloc : Nat → Bool) (bufsize need : Nat) : Option Nat :=
  if bufsize < need then
    let newSize := growBuf need (max 2048 (2 * bufsize))
    if realloc newSize then some newSize else none
  else some bufsize

/-- `__mysql_stream_write_head`: the code, `*n` and the stream. -/
def writeHead (realloc : Nat → Bool) (bytes : List Byte) (s : MysqlStream) :
    Int × Nat × MysqlStream :=
  if h : bytes.length < s.headLeft then
    (0, bytes.length,
      { s with
        head := store s.head (4 - s.headLeft) bytes
        headLeft := s.headLeft - bytes.length
        head_length := length_store_head (Nat.le_of_lt h)
        headLeft_pos := Nat.sub_pos_of_lt h
        headLeft_le := Nat.le_trans (Nat.sub_le _ _) s.headLeft_le })
  else
    let head := store s.head (4 - s.headLeft) (bytes.take s.headLeft)
    let t : MysqlStream :=
      { s with
        head := head
        payloadLength := headLength head
        payloadLeft := headLength head
        sequenceId := head.getD 3 0
        head_length := length_store_head (List.length_take_le _ _) }
    match growTo realloc s.bufsize (s.buf.length + headLength head) with
    | none => (-1, bytes.length, t)
    | some bufsize => (0, s.headLeft, { t with bufsize := bufsize, write := .payload })

/-- `__mysql_stream_write_payload`. -/
def writePayload (bytes : List Byte) (s : MysqlStream) : Int × Nat × MysqlStream :=
  if bytes.length < s.payloadLeft then
    (0, bytes.length,
      { s with buf := s.buf ++ bytes, payloadLeft := s.payloadLeft - bytes.length })
  else
    (if s.payloadLength ≠ (1 <<< 24) - 1 then 1 else 0, s.payloadLeft,
      { s with
        buf := s.buf ++ bytes.take s.payloadLeft
        headLeft := 4
        write := .head
        headLeft_pos := by decide
        headLeft_le := by decide })

/-- `stream->write(buf, &n, stream)`. -/
def callWrite (realloc : Nat → Bool) (bytes : List Byte) (s : MysqlStream) :
    Int × Nat × MysqlStream :=
  match s.write with
  | .head => writeHead realloc bytes s
  | .payload => writePayload bytes s

/-- Bounds the passes that are left: every pass but the last reads a byte or leaves the payload. -/
def passes (bytes : List Byte) (s : MysqlStream) : Nat :=
  2 * bytes.length + if s.write = .payload then 1 else 0

/-- A pass that does not take all bytes goes on with less to do. -/
theorem passes_lt (realloc : Nat → Bool) (bytes : List Byte) (s : MysqlStream)
    (h : (callWrite realloc bytes s).2.1 ≠ bytes.length) :
    passes (bytes.drop (callWrite realloc bytes s).2.1) (callWrite realloc bytes s).2.2 <
      passes bytes s := by
  have hpos := s.headLeft_pos
  revert h
  unfold callWrite passes
  cases hwrite : s.write with
  | head =>
      simp only [writeHead]
      split
      · simp
      · split
        · simp
        · intro _
          simp only [List.length_drop, if_true, reduceCtorEq, if_false]
          omega
  | payload =>
      simp only [writePayload]
      split
      · simp
      · intro _
        simp only [List.length_drop, if_true, reduceCtorEq, if_false]
        omega

/-- `mysql_stream_write`. -/
def mysqlStreamWrite (realloc : Nat → Bool) (bytes : List Byte) (s : MysqlStream) :
    Int × MysqlStream :=
  let r := callWrite realloc bytes s
  if r.2.1 = bytes.length then (r.1, r.2.2)
  else mysqlStreamWrite realloc (bytes.drop r.2.1) r.2.2
termination_by passes bytes s
decreasing_by
  exact passes_lt realloc bytes s ‹_›

/-- `mysql_stream_init`, on memory with anything in it. -/
def mysqlStreamInit (s : MysqlStream) : MysqlStream :=
  { s with
    headLeft := 4
    sequenceId := 0
    buf := []
    bufsize := 0
    write := .head
    headLeft_pos := by decide
    headLeft_le := by decide }

/-- Successive calls of `mysql_stream_write`: the codes and the stream. -/
def feed (realloc : Nat → Bool) : List (List Byte) → MysqlStream → List Int × MysqlStream
  | [], s => ([], s)
  | chunk :: chunks, s =>
      let r := mysqlStreamWrite realloc chunk s
      let rest := feed realloc chunks r.2
      (r.1 :: rest.1, rest.2)

end Workflow.MysqlWire
