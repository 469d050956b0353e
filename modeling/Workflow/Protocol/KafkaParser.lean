/-
Module: Workflow.Protocol.KafkaParser
Layer: Protocol
Purpose: `kafka_parser_append_message` (kafka_parser.c): the framing of Kafka responses, a length of
  four bytes and a body. The copy of the body is clipped to the declared size. Allocation succeeds
  throughout.
Trusted boundary: human-reviewed model
Main exports: KafkaParser, kafkaParserInit, kafkaParserAppendMessage, appendAll
-/
import Workflow.Lib.CString

namespace Workflow.Kafka

open Workflow.Lib

/-- `kafka_parser_t`. `headbuf` holds the `hsize` bytes of the length that are there, and `msgbuf`,
once allocated, the `cur_size` bytes of the body. -/
structure KafkaParser where
  complete : Bool
  messageSize : Nat
  msgbuf : Option (List Byte)
  headbuf : List Byte

/-- `kafka_parser_init`. -/
def kafkaParserInit : KafkaParser where
  complete := false
  messageSize := 0
  msgbuf := none
  headbuf := []

/-- `ntohl` of the four bytes, as `size_t`. -/
def ntohl (head : List Byte) : Nat :=
  (head.getD 0 0).toNat <<< 24 ||| (head.getD 1 0).toNat <<< 16 ||| (head.getD 2 0).toNat <<< 8 |||
    (head.getD 3 0).toNat

/-- The part of `kafka_parser_append_message` behind the length: the body takes what it needs of
`rest`; `size` is `*size`. -/
def appendBody (size : Nat) (body rest : List Byte) (p : KafkaParser) : Int × Nat × KafkaParser :=
  let body := if rest.length > p.messageSize - body.length then
      body ++ rest.take (p.messageSize - body.length)
    else body ++ rest
  let p := { p with msgbuf := some body }
  if body.length < p.messageSize then (0, size, p)
  else (1, subSize size (p.messageSize - body.length), p)

/-- `kafka_parser_append_message`: the code, `*size` and the parser. -/
def kafkaParserAppendMessage (buf : List Byte) (p : KafkaParser) : Int × Nat × KafkaParser :=
  if p.complete then (1, 0, p)
  else if p.headbuf.length + buf.length < 4 then
    (0, buf.length, { p with headbuf := p.headbuf ++ buf })
  else
    match p.msgbuf with
    | none =>
        let need := 4 - p.headbuf.length
        let head := p.headbuf ++ buf.take need
        appendBody buf.length [] (buf.drop need)
          { p with headbuf := head, messageSize := ntohl head, msgbuf := some [] }
    | some body => appendBody buf.length body buf p

/-- Successive calls, up to the first code that is not 0: the last code, the sum of the sizes and the
parser. -/
def appendAll : List (List Byte) → KafkaParser → Int × Nat × KafkaParser
  | [], p => (0, 0, p)
  | chunk :: chunks, p =>
      let r := kafkaParserAppendMessage chunk p
      if r.1 = 0 then
        let rest := appendAll chunks r.2.2
        (rest.1, addSize r.2.1 rest.2.1, rest.2.2)
      else r

end Workflow.Kafka
