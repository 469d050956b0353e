/-
Module: Workflow.Protocol.KafkaScram
Layer: Protocol
Purpose: The client's side of a SCRAM exchange (kafka_parser.c), as far as it checks what the server
  sends last. A message is its bytes, an `iovec` into it an offset and a length. The answer to the
  server's first message, which computes the signatures, is a parameter.
Trusted boundary: human-reviewed model
Main exports: scramGetAttr, KafkaScram, scramHandleServerFinalMessage, kafkaSaslScramRecv
-/
import Workflow.Lib.CString

namespace Workflow.Kafka

open Workflow.Lib

/-! ### Attributes -/

/-- The loop of `scram_get_attr` from the offset `of` on. The byte at `of + 1` counts only where it is
in the message. -/
def scramGetAttrFrom (inbuf : List Byte) (attr : Byte) (of : Nat) : Option (Nat × Nat) :=
  if of < inbuf.length then
    let len := ((inbuf.drop of).idxOf? 44).getD (inbuf.length - of)
    if inbuf[of]? = some attr ∧ inbuf.length > of + 1 ∧ inbuf[of + 1]? = some 61 then
      some (of + 2, subSize len 2)
    else scramGetAttrFrom inbuf attr (of + (len + 1))
  else none
termination_by inbuf.length - of

/-- `scram_get_attr`: where the value of the attribute begins, and how long it is. -/
def scramGetAttr (inbuf : List Byte) (attr : Byte) : Option (Nat × Nat) :=
  scramGetAttrFrom inbuf attr 0

/-- The bytes of an `iovec` into the message. -/
def slice (inbuf : List Byte) (v : Nat × Nat) : List Byte :=
  (inbuf.drop v.1).take v.2

/-- `strncmp(a, b, n) == 0`. -/
def strncmpEq (a b : List Byte) (n : Nat) : Bool :=
  (a.take n).takeWhile (· ≠ 0) == (b.take n).takeWhile (· ≠ 0)

/-! ### The exchange -/

/-- `enum __kafka_scram_state`. -/
inductive ScramState where
  | clientFirstMessage
  | serverFirstMessage
  | clientFinalMessage
  | clientFinished
  deriving DecidableEq

/-- `kafka_scram_t`; the length of the signature is its `strlen`. -/
structure KafkaScram where
  state : ScramState
  serverSignatureB64 : List Byte
  signature_wf : 0 ∉ serverSignatureB64

/-- `scram_handle_server_final_message`. -/
def scramHandleServerFinalMessage (buf : List Byte) (scram : KafkaScram) : Int :=
  if (scramGetAttr buf 109).isSome then -1
  else
    match scramGetAttr buf 118 with
    | some attrV =>
        if scram.serverSignatureB64.length = attrV.2 ∧
            strncmpEq scram.serverSignatureB64 (buf.drop attrV.1) attrV.2 = false then -1
        else 0
    | none => 0

/-- `kafka_sasl_scram_recv`, with what becomes of the server's first message. -/
def kafkaSaslScramRecv (handleFirst : List Byte → KafkaScram → Int × KafkaScram) (buf : List Byte)
    (scram : KafkaScram) : Int × KafkaScram :=
  match scram.state with
  | .serverFirstMessage =>
      let (ret, scram) := handleFirst buf scram
      (ret, { scram with state := .clientFinalMessage })
  | .clientFinalMessage =>
      (scramHandleServerFinalMessage buf scram, { scram with state := .clientFinished })
  | _ => (-1, scram)

end Workflow.Kafka
