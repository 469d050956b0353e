/-
Module: Workflow.Protocol.KafkaMemberAssignment
Layer: Protocol
Purpose: The assignment that the leader of a consumer group sends to a member (KafkaMessage.cc):
  `get_member_assignment` writes every partition as a topic of its own, with the number of topics
  put in afterwards; `kafka_parse_member_assignment` reads topics with any number of partitions. Its
  macro `CHECK_RET` makes a read that fails a second time, and what that returns is returned.
  Allocation succeeds throughout.
Trusted boundary: human-reviewed model
Main exports: TopicPartition, appendString, getMemberAssignment, parseString, AssignmentParsing,
  checkRet, kafkaParseMemberAssignment
-/
import Workflow.Protocol.KafkaRecord

namespace Workflow.Kafka

open Workflow.Lib

/-- The topic and the partition of a `KafkaToppar`. -/
structure TopicPartition where
  topic : List Byte
  partition : Int32
deriving DecidableEq

/-! ### Writing -/

/-- `append_string(buf, str)`, which finds the length with `strlen`. -/
def appendString (str : List Byte) : List Byte :=
  let text := str.takeWhile (· ≠ 0)
  appendI16 (Int16.ofNat text.length) ++ text

/-- `append_bytes(buf, str)`. -/
def appendBytes (str : List Byte) : List Byte :=
  appendI32 (Int32.ofNat str.length) ++ str

/-- `*(int *)(assignment.c_str() + pos) = htonl(val)`. -/
def overwriteI32 (pos : Nat) (val : Int32) (buf : List Byte) : List Byte :=
  buf.take pos ++ appendI32 val ++ buf.drop (pos + 4)

/-- What the loop appends for one partition. -/
def topparStr (toppar : TopicPartition) : List Byte :=
  appendString toppar.topic ++ appendI32 1 ++ appendI32 toppar.partition

/-- One pass of the loop: the string and `topic_cnt`. -/
def appendToppar (s : List Byte × Int32) (toppar : TopicPartition) : List Byte × Int32 :=
  (s.1 ++ topparStr toppar, s.2 + 1)

/-- `get_member_assignment`. -/
def getMemberAssignment (assignedTopparList : List TopicPartition) : List Byte :=
  let version := appendI16 2
  let topicCntPos := version.length
  let s := assignedTopparList.foldl appendToppar (version ++ appendI32 0, 0)
  overwriteI32 topicCntPos s.2 (s.1 ++ appendBytes [])

/-! ### Reading -/

section Parsing

variable (mem : Int → Byte)

/-- The bytes of a string of the length that was read; if they are missing, the length is put
back. -/
def takeString (len : Nat) : Action Cursor (List Byte) :=
  fun c =>
    if len ≤ c.size then
      some (some (bytesAt mem c.off len), { off := c.off + len, size := c.size - len })
    else some (none, { off := c.off - 2, size := c.size + 2 })

/-- `parse_string(buf, size, str)`. -/
def parseString : Action Cursor (List Byte) := do
  let len ← parseI16 mem
  if len < -1 then Action.fail
  else takeString mem (if len = -1 then 0 else len.toInt.toNat)

/-- What `kafka_parse_member_assignment` works on: the pointer with the size, the partitions assigned
in the group, and what is returned when the parsing stops early. -/
structure AssignmentParsing where
  cur : Cursor
  assignedTopparList : List TopicPartition
  ret : Int

/-- `return ret`. -/
def returnEarly {α : Type} (ret : Int) : Action AssignmentParsing α :=
  fun s => some (none, { s with ret := ret })

/-- `CHECK_RET(exp)`, which is `if (exp < 0) return exp`: a read that fails is made again, and the value
that it then returns is returned. -/
def checkRet {α : Type} (exp : Action Cursor α) : Action AssignmentParsing α :=
  fun s => (exp s.cur).bind fun
    | (some a, c) => some (some a, { s with cur := c })
    | (none, c) => (exp c).map fun (again, c) =>
        (none, { s with cur := c, ret := if again.isSome then 0 else -1 })

/-- `set_topic_partition` on a new object, which takes the name up to its first NUL, and
`add_assigned_toppar`. -/
def addAssignedToppar (topicName : List Byte) (partition : Int32) :
    Action AssignmentParsing Unit :=
  Action.update fun s => { s with
    assignedTopparList := s.assignedTopparList ++ [⟨topicName.takeWhile (· ≠ 0), partition⟩] }

/-- One partition of a topic. -/
def parsePartition (topicName : List Byte) : Action AssignmentParsing Unit := do
  let partition ← checkRet (parseI32 mem)
  addAssignedToppar topicName partition

/-- One topic. -/
def parseTopic : Action AssignmentParsing Unit := do
  let topicName ← checkRet (parseString mem)
  let partitionCnt ← checkRet (parseI32 mem)
  Action.times (parsePartition mem topicName) partitionCnt.toInt.toNat

/-- The body of `kafka_parse_member_assignment`. -/
def parseAssignment : Action AssignmentParsing Unit := do
  let _version ← checkRet (parseI16 mem)
  let topicCnt ← checkRet (parseI32 mem)
  if topicCnt < 0 then returnEarly (-1)
  else do
    Action.update fun s => { s with assignedTopparList := [] }
    Action.times (parseTopic mem) topicCnt.toInt.toNat

/-- `kafka_parse_member_assignment` on `n` bytes, with `before` assigned in the group: the value
returned, and the partitions assigned then. -/
def kafkaParseMemberAssignment (n : Nat) (before : List TopicPartition) :
    Option (Int × List TopicPartition) :=
  (parseAssignment mem { cur := ⟨0, n⟩, assignedTopparList := before, ret := 0 }).map fun (r, s) =>
    (if r.isSome then 0 else s.ret, s.assignedTopparList)

/-- A length that is refused is read over the second time: the parsing returns 0 in the middle. -/
example : kafkaParseMemberAssignment (fun i => [0, 2, 0, 0, 0, 1, 0xff, 0xfe, 0, 0].getD i.toNat 0) 10
    [⟨[116], 0⟩] = some (0, []) := by decide

end Parsing

end Workflow.Kafka
