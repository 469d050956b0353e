/-
Module: Workflow.Protocol.KafkaAssignor
Layer: Protocol
Purpose: How the leader of a consumer group deals out the partitions (KafkaDataTypes.cc):
  `KafkaCgroup::run_assignor` and the assignors `range` and `roundrobin`. Indexing outside the array
  of members is undefined behaviour, `none`. Allocation succeeds throughout.
Trusted boundary: human-reviewed model
Main exports: KafkaMember, KafkaMeta, kafkaRangeAssignor, kafkaRoundrobinAssignor, runAssignor
-/
import Mathlib.Data.List.Lex
import Mathlib.Data.List.Sort
import Workflow.Lib.CString

namespace Workflow.Kafka

open Workflow.Lib

/-! ### Data -/

/-- A topic and a partition of it, as `set_topic_partition` makes a `KafkaToppar`. -/
structure Toppar where
  topic : List Byte
  partition : Nat
deriving DecidableEq

/-- `kafka_member_t`. `topparList` are the topics of `toppar_list`. `image` is the object itself
read as a string: its first bytes, which are those of the address of `member_id`, up to a 0. -/
structure KafkaMember where
  memberId : List Byte
  topparList : List (List Byte)
  assignedTopparList : List Toppar
  image : List Byte

/-- `KafkaMeta`; a negative number of partitions is none. -/
structure KafkaMeta where
  topic : List Byte
  partitionElements : Nat

/-- `KafkaMetaSubscriber`; a member is a position in the array that `run_assignor` was given. -/
structure KafkaMetaSubscriber where
  info : KafkaMeta
  member : List Nat

/-- `strcmp(f(a), f(b)) <= 0`. -/
def StrcmpLe {α : Type} (f : α → List Byte) (a b : α) : Prop :=
  (f a).map UInt8.toNat ≤ (f b).map UInt8.toNat

instance {α : Type} (f : α → List Byte) : DecidableRel (StrcmpLe f) := fun a b =>
  inferInstanceAs (Decidable ((f a).map UInt8.toNat ≤ (f b).map UInt8.toNat))

/-- Run the body of a loop for each element; it may end the function with an error, `false`. -/
def forEach {α σ : Type} (body : σ → α → Option (Bool × σ)) : List α → σ → Option (Bool × σ)
  | [], s => some (true, s)
  | a :: rest, s => do
      let (ok, s) ← body s a
      if ok then forEach body rest s else return (false, s)

/-- `list_add_tail(toppar->get_list(), &member->assigned_toppar_list)`. -/
def assign (group : List KafkaMember) (k : Nat) (toppar : Toppar) : List KafkaMember :=
  group.modify k fun m => { m with assignedTopparList := m.assignedTopparList ++ [toppar] }

/-! ### The range assignor -/

/-- The members of a subscriber in the order of `sort_by_member`. -/
def sortByMember (group : List KafkaMember) (members : List Nat) : List Nat :=
  members.insertionSort (StrcmpLe fun k => (group[k]?.map KafkaMember.memberId).getD [])

/-- The partitions of the member at place `i` of a topic. -/
def rangeOf (partitions consumers i : Nat) : List Nat :=
  let extra := partitions % consumers
  List.range' (partitions / consumers * i + min i extra)
    (partitions / consumers + if i + 1 > extra then 0 else 1)

/-- One topic of `kafka_range_assignor`. -/
def rangeTopic (group : List KafkaMember) (subscriber : KafkaMetaSubscriber) : List KafkaMember :=
  let members := sortByMember group subscriber.member
  members.zipIdx.foldl (fun group (k, i) =>
    (rangeOf subscriber.info.partitionElements members.length i).foldl
      (fun group j => assign group k ⟨subscriber.info.topic, j⟩) group) group

/-- `kafka_range_assignor`. -/
def kafkaRangeAssignor (group : List KafkaMember) (subscribers : List KafkaMetaSubscriber) :
    Option (Int × List KafkaMember) :=
  some (0, subscribers.foldl rangeTopic group)

/-! ### The round-robin assignor -/

/-- `qsort(members, member_elements, sizeof (kafka_member_t *), compare_member)`. The comparison is
given places of the array, but reads them as members: the strings it compares are the members
themselves. -/
def qsortMembers (group : List KafkaMember) : List Nat :=
  (List.range group.length).insertionSort
    (StrcmpLe fun k => (group[k]?.map KafkaMember.image).getD [])

/-- `std::sort` of the subscribers by topic. -/
def sortSubscribers (subscribers : List KafkaMetaSubscriber) : List KafkaMetaSubscriber :=
  subscribers.insertionSort (StrcmpLe fun subscriber => subscriber.info.topic)

/-- The search for a subscribed member from `members[next]` on, with `n` passes left. -/
def findMember (group : List KafkaMember) (members : List Nat) (topic : List Byte) (next : Nat) :
    Nat → Nat → Option Nat
  | 0, i => some i
  | n + 1, i => do
      let k ← members[next + i]?
      let m ← group[k]?
      if topic ∈ m.topparList then return i else findMember group members topic next n (i + 1)

/-- The variables of the loops: `next` and the members. -/
structure RoundRobin where
  next : Int
  group : List KafkaMember

/-- One partition of a topic. -/
def assignPartition (members : List Nat) (subscriber : KafkaMetaSubscriber) (s : RoundRobin)
    (partition : Nat) : Option (Bool × RoundRobin) := do
  let next := (s.next + 1) % subscriber.member.length
  let i ← findMember s.group members subscriber.info.topic next.toNat members.length 0
  if members.length ≤ i then return (false, { s with next := next })
  else
    let k ← members[next.toNat]?
    return (true, ⟨next, assign s.group k ⟨subscriber.info.topic, partition⟩⟩)

/-- One topic. -/
def assignTopic (members : List Nat) (s : RoundRobin) (subscriber : KafkaMetaSubscriber) :
    Option (Bool × RoundRobin) :=
  forEach (assignPartition members subscriber) (List.range subscriber.info.partitionElements) s

/-- `kafka_roundrobin_assignor`; the array of members is left in the order of the sort. -/
def kafkaRoundrobinAssignor (group : List KafkaMember) (subscribers : List KafkaMetaSubscriber) :
    Option (Int × List KafkaMember) := do
  let members := qsortMembers group
  let (ok, s) ← forEach (assignTopic members) (sortSubscribers subscribers) ⟨-1, group⟩
  return (if ok then 0 else -1, members.filterMap fun k => s.group[k]?)

/-! ### Running an assignor -/

/-- The topics of the list that have subscribers. -/
def subscribersOf (group : List KafkaMember) (metaList : List KafkaMeta) :
    List KafkaMetaSubscriber :=
  (metaList.map fun info => (⟨info, (List.range group.length).filter fun i =>
    (group[i]?).any fun m => info.topic ∈ m.topparList⟩ : KafkaMetaSubscriber)).filter
      fun subscriber => ¬ subscriber.member = []

/-- `kafka_assignor_t`. -/
abbrev Assignor := List KafkaMember → List KafkaMetaSubscriber → Option (Int × List KafkaMember)

/-- `group_protocol_list`, as the constructor of `KafkaCgroup` makes it. -/
def groupProtocolList : List (String × Assignor) :=
  [("range", kafkaRangeAssignor), ("roundrobin", kafkaRoundrobinAssignor)]

/-- `KafkaCgroup::run_assignor`: what it returns, and the members afterwards. -/
def runAssignor (group : List KafkaMember) (metaList : List KafkaMeta) (protocolName : String) :
    Option (Int × List KafkaMember) :=
  match groupProtocolList.lookup protocolName with
  | none => some (-1, group)
  | some assignor => assignor group (subscribersOf group metaList)

end Workflow.Kafka
