/-
Module: Workflow.Proofs.KafkaMemberAssignment
Layer: Proofs
Purpose: What the leader writes for a member, the member reads back, as long as the number of
  partitions fits the count in front of them.
Trusted boundary: none
Main exports: getMemberAssignment_eq, At.string, parseTopics_ok, AssignmentRoundTrips,
  memberAssignment_roundTrips
-/
import Workflow.Protocol.KafkaMemberAssignment
import Workflow.Proofs.KafkaRecord

namespace Workflow.Kafka

open Workflow.Lib

/-! ### What is written -/

theorem foldl_appendToppar (toppars : List TopicPartition) (buf : List Byte) (n : Nat) :
    toppars.foldl appendToppar (buf, Int32.ofNat n) =
      (buf ++ (toppars.map topparStr).flatten, Int32.ofNat (n + toppars.length)) := by
  induction toppars generalizing buf n with
  | nil => simp
  | cons toppar rest ih =>
      have hnext : Int32.ofNat n + 1 = Int32.ofNat (n + 1) := (Int32.ofNat_add n 1).symm
      rw [List.foldl_cons, appendToppar, hnext, ih]
      simp [Nat.add_comm, Nat.add_left_comm]

theorem overwriteI32_append (front back : List Byte) (old new : Int32) :
    overwriteI32 front.length new (front ++ appendI32 old ++ back) =
      front ++ appendI32 new ++ back := by
  have hlen : (appendI32 old).length = 4 := length_bigEndian ..
  have htake : (front ++ appendI32 old ++ back).take front.length = front := by
    rw [List.append_assoc, List.take_left]
  have hdrop : (front ++ appendI32 old ++ back).drop (front.length + 4) = back := by
    rw [← hlen, ← List.length_append, List.drop_left]
  rw [overwriteI32, htake, hdrop]

/-- The count is put in front of the partitions. -/
theorem getMemberAssignment_eq (toppars : List TopicPartition) :
    getMemberAssignment toppars = appendI16 2 ++ (appendI32 (Int32.ofNat toppars.length) ++
      ((toppars.map topparStr).flatten ++ appendBytes [])) := by
  have hfold := foldl_appendToppar toppars (appendI16 2 ++ appendI32 0) 0
  rw [Nat.zero_add, show Int32.ofNat 0 = 0 from rfl] at hfold
  unfold getMemberAssignment
  simp only [hfold]
  rw [List.append_assoc (appendI16 2 ++ appendI32 0), overwriteI32_append]
  simp only [List.append_assoc]

/-! ### What is read -/

section Reading

variable {mem : Int → Byte} {stop : Nat} {rest : List Byte}

/-- `strlen` finds the whole of a name without NUL. -/
theorem takeWhile_of_no_nul {str : List Byte} (hnul : 0 ∉ str) : str.takeWhile (· ≠ 0) = str :=
  List.takeWhile_eq_self_iff.mpr fun x hx => by
    simp only [ne_eq, decide_not, Bool.not_eq_eq_eq_not, Bool.not_true, decide_eq_false_iff_not]
    exact fun heq => hnul (heq ▸ hx)

/-- A name that is short enough comes back. -/
theorem At.string {c : Cursor} {str : List Byte} (hlen : str.length < 2 ^ 15) (hnul : 0 ∉ str)
    (h : At mem stop c (appendString str ++ rest)) :
    ∃ c', parseString mem c = some (some str, c') ∧ At mem stop c' rest := by
  rw [appendString, takeWhile_of_no_nul hnul, List.append_assoc] at h
  obtain ⟨c₁, hread, hat⟩ := At.i16 h
  have hvalue : (Int16.ofNat str.length).toInt = str.length := Int16.toInt_ofNat_of_lt hlen
  have hminus : (-1 : Int16).toInt = -1 := by decide
  have hnotless : ¬ Int16.ofNat str.length < -1 := by
    rw [Int16.lt_iff_toInt_lt, hvalue, hminus]
    omega
  have hnotminus : ¬ Int16.ofNat str.length = -1 := by
    rw [← Int16.toInt_inj, hvalue, hminus]
    omega
  refine ⟨_, ?_, hat.skip⟩
  rw [parseString, Action.bind_ok hread, if_neg hnotless, if_neg hnotminus, takeString, hvalue,
    Int.toNat_natCast, if_pos hat.length_le, hat.bytesAt_eq]

theorem checkRet_ok {α : Type} {exp : Action Cursor α} {s : AssignmentParsing} {a : α} {c : Cursor}
    (h : exp s.cur = some (some a, c)) : checkRet exp s = some (some a, { s with cur := c }) := by
  rw [checkRet, h]
  rfl

/-- The state after more partitions. -/
def AssignmentParsing.withToppars (s : AssignmentParsing) (toppars : List TopicPartition)
    (c : Cursor) : AssignmentParsing where
  cur := c
  assignedTopparList := s.assignedTopparList ++ toppars
  ret := s.ret

/-- A topic name that can be sent. -/
def TopicPartition.Sendable (toppar : TopicPartition) : Prop :=
  toppar.topic.length < 2 ^ 15 ∧ 0 ∉ toppar.topic

theorem parseTopic_ok {s : AssignmentParsing} {toppar : TopicPartition} (hname : toppar.Sendable)
    (h : At mem stop s.cur (topparStr toppar ++ rest)) :
    ∃ c, parseTopic mem s = some (some (), s.withToppars [toppar] c) ∧ At mem stop c rest := by
  rw [topparStr, List.append_assoc, List.append_assoc] at h
  obtain ⟨c₁, hstring, hat₁⟩ := At.string hname.1 hname.2 h
  obtain ⟨c₂, hcnt, hat₂⟩ := At.i32 hat₁
  obtain ⟨c₃, hpartition, hat₃⟩ := At.i32 hat₂
  have htext : toppar.topic.takeWhile (· ≠ 0) = toppar.topic := takeWhile_of_no_nul hname.2
  have hone : (1 : Int32).toInt.toNat = 1 := by decide
  refine ⟨c₃, ?_, hat₃⟩
  rw [parseTopic, Action.bind_ok (checkRet_ok hstring),
    Action.bind_ok (checkRet_ok (s := { s with cur := c₁ }) hcnt), hone]
  have hpass : parsePartition mem toppar.topic { s with cur := c₂ } =
      some (some (), s.withToppars [toppar] c₃) := by
    rw [parsePartition, Action.bind_ok (checkRet_ok (s := { s with cur := c₂ }) hpartition)]
    simp only [addAssignedToppar, Action.update, htext]
    rfl
  exact Action.times_succ_ok hpass

theorem parseTopics_ok {s : AssignmentParsing} {toppars : List TopicPartition}
    (hnames : ∀ toppar ∈ toppars, toppar.Sendable)
    (h : At mem stop s.cur ((toppars.map topparStr).flatten ++ rest)) :
    ∃ c, Action.times (parseTopic mem) toppars.length s =
      some (some (), s.withToppars toppars c) ∧ At mem stop c rest := by
  induction toppars generalizing s with
  | nil =>
      refine ⟨s.cur, ?_, h⟩
      simp only [AssignmentParsing.withToppars, List.append_nil]
      rfl
  | cons toppar toppars ih =>
      obtain ⟨hname, hrest⟩ := List.forall_mem_cons.mp hnames
      rw [List.map_cons, List.flatten_cons, List.append_assoc] at h
      obtain ⟨c₁, hone, hat₁⟩ := parseTopic_ok hname h
      obtain ⟨c₂, hall, hat₂⟩ := ih (s := s.withToppars [toppar] c₁) hrest hat₁
      refine ⟨c₂, ?_, hat₂⟩
      rw [List.length_cons, Action.times_succ_ok hone, hall]
      simp [AssignmentParsing.withToppars]

end Reading

/-! ### The round trip -/

theorem Holds.at {mem : Int → Byte} {bytes : List Byte} (h : Holds mem bytes) :
    At mem bytes.length ⟨0, bytes.length⟩ bytes :=
  ⟨fun i hi => by rw [Nat.cast_zero, Int.zero_add]; exact h i hi, rfl, Nat.zero_add _⟩

/-- What is written for the partitions is read with success, and then they are the assigned ones,
whatever was assigned before. -/
def AssignmentRoundTrips (toppars : List TopicPartition) : Prop :=
  ∀ mem before, Holds mem (getMemberAssignment toppars) →
    kafkaParseMemberAssignment mem (getMemberAssignment toppars).length before = some (0, toppars)

/-- The version and the count in front of the partitions. -/
theorem parse_head {mem : Int → Byte} {toppars : List TopicPartition}
    (h : Holds mem (getMemberAssignment toppars)) (before : List TopicPartition) :
    ∃ c, parseAssignment mem ⟨⟨0, (getMemberAssignment toppars).length⟩, before, 0⟩ =
        (if Int32.ofNat toppars.length < 0 then returnEarly (-1)
          else do
            Action.update fun s => { s with assignedTopparList := [] }
            Action.times (parseTopic mem) (Int32.ofNat toppars.length).toInt.toNat
          : Action AssignmentParsing Unit) ⟨c, before, 0⟩ ∧
      At mem (getMemberAssignment toppars).length c
        ((toppars.map topparStr).flatten ++ appendBytes []) := by
  have hat := h.at
  generalize (getMemberAssignment toppars).length = stop at hat ⊢
  rw [getMemberAssignment_eq] at hat
  obtain ⟨c₁, hversion, hat₁⟩ := At.i16 hat
  obtain ⟨c₂, hcnt, hat₂⟩ := At.i32 hat₁
  refine ⟨c₂, ?_, hat₂⟩
  rw [parseAssignment, Action.bind_ok (checkRet_ok (s := ⟨⟨0, stop⟩, before, 0⟩) hversion),
    Action.bind_ok (checkRet_ok (s := ⟨c₁, before, 0⟩) hcnt)]

/-- Less than `2 ^ 31` partitions of topics with names that can be sent come back. -/
theorem memberAssignment_roundTrips (toppars : List TopicPartition)
    (hnames : ∀ toppar ∈ toppars, toppar.Sendable) (hcount : toppars.length < 2 ^ 31) :
    AssignmentRoundTrips toppars := by
  intro mem before hmem
  obtain ⟨c, hparse, hat⟩ := parse_head hmem before
  have hvalue : (Int32.ofNat toppars.length).toInt = toppars.length :=
    Int32.toInt_ofNat_of_lt hcount
  have hzero : (0 : Int32).toInt = 0 := rfl
  have hpositive : ¬ Int32.ofNat toppars.length < 0 := by
    rw [Int32.lt_iff_toInt_lt, hvalue, hzero]
    omega
  obtain ⟨c', hall, -⟩ := parseTopics_ok (s := ⟨c, [], 0⟩) hnames hat
  rw [if_neg hpositive, hvalue, Int.toNat_natCast] at hparse
  have hbody : parseAssignment mem ⟨⟨0, (getMemberAssignment toppars).length⟩, before, 0⟩ =
      some (some (), AssignmentParsing.withToppars ⟨c, [], 0⟩ toppars c') := hparse.trans hall
  rw [kafkaParseMemberAssignment, hbody]
  rfl

/-- Two partitions of one topic and one of another. -/
theorem memberAssignment_roundTrips_three : AssignmentRoundTrips
    [⟨ascii "t", 0⟩, ⟨ascii "t", 1⟩, ⟨ascii "u", -1⟩] := by
  refine memberAssignment_roundTrips _ (fun toppar h => ?_) (by decide)
  simp only [List.mem_cons, List.not_mem_nil, or_false] at h
  rcases h with rfl | rfl | rfl <;> exact ⟨by decide, by decide⟩

/-- With `2 ^ 31` partitions the count becomes negative, and is refused. -/
theorem memberAssignment_refused : ¬ AssignmentRoundTrips (List.replicate (2 ^ 31) ⟨[], 0⟩) := by
  intro hround
  obtain ⟨mem, hmem⟩ := exists_holds (getMemberAssignment (List.replicate (2 ^ 31) ⟨[], 0⟩))
  have hok := hround mem [] hmem
  obtain ⟨c, hparse, -⟩ := parse_head hmem []
  rw [List.length_replicate, if_pos (by decide)] at hparse
  rw [kafkaParseMemberAssignment, hparse] at hok
  cases hok

end Workflow.Kafka
