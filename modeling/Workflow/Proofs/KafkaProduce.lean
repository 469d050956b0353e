/-
Module: Workflow.Proofs.KafkaProduce
Layer: Proofs
Purpose: The loop of `encode_produce` over the records of a partition, in terms of the records alone:
  which of them go into the batch, what they add, and where the cursor stands afterwards. How many
  there may be is tested against the number of the record that is about to be added, so that a batch
  can take one record more than the limit.
Trusted boundary: none
Main exports: Batch, Batch.offer, collect, PassTaken, recordPass_taken, Standing, recordLoop_spec,
  LimitMet, recordLimit_iff
-/
import Workflow.Proofs.KafkaBatch
import Workflow.Protocol.KafkaProduce

namespace Workflow.Kafka

open Workflow.Lib

/-! ### Offering records to a batch -/

/-- What the loop keeps about the batch, apart from its blocks. -/
structure Batch (ε : Type) where
  compressEnv : ε
  batchLength : Int32
  batchCnt : Int32
  firstTimestamp : Int64
  maxTimestamp : Int64

/-- What becomes of a record: it is taken and adds blocks, it does not fit, or an error occurs. -/
inductive Offered (ε : Type) where
  | taken (added : List (List Byte)) (b : Batch ε)
  | full
  | failed

/-- An empty block is not added. -/
def solid (block : List Byte) : List (List Byte) :=
  if block.length > 0 then [block] else []

section Offers

variable {ε : Type} (libs : Libraries ε) (req : KafkaRequest)

/-- A way to append a record: its number, the first time stamp, the environment and the size so far. -/
abbrev Append (ε : Type) := Record → Int32 → Int64 → ε → Int32 → Appended ε

/-- Offer a record to the batch. -/
def Batch.offer (append : Append ε) (record : Record) (b : Batch ε) : Offered ε :=
  match (if b.batchCnt = 0 then kafkaCompressPrepare libs req.config.compressType b.compressEnv
    else some (b.compressEnv, [])) with
  | none => .failed
  | some (env, compressBlock) =>
      let first := if b.batchCnt = 0 then record.timestamp else b.firstTimestamp
      match append record b.batchCnt first env b.batchLength with
      | .failed => .failed
      | .full => .full
      | .filled block env => .taken (solid compressBlock ++ solid block)
          { compressEnv := env
            batchLength := Int32.ofInt (b.batchLength.toInt +
              ((compressBlock.length + block.length : Nat) : Int))
            batchCnt := b.batchCnt + 1
            firstTimestamp := first
            maxTimestamp := record.timestamp }

/-- `append_record` for the request at hand. -/
def Append.counted : Append ε :=
  fun record offset first env size =>
    Produce.appendRecord libs req.config record offset req.messageVersion first env size

/-- The same without the limit on the number of records. -/
def Append.sized : Append ε :=
  fun record offset first env size =>
    appendVersioned libs req.config record offset req.messageVersion first env size

inductive Ending where
  | exhausted
  | full
  | failed
deriving DecidableEq

/-- How many records a batch takes, the blocks they add, and how it ends. -/
structure Collected (ε : Type) where
  count : Nat
  blocks : List (List Byte)
  batch : Batch ε
  ending : Ending

/-- Offer one record after the other. -/
def collect (append : Append ε) : List Record → Batch ε → Collected ε
  | [], b => ⟨0, [], b, .exhausted⟩
  | record :: records, b =>
      match b.offer libs req append record with
      | .taken added b' =>
          let c := collect append records b'
          { c with count := c.count + 1, blocks := added ++ c.blocks }
      | .full => ⟨0, [], b, .full⟩
      | .failed => ⟨0, [], b, .failed⟩

end Offers

/-- A record without its time stamp, which the loop overwrites. -/
def Record.bare (record : Record) : Record :=
  { record with timestamp := 0 }

/-- The records with the readings of the clock from `i` on. -/
def stampFrom (clock : Nat → Int64) : Nat → List Record → List Record
  | _, [] => []
  | i, record :: records => { record with timestamp := clock i } :: stampFrom clock (i + 1) records

theorem length_stampFrom (clock : Nat → Int64) (i : Nat) (records : List Record) :
    (stampFrom clock i records).length = records.length := by
  induction records generalizing i with
  | nil => rfl
  | cons record records ih => rw [stampFrom, List.length_cons, ih, List.length_cons]

/-! ### One pass -/

section Pass

variable {ε : Type} {libs : Libraries ε} {req : KafkaRequest} {clock : Nat → Int64}

/-- The variables of the batch. -/
def ProduceLoop.vars (s : ProduceLoop ε) : Batch ε where
  compressEnv := s.compressEnv
  batchLength := s.batchLength
  batchCnt := s.batchCnt
  firstTimestamp := s.firstTimestamp
  maxTimestamp := s.maxTimestamp

/-- The buffer with more blocks at its end. -/
def KafkaBuffer.addItems (blocks : List (List Byte)) (b : KafkaBuffer) : KafkaBuffer :=
  blocks.foldl (fun b block => b.addItem block) b

/-- An empty block is not added. -/
theorem addItems_solid (block : List Byte) (b : KafkaBuffer) :
    b.addItems (solid block) = if block.length > 0 then b.addItem block else b := by
  unfold solid
  split
  · rfl
  · rfl

/-- Blocks that are added stand behind the others. -/
theorem addItems_eq (blocks : List (List Byte)) (b : KafkaBuffer) :
    b.addItems blocks = { b with
      blockList := b.blockList ++ blocks
      bufSize := b.bufSize + blocks.flatten.length } := by
  induction blocks generalizing b with
  | nil => simp [KafkaBuffer.addItems]
  | cons block blocks ih =>
      have hrest := ih (b.addItem block)
      unfold KafkaBuffer.addItems at hrest ⊢
      rw [List.foldl_cons, hrest]
      simp [KafkaBuffer.addItem, Nat.add_assoc]

theorem addItems_append (blocks more : List (List Byte)) (b : KafkaBuffer) :
    b.addItems (blocks ++ more) = (b.addItems blocks).addItems more :=
  List.foldl_append

theorem length_solid (block : List Byte) : (solid block).flatten.length = block.length := by
  unfold solid
  split
  · simp
  · simp only [List.flatten_nil, List.length_nil]
    omega

/-- What a pass has done that took its record: the cursor and the batch have moved on, the flag is
set, and the blocks stand at the end of the buffer, behind the header of the topic if the record is
the first one. -/
structure PassTaken (clock : Nat → Int64) (s : ProduceLoop ε) (toppar : KafkaToppar)
    (added : List (List Byte)) (b : Batch ε) (t : ProduceLoop ε) : Prop where
  vars : t.vars = b
  toppar : t.toppar = (toppar.setTimestamp (clock s.pass)).saveRecordEndpos
  pass : t.pass = s.pass + 1
  recordFlag : t.recordFlag = 0
  curSerializedLen : t.curSerializedLen = t.serialized.bufSize
  first : s.batchCnt = 0 → t.recordsetNode = s.serialized.blockList.length + 1 ∧
    t.serialized =
      ((s.serialized.addItem (topicHeader s.toppar)).setInsertPos).addItems added
  later : s.batchCnt ≠ 0 → t.recordsetNode = s.recordsetNode ∧
    t.serialized = s.serialized.addItems added

/-- The state after the cursor has moved and the clock has been read. -/
def ProduceLoop.advance (clock : Nat → Int64) (toppar : KafkaToppar) (s : ProduceLoop ε) :
    ProduceLoop ε :=
  { s with toppar := toppar.setTimestamp (clock s.pass), pass := s.pass + 1 }

/-- A pass with a record left. -/
theorem recordPass_some {s : ProduceLoop ε} {record : Record} {toppar : KafkaToppar}
    (h : s.toppar.getRecordNext = some (record, toppar)) :
    recordPass libs req clock s =
      match (s.advance clock toppar).prepareBatch libs req
          { record with timestamp := clock s.pass } with
      | none => .done (false, s.advance clock toppar)
      | some (u, compressBlock) =>
          match Append.counted libs req { record with timestamp := clock s.pass } u.batchCnt
              u.firstTimestamp u.compressEnv u.batchLength with
          | .failed => .done (false, u)
          | .full => .done u.refuse
          | .filled block env => .next ((u.beginBatch compressBlock).addBlock
              { record with timestamp := clock s.pass } block env) := by
  rw [recordPass, h]
  rfl

/-- What is prepared before a record is appended, and what the batch knows about it. -/
theorem offer_prepareBatch (append : Append ε) (record : Record) (s : ProduceLoop ε) :
    s.vars.offer libs req append record =
      match s.prepareBatch libs req record with
      | none => .failed
      | some (u, compressBlock) =>
          match append record u.batchCnt u.firstTimestamp u.compressEnv u.batchLength with
          | .failed => .failed
          | .full => .full
          | .filled block env => .taken (solid compressBlock ++ solid block)
              { compressEnv := env
                batchLength := Int32.ofInt (u.batchLength.toInt +
                  ((compressBlock.length + block.length : Nat) : Int))
                batchCnt := u.batchCnt + 1
                firstTimestamp := u.firstTimestamp
                maxTimestamp := record.timestamp } := by
  unfold Batch.offer ProduceLoop.prepareBatch
  by_cases hcnt : s.batchCnt = 0
  · simp only [ProduceLoop.vars, hcnt, if_true]
    cases hprep : kafkaCompressPrepare libs req.config.compressType s.compressEnv with
    | none => rfl
    | some prepared =>
        simp only [Option.map_some]
  · simp only [ProduceLoop.vars, hcnt, if_false]

/-- What preparing leaves alone. -/
theorem prepareBatch_some {record : Record} {s u : ProduceLoop ε} {compressBlock : List Byte}
    (h : s.prepareBatch libs req record = some (u, compressBlock)) :
    u.toppar = s.toppar ∧ u.serialized = s.serialized ∧ u.recordsetNode = s.recordsetNode ∧
      u.pass = s.pass ∧ u.recordFlag = s.recordFlag ∧ u.batchCnt = s.batchCnt ∧
      u.curSerializedLen = s.curSerializedLen ∧
      (s.batchCnt ≠ 0 → compressBlock = [] ∧ u.vars = s.vars) := by
  unfold ProduceLoop.prepareBatch at h
  by_cases hcnt : s.batchCnt = 0
  · rw [if_pos hcnt, Option.map_eq_some_iff] at h
    obtain ⟨prepared, -, heq⟩ := h
    cases heq
    exact ⟨rfl, rfl, rfl, rfl, rfl, rfl, rfl, fun hne => absurd hcnt hne⟩
  · rw [if_neg hcnt] at h
    cases h
    exact ⟨rfl, rfl, rfl, rfl, rfl, rfl, rfl, fun _ => ⟨rfl, rfl⟩⟩

/-- The next record is the one at the cursor. -/
theorem getRecordNext_eq {t toppar : KafkaToppar} {record : Record}
    (h : t.getRecordNext = some (record, toppar)) :
    t.recordList[t.curpos]? = some record ∧ toppar = { t with curpos := t.curpos + 1 } := by
  unfold KafkaToppar.getRecordNext at h
  have hnext : t.next t.curpos ≠ 0 := by
    intro hzero
    rw [if_pos hzero] at h
    cases h
  rw [if_neg hnext, Option.map_eq_some_iff] at h
  have hsucc : t.next t.curpos = t.curpos + 1 := by
    unfold KafkaToppar.next at hnext ⊢
    split at hnext
    · exact absurd rfl hnext
    · rename_i hne
      rw [if_neg hne]
  rw [hsucc] at h
  obtain ⟨found, hfound, heq⟩ := h
  cases heq
  exact ⟨hfound, rfl⟩

/-- What beginning a batch leaves alone. -/
theorem beginBatch_same (compressBlock : List Byte) (u : ProduceLoop ε) :
    (u.beginBatch compressBlock).vars = u.vars ∧
      (u.beginBatch compressBlock).toppar = u.toppar ∧
      (u.beginBatch compressBlock).pass = u.pass := by
  unfold ProduceLoop.beginBatch
  split
  · exact ⟨rfl, rfl, rfl⟩
  · exact ⟨rfl, rfl, rfl⟩

/-- The header depends on the topic and the partition only. -/
theorem topicHeader_congr {t t' : KafkaToppar} (htopic : t.topic = t'.topic)
    (hpartition : t.partition = t'.partition) : topicHeader t = topicHeader t' := by
  rw [topicHeader, topicHeader, htopic, hpartition]

/-- The two additions to the buffer are what `batch_length` grows by. -/
theorem addBlock_batch (record : Record) (block : List Byte) {compressBlock : List Byte} (env : ε)
    {u : ProduceLoop ε} (hlen : u.curSerializedLen = u.serialized.bufSize)
    (hcompress : u.batchCnt ≠ 0 → compressBlock = []) :
    ((u.beginBatch compressBlock).addBlock record block env).batchLength =
      Int32.ofInt (u.batchLength.toInt + ((compressBlock.length + block.length : Nat) : Int)) := by
  have hlens := length_solid compressBlock
  have hblock := length_solid block
  unfold ProduceLoop.addBlock ProduceLoop.beginBatch
  simp only [← addItems_solid]
  by_cases hcnt : u.batchCnt = 0
  · simp only [hcnt, if_true, addItems_eq, hlens, hblock, Nat.add_sub_cancel_left, Nat.add_assoc]
  · simp only [hcnt, if_false, addItems_eq, hblock, hcompress hcnt, hlen, Nat.add_sub_cancel_left,
      List.length_nil, Nat.zero_add]

/-- The record is taken. -/
theorem recordPass_taken {s : ProduceLoop ε} {record : Record} {toppar : KafkaToppar}
    {added : List (List Byte)} {b : Batch ε} (h : s.toppar.getRecordNext = some (record, toppar))
    (hlen : s.curSerializedLen = s.serialized.bufSize)
    (hoffer : s.vars.offer libs req (Append.counted libs req)
      { record with timestamp := clock s.pass } = .taken added b) :
    ∃ t, recordPass libs req clock s = .next t ∧ PassTaken clock s toppar added b t := by
  have hadvance : (s.advance clock toppar).vars = s.vars := rfl
  rw [recordPass_some h]
  rw [← hadvance, offer_prepareBatch] at hoffer
  cases hprep : (s.advance clock toppar).prepareBatch libs req
      { record with timestamp := clock s.pass } with
  | none =>
      rw [hprep] at hoffer
      cases hoffer
  | some prepared =>
      obtain ⟨u, compressBlock⟩ := prepared
      obtain ⟨htoppar, hserialized, hnode, hpass, -, hcnt, hcur, hcompress⟩ := prepareBatch_some hprep
      rw [hprep] at hoffer
      simp only at hoffer ⊢
      cases happend : Append.counted libs req { record with timestamp := clock s.pass } u.batchCnt
          u.firstTimestamp u.compressEnv u.batchLength with
      | failed =>
          rw [happend] at hoffer
          cases hoffer
      | full =>
          rw [happend] at hoffer
          cases hoffer
      | filled block env =>
          rw [happend] at hoffer
          cases hoffer
          obtain ⟨hvars, hkeep, hpassKeep⟩ := beginBatch_same compressBlock u
          have hcurU : u.curSerializedLen = u.serialized.bufSize := by
            rw [hcur, hserialized]
            exact hlen
          have hheader : topicHeader u.toppar = topicHeader s.toppar := by
            rw [htoppar]
            obtain ⟨-, rfl⟩ := getRecordNext_eq h
            rfl
          refine ⟨_, rfl, ?_, ?_, ?_, rfl, rfl, fun hzero => ?_, fun hne => ?_⟩
          · have hlength := addBlock_batch { record with timestamp := clock s.pass } block env
              hcurU fun hne => (hcompress (hcnt ▸ hne)).1
            have hbatchCnt : (u.beginBatch compressBlock).batchCnt = u.batchCnt :=
              congrArg Batch.batchCnt hvars
            have hfirst : (u.beginBatch compressBlock).firstTimestamp = u.firstTimestamp :=
              congrArg Batch.firstTimestamp hvars
            simp only [ProduceLoop.vars, hlength]
            simp only [ProduceLoop.addBlock, hbatchCnt, hfirst]
          · show (u.beginBatch compressBlock).toppar.saveRecordEndpos = _
            rw [hkeep, htoppar]
            rfl
          · show (u.beginBatch compressBlock).pass = _
            rw [hpassKeep, hpass]
            rfl
          · have hzeroU : u.batchCnt = 0 := hcnt.trans hzero
            simp only [ProduceLoop.addBlock, ProduceLoop.beginBatch, hzeroU, if_true,
              ← addItems_solid, addItems_append, hheader, hserialized]
            exact ⟨List.length_append, rfl⟩
          · have hneU : u.batchCnt ≠ 0 := fun hzero => hne (hcnt.symm.trans hzero)
            simp only [ProduceLoop.addBlock, ProduceLoop.beginBatch, hneU, if_false,
              ← addItems_solid, addItems_append, hserialized, hnode,
              (hcompress (fun hzero => hne hzero)).1]
            exact ⟨rfl, rfl⟩

/-- The batch is full before the record. -/
theorem recordPass_full {s : ProduceLoop ε} {record : Record} {toppar : KafkaToppar}
    (h : s.toppar.getRecordNext = some (record, toppar))
    (hoffer : s.vars.offer libs req (Append.counted libs req)
      { record with timestamp := clock s.pass } = .full) :
    ∃ u : ProduceLoop ε, recordPass libs req clock s = .done u.refuse ∧
      u.toppar = toppar.setTimestamp (clock s.pass) ∧ u.serialized = s.serialized ∧
      u.recordsetNode = s.recordsetNode ∧ u.recordFlag = s.recordFlag ∧
      (s.batchCnt ≠ 0 → u.vars = s.vars) := by
  have hadvance : (s.advance clock toppar).vars = s.vars := rfl
  rw [recordPass_some h]
  rw [← hadvance, offer_prepareBatch] at hoffer
  cases hprep : (s.advance clock toppar).prepareBatch libs req
      { record with timestamp := clock s.pass } with
  | none =>
      rw [hprep] at hoffer
      cases hoffer
  | some prepared =>
      obtain ⟨u, compressBlock⟩ := prepared
      obtain ⟨htoppar, hserialized, hnode, -, hflag, -, -, hvars⟩ := prepareBatch_some hprep
      rw [hprep] at hoffer
      simp only at hoffer ⊢
      split at hoffer
      · cases hoffer
      · exact ⟨u, rfl, htoppar, hserialized, hnode, hflag, fun hne => (hvars hne).2⟩
      · cases hoffer

/-- The record cannot be encoded. -/
theorem recordPass_failed {s : ProduceLoop ε} {record : Record} {toppar : KafkaToppar}
    (h : s.toppar.getRecordNext = some (record, toppar))
    (hoffer : s.vars.offer libs req (Append.counted libs req)
      { record with timestamp := clock s.pass } = .failed) :
    ∃ u, recordPass libs req clock s = .done (false, u) := by
  have hadvance : (s.advance clock toppar).vars = s.vars := rfl
  rw [recordPass_some h]
  rw [← hadvance, offer_prepareBatch] at hoffer
  split at hoffer
  · exact ⟨_, rfl⟩
  · split at hoffer
    · exact ⟨_, rfl⟩
    · cases hoffer
    · cases hoffer

/-! ### The whole loop -/

/-- The cursor has moved over `count` of the records, and the blocks they added stand in the buffer
behind the header of the topic. -/
structure Standing (t₀ : KafkaToppar) (base : KafkaBuffer) (count : Nat)
    (blocks : List (List Byte)) (s : ProduceLoop ε) : Prop where
  topic : s.toppar.topic = t₀.topic
  partition : s.toppar.partition = t₀.partition
  startpos : s.toppar.startpos = t₀.curpos
  bare : s.toppar.recordList.map Record.bare = t₀.recordList.map Record.bare
  curpos : s.toppar.curpos = t₀.curpos + count
  endpos : s.toppar.endpos =
    if count = 0 then t₀.endpos else some (t₀.next (t₀.curpos + count))
  pass : s.pass = count
  recordFlag : s.recordFlag = if count = 0 then -1 else 0
  batchCnt : s.batchCnt = Int32.ofNat count
  curSerializedLen : s.curSerializedLen = s.serialized.bufSize
  noBlocks : count = 0 → blocks = []
  serialized : count < 2 ^ 31 → s.serialized =
    if count = 0 then base else ((base.addItem (topicHeader t₀)).setInsertPos).addItems blocks
  recordsetNode : count < 2 ^ 31 → count ≠ 0 → s.recordsetNode = base.blockList.length + 1

/-- Before the first pass. -/
theorem standing_start (messageVersion : Int32) (t₀ : KafkaToppar) (base : KafkaBuffer) (env : ε) :
    Standing t₀ base 0 [] (ProduceLoop.start messageVersion t₀ base env) where
  topic := rfl
  partition := rfl
  startpos := rfl
  bare := rfl
  curpos := rfl
  endpos := rfl
  pass := rfl
  recordFlag := rfl
  batchCnt := rfl
  curSerializedLen := rfl
  noBlocks := fun _ => rfl
  serialized := fun _ => rfl
  recordsetNode := fun _ h => absurd rfl h

/-- The time stamps are no part of a bare record. -/
theorem bare_setTimestamp (now : Int64) (t : KafkaToppar) :
    (t.setTimestamp now).recordList.map Record.bare = t.recordList.map Record.bare := by
  apply List.ext_getElem?
  intro i
  simp only [KafkaToppar.setTimestamp, List.getElem?_map, List.getElem?_modify]
  cases t.recordList[i]? with
  | none => rfl
  | some record =>
      simp only [Option.map_eq_map, Option.map_some, Option.some.injEq]
      split
      · rfl
      · rfl

/-- The next record is the one behind the cursor, whatever its time stamp. -/
theorem Standing.getRecordNext {t₀ : KafkaToppar} {base : KafkaBuffer} {count : Nat}
    {blocks : List (List Byte)} {s : ProduceLoop ε} (h : Standing t₀ base count blocks s)
    {record : Record} {toppar : KafkaToppar}
    (hnext : s.toppar.getRecordNext = some (record, toppar)) :
    ∃ original, t₀.recordList.drop (t₀.curpos + count) =
        original :: t₀.recordList.drop (t₀.curpos + (count + 1)) ∧
      record.bare = original.bare := by
  obtain ⟨hfound, -⟩ := getRecordNext_eq hnext
  have hbare : (s.toppar.recordList.map Record.bare)[t₀.curpos + count]? = some record.bare := by
    rw [List.getElem?_map, ← h.curpos, hfound]
    rfl
  rw [h.bare, List.getElem?_map, Option.map_eq_some_iff] at hbare
  obtain ⟨original, horiginal, heq⟩ := hbare
  obtain ⟨hlt, hget⟩ := List.getElem?_eq_some_iff.mp horiginal
  refine ⟨original, ?_, heq.symm⟩
  rw [List.drop_eq_getElem_cons hlt, hget, Nat.add_assoc]

theorem length_le_of_getRecordNext {t : KafkaToppar} (h : t.getRecordNext = none) :
    t.recordList.length ≤ t.curpos := by
  unfold KafkaToppar.getRecordNext KafkaToppar.next at h
  by_cases hend : t.curpos = t.recordList.length
  · exact hend.ge
  · rw [if_neg hend, if_neg (Nat.succ_ne_zero _), Option.map_eq_none_iff] at h
    exact List.getElem?_eq_none_iff.mp h

/-- No record is left. -/
theorem Standing.no_more {t₀ : KafkaToppar} {base : KafkaBuffer} {count : Nat}
    {blocks : List (List Byte)} {s : ProduceLoop ε} (h : Standing t₀ base count blocks s)
    (hnext : s.toppar.getRecordNext = none) : t₀.recordList.drop (t₀.curpos + count) = [] := by
  have hlen := congrArg List.length h.bare
  rw [List.length_map, List.length_map] at hlen
  rw [List.drop_eq_nil_iff, ← h.curpos, ← hlen]
  exact length_le_of_getRecordNext hnext

/-- A pass that takes its record. -/
theorem Standing.taken {t₀ : KafkaToppar} {base : KafkaBuffer} {count : Nat}
    {blocks added : List (List Byte)} {s t : ProduceLoop ε} {record : Record} {toppar : KafkaToppar}
    {b : Batch ε} (h : Standing t₀ base count blocks s)
    (hnext : s.toppar.getRecordNext = some (record, toppar))
    (ht : PassTaken clock s toppar added b t) (hcnt : b.batchCnt = s.batchCnt + 1) :
    Standing t₀ base (count + 1) (blocks ++ added) t := by
  obtain ⟨-, rfl⟩ := getRecordNext_eq hnext
  have hlen : s.toppar.recordList.length = t₀.recordList.length := by
    have hlen := congrArg List.length h.bare
    rwa [List.length_map, List.length_map] at hlen
  have hzero : count < 2 ^ 31 → (s.batchCnt = 0 ↔ count = 0) := by
    intro hlt
    rw [h.batchCnt, ← Int32.toInt_inj, Int32.toInt_ofNat_of_lt hlt]
    exact Int.natCast_eq_zero
  constructor
  case topic => rw [ht.toppar]; exact h.topic
  case partition => rw [ht.toppar]; exact h.partition
  case startpos => rw [ht.toppar]; exact h.startpos
  case bare =>
    rw [ht.toppar]
    exact (bare_setTimestamp _ _).trans h.bare
  case curpos =>
    rw [ht.toppar]
    show s.toppar.curpos + 1 = _
    rw [h.curpos, Nat.add_assoc]
  case endpos =>
    rw [ht.toppar, if_neg (Nat.succ_ne_zero _), ← Nat.add_assoc, ← h.curpos]
    show some (KafkaToppar.next _ _) = _
    simp only [KafkaToppar.next, KafkaToppar.setTimestamp, List.length_modify, hlen]
  case pass => rw [ht.pass, h.pass]
  case recordFlag => rw [ht.recordFlag, if_neg (Nat.succ_ne_zero _)]
  case batchCnt =>
    have hvars := congrArg Batch.batchCnt ht.vars
    rw [hcnt, h.batchCnt] at hvars
    rw [Int32.ofNat_add]
    exact hvars
  case curSerializedLen => exact ht.curSerializedLen
  case noBlocks => exact fun h => absurd h (Nat.succ_ne_zero _)
  case serialized =>
    intro hlt
    have hlt' : count < 2 ^ 31 := by omega
    rw [if_neg (Nat.succ_ne_zero _)]
    by_cases hfirst : count = 0
    · rw [(ht.first ((hzero hlt').mpr hfirst)).2, h.serialized hlt', if_pos hfirst,
        h.noBlocks hfirst, List.nil_append, topicHeader_congr h.topic h.partition]
    · rw [(ht.later (mt (hzero hlt').mp hfirst)).2, h.serialized hlt', if_neg hfirst,
        addItems_append]
  case recordsetNode =>
    intro hlt _
    have hlt' : count < 2 ^ 31 := by omega
    by_cases hfirst : count = 0
    · rw [(ht.first ((hzero hlt').mpr hfirst)).1, h.serialized hlt', if_pos hfirst]
    · rw [(ht.later (mt (hzero hlt').mp hfirst)).1, h.recordsetNode hlt' hfirst]

/-- How the loop leaves its variables, `c` being what has been collected. -/
structure Finished (t₀ : KafkaToppar) (base : KafkaBuffer) (c : Collected ε) (s : ProduceLoop ε) :
    Prop where
  topic : s.toppar.topic = t₀.topic
  partition : s.toppar.partition = t₀.partition
  startpos : s.toppar.startpos = t₀.curpos
  bare : s.toppar.recordList.map Record.bare = t₀.recordList.map Record.bare
  curpos : s.toppar.curpos = t₀.curpos + c.count
  endpos : s.toppar.endpos =
    if c.count = 0 then t₀.endpos else some (t₀.next (t₀.curpos + c.count))
  recordFlag : s.recordFlag < 0 ↔ c.count = 0
  serialized : c.count < 2 ^ 31 → s.serialized =
    if c.count = 0 then base else ((base.addItem (topicHeader t₀)).setInsertPos).addItems c.blocks
  recordsetNode : c.count < 2 ^ 31 → c.count ≠ 0 → s.recordsetNode = base.blockList.length + 1
  vars : c.count < 2 ^ 31 → c.count ≠ 0 → s.vars = c.batch

/-- The loop has come to the end of the records. -/
theorem Standing.exhausted {t₀ : KafkaToppar} {base : KafkaBuffer} {count : Nat}
    {blocks : List (List Byte)} {s : ProduceLoop ε} (h : Standing t₀ base count blocks s) :
    Finished t₀ base ⟨count, blocks, s.vars, .exhausted⟩ s where
  topic := h.topic
  partition := h.partition
  startpos := h.startpos
  bare := h.bare
  curpos := h.curpos
  endpos := h.endpos
  recordFlag := by
    rw [h.recordFlag]
    split
    · rename_i hzero
      exact ⟨fun _ => hzero, fun _ => by decide⟩
    · rename_i hne
      exact ⟨fun hneg => absurd hneg (by decide), fun hzero => absurd hzero hne⟩
  serialized := h.serialized
  recordsetNode := h.recordsetNode
  vars := fun _ _ => rfl

/-- A pass that refuses its record takes the cursor back. -/
theorem Standing.refused {t₀ : KafkaToppar} {base : KafkaBuffer} {count : Nat}
    {blocks : List (List Byte)} {s u : ProduceLoop ε} {record : Record} {toppar : KafkaToppar}
    (h : Standing t₀ base count blocks s)
    (hnext : s.toppar.getRecordNext = some (record, toppar))
    (htoppar : u.toppar = toppar.setTimestamp (clock s.pass)) (hserialized : u.serialized = s.serialized)
    (hnode : u.recordsetNode = s.recordsetNode) (hflag : u.recordFlag = s.recordFlag)
    (hvars : s.batchCnt ≠ 0 → u.vars = s.vars) :
    (u.refuse.1 = true ↔ count ≠ 0) ∧
      (count ≠ 0 → Finished t₀ base ⟨count, blocks, s.vars, .full⟩ u.refuse.2) := by
  obtain ⟨-, rfl⟩ := getRecordNext_eq hnext
  by_cases hcount : count = 0
  · have hneg : u.recordFlag < 0 := by
      rw [hflag, h.recordFlag, if_pos hcount]
      decide
    rw [ProduceLoop.refuse, if_pos hneg]
    exact ⟨⟨fun h => absurd h Bool.false_ne_true, fun hne => absurd hcount hne⟩,
      fun hne => absurd hcount hne⟩
  · have hnotneg : ¬ u.recordFlag < 0 := by
      rw [hflag, h.recordFlag, if_neg hcount]
      decide
    have hlen : s.toppar.recordList.length = t₀.recordList.length := by
      have hlen := congrArg List.length h.bare
      rwa [List.length_map, List.length_map] at hlen
    have hback : u.toppar.recordRollback.curpos = t₀.curpos + count := by
      simp only [htoppar, KafkaToppar.recordRollback, KafkaToppar.setTimestamp, KafkaToppar.prev]
      rw [if_neg (Nat.succ_ne_zero _), Nat.add_sub_cancel, h.curpos]
    rw [ProduceLoop.refuse, if_neg hnotneg]
    refine ⟨⟨fun _ => hcount, fun _ => rfl⟩, fun _ => ?_⟩
    constructor
    case topic => simp only [htoppar]; exact h.topic
    case partition => simp only [htoppar]; exact h.partition
    case startpos => simp only [htoppar]; exact h.startpos
    case bare =>
      simp only [htoppar]
      exact (bare_setTimestamp _ _).trans h.bare
    case curpos => exact hback
    case endpos =>
      rw [if_neg hcount]
      show some (KafkaToppar.next _ u.toppar.recordRollback.curpos) = _
      rw [hback]
      simp only [KafkaToppar.next, KafkaToppar.recordRollback, htoppar, KafkaToppar.setTimestamp,
        List.length_modify, hlen]
    case recordFlag =>
      exact ⟨fun h => absurd h (show ¬ (1 : Int) < 0 by decide), fun h => absurd h hcount⟩
    case serialized =>
      intro hlt
      show u.serialized = _
      rw [hserialized]
      exact h.serialized hlt
    case recordsetNode =>
      intro hlt hne
      show u.recordsetNode = _
      rw [hnode]
      exact h.recordsetNode hlt hne
    case vars =>
      intro hlt hne
      show u.vars = s.vars
      refine hvars ?_
      rw [h.batchCnt, Ne, ← Int32.toInt_inj, Int32.toInt_ofNat_of_lt hlt]
      exact mt Int.natCast_eq_zero.mp hne

theorem stamp_eq {record original : Record} (h : record.bare = original.bare) (now : Int64) :
    { record with timestamp := now } = { original with timestamp := now } := by
  have hstamp : ∀ r : Record, { r with timestamp := now } = { r.bare with timestamp := now } :=
    fun _ => rfl
  rw [hstamp record, hstamp original, h]

/-- A record that is taken is counted. -/
theorem offer_batchCnt {append : Append ε} {record : Record} {b b' : Batch ε}
    {added : List (List Byte)} (h : b.offer libs req append record = .taken added b') :
    b'.batchCnt = b.batchCnt + 1 := by
  unfold Batch.offer at h
  split at h
  · cases h
  · simp only at h
    split at h
    · cases h
    · cases h
    · cases h
      rfl

/-- What is collected after `count` records went before. -/
def Collected.after (count : Nat) (blocks : List (List Byte)) (c : Collected ε) : Collected ε where
  count := count + c.count
  blocks := blocks ++ c.blocks
  batch := c.batch
  ending := c.ending

/-- What is collected is put behind what was there. -/
theorem collected_after (count : Nat) (blocks added : List (List Byte)) (c : Collected ε) :
    c.after (count + 1) (blocks ++ added) =
      Collected.after count blocks { c with count := c.count + 1, blocks := added ++ c.blocks } := by
  simp only [Collected.after, List.append_assoc, Collected.mk.injEq, and_true]
  omega

/-- The loop, by induction on the records that are left. -/
theorem loop_recordPass (libs : Libraries ε) (req : KafkaRequest) (clock : Nat → Int64)
    {t₀ : KafkaToppar} {base : KafkaBuffer} (records : List Record) {count : Nat}
    {blocks : List (List Byte)} {s : ProduceLoop ε} (h : Standing t₀ base count blocks s)
    (hrecords : t₀.recordList.drop (t₀.curpos + count) = records) {fuel : Nat}
    (hfuel : records.length < fuel) :
    let c := (collect libs req (Append.counted libs req) (stampFrom clock count records)
      s.vars).after count blocks
    ∃ ok t, loop (recordPass libs req clock) fuel s = some (ok, t) ∧
      (ok = true ↔ c.ending = .exhausted ∨ (c.ending = .full ∧ c.count ≠ 0)) ∧
      (ok = true → Finished t₀ base c t) := by
  obtain ⟨fuel, rfl⟩ : ∃ n, fuel = n + 1 := ⟨fuel - 1, by omega⟩
  induction records generalizing count blocks s fuel with
  | nil =>
      have hnone : s.toppar.getRecordNext = none := by
        cases hnext : s.toppar.getRecordNext with
        | none => rfl
        | some found =>
            obtain ⟨original, hdrop, -⟩ := h.getRecordNext hnext
            rw [hrecords] at hdrop
            cases hdrop
      have hstep : recordPass libs req clock s = .done (true, s) := by rw [recordPass, hnone]
      refine ⟨true, s, loop_done hstep fuel, ⟨fun _ => Or.inl rfl, fun _ => rfl⟩, fun _ => ?_⟩
      simp only [stampFrom, collect, Collected.after, Nat.add_zero, List.append_nil]
      exact h.exhausted
  | cons original records ih =>
      cases hnext : s.toppar.getRecordNext with
      | none =>
          rw [h.no_more hnext] at hrecords
          cases hrecords
      | some found =>
          obtain ⟨record, toppar⟩ := found
          obtain ⟨original', hdrop, hbare⟩ := h.getRecordNext hnext
          rw [hrecords] at hdrop
          obtain ⟨rfl, hrest⟩ := List.cons.inj hdrop
          have hstamp : { record with timestamp := clock s.pass } =
              { original with timestamp := clock count } := by
            rw [h.pass]
            exact stamp_eq hbare _
          rw [stampFrom, collect, ← hstamp]
          cases hoffer : s.vars.offer libs req (Append.counted libs req)
              { record with timestamp := clock s.pass } with
          | taken added b =>
              obtain ⟨t, hstep, ht⟩ := recordPass_taken hnext h.curSerializedLen hoffer
              rw [List.length_cons] at hfuel
              obtain ⟨fuel, rfl⟩ : ∃ n, fuel = n + 1 := ⟨fuel - 1, by omega⟩
              obtain ⟨ok, u, hloop, hok, hfinished⟩ :=
                ih (h.taken hnext ht (offer_batchCnt hoffer)) hrest.symm fuel (by omega)
              rw [ht.vars, collected_after] at hok hfinished
              exact ⟨ok, u, (loop_next hstep _).trans hloop, hok, hfinished⟩
          | full =>
              obtain ⟨u, hstep, htoppar, hserialized, hnode, hflag, hvars⟩ :=
                recordPass_full hnext hoffer
              obtain ⟨hok, hfinished⟩ :=
                h.refused hnext htoppar hserialized hnode hflag hvars
              refine ⟨u.refuse.1, u.refuse.2, loop_done hstep fuel, ?_, fun htrue => ?_⟩
              · rw [hok]
                simp [Collected.after]
              · simp only [Collected.after, Nat.add_zero, List.append_nil]
                exact hfinished (hok.mp htrue)
          | failed =>
              obtain ⟨u, hstep⟩ := recordPass_failed hnext hoffer
              refine ⟨false, u, loop_done hstep fuel, ?_, fun htrue => absurd htrue Bool.false_ne_true⟩
              simp [Collected.after]

/-- What the records behind the cursor make of a batch. -/
def batchOf (libs : Libraries ε) (req : KafkaRequest) (append : Append ε) (clock : Nat → Int64)
    (t : KafkaToppar) (env : ε) : Collected ε :=
  collect libs req append (stampFrom clock 0 (t.recordList.drop t.curpos))
    (ProduceLoop.start req.messageVersion t KafkaBuffer.empty env).vars

/-- The loop collects the batch. -/
theorem recordLoop_spec (libs : Libraries ε) (req : KafkaRequest) (clock : Nat → Int64)
    (t₀ : KafkaToppar) (base : KafkaBuffer) (env : ε) :
    let c := batchOf libs req (Append.counted libs req) clock t₀ env
    ∃ ok t, recordLoop libs req clock (ProduceLoop.start req.messageVersion t₀ base env) =
        some (ok, t) ∧
      (ok = true ↔ c.ending = .exhausted ∨ (c.ending = .full ∧ c.count ≠ 0)) ∧
      (ok = true → Finished t₀ base c t) := by
  have hfuel : (t₀.recordList.drop t₀.curpos).length < t₀.recordList.length + 1 := by
    rw [List.length_drop]
    omega
  have hloop := loop_recordPass libs req clock _
    (standing_start req.messageVersion t₀ base env) rfl hfuel
  have hafter : ∀ c : Collected ε, c.after 0 [] = c := fun c => by simp [Collected.after]
  rw [hafter] at hloop
  exact hloop

end Pass

/-! ### The limit on the number of records -/

section Limit

variable {ε : Type} {libs : Libraries ε} {req : KafkaRequest} {clock : Nat → Int64}

/-- `produce_msgset_cnt` as a number. -/
def KafkaRequest.limit (req : KafkaRequest) : Nat :=
  req.config.produceMsgsetCnt.toInt.toNat

/-- A batch that ends with the records holds all of them. -/
theorem collect_exhausted {append : Append ε} {records : List Record} {b : Batch ε}
    (h : (collect libs req append records b).ending = .exhausted) :
    (collect libs req append records b).count = records.length := by
  induction records generalizing b with
  | nil => rfl
  | cons record records ih =>
      rw [collect] at h ⊢
      split at h
      · exact congrArg (· + 1) (ih h)
      · cases h
      · cases h

/-- Up to the limit the number of a record does not matter. -/
theorem offer_counted {record : Record} {b : Batch ε}
    (h : ¬ req.config.produceMsgsetCnt < b.batchCnt) :
    b.offer libs req (Append.counted libs req) record =
      b.offer libs req (Append.sized libs req) record := by
  have happend : ∀ first env size, Append.counted libs req record b.batchCnt first env size =
      Append.sized libs req record b.batchCnt first env size := by
    intro first env size
    rw [Append.counted, Produce.appendRecord, if_neg h, Append.sized]
  unfold Batch.offer
  simp only [happend]

/-- The record whose number is the limit is still let in. -/
theorem collect_counted (libs : Libraries ε) (records : List Record) {b : Batch ε} (count : Nat)
    (hpos : 0 < req.config.produceMsgsetCnt) (hcnt : b.batchCnt = Int32.ofNat count)
    (hle : count ≤ req.limit) :
    let sized := collect libs req (Append.sized libs req) records b
    let counted := collect libs req (Append.counted libs req) records b
    (count + sized.count ≤ req.limit → counted = sized) ∧
      (req.limit < count + sized.count → req.limit < count + counted.count) := by
  have hlimit : (req.limit : Int) = req.config.produceMsgsetCnt.toInt := by
    rw [Int32.lt_iff_toInt_lt] at hpos
    exact Int.toNat_of_nonneg (le_of_lt hpos)
  have hrange := req.config.produceMsgsetCnt.toInt_lt
  induction records generalizing b count with
  | nil => exact ⟨fun _ => rfl, id⟩
  | cons record records ih =>
      have hnotless : ¬ req.config.produceMsgsetCnt < b.batchCnt := by
        rw [hcnt, Int32.lt_iff_toInt_lt, Int32.toInt_ofNat_of_lt (by omega)]
        omega
      simp only [collect, offer_counted hnotless]
      cases hoffer : b.offer libs req (Append.sized libs req) record with
      | taken added b' =>
          simp only
          by_cases hroom : count + 1 ≤ req.limit
          · have hnext : b'.batchCnt = Int32.ofNat (count + 1) := by
              rw [offer_batchCnt hoffer, hcnt, Int32.ofNat_add]
              rfl
            obtain ⟨hsame, hmore⟩ := ih _ hnext hroom
            refine ⟨fun hfew => ?_, fun hmany => ?_⟩
            · rw [hsame (by omega)]
            · have hcount := hmore (by omega)
              omega
          · refine ⟨fun hfew => ?_, fun hmany => ?_⟩
            · omega
            · omega
      | full => exact ⟨fun _ => rfl, id⟩
      | failed => exact ⟨fun _ => rfl, id⟩

/-- What is asked of a batch of `count` records, where `sized` is what the tests of the sizes alone
would make of the records: it keeps the limit, and unless these tests ended it there, it has as many
records as the limit and the list allow. -/
def LimitMet (req : KafkaRequest) (t : KafkaToppar) (sized : Collected ε) (count : Nat) : Prop :=
  count ≤ req.limit ∧
    (¬ (sized.ending = .full ∧ sized.count = count) →
      count = min req.limit (t.recordList.length - t.curpos))

/-- A partition that was encoded holds its batch. -/
theorem encodeToppar_true {s s' : ProduceState ε} {t t' : KafkaToppar}
    (h : encodeToppar libs req clock t s = (true, t', s')) :
    ∃ l, Finished t s.serialized (batchOf libs req (Append.counted libs req) clock t s.compressEnv) l ∧
      t' = l.toppar ∧
      ((batchOf libs req (Append.counted libs req) clock t s.compressEnv).ending = .exhausted ∨
        (batchOf libs req (Append.counted libs req) clock t s.compressEnv).ending = .full) := by
  obtain ⟨ok, l, hloop, hok, hfinished⟩ := recordLoop_spec libs req clock t s.serialized s.compressEnv
  rw [encodeToppar, hloop] at h
  simp only at h
  by_cases htrue : ok = true
  · rw [if_neg (not_not.mpr htrue)] at h
    have htoppar : t' = l.toppar := by
      split at h
      · cases h
        rfl
      · split at h
        · cases h
        · cases h
          rfl
    exact ⟨l, hfinished htrue, htoppar, (hok.mp htrue).imp_right And.left⟩
  · rw [if_pos htrue] at h
    cases h

/-- For every partition whose records are encoded: the batch is as it should be if and only if the
tests of the sizes alone end it within the limit, or there are no more records than that. -/
theorem recordLimit_iff {ε : Type} (libs : Libraries ε) (req : KafkaRequest) (clock : Nat → Int64)
    (t t' : KafkaToppar) (s s' : ProduceState ε) (hpos : 0 < req.config.produceMsgsetCnt)
    (h : encodeToppar libs req clock t s = (true, t', s')) :
    LimitMet req t (batchOf libs req (Append.sized libs req) clock t s.compressEnv)
        (t'.curpos - t.curpos) ↔
      (batchOf libs req (Append.sized libs req) clock t s.compressEnv).count ≤ req.limit := by
  obtain ⟨l, hfinished, rfl, hending⟩ := encodeToppar_true h
  have hcollect := collect_counted libs
    (stampFrom clock 0 (t.recordList.drop t.curpos)) 0
    (b := (ProduceLoop.start req.messageVersion t KafkaBuffer.empty s.compressEnv).vars)
    hpos rfl (Nat.zero_le _)
  rw [hfinished.curpos, Nat.add_sub_cancel_left]
  unfold batchOf at hending ⊢
  simp only [Nat.zero_add] at hcollect
  obtain ⟨hsame, hmore⟩ := hcollect
  constructor
  · rintro ⟨hle, -⟩
    by_contra hgt
    have hcount := hmore (by omega)
    omega
  · intro hle
    rw [hsame hle] at hending ⊢
    refine ⟨hle, fun hnot => ?_⟩
    rcases hending with hexhausted | hfull
    · have hcount := collect_exhausted hexhausted
      rw [length_stampFrom, List.length_drop] at hcount
      omega
    · exact absurd ⟨hfull, rfl⟩ hnot

end Limit

/-- Libraries without compression. -/
def plainLibraries : Libraries Unit where
  prepare := fun _ => none
  compress := fun _ _ _ => none
  finish := fun _ _ _ => none
  crc32c := crc32cSw
  crc32 := fun crc _ => crc

/-- A request for message version 2 with at most `cnt` records in a batch. -/
def plainRequest (cnt : Int32) : KafkaRequest where
  apiVersion := 3
  messageVersion := 2
  config :=
    { produceMsgMaxBytes := 1000000
      produceMsgsetCnt := cnt
      produceMsgsetMaxBytes := 1000000
      produceAcks := -1
      produceTimeout := 100
      compressType := kafkaNoCompress }
  msgbuf := []

/-- A new partition with `n` small records. -/
def smallToppar (n : Nat) : KafkaToppar :=
  freshToppar (ascii "t") 0 (List.replicate n (bareRecord []))

def plainState : ProduceState Unit where
  serialized := KafkaBuffer.empty
  compressEnv := ()
  topicCnt := 0

/-- What encoding the partition gives. -/
def plainEncoded (cnt : Int32) (n : Nat) : Bool × KafkaToppar × ProduceState Unit :=
  encodeToppar plainLibraries (plainRequest cnt) (fun _ => 0) (smallToppar n) plainState

theorem recordLimit_two :
    LimitMet (plainRequest 2) (smallToppar 2)
        (batchOf plainLibraries (plainRequest 2) (Append.sized plainLibraries (plainRequest 2))
          (fun _ => 0) (smallToppar 2) ())
        ((plainEncoded 2 2).2.1.curpos - (smallToppar 2).curpos) ↔
      (batchOf plainLibraries (plainRequest 2) (Append.sized plainLibraries (plainRequest 2))
        (fun _ => 0) (smallToppar 2) ()).count ≤ (plainRequest 2).limit :=
  recordLimit_iff plainLibraries (plainRequest 2) (fun _ => 0) (smallToppar 2)
    (plainEncoded 2 2).2.1 plainState (plainEncoded 2 2).2.2 (by decide)
    (Prod.ext (by decide +kernel) rfl)

/-- With a limit of one record, a batch takes both of two records. -/
theorem recordLimit_exceeded :
    (plainEncoded 1 2).1 = true ∧
      ¬ LimitMet (plainRequest 1) (smallToppar 2)
        (batchOf plainLibraries (plainRequest 1) (Append.sized plainLibraries (plainRequest 1))
          (fun _ => 0) (smallToppar 2) ())
        ((plainEncoded 1 2).2.1.curpos - (smallToppar 2).curpos) := by
  refine ⟨by decide +kernel, fun hmet => ?_⟩
  have hmore : ¬ (plainEncoded 1 2).2.1.curpos - (smallToppar 2).curpos ≤ (plainRequest 1).limit := by
    decide +kernel
  exact hmore hmet.1

end Workflow.Kafka
