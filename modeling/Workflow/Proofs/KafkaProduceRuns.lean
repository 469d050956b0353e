/-
Module: Workflow.Proofs.KafkaProduceRuns
Layer: Proofs
Purpose: The requests that successive calls of `encode_produce` make of the same partitions, for
  message version 2 without compression: every size that is written is the number of bytes that follow,
  and the requests carry the records of a partition in order, each of them once. The sum that is
  tested against the limit is an `int`, so a sum that leaves its range is not noticed.
Trusted boundary: none
Main exports: plainBatch, SumsFit, collect_plain, BatchRight, PartRight, encodeToppar_plain,
  RequestRight, ProduceCall, produceAll, produceBatching
-/
import Workflow.Proofs.KafkaMemberAssignment
import Workflow.Proofs.KafkaProduce

namespace Workflow.Kafka

open Workflow.Lib Workflow.Util

/-! ### The records of one batch -/

/-- The time stamp of the last record. -/
def lastTimestampOf (taken : List Record) : Int64 :=
  (taken.getLast?.map Record.timestamp).getD 0

/-- The bytes of a batch with these records, from behind its length on. -/
def totalSize (taken : List Record) : Nat :=
  49 + (blocksFrom (firstTimestampOf taken) 0 taken).flatten.length

/-- The variables of a batch that has taken these records. -/
def plainBatch {ε : Type} (env : ε) (taken : List Record) : Batch ε where
  compressEnv := env
  batchLength := Int32.ofInt (totalSize taken)
  batchCnt := Int32.ofNat taken.length
  firstTimestamp := firstTimestampOf taken
  maxTimestamp := lastTimestampOf taken

/-- The requests that are looked at. -/
structure KafkaRequest.Plain (req : KafkaRequest) : Prop where
  messageVersion : req.messageVersion = 2
  compressType : req.config.compressType = kafkaNoCompress

/-- No sum that is formed leaves the range of an `int`: neither the one that is tested, for a record
that the limit on the number lets in and behind records that fit, nor the size of the record set. -/
def SumsFit (config : KafkaConfig) (records : List Record) : Prop :=
  ∀ taken record more, records = taken ++ record :: more →
    (taken.length : Int) ≤ config.produceMsgsetCnt.toInt →
    (taken = [] ∨ (totalSize taken : Int) ≤ config.maxMsgSize.toInt) →
    totalSize (taken ++ [record]) < 2 ^ 31 ∧
      ((totalSize (taken ++ [record]) : Int) ≤ config.maxMsgSize.toInt →
        totalSize (taken ++ [record]) + 12 < 2 ^ 31)

theorem length_le_totalSize (taken : List Record) : taken.length + 49 ≤ totalSize taken := by
  have hle := length_le_flatten_blocks (firstTimestampOf taken) 0 taken
  unfold totalSize
  omega

theorem firstTimestampOf_snoc (taken : List Record) (record : Record) :
    firstTimestampOf (taken ++ [record]) =
      if taken = [] then record.timestamp else firstTimestampOf taken := by
  cases taken with
  | nil => rfl
  | cons first taken => rfl

theorem firstTimestampOf_take (records : List Record) {n : Nat} (h : n ≠ 0) :
    firstTimestampOf (records.take n) = firstTimestampOf records := by
  obtain ⟨n, rfl⟩ := Nat.exists_eq_succ_of_ne_zero h
  cases records with
  | nil => rfl
  | cons record records => rfl

theorem blocksFrom_snoc (taken : List Record) (record : Record) :
    blocksFrom (firstTimestampOf (taken ++ [record])) 0 (taken ++ [record]) =
      blocksFrom (firstTimestampOf taken) 0 taken ++
        [recordBytes record (Int32.ofNat taken.length) (firstTimestampOf (taken ++ [record]))] := by
  rw [blocksFrom_append, Nat.zero_add]
  cases taken with
  | nil => rfl
  | cons first taken => rfl

theorem totalSize_snoc (taken : List Record) (record : Record) :
    totalSize (taken ++ [record]) = totalSize taken +
      (recordBytes record (Int32.ofNat taken.length) (firstTimestampOf (taken ++ [record]))).length := by
  unfold totalSize
  rw [blocksFrom_snoc, List.flatten_append, List.length_append, List.flatten_singleton, Nat.add_assoc]

section Plain

variable {ε : Type} {libs : Libraries ε} {req : KafkaRequest} {clock : Nat → Int64}

theorem vars_start (hplain : req.Plain) (t : KafkaToppar) (base : KafkaBuffer) (env : ε) :
    (ProduceLoop.start req.messageVersion t base env).vars = plainBatch env [] := by
  simp only [ProduceLoop.start, ProduceLoop.vars, hplain.messageVersion, if_true]
  rfl

/-- `append_record` for these requests. -/
theorem counted_plain (hplain : req.Plain) (record : Record) (offset : Int32) (first : Int64) (env : ε)
    (size : Int32) :
    Append.counted libs req record offset first env size =
      match Kafka.appendRecord req.config.toProduceConfig record offset first size with
      | none => .full
      | some block => .filled block env := by
  have hnot : ¬ isCompressType req.config.compressType := by
    rw [hplain.compressType]
    decide
  unfold Append.counted Produce.appendRecord Kafka.appendRecord
  split
  · rfl
  · rw [appendVersioned, hplain.messageVersion, if_neg (by decide), if_pos rfl]
    delta Produce.appendBatchRecord
    cases Kafka.appendBatchRecord req.config.toProduceConfig record offset first size with
    | none => rfl
    | some block => simp only [compressed, compressBuf, if_neg hnot]

/-- Whether a record is let in, when the sum does not leave the range. -/
theorem appendRecord_plain {config : ProduceConfig} {taken : List Record} {record : Record}
    (hsum : totalSize (taken ++ [record]) < 2 ^ 31) :
    Kafka.appendRecord config record (Int32.ofNat taken.length) (firstTimestampOf (taken ++ [record]))
        (Int32.ofInt (totalSize taken)) =
      if config.produceMsgsetCnt.toInt < taken.length ∨
          config.maxMsgSize.toInt < totalSize (taken ++ [record]) then none
      else some (recordBytes record (Int32.ofNat taken.length)
        (firstTimestampOf (taken ++ [record]))) := by
  have hsnoc := totalSize_snoc taken record
  have hcount := length_le_totalSize taken
  generalize hfirst : firstTimestampOf (taken ++ [record]) = first at hsnoc ⊢
  have hbytes : (recordBytes record (Int32.ofNat taken.length) first).length =
      (lengthStr record (Int32.ofNat taken.length) first).length +
        (recordBody record (Int32.ofNat taken.length) first).length := List.length_append
  have hcnt : config.produceMsgsetCnt < Int32.ofNat taken.length ↔
      config.produceMsgsetCnt.toInt < taken.length := by
    rw [Int32.lt_iff_toInt_lt, Int32.toInt_ofNat_of_lt (by omega)]
  have hsize : (Int32.ofInt ((Int32.ofNat
      (recordBody record (Int32.ofNat taken.length) first).length).toInt +
        (lengthStr record (Int32.ofNat taken.length) first).length +
        (Int32.ofInt (totalSize taken)).toInt)).toInt = totalSize (taken ++ [record]) := by
    rw [Int32.toInt_ofNat_of_lt (by omega), Int32.toInt_ofInt_of_le (n := totalSize taken) (by omega)
      (by omega), Int32.toInt_ofInt_of_le (by omega) (by omega)]
    omega
  unfold Kafka.appendRecord Kafka.appendBatchRecord
  simp only [hcnt, Int32.lt_iff_toInt_lt, hsize]
  by_cases hmany : config.produceMsgsetCnt.toInt < taken.length
  · rw [if_pos hmany, if_pos (Or.inl hmany)]
  · rw [if_neg hmany]
    by_cases hlarge : config.maxMsgSize.toInt < totalSize (taken ++ [record])
    · rw [if_pos hlarge, if_pos (Or.inr hlarge)]
    · rw [if_neg hlarge, if_neg (not_or.mpr ⟨hmany, hlarge⟩)]
      rfl

/-- `Batch.offer` without compression, `first` being the first time stamp with this record. -/
theorem offer_eq (hplain : req.Plain) {b : Batch ε} {record : Record} {first : Int64}
    (hfirst : (if b.batchCnt = 0 then record.timestamp else b.firstTimestamp) = first) :
    b.offer libs req (Append.counted libs req) record =
      match Kafka.appendRecord req.config.toProduceConfig record b.batchCnt first b.batchLength with
      | none => .full
      | some block => .taken (solid block)
          { compressEnv := b.compressEnv
            batchLength := Int32.ofInt (b.batchLength.toInt + block.length)
            batchCnt := b.batchCnt + 1
            firstTimestamp := first
            maxTimestamp := record.timestamp } := by
  have hnot : ¬ isCompressType req.config.compressType := by
    rw [hplain.compressType]
    decide
  unfold Batch.offer
  simp only [kafkaCompressPrepare, if_neg hnot, ite_self, hfirst, counted_plain hplain]
  cases Kafka.appendRecord req.config.toProduceConfig record b.batchCnt first b.batchLength with
  | none => rfl
  | some block => simp only [List.length_nil, Nat.zero_add, solid, lt_irrefl, if_false,
      List.nil_append, gt_iff_lt]

/-- Offering one more record. -/
theorem offer_plain (libs : Libraries ε) (hplain : req.Plain) (env : ε) {taken : List Record}
    {record : Record}
    (hsum : totalSize (taken ++ [record]) < 2 ^ 31) :
    (plainBatch env taken).offer libs req (Append.counted libs req) record =
      if req.config.produceMsgsetCnt.toInt < taken.length ∨
          req.config.maxMsgSize.toInt < totalSize (taken ++ [record]) then .full
      else .taken [recordBytes record (Int32.ofNat taken.length)
        (firstTimestampOf (taken ++ [record]))] (plainBatch env (taken ++ [record])) := by
  have hsnoc := totalSize_snoc taken record
  have hcount := length_le_totalSize taken
  have hzero : (plainBatch env taken).batchCnt = 0 ↔ taken = [] := by
    show Int32.ofNat taken.length = 0 ↔ taken = []
    rw [← Int32.toInt_inj, Int32.toInt_ofNat_of_lt (by omega), ← List.length_eq_zero_iff]
    exact Int.natCast_eq_zero
  have hfirst : (if (plainBatch env taken).batchCnt = 0 then record.timestamp
      else (plainBatch env taken).firstTimestamp) = firstTimestampOf (taken ++ [record]) := by
    rw [firstTimestampOf_snoc]
    by_cases hnil : taken = []
    · rw [if_pos (hzero.mpr hnil), if_pos hnil]
    · rw [if_neg (mt hzero.mp hnil), if_neg hnil]
      rfl
  rw [offer_eq hplain hfirst]
  show (match Kafka.appendRecord req.config.toProduceConfig record (Int32.ofNat taken.length)
    (firstTimestampOf (taken ++ [record])) (Int32.ofInt (totalSize taken)) with
    | none => Offered.full
    | some block => _) = _
  rw [appendRecord_plain hsum]
  by_cases hrefused : req.config.produceMsgsetCnt.toInt < taken.length ∨
      req.config.maxMsgSize.toInt < totalSize (taken ++ [record])
  · rw [if_pos hrefused, if_pos hrefused]
  · rw [if_neg hrefused, if_neg hrefused]
    have hsolid : ∀ offset first, solid (recordBytes record offset first) =
        [recordBytes record offset first] := fun offset first =>
      if_pos (List.length_pos_of_ne_nil (recordBytes_ne_nil record offset first))
    simp only [hsolid, plainBatch, Offered.taken.injEq, true_and, Batch.mk.injEq]
    refine ⟨?_, ?_, ?_⟩
    · rw [Int32.toInt_ofInt_of_le (by omega) (by omega), hsnoc, Nat.cast_add]
    · rw [List.length_append, List.length_singleton, Int32.ofNat_add]
      rfl
    · simp [lastTimestampOf]

/-- A record that comes too late is refused whatever its size. -/
theorem offer_many (hplain : req.Plain) {env : ε} {taken : List Record} {record : Record}
    (htaken : taken = [] ∨ (totalSize taken : Int) ≤ req.config.maxMsgSize.toInt)
    (hmany : req.config.produceMsgsetCnt.toInt < taken.length) :
    (plainBatch env taken).offer libs req (Append.counted libs req) record = .full := by
  have hlt : taken.length < 2 ^ 31 := by
    rcases htaken with hnil | hsize
    · rw [hnil]
      decide
    · have hcount := length_le_totalSize taken
      have hmax := req.config.maxMsgSize.toInt_lt
      omega
  have hcnt : req.config.produceMsgsetCnt < (plainBatch env taken).batchCnt := by
    show req.config.produceMsgsetCnt < Int32.ofNat taken.length
    rwa [Int32.lt_iff_toInt_lt, Int32.toInt_ofNat_of_lt hlt]
  rw [offer_eq hplain rfl, Kafka.appendRecord, if_pos hcnt]

/-- What is collected for these requests. -/
theorem collect_plain (libs : Libraries ε) (hplain : req.Plain) (env : ε) (taken rest : List Record)
    (hfit : SumsFit req.config (taken ++ rest))
    (htaken : taken = [] ∨ (totalSize taken : Int) ≤ req.config.maxMsgSize.toInt) :
    ∃ n ≤ rest.length, ∃ ending,
      collect libs req (Append.counted libs req) rest (plainBatch env taken) =
        ⟨n, blocksFrom (firstTimestampOf (taken ++ rest)) taken.length (rest.take n),
          plainBatch env (taken ++ rest.take n), ending⟩ ∧
      (ending = .exhausted ∧ n = rest.length ∨
        ending = .full ∧ ∃ record more, rest.drop n = record :: more ∧
          (req.config.produceMsgsetCnt.toInt < (taken.length + n : Nat) ∨
            req.config.maxMsgSize.toInt < totalSize (taken ++ rest.take n ++ [record]))) ∧
      (n ≠ 0 → (totalSize (taken ++ rest.take n) : Int) ≤ req.config.maxMsgSize.toInt ∧
        totalSize (taken ++ rest.take n) + 12 < 2 ^ 31) := by
  induction rest generalizing taken with
  | nil =>
      refine ⟨0, le_refl 0, .exhausted, ?_, Or.inl ⟨rfl, rfl⟩, fun h => absurd rfl h⟩
      simp [collect, blocksFrom]
  | cons record rest ih =>
      have hrefused : (plainBatch env taken).offer libs req (Append.counted libs req) record =
          .full → collect libs req (Append.counted libs req) (record :: rest) (plainBatch env taken) =
            ⟨0, blocksFrom (firstTimestampOf (taken ++ record :: rest)) taken.length
              ((record :: rest).take 0), plainBatch env (taken ++ (record :: rest).take 0), .full⟩ := by
        intro hfull
        rw [collect, hfull, List.take_zero, List.append_nil]
        rfl
      by_cases hmany : req.config.produceMsgsetCnt.toInt < taken.length
      · refine ⟨0, Nat.zero_le _, .full, hrefused (offer_many hplain htaken hmany),
          Or.inr ⟨rfl, record, rest, rfl, Or.inl hmany⟩, fun h => absurd rfl h⟩
      · obtain ⟨hsum, hset⟩ := hfit taken record rest rfl (not_lt.mp hmany) htaken
        have hoffer := offer_plain libs hplain env hsum
        by_cases hlarge : req.config.maxMsgSize.toInt < totalSize (taken ++ [record])
        · rw [if_pos (Or.inr hlarge)] at hoffer
          refine ⟨0, Nat.zero_le _, .full, hrefused hoffer,
            Or.inr ⟨rfl, record, rest, rfl, Or.inr ?_⟩, fun h => absurd rfl h⟩
          rwa [List.take_zero, List.append_nil]
        · rw [if_neg (not_or.mpr ⟨hmany, hlarge⟩)] at hoffer
          have hassoc : taken ++ record :: rest = taken ++ [record] ++ rest := by simp
          have hfirst : firstTimestampOf (taken ++ [record] ++ rest) =
              firstTimestampOf (taken ++ [record]) := firstTimestampOf_append (by simp)
          rw [hassoc] at hfit
          obtain ⟨n, hn, ending, hcollect, hending, hsizes⟩ := ih _ hfit (Or.inr (not_lt.mp hlarge))
          have htake : taken ++ (record :: rest).take (n + 1) = taken ++ [record] ++ rest.take n := by
            simp
          refine ⟨n + 1, Nat.succ_le_succ hn, ending, ?_, ?_, ?_⟩
          · rw [collect, hoffer]
            simp only [hcollect]
            rw [htake, hassoc, hfirst, List.take_succ_cons, blocksFrom, List.length_append,
              List.length_singleton]
            rfl
          · rw [htake]
            rcases hending with ⟨hexhausted, hlen⟩ | ⟨hfull, next, more, hdrop, hreason⟩
            · exact Or.inl ⟨hexhausted, by rw [hlen, List.length_cons]⟩
            · refine Or.inr ⟨hfull, next, more, hdrop, ?_⟩
              rw [List.length_append, List.length_singleton] at hreason
              rwa [Nat.add_assoc, Nat.add_comm 1 n] at hreason
          · intro _
            rw [htake]
            by_cases hzero : n = 0
            · subst hzero
              rw [List.take_zero, List.append_nil]
              exact ⟨not_lt.mp hlarge, hset (not_lt.mp hlarge)⟩
            · exact hsizes hzero

/-! ### The header of a batch -/

/-- What stands in front of a batch, with the size of the record set. -/
def topicPart (t : KafkaToppar) (size : Int32) : List Byte :=
  appendString t.topic ++ appendI32 1 ++ appendI32 t.partition ++ appendI32 size

/-- The batch of these records as `KafkaRecord` describes it. -/
def stateOf (taken : List Record) : BatchState where
  blocks := blocksFrom (firstTimestampOf taken) 0 taken
  batchLength := Int32.ofInt (totalSize taken)
  batchCnt := Int32.ofNat taken.length
  firstTimestamp := firstTimestampOf taken
  maxTimestamp := lastTimestampOf taken

theorem modify_middle {α : Type} (front : List α) (x : α) (back : List α) (f : α → α) :
    (front ++ x :: back).modify front.length f = front ++ f x :: back := by
  induction front with
  | nil => rfl
  | cons y front ih =>
      rw [List.cons_append, List.length_cons, List.modify_succ_cons, ih, List.cons_append]

theorem overwriteI32_topicHeader (t : KafkaToppar) (size : Int32) :
    overwriteI32 ((topicHeader t).length - 4) size (topicHeader t) = topicPart t size := by
  have hfour : (appendI32 0).length = 4 := length_bigEndian ..
  have hlen : (topicHeader t).length - 4 =
      (appendString t.topic ++ appendI32 1 ++ appendI32 t.partition).length := by
    rw [topicHeader, List.length_append, hfour, Nat.add_sub_cancel]
  have hover := overwriteI32_append (appendString t.topic ++ appendI32 1 ++ appendI32 t.partition) []
    0 size
  rw [List.append_nil, List.append_nil] at hover
  rw [hlen, topicHeader]
  exact hover

/-- The header in front of the checksum. -/
def headerFront (s : BatchState) : List Byte :=
  appendI64 0 ++ appendI32 s.batchLength ++ appendI32 0 ++ appendI8 2

theorem recordHeader_eq (hplain : req.Plain) {l : ProduceLoop ε} {env : ε} {taken : List Record}
    (hvars : l.vars = plainBatch env taken) :
    recordHeader req l = headerFront (stateOf taken) ++ appendI32 0 ++ batchHeader (stateOf taken) := by
  have hlength : l.batchLength = (stateOf taken).batchLength := congrArg Batch.batchLength hvars
  have hcnt : l.batchCnt = (stateOf taken).batchCnt := congrArg Batch.batchCnt hvars
  have hfirst : l.firstTimestamp = (stateOf taken).firstTimestamp :=
    congrArg Batch.firstTimestamp hvars
  have hmax : l.maxTimestamp = (stateOf taken).maxTimestamp := congrArg Batch.maxTimestamp hvars
  simp only [recordHeader, headerFront, batchHeader, hlength, hcnt, hfirst, hmax, hplain.compressType]
  rfl

theorem length_headerFront (s : BatchState) : (headerFront s).length = crc32Offset := by
  simp [headerFront, appendI8, appendI32, appendI64, crc32Offset]

/-- The blocks after the loop with the header that goes in between. -/
theorem finishRecordBatch_blocks (libs : Libraries ε) (hplain : req.Plain) {t : KafkaToppar}
    {base : KafkaBuffer}
    {c : Collected ε} {l : ProduceLoop ε} {env : ε} {taken : List Record}
    (h : Finished t base c l) (hcount : c.count < 2 ^ 31) (hne : c.count ≠ 0)
    (hbatch : c.batch = plainBatch env taken)
    (hblocks : c.blocks = blocksFrom (firstTimestampOf taken) 0 taken) :
    (finishRecordBatch libs req l).blockList = base.blockList ++
      topicPart t (Int32.ofInt (totalSize taken) + 4 + 8) ::
        (headerFront (stateOf taken) ++ appendI32 (batchCrc libs.crc32c (stateOf taken)).toInt32 ++
          batchHeader (stateOf taken)) :: c.blocks := by
  have hserialized := h.serialized hcount
  rw [if_neg hne, addItems_eq] at hserialized
  have hlist : l.serialized.blockList = base.blockList ++ [topicHeader t] ++ c.blocks := by
    rw [hserialized]
    rfl
  have hpos : l.serialized.insertPos = (base.blockList ++ [topicHeader t]).length := by
    rw [hserialized]
    rfl
  have hinsert : (l.serialized.insertList (recordHeader req l)).blockList =
      base.blockList ++ [topicHeader t] ++ recordHeader req l :: c.blocks := by
    simp only [KafkaBuffer.insertList, hlist, hpos, List.take_left, List.drop_left]
  have hinserted : (l.serialized.insertList (recordHeader req l)).insertedBlocks = c.blocks := by
    have hnext : (l.serialized.insertList (recordHeader req l)).insertPos =
        (base.blockList ++ [topicHeader t] ++ [recordHeader req l]).length := by
      simp only [KafkaBuffer.insertList, hpos, List.length_append, List.length_singleton]
    have hassoc : base.blockList ++ [topicHeader t] ++ recordHeader req l :: c.blocks =
        base.blockList ++ [topicHeader t] ++ [recordHeader req l] ++ c.blocks := by simp
    rw [KafkaBuffer.insertedBlocks, hnext, hinsert, hassoc, List.drop_left]
  have hvars := h.vars hcount hne
  rw [hbatch] at hvars
  have hheader := recordHeader_eq hplain hvars
  have htail : (recordHeader req l).drop (crc32Offset + 4) = batchHeader (stateOf taken) := by
    have hfour : (headerFront (stateOf taken) ++ appendI32 0).length = crc32Offset + 4 := by
      rw [List.length_append, length_headerFront]
      rfl
    rw [hheader, ← hfour, List.drop_left]
  have hcrc : (l.serialized.insertList (recordHeader req l)).insertedBlocks.foldl libs.crc32c
      (libs.crc32c 0 ((recordHeader req l).drop (crc32Offset + 4))) =
        batchCrc libs.crc32c (stateOf taken) := by
    rw [hinserted, htail, hblocks]
    rfl
  have hfilled : ∀ crc, overwriteI32 crc32Offset crc (recordHeader req l) =
      headerFront (stateOf taken) ++ appendI32 crc ++ batchHeader (stateOf taken) := by
    intro crc
    rw [hheader, ← length_headerFront (stateOf taken)]
    exact overwriteI32_append _ _ _ _
  have hnode : l.recordsetNode - 1 = base.blockList.length := by
    rw [h.recordsetNode hcount hne, Nat.add_sub_cancel]
  have hnext : (l.serialized.insertList (recordHeader req l)).insertPos - 1 =
      (base.blockList ++ [topicHeader t]).length := by
    rw [← hpos]
    rfl
  have hlength : l.batchLength = Int32.ofInt (totalSize taken) := congrArg Batch.batchLength hvars
  simp only [finishRecordBatch, ProduceLoop.storeRecordsetSize, KafkaBuffer.storeI32, hcrc, hinsert,
    hnode, hnext, modify_middle, hfilled, hlength, topicHeader_congr h.topic h.partition]
  rw [List.append_assoc, List.singleton_append, modify_middle, overwriteI32_topicHeader]

/-! ### One partition -/

/-- What a request carries for a partition that sends these records: the topic, the partition and the
size of the record set, and then the batch, in which the records are numbered from 0 on. Each of the
two sizes is the number of bytes behind it, and the size of the batch keeps the limit. -/
def BatchRight (crc32c : UInt32 → List Byte → UInt32) (config : KafkaConfig) (t : KafkaToppar)
    (taken : List Record) (part : List Byte) : Prop :=
  let recordset := batchBytes crc32c (stateOf taken)
  part = topicPart t (Int32.ofNat recordset.length) ++ recordset ∧ recordset.length < 2 ^ 31 ∧
    ∃ after, recordset = appendI64 0 ++ appendI32 (Int32.ofNat after.length) ++ after ∧
      recordset.length = after.length + 12 ∧ (after.length : Int) ≤ config.maxMsgSize.toInt

/-- The records that a call puts into a batch, `t'` being the partition after the call. -/
def takenOf (clock : Nat → Int64) (t t' : KafkaToppar) : List Record :=
  (stampFrom clock 0 (t.recordList.drop t.curpos)).take (t'.curpos - t.curpos)

/-- What a call does with a partition: the cursor moves over the records that are sent, at least one
if there is one, and the end position is the record behind them. -/
structure PartRight (crc32c : UInt32 → List Byte → UInt32) (config : KafkaConfig)
    (clock : Nat → Int64) (t t' : KafkaToppar) (part : List Byte) : Prop where
  topic : t'.topic = t.topic
  partition : t'.partition = t.partition
  bare : t'.recordList.map Record.bare = t.recordList.map Record.bare
  forward : t.curpos ≤ t'.curpos
  inside : t'.curpos ≤ max t.curpos t.recordList.length
  idle : t'.curpos = t.curpos →
    t.recordList.length ≤ t.curpos ∧ part = [] ∧ t'.endpos = t.endpos
  sends : t'.curpos ≠ t.curpos →
    BatchRight crc32c config t (takenOf clock t t') part ∧ t'.endpos = some (t.next t'.curpos)

theorem batchRight_of_totalSize (crc32c : UInt32 → List Byte → UInt32) {config : KafkaConfig}
    (t : KafkaToppar) {taken : List Record}
    (hmax : (totalSize taken : Int) ≤ config.maxMsgSize.toInt) (hset : totalSize taken + 12 < 2 ^ 31) :
    BatchRight crc32c config t taken
      (topicPart t (Int32.ofInt (totalSize taken) + 4 + 8) ++ batchBytes crc32c (stateOf taken)) := by
  have hlength : (batchBytes crc32c (stateOf taken)).length = totalSize taken + 12 := by
    rw [length_batchBytes, totalSize]
    simp only [stateOf]
    omega
  have hfield : Int32.ofInt (totalSize taken) = Int32.ofNat (totalSize taken) := rfl
  have hsize : Int32.ofInt (totalSize taken) + 4 + 8 =
      Int32.ofNat (batchBytes crc32c (stateOf taken)).length := by
    rw [hlength, hfield, Int32.add_assoc, Int32.ofNat_add]
    rfl
  let after := appendI32 0 ++ appendI8 2 ++ appendI32 (batchCrc crc32c (stateOf taken)).toInt32 ++
    batchHeader (stateOf taken) ++ (stateOf taken).blocks.flatten
  have hafter : after.length = totalSize taken := by
    simp only [after, List.length_append, length_batchHeader, appendI8, appendI32, length_bigEndian,
      totalSize, stateOf]
  refine ⟨by rw [hsize], by omega, after, ?_, by omega, by omega⟩
  rw [hafter, ← hfield]
  simp only [batchBytes, after, List.append_assoc]
  rfl

/-- The records behind the cursor with their new time stamps. -/
def pending (clock : Nat → Int64) (t : KafkaToppar) : List Record :=
  stampFrom clock 0 (t.recordList.drop t.curpos)

theorem length_pending (clock : Nat → Int64) (t : KafkaToppar) :
    (pending clock t).length = t.recordList.length - t.curpos := by
  rw [pending, length_stampFrom, List.length_drop]

/-- The loop over the records of a partition for these requests. -/
theorem recordLoop_plain (libs : Libraries ε) (hplain : req.Plain) (t : KafkaToppar) (s : ProduceState ε)
    (hfit : SumsFit req.config (pending clock t)) :
    ∃ ok l ending n,
      recordLoop libs req clock
          (ProduceLoop.start req.messageVersion t s.serialized s.compressEnv) = some (ok, l) ∧
      n ≤ t.recordList.length - t.curpos ∧
      (ok = true ↔ ending = .exhausted ∨ (ending = .full ∧ n ≠ 0)) ∧
      (ok = true → Finished t s.serialized
        ⟨n, blocksFrom (firstTimestampOf (pending clock t)) 0 ((pending clock t).take n),
          plainBatch s.compressEnv ((pending clock t).take n), ending⟩ l) ∧
      (ending = .exhausted ∧ n = t.recordList.length - t.curpos ∨
        ending = .full ∧ ∃ record more, (pending clock t).drop n = record :: more ∧
          (req.config.produceMsgsetCnt.toInt < n ∨
            req.config.maxMsgSize.toInt < totalSize ((pending clock t).take n ++ [record]))) ∧
      (n ≠ 0 → (totalSize ((pending clock t).take n) : Int) ≤ req.config.maxMsgSize.toInt ∧
        totalSize ((pending clock t).take n) + 12 < 2 ^ 31) := by
  obtain ⟨ok, l, hloop, hok, hfinished⟩ := recordLoop_spec libs req clock t s.serialized s.compressEnv
  obtain ⟨n, hn, ending, hcollect, hending, hsizes⟩ := collect_plain libs hplain
    s.compressEnv [] (pending clock t) hfit (Or.inl rfl)
  simp only [List.nil_append, List.length_nil, Nat.zero_add, length_pending] at hn hcollect hsizes hending
  have hbatch : batchOf libs req (Append.counted libs req) clock t s.compressEnv =
      ⟨n, blocksFrom (firstTimestampOf (pending clock t)) 0 ((pending clock t).take n),
        plainBatch s.compressEnv ((pending clock t).take n), ending⟩ := by
    rw [batchOf, vars_start hplain]
    exact hcollect
  rw [hbatch] at hok hfinished
  exact ⟨ok, l, ending, n, hloop, hn, hok, hfinished, hending, hsizes⟩

theorem finishBatch_plain (hplain : req.Plain) (l : ProduceLoop ε) :
    finishBatch libs req l = some (finishRecordBatch libs req l) := by
  rw [finishBatch, finishCompression, if_neg (not_not.mpr hplain.compressType), Option.map_some,
    if_pos hplain.messageVersion]

/-- One pass of the loop over the partitions that goes well. -/
theorem encodeToppar_plain (hplain : req.Plain) {t t' : KafkaToppar} {s s' : ProduceState ε}
    (hfit : SumsFit req.config (pending clock t))
    (h : encodeToppar libs req clock t s = (true, t', s')) :
    ∃ blocks, s'.serialized.blockList = s.serialized.blockList ++ blocks ∧
      PartRight libs.crc32c req.config clock t t' blocks.flatten ∧
      s'.topicCnt = s.topicCnt + if t'.curpos = t.curpos then 0 else 1 := by
  obtain ⟨ok, l, ending, n, hloop, hn, hok, hfinished, hending, hsizes⟩ :=
    recordLoop_plain libs hplain t s hfit
  rw [encodeToppar, hloop] at h
  simp only at h
  have htrue : ok = true := by
    by_contra hfalse
    rw [if_pos hfalse] at h
    cases h
  have hl := hfinished htrue
  rw [if_neg (not_not.mpr htrue)] at h
  by_cases hzero : n = 0
  · subst hzero
    rw [if_pos (hl.recordFlag.mpr rfl)] at h
    cases h
    have hcurpos : l.toppar.curpos = t.curpos := hl.curpos
    have hnone : t.recordList.length ≤ t.curpos := by
      have hexhausted : ending = .exhausted := (hok.mp htrue).resolve_right fun h => h.2 rfl
      rcases hending with ⟨-, hlen⟩ | ⟨hfull, -⟩
      · omega
      · rw [hexhausted] at hfull
        cases hfull
    refine ⟨[], ?_, ⟨hl.topic, hl.partition, hl.bare, hcurpos.ge, by omega, ?_, ?_⟩, ?_⟩
    · rw [hl.serialized (Nat.two_pow_pos 31), List.append_nil]
      rfl
    · exact fun _ => ⟨hnone, rfl, hl.endpos⟩
    · exact fun hne => absurd hcurpos hne
    · rw [if_pos hcurpos, Int32.add_zero]
  · obtain ⟨hmax, hset⟩ := hsizes hzero
    have hcount := length_le_totalSize ((pending clock t).take n)
    rw [List.length_take, length_pending, min_eq_left hn] at hcount
    have hcurpos : l.toppar.curpos = t.curpos + n := hl.curpos
    have hmoved : l.toppar.curpos ≠ t.curpos := by omega
    have hinside : l.toppar.curpos ≤ max t.curpos t.recordList.length :=
      le_trans (by omega : _ ≤ t.recordList.length) (le_max_right _ _)
    have hfirst := firstTimestampOf_take (pending clock t) hzero
    have hblocks := finishRecordBatch_blocks libs hplain hl (by show n < _; omega) hzero rfl
      (by rw [hfirst])
    have htaken : takenOf clock t l.toppar = (pending clock t).take n := by
      rw [takenOf, hcurpos, Nat.add_sub_cancel_left]
      rfl
    rw [if_neg (mt hl.recordFlag.mp hzero), finishBatch_plain hplain] at h
    cases h
    refine ⟨_, hblocks, ⟨hl.topic, hl.partition, hl.bare, by omega, hinside, ?_, fun _ => ⟨?_, ?_⟩⟩, ?_⟩
    · exact fun h => absurd h hmoved
    · have hright := batchRight_of_totalSize libs.crc32c t hmax hset
      rw [htaken, List.flatten_cons, List.flatten_cons, ← hfirst]
      exact hright
    · rw [hl.endpos, if_neg hzero, hcurpos]
    · rw [if_neg hmoved]

/-- Each of the records fits into a batch of its own. -/
def EachFits (config : KafkaConfig) (records : List Record) : Prop :=
  ∀ record ∈ records, (totalSize [record] : Int) ≤ config.maxMsgSize.toInt

theorem totalSize_stamp (record : Record) (now : Int64) :
    totalSize [{ record with timestamp := now }] = totalSize [record] := by
  have hbody : recordBody { record with timestamp := now } 0 now =
      recordBody record 0 record.timestamp := by
    simp only [recordBody, Int64.sub_self]
    rfl
  simp only [totalSize, firstTimestampOf, blocksFrom, recordBytes, lengthStr]
  rw [show Int32.ofNat 0 = 0 from rfl, hbody]

theorem mem_stampFrom {clock : Nat → Int64} {i : Nat} {records : List Record} {record : Record}
    (h : record ∈ stampFrom clock i records) :
    ∃ original ∈ records, ∃ now, record = { original with timestamp := now } := by
  induction records generalizing i with
  | nil => cases h
  | cons first records ih =>
      rcases List.mem_cons.mp h with heq | hmem
      · exact ⟨first, List.mem_cons_self, clock i, heq⟩
      · obtain ⟨original, horiginal, now, heq⟩ := ih hmem
        exact ⟨original, List.mem_cons_of_mem _ horiginal, now, heq⟩

/-- A record in a batch of its own is let in, so nothing fails. -/
theorem encodeToppar_ok (libs : Libraries ε) (hplain : req.Plain) {t : KafkaToppar} (s : ProduceState ε)
    (hfit : SumsFit req.config (pending clock t)) (heach : EachFits req.config t.recordList)
    (hcnt : 0 ≤ req.config.produceMsgsetCnt) :
    (encodeToppar libs req clock t s).1 = true := by
  obtain ⟨ok, l, ending, n, hloop, hn, hok, hfinished, hending, -⟩ :=
    recordLoop_plain libs hplain t s hfit
  have htrue : ok = true := by
    rw [hok]
    rcases hending with ⟨hexhausted, -⟩ | ⟨hfull, record, more, hdrop, hreason⟩
    · exact Or.inl hexhausted
    · refine Or.inr ⟨hfull, fun hzero => ?_⟩
      rw [hzero, List.drop_zero] at hdrop
      rw [hzero, List.take_zero, List.nil_append] at hreason
      have hmem : record ∈ pending clock t := by
        rw [hdrop]
        exact List.mem_cons_self
      obtain ⟨original, horiginal, now, rfl⟩ := mem_stampFrom hmem
      have hfits := heach original (List.mem_of_mem_drop horiginal)
      rw [totalSize_stamp] at hreason
      rw [Int32.le_iff_toInt_le] at hcnt
      have hzeroInt : (0 : Int32).toInt = 0 := rfl
      omega
  rw [encodeToppar, hloop]
  simp only [htrue, not_true_eq_false, if_false, finishBatch_plain hplain]
  split
  · rfl
  · rfl

end Plain

/-! ### One request -/

/-- What a call does with its partitions, one after the other. -/
inductive PartsRight (crc32c : UInt32 → List Byte → UInt32) (config : KafkaConfig) :
    (Nat → Nat → Int64) → List KafkaToppar → List KafkaToppar → List (List Byte) → Prop where
  | nil {clock : Nat → Nat → Int64} : PartsRight crc32c config clock [] [] []
  | cons {clock : Nat → Nat → Int64} {t t' : KafkaToppar} {part : List Byte}
      {toppars toppars' : List KafkaToppar} {parts : List (List Byte)}
      (head : PartRight crc32c config (clock 0) t t' part)
      (tail : PartsRight crc32c config (fun i => clock (i + 1)) toppars toppars' parts) :
      PartsRight crc32c config clock (t :: toppars) (t' :: toppars') (part :: parts)

/-- How many partitions have sent something. -/
def contributions (parts : List (List Byte)) : Nat :=
  parts.countP fun part => part ≠ []

/-- A request is the head with the number of partitions that have sent something, and their parts. -/
def RequestRight (crc32c : UInt32 → List Byte → UInt32) (req : KafkaRequest)
    (clock : Nat → Nat → Int64) (toppars toppars' : List KafkaToppar) (produced : Produced) : Prop :=
  ∃ parts, PartsRight crc32c req.config clock toppars toppars' parts ∧
    contributions parts < 2 ^ 31 ∧
    produced.msgbuf = req.msgbuf ++ produceHead req ++ appendI32 (Int32.ofNat (contributions parts)) ∧
    produced.serialized.blockList.flatten = parts.flatten ∧
    produced.stream.text = produced.msgbuf ++ parts.flatten

section Requests

variable {ε : Type} {libs : Libraries ε} {req : KafkaRequest}

theorem PartRight.part_eq_nil {crc32c : UInt32 → List Byte → UInt32} {config : KafkaConfig}
    {clock : Nat → Int64} {t t' : KafkaToppar} {part : List Byte}
    (h : PartRight crc32c config clock t t' part) : part = [] ↔ t'.curpos = t.curpos := by
  constructor
  · intro hnil
    by_contra hne
    obtain ⟨hpart, -⟩ := (h.sends hne).1
    rw [hnil] at hpart
    have hlength := congrArg List.length hpart
    rw [List.length_append, length_batchBytes] at hlength
    simp only [List.length_nil] at hlength
    omega
  · exact fun heq => (h.idle heq).2.1

theorem contributions_cons (part : List Byte) (parts : List (List Byte)) :
    contributions (part :: parts) = contributions parts + if part = [] then 0 else 1 := by
  unfold contributions
  rw [List.countP_cons]
  by_cases hnil : part = []
  · simp [hnil]
  · simp [hnil]

/-- The loop over the partitions. -/
theorem encodeToppars_plain (hplain : req.Plain) {clock : Nat → Nat → Int64}
    {toppars toppars' : List KafkaToppar} {s s' : ProduceState ε}
    (hfit : ∀ i t, toppars[i]? = some t → SumsFit req.config (pending (clock i) t))
    (h : encodeToppars libs req clock toppars s = (true, toppars', s')) :
    ∃ parts, PartsRight libs.crc32c req.config clock toppars toppars' parts ∧
      s'.serialized.blockList.flatten = s.serialized.blockList.flatten ++ parts.flatten ∧
      s'.topicCnt = s.topicCnt + Int32.ofNat (contributions parts) := by
  induction toppars generalizing clock toppars' s with
  | nil =>
      cases h
      exact ⟨[], .nil, by simp, by simp [contributions]⟩
  | cons t toppars ih =>
      rw [encodeToppars] at h
      generalize hone : encodeToppar libs req (clock 0) t s = r at h
      obtain ⟨ok, t', s₁⟩ := r
      simp only at h
      cases ok with
      | false => cases h
      | true =>
          obtain ⟨blocks, hblocks, hpart, hcnt⟩ := encodeToppar_plain hplain (hfit 0 t rfl) hone
          generalize hrest : encodeToppars libs req (fun i => clock (i + 1)) toppars s₁ = r at h
          obtain ⟨ok, toppars₁, s₂⟩ := r
          simp only [if_true] at h
          cases h
          obtain ⟨parts, hparts, hserialized, htopics⟩ := ih (fun i t ht => hfit (i + 1) t ht) hrest
          refine ⟨blocks.flatten :: parts, .cons hpart hparts, ?_, ?_⟩
          · rw [hserialized, hblocks, List.flatten_append, List.flatten_cons, List.append_assoc]
          · have hterm : (if t'.curpos = t.curpos then (0 : Int32) else 1) =
                Int32.ofNat (if blocks.flatten = [] then 0 else 1) := by
              by_cases hidle : t'.curpos = t.curpos
              · rw [if_pos hidle, if_pos (hpart.part_eq_nil.mpr hidle)]
                rfl
              · rw [if_neg hidle, if_neg (mt hpart.part_eq_nil.mp hidle)]
                rfl
            rw [htopics, hcnt, hterm, contributions_cons, Int32.ofNat_add, Int32.add_assoc,
              Int32.add_comm (Int32.ofNat (contributions parts))]

theorem PartsRight.length_eq {crc32c : UInt32 → List Byte → UInt32} {config : KafkaConfig}
    {clock : Nat → Nat → Int64} {toppars toppars' : List KafkaToppar} {parts : List (List Byte)}
    (h : PartsRight crc32c config clock toppars toppars' parts) : parts.length = toppars.length := by
  induction h with
  | nil => rfl
  | cons _ _ ih => rw [List.length_cons, List.length_cons, ih]

/-- The blocks as they go into the stream. -/
theorem text_appendBlocks (blocks : List (List Byte)) {stream : EncodeStream}
    (h : stream.Consistent) :
    (blocks.foldl (fun stream block => stream.appendNocopy block) stream).text =
      stream.text ++ blocks.flatten := by
  induction blocks generalizing stream with
  | nil => simp
  | cons block blocks ih =>
      obtain ⟨hconsistent, htext⟩ := append_spec h block
      have hrest := @ih (stream.appendNocopy block) hconsistent
      rw [List.foldl_cons, hrest, EncodeStream.appendNocopy, htext, List.flatten_cons,
        List.append_assoc]

/-- One call that goes well. -/
theorem encodeProduce_plain (hplain : req.Plain) {env : ε} {clock : Nat → Nat → Int64} {max : Nat}
    {toppars toppars' : List KafkaToppar} {produced : Produced} (hfew : toppars.length < 2 ^ 31)
    (hfit : ∀ i t, toppars[i]? = some t → SumsFit req.config (pending (clock i) t))
    (h : encodeProduce libs req env clock max toppars = (some produced, toppars')) :
    RequestRight libs.crc32c req clock toppars toppars' produced := by
  rw [encodeProduce] at h
  generalize hall : encodeToppars libs req clock toppars
    { serialized := KafkaBuffer.empty, compressEnv := env, topicCnt := 0 } = r at h
  obtain ⟨ok, toppars₁, s⟩ := r
  cases ok with
  | false => cases h
  | true =>
      cases h
      obtain ⟨parts, hparts, hserialized, htopics⟩ := encodeToppars_plain hplain hfit hall
      have hblocks : s.serialized.blockList.flatten = parts.flatten := hserialized
      have hcount : contributions parts ≤ toppars.length := by
        rw [← hparts.length_eq]
        exact List.countP_le_length
      obtain ⟨hconsistent, htext⟩ := append_spec (consistent_reset max)
        (req.msgbuf ++ produceHead req ++ appendI32 s.topicCnt)
      refine ⟨parts, hparts, by omega, ?_, hblocks, ?_⟩
      · rw [htopics, Int32.zero_add]
      · have hstream := text_appendBlocks s.serialized.blockList hconsistent
        rw [htext, hblocks] at hstream
        exact hstream

end Requests

/-! ### Successive requests -/

/-- A call of `encode_produce` on a fresh request. -/
structure ProduceCall (ε : Type) where
  req : KafkaRequest
  env : ε
  clock : Nat → Nat → Int64
  max : Nat

section Runs

variable {ε : Type} (libs : Libraries ε)

def ProduceCall.run (call : ProduceCall ε) (toppars : List KafkaToppar) :
    Option Produced × List KafkaToppar :=
  encodeProduce libs call.req call.env call.clock call.max toppars

/-- The calls one after the other, as long as they go well. -/
def produceAll : List (ProduceCall ε) → List KafkaToppar → Option (List Produced × List KafkaToppar)
  | [], toppars => some ([], toppars)
  | call :: calls, toppars =>
      match call.run libs toppars with
      | (none, _) => none
      | (some produced, toppars') => (produceAll calls toppars').map fun (requests, last) =>
          (produced :: requests, last)

/-- What is asked of a call: message version 2, no compression, and no sum that leaves the range of an
`int`. -/
structure ProduceCall.Fits (call : ProduceCall ε) (toppars : List KafkaToppar) : Prop where
  plain : call.req.Plain
  few : toppars.length < 2 ^ 31
  sums : ∀ i t, toppars[i]? = some t → SumsFit call.req.config (pending (call.clock i) t)

/-- Every call fits in the state it finds. -/
def AllFit : List (ProduceCall ε) → List KafkaToppar → Prop
  | [], _ => True
  | call :: calls, toppars => call.Fits toppars ∧ AllFit calls (call.run libs toppars).2

/-- Every request is right. -/
def RequestsRight : List (ProduceCall ε) → List KafkaToppar → List Produced → Prop
  | [], _, requests => requests = []
  | call :: calls, toppars, requests => ∃ produced rest, requests = produced :: rest ∧
      RequestRight libs.crc32c call.req call.clock toppars (call.run libs toppars).2 produced ∧
      RequestsRight calls (call.run libs toppars).2 rest

/-- The records of the partition `i` that a call puts into its batch. -/
def ProduceCall.sends (call : ProduceCall ε) (i : Nat) (toppars : List KafkaToppar) : List Record :=
  match toppars[i]?, (call.run libs toppars).2[i]? with
  | some t, some t' => takenOf (call.clock i) t t'
  | _, _ => []

/-- The records of the partition `i` in the batches of all requests. -/
def sentBy (i : Nat) : List (ProduceCall ε) → List KafkaToppar → List Record
  | [], _ => []
  | call :: calls, toppars =>
      call.sends libs i toppars ++ sentBy i calls (call.run libs toppars).2

end Runs

/-- What `calls` calls do with a partition whose records they send. -/
structure Sent (t t' : KafkaToppar) (calls : Nat) (sent : List Record) : Prop where
  bare : t'.recordList.map Record.bare = t.recordList.map Record.bare
  forward : t.curpos ≤ t'.curpos
  inside : t'.curpos ≤ t.recordList.length
  records : sent.map Record.bare =
    ((t.recordList.map Record.bare).drop t.curpos).take (t'.curpos - t.curpos)
  progress : min t.recordList.length (t.curpos + calls) ≤ t'.curpos
  atEnd : t'.curpos = t.recordList.length → t'.endpos = some 0
  endOnly : calls ≠ 0 → t'.endpos = some 0 → t'.curpos = t.recordList.length
  same : calls = 0 → t' = t

theorem Sent.length_eq {t t' : KafkaToppar} {calls : Nat} {sent : List Record}
    (h : Sent t t' calls sent) : t'.recordList.length = t.recordList.length := by
  have hlen := congrArg List.length h.bare
  rwa [List.length_map, List.length_map] at hlen

theorem Sent.trans {t t₁ t' : KafkaToppar} {calls : Nat} {taken sent : List Record}
    (h : Sent t t₁ 1 taken) (h' : Sent t₁ t' calls sent) :
    Sent t t' (calls + 1) (taken ++ sent) := by
  have hlen := h.length_eq
  have hforward := h.forward
  have hforward' := h'.forward
  constructor
  case bare => rw [h'.bare, h.bare]
  case forward => omega
  case inside => rw [← hlen]; exact h'.inside
  case records =>
    rw [List.map_append, h.records, h'.records, h.bare]
    have hsplit : t'.curpos - t.curpos = (t₁.curpos - t.curpos) + (t'.curpos - t₁.curpos) := by omega
    have hdrop : t.curpos + (t₁.curpos - t.curpos) = t₁.curpos := by omega
    rw [hsplit, List.take_add, List.drop_drop, hdrop]
  case progress =>
    have hprogress := h.progress
    have hprogress' := h'.progress
    omega
  case atEnd => rw [← hlen]; exact h'.atEnd
  case endOnly =>
    intro _ hend
    by_cases hnone : calls = 0
    · rw [h'.same hnone] at hend ⊢
      exact h.endOnly (by decide) hend
    · rw [← hlen]
      exact h'.endOnly hnone hend
  case same => exact fun h => absurd h (Nat.succ_ne_zero _)

theorem bare_stampFrom (clock : Nat → Int64) (i : Nat) (records : List Record) :
    (stampFrom clock i records).map Record.bare = records.map Record.bare := by
  induction records generalizing i with
  | nil => rfl
  | cons record records ih =>
      rw [stampFrom, List.map_cons, ih, List.map_cons]
      rfl

/-- One call. -/
theorem PartRight.sent {crc32c : UInt32 → List Byte → UInt32} {config : KafkaConfig}
    {clock : Nat → Int64} {t t' : KafkaToppar} {part : List Byte}
    (h : PartRight crc32c config clock t t' part) (hinside : t.curpos ≤ t.recordList.length)
    (hend : t.curpos = t.recordList.length → t.endpos = some 0) :
    Sent t t' 1 (takenOf clock t t') := by
  have hforward := h.forward
  have hmax := h.inside
  rw [max_eq_right hinside] at hmax
  have hbound : t.curpos ≠ t'.curpos ∨ t.recordList.length ≤ t.curpos := by
    by_cases hidle : t'.curpos = t.curpos
    · exact Or.inr (h.idle hidle).1
    · exact Or.inl (Ne.symm hidle)
  constructor
  case bare => exact h.bare
  case forward => exact h.forward
  case inside => exact hmax
  case records =>
    rw [takenOf, List.map_take, bare_stampFrom, List.map_drop]
  case progress => omega
  case atEnd =>
    intro heq
    by_cases hidle : t'.curpos = t.curpos
    · rw [(h.idle hidle).2.2]
      exact hend (hidle ▸ heq)
    · rw [(h.sends hidle).2, KafkaToppar.next, if_pos heq]
  case endOnly =>
    intro _ hzero
    by_cases hidle : t'.curpos = t.curpos
    · have hnone := (h.idle hidle).1
      omega
    · rw [(h.sends hidle).2, KafkaToppar.next, Option.some.injEq] at hzero
      by_contra hne
      rw [if_neg hne] at hzero
      omega
  case same => exact fun h => absurd h (by decide)

theorem PartsRight.getElem {crc32c : UInt32 → List Byte → UInt32} {config : KafkaConfig}
    {clock : Nat → Nat → Int64} {toppars toppars' : List KafkaToppar} {parts : List (List Byte)}
    (h : PartsRight crc32c config clock toppars toppars' parts) {i : Nat} {t : KafkaToppar}
    (ht : toppars[i]? = some t) :
    ∃ t' part, toppars'[i]? = some t' ∧ PartRight crc32c config (clock i) t t' part := by
  induction h generalizing i with
  | nil => cases ht
  | cons head tail ih =>
      cases i with
      | zero =>
          cases ht
          exact ⟨_, _, rfl, head⟩
      | succ i => exact ih ht

section Main

variable {ε : Type} {libs : Libraries ε}

theorem produceAll_cons {call : ProduceCall ε} {calls : List (ProduceCall ε)}
    {toppars toppars' : List KafkaToppar} {requests : List Produced}
    (h : produceAll libs (call :: calls) toppars = some (requests, toppars')) :
    ∃ produced rest, requests = produced :: rest ∧
      call.run libs toppars = (some produced, (call.run libs toppars).2) ∧
      produceAll libs calls (call.run libs toppars).2 = some (rest, toppars') := by
  rw [produceAll] at h
  generalize call.run libs toppars = r at h ⊢
  obtain ⟨result, toppars₁⟩ := r
  cases result with
  | none => cases h
  | some produced =>
      obtain ⟨⟨rest, last⟩, hrest, heq⟩ := Option.map_eq_some_iff.mp h
      cases heq
      exact ⟨produced, rest, rfl, rfl, hrest⟩

theorem requestsRight {calls : List (ProduceCall ε)} {toppars toppars' : List KafkaToppar}
    {requests : List Produced} (hfit : AllFit libs calls toppars)
    (h : produceAll libs calls toppars = some (requests, toppars')) :
    RequestsRight libs calls toppars requests := by
  induction calls generalizing toppars requests with
  | nil =>
      cases h
      rfl
  | cons call calls ih =>
      obtain ⟨produced, rest, rfl, hrun, hrest⟩ := produceAll_cons h
      obtain ⟨hcall, hcalls⟩ := hfit
      exact ⟨produced, rest, rfl, encodeProduce_plain hcall.plain hcall.few hcall.sums hrun,
        ih hcalls hrest⟩

/-- The records of a partition over all calls. -/
theorem sentBy_sent {calls : List (ProduceCall ε)} {toppars toppars' : List KafkaToppar}
    {requests : List Produced} (hfit : AllFit libs calls toppars)
    (h : produceAll libs calls toppars = some (requests, toppars')) {i : Nat} {t : KafkaToppar}
    (ht : toppars[i]? = some t) (hinside : t.curpos ≤ t.recordList.length)
    (hend : t.curpos = t.recordList.length → t.endpos = some 0) :
    ∃ t', toppars'[i]? = some t' ∧ Sent t t' calls.length (sentBy libs i calls toppars) := by
  induction calls generalizing toppars requests t with
  | nil =>
      cases h
      refine ⟨t, ht, rfl, le_refl _, hinside, ?_, by rw [List.length_nil]; omega, hend,
        fun h => absurd rfl h, fun _ => rfl⟩
      rw [Nat.sub_self, List.take_zero]
      rfl
  | cons call calls ih =>
      obtain ⟨produced, rest, rfl, hrun, hrest⟩ := produceAll_cons h
      obtain ⟨hcall, hcalls⟩ := hfit
      obtain ⟨parts, hparts, -⟩ := encodeProduce_plain hcall.plain hcall.few hcall.sums hrun
      obtain ⟨t₁, part, ht₁, hpart⟩ := hparts.getElem ht
      have hone := hpart.sent hinside hend
      have hlen := hone.length_eq
      obtain ⟨t', ht', hsent⟩ := ih hcalls hrest ht₁ (hlen ▸ hone.inside) (hlen ▸ hone.atEnd)
      refine ⟨t', ht', ?_⟩
      have hsends : call.sends libs i toppars = takenOf (call.clock i) t t₁ := by
        rw [ProduceCall.sends, ht, ht₁]
      rw [sentBy, hsends]
      exact hone.trans hsent

/-- Each record alone keeps the limit, and the limit on their number is not negative. -/
def ProduceCall.Allows (call : ProduceCall ε) (toppars : List KafkaToppar) : Prop :=
  0 ≤ call.req.config.produceMsgsetCnt ∧ ∀ t ∈ toppars, EachFits call.req.config t.recordList

theorem eachFits_bare {config : KafkaConfig} {records records' : List Record}
    (h : records'.map Record.bare = records.map Record.bare) (heach : EachFits config records) :
    EachFits config records' := by
  intro record hmem
  have hbare : record.bare ∈ records.map Record.bare := by
    rw [← h]
    exact List.mem_map_of_mem hmem
  obtain ⟨original, horiginal, heq⟩ := List.mem_map.mp hbare
  have hsize := heach original horiginal
  rw [← totalSize_stamp original 0] at hsize
  rw [← totalSize_stamp record 0]
  have hsame : { record with timestamp := 0 } = { original with timestamp := 0 } := heq.symm
  rwa [hsame]

/-- The loop over the partitions does not fail. -/
theorem encodeToppars_ok (libs : Libraries ε) {req : KafkaRequest} (hplain : req.Plain)
    {clock : Nat → Nat → Int64} {toppars : List KafkaToppar} (s : ProduceState ε)
    (hfit : ∀ i t, toppars[i]? = some t → SumsFit req.config (pending (clock i) t))
    (hcnt : 0 ≤ req.config.produceMsgsetCnt)
    (heach : ∀ t ∈ toppars, EachFits req.config t.recordList) :
    (encodeToppars libs req clock toppars s).1 = true := by
  induction toppars generalizing clock s with
  | nil => rfl
  | cons t toppars ih =>
      have hone := encodeToppar_ok libs hplain s (hfit 0 t rfl)
        (heach t List.mem_cons_self) hcnt
      have hrest := ih (encodeToppar libs req (clock 0) t s).2.2 (fun i t ht => hfit (i + 1) t ht)
        fun t ht => heach t (List.mem_cons_of_mem _ ht)
      rw [encodeToppars]
      simp only [hone, if_true]
      exact hrest

theorem PartsRight.mem {crc32c : UInt32 → List Byte → UInt32} {config : KafkaConfig}
    {clock : Nat → Nat → Int64} {toppars toppars' : List KafkaToppar} {parts : List (List Byte)}
    (h : PartsRight crc32c config clock toppars toppars' parts) {t' : KafkaToppar}
    (ht : t' ∈ toppars') :
    ∃ t ∈ toppars, t'.recordList.map Record.bare = t.recordList.map Record.bare := by
  induction h with
  | nil => cases ht
  | cons head tail ih =>
      rcases List.mem_cons.mp ht with rfl | hmem
      · exact ⟨_, List.mem_cons_self, head.bare⟩
      · obtain ⟨t, hmem, hbare⟩ := ih hmem
        exact ⟨t, List.mem_cons_of_mem _ hmem, hbare⟩

theorem ProduceCall.run_ok (libs : Libraries ε) {call : ProduceCall ε} {toppars : List KafkaToppar}
    (hfit : call.Fits toppars) (hallows : call.Allows toppars) :
    ∃ produced, call.run libs toppars = (some produced, (call.run libs toppars).2) := by
  have hok := encodeToppars_ok libs hfit.plain
    { serialized := KafkaBuffer.empty, compressEnv := call.env, topicCnt := 0 } hfit.sums hallows.1
    hallows.2
  unfold ProduceCall.run encodeProduce
  simp only [hok, if_true]
  exact ⟨_, rfl⟩

/-- If each record alone keeps the limit, every call goes well. -/
theorem produceAll_ok {calls : List (ProduceCall ε)} {toppars : List KafkaToppar}
    (hfit : AllFit libs calls toppars) (hallows : ∀ call ∈ calls, call.Allows toppars) :
    ∃ requests toppars', produceAll libs calls toppars = some (requests, toppars') := by
  induction calls generalizing toppars with
  | nil => exact ⟨[], toppars, rfl⟩
  | cons call calls ih =>
      obtain ⟨hcall, hcalls⟩ := hfit
      obtain ⟨produced, hrun⟩ :=
        ProduceCall.run_ok libs hcall (hallows call List.mem_cons_self)
      obtain ⟨parts, hparts, -⟩ := encodeProduce_plain hcall.plain hcall.few hcall.sums hrun
      obtain ⟨requests, toppars', hrest⟩ := ih hcalls fun later hlater => by
        obtain ⟨hcnt, heach⟩ := hallows later (List.mem_cons_of_mem _ hlater)
        refine ⟨hcnt, fun t' ht' => ?_⟩
        obtain ⟨t, ht, hbare⟩ := hparts.mem ht'
        exact eachFits_bare hbare (heach t ht)
      refine ⟨produced :: requests, toppars', ?_⟩
      rw [produceAll, hrun]
      simp only [hrest, Option.map_some]

/-- The pointers of a partition as the constructor sets them. -/
def KafkaToppar.Fresh (t : KafkaToppar) : Prop :=
  t.curpos = 0 ∧ t.endpos = some 0

/-- What is promised of a sequence of calls: every request is right, and the records of a partition
are sent in order, each of them once; at least one of them goes with every call until the end is
reached, and `record_reach_end` says when that is. -/
def ProduceRight (libs : Libraries ε) (calls : List (ProduceCall ε)) (toppars : List KafkaToppar)
    (requests : List Produced) (toppars' : List KafkaToppar) : Prop :=
  RequestsRight libs calls toppars requests ∧
    ∀ i t, toppars[i]? = some t → ∃ t', toppars'[i]? = some t' ∧
      t'.curpos ≤ t.recordList.length ∧
      (sentBy libs i calls toppars).map Record.bare =
        (t.recordList.map Record.bare).take t'.curpos ∧
      min t.recordList.length calls.length ≤ t'.curpos ∧
      (calls ≠ [] → (t'.recordReachEnd = true ↔ t'.curpos = t.recordList.length))

/-- Over every sequence of calls on new partitions in which no sum leaves the range of an `int`: if
each record alone keeps the limit, every call goes well, and what has gone well is right. -/
theorem produceBatching {ε : Type} (libs : Libraries ε) (calls : List (ProduceCall ε))
    (toppars : List KafkaToppar) (hfresh : ∀ t ∈ toppars, t.Fresh) (hfit : AllFit libs calls toppars) :
    ((∀ call ∈ calls, call.Allows toppars) →
        ∃ requests toppars', produceAll libs calls toppars = some (requests, toppars')) ∧
      ∀ requests toppars', produceAll libs calls toppars = some (requests, toppars') →
        ProduceRight libs calls toppars requests toppars' := by
  refine ⟨produceAll_ok hfit, fun requests toppars' h => ⟨requestsRight hfit h, fun i t ht => ?_⟩⟩
  obtain ⟨hcurpos, hendpos⟩ := hfresh t (List.mem_of_getElem? ht)
  obtain ⟨t', ht', hsent⟩ := sentBy_sent hfit h ht (by omega) fun _ => hendpos
  have hrecords := hsent.records
  have hprogress := hsent.progress
  rw [hcurpos, List.drop_zero, Nat.sub_zero] at hrecords
  rw [hcurpos, Nat.zero_add] at hprogress
  refine ⟨t', ht', hsent.inside, hrecords, hprogress, fun hne => ?_⟩
  rw [KafkaToppar.recordReachEnd, beq_iff_eq]
  exact ⟨hsent.endOnly (mt List.length_eq_zero_iff.mp hne), hsent.atEnd⟩

end Main

/-! ### Small and large batches -/

/-- Records that all fit together with room to spare. -/
theorem sumsFit_of_totalSize {config : KafkaConfig} {records : List Record}
    (h : totalSize records + 12 < 2 ^ 31) : SumsFit config records := by
  rintro taken record more rfl - -
  have hle : totalSize (taken ++ [record]) ≤ totalSize (taken ++ record :: more) := by
    have hassoc : taken ++ record :: more = taken ++ [record] ++ more := by simp
    have hfirst : firstTimestampOf (taken ++ [record] ++ more) = firstTimestampOf (taken ++ [record]) :=
      firstTimestampOf_append (by simp)
    rw [hassoc, totalSize, totalSize, hfirst, blocksFrom_append _ _ (taken ++ [record]),
      List.flatten_append, List.length_append]
    omega
  exact ⟨by omega, fun _ => by omega⟩

/-- A call with a fixed time. -/
def plainCall (cnt : Int32) : ProduceCall Unit where
  req := plainRequest cnt
  env := ()
  clock := fun _ _ => 0
  max := 2048

theorem plainCall_fits {cnt : Int32} {toppars : List KafkaToppar} (hfew : toppars.length < 2 ^ 31)
    (h : ∀ t ∈ toppars, totalSize (pending (fun _ => 0) t) + 12 < 2 ^ 31) :
    (plainCall cnt).Fits toppars where
  plain := ⟨rfl, rfl⟩
  few := hfew
  sums := fun _ t ht => sumsFit_of_totalSize (h t (List.mem_of_getElem? ht))

/-- Two calls that send one record each. -/
theorem produceBatching_two :
    ((∀ call ∈ [plainCall 0, plainCall 0], call.Allows [smallToppar 2]) →
        ∃ requests toppars', produceAll plainLibraries [plainCall 0, plainCall 0] [smallToppar 2] =
          some (requests, toppars')) ∧
      ∀ requests toppars', produceAll plainLibraries [plainCall 0, plainCall 0] [smallToppar 2] =
          some (requests, toppars') →
        ProduceRight plainLibraries [plainCall 0, plainCall 0] [smallToppar 2] requests toppars' :=
  produceBatching plainLibraries _ _ (fun t ht => by cases ht with
      | head => exact ⟨rfl, rfl⟩
      | tail _ hnone => cases hnone)
    ⟨plainCall_fits (by decide) (by decide +kernel), plainCall_fits (by decide +kernel)
      (by decide +kernel), trivial⟩

/-- With the greatest limit there is, no sum is ever found too large. -/
theorem collect_unlimited {ε : Type} (libs : Libraries ε) {req : KafkaRequest} (hplain : req.Plain)
    (hmax : req.config.maxMsgSize.toInt = 2 ^ 31 - 1) (records : List Record) {b : Batch ε} (count : Nat)
    (hcnt : b.batchCnt = Int32.ofNat count)
    (hroom : (count + records.length : Nat) ≤ req.config.produceMsgsetCnt.toInt) :
    (collect libs req (Append.counted libs req) records b).count = records.length ∧
      (collect libs req (Append.counted libs req) records b).ending = .exhausted := by
  have hlimit := req.config.produceMsgsetCnt.toInt_lt
  induction records generalizing b count with
  | nil => exact ⟨rfl, rfl⟩
  | cons record records ih =>
      rw [List.length_cons] at hroom
      have hnotmany : ¬ req.config.produceMsgsetCnt < b.batchCnt := by
        rw [hcnt, Int32.lt_iff_toInt_lt, Int32.toInt_ofNat_of_lt (by omega)]
        omega
      have hnotlarge : ∀ size : Int32, ¬ req.config.maxMsgSize < size := by
        intro size
        have hsize := size.toInt_lt
        rw [Int32.lt_iff_toInt_lt, hmax]
        omega
      cases hoffer : b.offer libs req (Append.counted libs req) record with
      | taken added b' =>
          have hnext : b'.batchCnt = Int32.ofNat (count + 1) := by
            rw [offer_batchCnt hoffer, hcnt, Int32.ofNat_add]
            rfl
          obtain ⟨hcount, hending⟩ := ih _ hnext (by omega)
          rw [collect, hoffer]
          exact ⟨congrArg (· + 1) hcount, hending⟩
      | full =>
          rw [offer_eq hplain rfl, Kafka.appendRecord, if_neg hnotmany, Kafka.appendBatchRecord,
            if_neg (hnotlarge _)] at hoffer
          cases hoffer
      | failed =>
          rw [offer_eq hplain rfl, Kafka.appendRecord, if_neg hnotmany, Kafka.appendBatchRecord,
            if_neg (hnotlarge _)] at hoffer
          cases hoffer

/-- A record that has a value and nothing else. -/
def largeRecord (value : List Byte) : Record where
  key := none
  value := some value
  timestamp := 0
  offset := 0
  headerList := []

/-- A call with the greatest limits. -/
def largeCall : ProduceCall Unit where
  req :=
    { apiVersion := 3
      messageVersion := 2
      config :=
        { produceMsgMaxBytes := 2147483647
          produceMsgsetCnt := 10000
          produceMsgsetMaxBytes := 2147483647
          produceAcks := -1
          produceTimeout := 100
          compressType := kafkaNoCompress }
      msgbuf := [] }
  env := ()
  clock := fun _ _ => 0
  max := 2048

def largeToppar (value : List Byte) : KafkaToppar :=
  freshToppar (ascii "t") 0 [largeRecord value, largeRecord value]

theorem length_largeRecord {value : List Byte} (h : value.length = 1200000000) (offset : Int32)
    (first : Int64) :
    1200000000 ≤ (recordBytes (largeRecord value) offset first).length ∧
      (recordBytes (largeRecord value) offset first).length ≤ 1200000100 := by
  have hlength := appendVarintI32_length_le
    (Int32.ofNat (recordBody (largeRecord value) offset first).length)
  have hdelta := appendVarintI64_length_le ((largeRecord value).timestamp - first)
  have hoffset := appendVarintI64_length_le offset.toInt64
  have hklen := appendVarintI32_length_le (-1)
  have hvlen := appendVarintI32_length_le (Int32.ofNat value.length)
  have hcnt := appendVarintI32_length_le (Int32.ofNat 0)
  have hkey : (klenStr (largeRecord value)).length ≤ 10 := hklen
  have hvalue : (vlenStr (largeRecord value)).length ≤ 10 := by
    rw [vlenStr]
    exact hvlen
  have hcontents : (contents (largeRecord value).value).length = 1200000000 := h
  have hhdr : (hdrCntStr (largeRecord value)).length ≤ 10 := hcnt
  have hbody : (recordBody (largeRecord value) offset first).length = 1 +
      (appendVarintI64 ((largeRecord value).timestamp - first)).length +
        (appendVarintI64 offset.toInt64).length +
      (klenStr (largeRecord value)).length + 0 + (vlenStr (largeRecord value)).length + 1200000000 +
      (hdrCntStr (largeRecord value)).length + 0 := by
    simp only [recordBody, List.length_append, hcontents]
    rfl
  have hbytes : (recordBytes (largeRecord value) offset first).length =
      (lengthStr (largeRecord value) offset first).length +
        (recordBody (largeRecord value) offset first).length :=
    List.length_append
  have hlengthStr : (lengthStr (largeRecord value) offset first).length ≤ 10 := hlength
  omega

theorem encodeToppar_toppar {ε : Type} {libs : Libraries ε} {req : KafkaRequest}
    {clock : Nat → Int64} {t : KafkaToppar} {s : ProduceState ε} {ok : Bool} {l : ProduceLoop ε}
    (h : recordLoop libs req clock
      (ProduceLoop.start req.messageVersion t s.serialized s.compressEnv) = some (ok, l)) :
    (encodeToppar libs req clock t s).2.1 = l.toppar := by
  rw [encodeToppar, h]
  simp only
  split
  · rfl
  · split
    · rfl
    · split
      · rfl
      · rfl

/-- What is left of a single partition. -/
theorem encodeProduce_single {ε : Type} (libs : Libraries ε) (req : KafkaRequest) (env : ε)
    (clock : Nat → Nat → Int64) (max : Nat) (t : KafkaToppar) :
    (encodeProduce libs req env clock max [t]).2 =
      [(encodeToppar libs req (clock 0) t
        { serialized := KafkaBuffer.empty, compressEnv := env, topicCnt := 0 }).2.1] := by
  rw [encodeProduce, encodeToppars]
  generalize encodeToppar libs req (clock 0) t
    { serialized := KafkaBuffer.empty, compressEnv := env, topicCnt := 0 } = r
  obtain ⟨ok, t', s'⟩ := r
  cases ok with
  | false => rfl
  | true => rfl

theorem largeCall_plain : largeCall.req.Plain :=
  ⟨rfl, rfl⟩

theorem largeCall_maxMsgSize : largeCall.req.config.maxMsgSize.toInt = 2 ^ 31 - 1 := by
  decide

/-- Each of the two records keeps the limit. -/
theorem largeToppar_eachFits {value : List Byte} (h : value.length = 1200000000) :
    EachFits largeCall.req.config (largeToppar value).recordList := by
  intro record hmem
  have hlarge : record = largeRecord value := by
    rcases List.mem_cons.mp hmem with heq | hmem
    · exact heq
    · exact List.mem_singleton.mp hmem
  have hsize := (length_largeRecord h (Int32.ofNat 0) (largeRecord value).timestamp).2
  have htotal : totalSize [largeRecord value] = 49 +
      (recordBytes (largeRecord value) (Int32.ofNat 0) (largeRecord value).timestamp).length := by
    simp only [totalSize, firstTimestampOf, blocksFrom, List.flatten_singleton]
  rw [hlarge, htotal, largeCall_maxMsgSize]
  omega

/-- Under the greatest limits the records that are left all go at once. -/
theorem curpos_of_unlimited {ε : Type} {libs : Libraries ε} {call : ProduceCall ε}
    (hplain : call.req.Plain) (hmax : call.req.config.maxMsgSize.toInt = 2 ^ 31 - 1)
    {t t' : KafkaToppar} (hroom : ((pending (call.clock 0) t).length : Int) ≤
      call.req.config.produceMsgsetCnt.toInt)
    (h : (call.run libs [t]).2[0]? = some t') :
    t'.curpos = t.curpos + (pending (call.clock 0) t).length := by
  obtain ⟨hcount, hending⟩ := collect_unlimited libs hplain hmax (pending (call.clock 0) t) 0
    (b := (ProduceLoop.start call.req.messageVersion t KafkaBuffer.empty call.env).vars) rfl
    (by rwa [Nat.zero_add])
  obtain ⟨ok, l, hloop, hok, hfinished⟩ := recordLoop_spec libs call.req (call.clock 0) t
    KafkaBuffer.empty call.env
  have hl := hfinished (hok.mpr (Or.inl hending))
  have htoppar := encodeToppar_toppar
    (s := { serialized := KafkaBuffer.empty, compressEnv := call.env, topicCnt := 0 }) hloop
  have hsingle : t' = l.toppar := by
    rw [ProduceCall.run, encodeProduce_single, htoppar] at h
    exact (Option.some.inj h).symm
  rw [hsingle, hl.curpos]
  exact congrArg (t.curpos + ·) hcount

/-- Two records of 1.2 gigabytes under the greatest limits: their sum is not noticed. -/
theorem produceBatching_overflow :
    ¬ ∀ (calls : List (ProduceCall Unit)) (toppars : List KafkaToppar), (∀ t ∈ toppars, t.Fresh) →
      (∀ call ∈ calls, call.req.Plain ∧ call.Allows toppars) →
      ∃ requests toppars', produceAll plainLibraries calls toppars = some (requests, toppars') ∧
        ProduceRight plainLibraries calls toppars requests toppars' := by
  intro hevery
  -- Only the length of the values matters, and they are not to be written out.
  obtain ⟨value, hvalue⟩ : ∃ value : List Byte, value.length = 1200000000 :=
    ⟨List.replicate 1200000000 0, List.length_replicate⟩
  obtain ⟨requests, toppars', hrun, hrequests, -⟩ := hevery [largeCall] [largeToppar value]
    (fun t ht => by
      rw [List.mem_singleton.mp ht]
      exact ⟨rfl, rfl⟩)
    (fun call hcall => by
      rw [List.mem_singleton.mp hcall]
      refine ⟨largeCall_plain, by decide, fun t ht => ?_⟩
      rw [List.mem_singleton.mp ht]
      exact largeToppar_eachFits hvalue)
  obtain ⟨produced, rest, -, ⟨parts, hparts, -⟩, -⟩ := hrequests
  obtain ⟨t', part, ht', hpart⟩ := hparts.getElem (i := 0) (t := largeToppar value) rfl
  have hstart : (largeToppar value).curpos = 0 := rfl
  have hpending : (pending (largeCall.clock 0) (largeToppar value)).length = 2 := rfl
  have hcurpos := curpos_of_unlimited largeCall_plain largeCall_maxMsgSize
    (by rw [hpending]; decide) ht'
  rw [hstart, hpending, Nat.zero_add] at hcurpos
  have hright := (hpart.sends (by rw [hcurpos, hstart]; decide)).1
  have htaken : takenOf (largeCall.clock 0) (largeToppar value) t' =
      [largeRecord value, largeRecord value] := by
    rw [takenOf, hcurpos]
    rfl
  rw [htaken] at hright
  obtain ⟨-, hsize, -⟩ := hright
  rw [length_batchBytes] at hsize
  have hfirst := (length_largeRecord hvalue (Int32.ofNat 0) 0).1
  have hsecond := (length_largeRecord hvalue (Int32.ofNat 1) 0).1
  have hblocks : (stateOf [largeRecord value, largeRecord value]).blocks.flatten.length =
      (recordBytes (largeRecord value) (Int32.ofNat 0) 0).length +
        (recordBytes (largeRecord value) (Int32.ofNat 1) 0).length := by
    simp only [stateOf, blocksFrom, firstTimestampOf, List.flatten_cons, List.flatten_nil,
      List.append_nil, List.length_append]
    rfl
  omega

end Workflow.Kafka
