/-
Module: Workflow.Proofs.KafkaBatch
Layer: Proofs
Purpose: Which record batches come back from `parse_record_batch` as `encode_produce` wrote them: the
  ones whose last record ends with a header that has a value, but for empty values, which come back
  as missing ones.
Trusted boundary: none
Main exports: BatchBuilt, batchBuilt_appendRecords, parseBatchHeader_ok, parseRecordBatch_ok,
  parseRecordBatch_left, BatchRoundTrips, recordBatch_roundTrips
-/
import Workflow.Proofs.KafkaRecord

namespace Workflow.Kafka

open Workflow.Lib

/-! ### Building a batch -/

/-- The time stamp that the deltas of a batch refer to. -/
def firstTimestampOf : List Record → Int64
  | [] => 0
  | record :: _ => record.timestamp

/-- The first time stamp is that of the first record. -/
theorem firstTimestampOf_append {taken more : List Record} (h : taken ≠ []) :
    firstTimestampOf (taken ++ more) = firstTimestampOf taken := by
  obtain ⟨record, records, rfl⟩ := List.exists_cons_of_ne_nil h
  rfl

/-- The blocks of the records stand one behind the other. -/
theorem blocksFrom_append (firstTimestamp : Int64) (i : Nat) (taken more : List Record) :
    blocksFrom firstTimestamp i (taken ++ more) =
      blocksFrom firstTimestamp i taken ++ blocksFrom firstTimestamp (i + taken.length) more := by
  induction taken generalizing i with
  | nil => rfl
  | cons record taken ih =>
      rw [List.cons_append, blocksFrom, ih, blocksFrom, List.cons_append, List.length_cons,
        Nat.add_assoc, Nat.add_comm 1]

theorem length_blocksFrom (firstTimestamp : Int64) (i : Nat) (records : List Record) :
    (blocksFrom firstTimestamp i records).length = records.length := by
  induction records generalizing i with
  | nil => rfl
  | cons record records ih => rw [blocksFrom, List.length_cons, ih, List.length_cons]

/-- The loop over the records of a partition has put `taken` into the batch. -/
structure BatchBuilt (s : BatchState) (taken : List Record) : Prop where
  blocks : s.blocks = blocksFrom (firstTimestampOf taken) 0 taken
  batchLength : s.batchLength = Int32.ofInt (49 + s.blocks.flatten.length)
  batchCnt : s.batchCnt = Int32.ofNat taken.length
  firstTimestamp : s.firstTimestamp = firstTimestampOf taken

/-- A batch of no records. -/
theorem batchBuilt_start : BatchBuilt batchStart [] where
  blocks := rfl
  batchLength := rfl
  batchCnt := rfl
  firstTimestamp := rfl

theorem BatchBuilt.first {s : BatchState} {taken : List Record} (h : BatchBuilt s taken)
    (hlen : taken.length < 2 ^ 31) (record : Record) :
    s.first record = firstTimestampOf (taken ++ [record]) := by
  unfold BatchState.first
  have hcnt : s.batchCnt.toInt = taken.length := by
    rw [h.batchCnt, Int32.toInt_ofNat_of_lt hlen]
  cases taken with
  | nil =>
      rw [if_pos (Int32.toInt_inj.mp hcnt)]
      rfl
  | cons earlier taken =>
      have hne : s.batchCnt ≠ 0 := by
        intro hzero
        rw [hzero] at hcnt
        have : (0 : Int32).toInt = 0 := by decide
        simp only [List.length_cons] at hcnt
        omega
      rw [if_neg hne, h.firstTimestamp]
      rfl

/-- The block of a record that is taken. -/
theorem appendRecord_eq {config : ProduceConfig} {record : Record} {offset curMsgSize : Int32}
    {firstTimestamp : Int64} {block : List Byte}
    (h : appendRecord config record offset firstTimestamp curMsgSize = some block) :
    block = recordBytes record offset firstTimestamp := by
  unfold appendRecord appendBatchRecord at h
  split at h
  · cases h
  · dsimp only at h
    split at h
    · cases h
    · exact (Option.some.inj h).symm

/-- A record that is taken, and those after it. -/
theorem appendRecords_cons {config : ProduceConfig} {record : Record} {records : List Record}
    {s : BatchState} {block : List Byte}
    (h : appendRecord config record s.batchCnt (s.first record) s.batchLength = some block) :
    appendRecords config (record :: records) s =
      appendRecords config records (s.push record block) := by
  rw [appendRecords, h]

/-- A record is put into the batch. -/
theorem BatchBuilt.push {s : BatchState} {taken : List Record} (h : BatchBuilt s taken)
    (hlen : taken.length < 2 ^ 31) (record : Record) :
    BatchBuilt (s.push record (recordBytes record s.batchCnt (s.first record)))
      (taken ++ [record]) where
  blocks := by
    have hfirst := h.first hlen record
    have hearlier : blocksFrom (firstTimestampOf (taken ++ [record])) 0 taken =
        blocksFrom (firstTimestampOf taken) 0 taken := by
      cases taken with
      | nil => rfl
      | cons earlier taken => rfl
    simp only [BatchState.push]
    rw [blocksFrom_append, hearlier, ← h.blocks, ← hfirst, h.batchCnt, Nat.zero_add]
    rfl
  batchLength := by
    simp only [BatchState.push, h.batchLength, List.flatten_append, List.length_append,
      List.flatten_cons, List.flatten_nil, List.append_nil, Nat.cast_add]
    rw [← Int.add_assoc, Int32.ofInt_add, Int32.ofInt_toInt, ← Int32.ofInt_add]
  batchCnt := by
    simp only [BatchState.push, h.batchCnt, List.length_append, List.length_singleton]
    rw [Int32.ofNat_add]
    rfl
  firstTimestamp := h.first hlen record

/-- The batch only grows. -/
theorem appendRecords_length_le (config : ProduceConfig) (records : List Record) (s : BatchState) :
    s.blocks.length ≤ (appendRecords config records s).blocks.length := by
  induction records generalizing s with
  | nil => exact Nat.le_refl _
  | cons record records ih =>
      rw [appendRecords]
      split
      · exact Nat.le_refl _
      · refine Nat.le_trans ?_ (ih _)
        simp [BatchState.push]

/-- No block is empty. -/
theorem appendRecords_blocks_le (config : ProduceConfig) (records : List Record) {s : BatchState}
    (h : s.blocks.length ≤ s.blocks.flatten.length) :
    (appendRecords config records s).blocks.length ≤
      (appendRecords config records s).blocks.flatten.length := by
  induction records generalizing s with
  | nil => exact h
  | cons record records ih =>
      rw [appendRecords]
      split
      · exact h
      · rename_i block hblock
        have hpos := List.length_pos_of_ne_nil (appendRecord_eq hblock ▸ recordBytes_ne_nil _ _ _)
        refine ih ?_
        simp only [BatchState.push, List.length_append, List.length_singleton, List.flatten_append,
          List.flatten_cons, List.flatten_nil, List.append_nil]
        omega

/-- What the loop does, by induction on the records that are left. -/
theorem batchBuilt_appendRecords {config : ProduceConfig} {records : List Record} {s : BatchState}
    {taken : List Record} (h : BatchBuilt s taken)
    (hlen : (appendRecords config records s).blocks.length < 2 ^ 31) :
    ∃ k ≤ records.length,
      BatchBuilt (appendRecords config records s) (taken ++ records.take k) := by
  induction records generalizing s taken with
  | nil => exact ⟨0, Nat.le_refl 0, by simpa [appendRecords] using h⟩
  | cons record records ih =>
      have hgrow := appendRecords_length_le config (record :: records) s
      rw [h.blocks, length_blocksFrom] at hgrow
      have hroom : taken.length < 2 ^ 31 := Nat.lt_of_le_of_lt hgrow hlen
      rw [appendRecords] at hlen ⊢
      split at hlen
      · exact ⟨0, Nat.zero_le _, by simpa using h⟩
      · rename_i block hblock
        obtain rfl := appendRecord_eq hblock
        obtain ⟨k, hk, hbuilt⟩ := ih (h.push hroom record) hlen
        refine ⟨k + 1, Nat.succ_le_succ hk, ?_⟩
        rwa [List.append_assoc] at hbuilt

/-- The sum over the blocks one after the other is the sum over all of the bytes. -/
theorem foldl_crc {crc32c : UInt32 → List Byte → UInt32}
    (hcrc : ∀ c a b, crc32c (crc32c c a) b = crc32c c (a ++ b)) (c : UInt32) (front : List Byte)
    (blocks : List (List Byte)) :
    blocks.foldl crc32c (crc32c c front) = crc32c c (front ++ blocks.flatten) := by
  induction blocks generalizing front with
  | nil => rw [List.foldl_nil, List.flatten_nil, List.append_nil]
  | cons block blocks ih =>
      rw [List.foldl_cons, hcrc, ih, List.flatten_cons, List.append_assoc]

/-! ### Reading the batch header -/

section Batches

variable {mem : Int → Byte} {crc32c : UInt32 → List Byte → UInt32}
  {uncompressBuf : Int16 → List Byte → Option (List Byte)} {s : BatchState} {taken : List Record}

theorem length_batchHeader (s : BatchState) : (batchHeader s).length = 40 := by
  simp [batchHeader, appendI16, appendI32, appendI64]

/-- A batch is its header and its blocks. -/
theorem length_batchBytes (crc32c : UInt32 → List Byte → UInt32) (s : BatchState) :
    (batchBytes crc32c s).length = 61 + s.blocks.flatten.length := by
  simp only [batchBytes, List.length_append, length_batchHeader, appendI8, appendI32, appendI64,
    length_bigEndian]

/-- The length in the header is that of what follows it. -/
theorem BatchBuilt.toInt_batchLength (h : BatchBuilt s taken)
    (hsize : (batchBytes crc32c s).length < 2 ^ 31) :
    s.batchLength.toInt = 49 + s.blocks.flatten.length := by
  rw [length_batchBytes] at hsize
  rw [h.batchLength, Int32.toInt_ofInt_of_le (by omega) (by omega)]

/-- A length computed from `hdr.length`. -/
theorem BatchBuilt.toSize_sub (h : BatchBuilt s taken)
    (hsize : (batchBytes crc32c s).length < 2 ^ 31) {k : Int32} (hlow : 0 ≤ k.toInt)
    (hhigh : k.toInt ≤ 49) :
    ((toSize (s.batchLength - k).toInt : Nat) : Int) = 49 - k.toInt + s.blocks.flatten.length := by
  have hlen := h.toInt_batchLength hsize
  rw [length_batchBytes] at hsize
  rw [Int32.toInt_sub, hlen, Int.bmod_eq_of_le (by omega) (by omega), toSize]
  omega

/-- The check of the sum passes. -/
theorem checkCrc_ok (hcrc : ∀ c a b, crc32c (crc32c c a) b = crc32c c (a ++ b))
    (hbuilt : BatchBuilt s taken) (hsize : (batchBytes crc32c s).length < 2 ^ 31) {stop : Nat}
    {c : Cursor} (h : At mem stop c (batchHeader s ++ s.blocks.flatten)) :
    checkCrc mem crc32c s.batchLength (batchCrc crc32c s).toInt32 c = some (some (), c) := by
  have hlen := hbuilt.toInt_batchLength hsize
  have hbytes := hbuilt.toSize_sub hsize (k := 9) (by decide) (by decide)
  have hleft := h.size
  rw [length_batchBytes] at hsize
  rw [List.length_append, length_batchHeader] at hleft
  have hroom : ¬ Int32.ofInt ((Int32.ofNat c.size).toInt + 9) < s.batchLength := by
    rw [Int32.lt_iff_toInt_lt, hlen, Int32.toInt_ofNat_of_lt (by omega),
      Int32.toInt_ofInt_of_le (by omega) (by omega)]
    omega
  have hall : toSize (s.batchLength - 9).toInt = (batchHeader s ++ s.blocks.flatten).length := by
    have hnine : (9 : Int32).toInt = 9 := by decide
    rw [List.length_append, length_batchHeader]
    omega
  have hread : bytesAt mem c.off (batchHeader s ++ s.blocks.flatten).length =
      batchHeader s ++ s.blocks.flatten := by
    rw [← List.append_nil (batchHeader s ++ s.blocks.flatten)] at h
    exact h.bytesAt_eq
  have hsum : batchCrc crc32c s = crc32c 0 (batchHeader s ++ s.blocks.flatten) :=
    foldl_crc hcrc 0 (batchHeader s) s.blocks
  rw [checkCrc, if_neg hroom, hall, hread, hsum, if_neg (fun hne => hne rfl)]

/-- What is kept of the batch header. -/
def knownBatchHeader (s : BatchState) : BatchRecordHeader where
  baseOffset := 0
  length := s.batchLength
  attributes := 0
  baseTimestamp := s.firstTimestamp
  recordCount := s.batchCnt

/-- The header is read back, and its checksum is right. -/
theorem parseBatchHeader_ok (hcrc : ∀ c a b, crc32c (crc32c c a) b = crc32c c (a ++ b))
    (hbuilt : BatchBuilt s taken) (hsize : (batchBytes crc32c s).length < 2 ^ 31) {stop : Nat}
    {c : Cursor} (h : At mem stop c (batchBytes crc32c s)) :
    ∃ c', parseBatchHeader mem crc32c true c = some (some (knownBatchHeader s), c') ∧
      At mem stop c' s.blocks.flatten := by
  rw [batchBytes] at h
  simp only [List.append_assoc] at h
  obtain ⟨c₁, hread₁, hat₁⟩ := At.i64 h
  obtain ⟨c₂, hread₂, hat₂⟩ := At.i32 hat₁
  obtain ⟨c₃, hread₃, hat₃⟩ := At.i32 hat₂
  obtain ⟨c₄, hread₄, hat₄⟩ := At.i8 hat₃
  obtain ⟨c₅, hread₅, hat₅⟩ := At.i32 hat₄
  have hcheck := checkCrc_ok hcrc hbuilt hsize hat₅
  rw [batchHeader] at hat₅
  simp only [List.append_assoc] at hat₅
  obtain ⟨c₆, hread₆, hat₆⟩ := At.i16 hat₅
  obtain ⟨c₇, hread₇, hat₇⟩ := At.i32 hat₆
  obtain ⟨c₈, hread₈, hat₈⟩ := At.i64 hat₇
  obtain ⟨c₉, hread₉, hat₉⟩ := At.i64 hat₈
  obtain ⟨c₁₀, hread₁₀, hat₁₀⟩ := At.i64 hat₉
  obtain ⟨c₁₁, hread₁₁, hat₁₁⟩ := At.i16 hat₁₀
  obtain ⟨c₁₂, hread₁₂, hat₁₂⟩ := At.i32 hat₁₁
  obtain ⟨c₁₃, hread₁₃, hat₁₃⟩ := At.i32 hat₁₂
  refine ⟨c₁₃, ?_, hat₁₃⟩
  rw [parseBatchHeader, Action.bind_ok hread₁, Action.bind_ok hread₂, Action.bind_ok hread₃,
    Action.bind_ok hread₄, Action.bind_ok hread₅, if_pos rfl, Action.bind_ok hcheck]
  beta_reduce
  rw [Action.bind_ok hread₆, Action.bind_ok hread₇, Action.bind_ok hread₈, Action.bind_ok hread₉,
    Action.bind_ok hread₁₀, Action.bind_ok hread₁₁, Action.bind_ok hread₁₂, Action.bind_ok hread₁₃]
  rfl

theorem onBatchCursor_ok {α : Type} {m : Action Cursor α} {d : BatchDecoding} {a : Option α}
    {c : Cursor} (h : m d.cur = some (a, c)) :
    Action.zoom BatchDecoding.cur (fun d c => { d with cur := c }) m d =
      some (a, { d with cur := c }) :=
  Action.zoom_eq h

/-- A batch without attributes is decoded in place. -/
theorem parseBatchBody_plain {fuel : Nat} {hdr : BatchRecordHeader} {d : BatchDecoding}
    (hattributes : hdr.attributes = 0) (hroom : ¬ d.cur.size < toSize (hdr.length - 61 + 12).toInt) :
    parseBatchBody fuel mem uncompressBuf hdr d =
      (Action.times (decodeRecord fuel mem hdr) hdr.recordCount.toInt.toNat
        ⟨d.cur, d.recordList, d.offset⟩).map fun (_, t) =>
          (some 0, ⟨t.cur, t.recordList, t.offset, d.uncompressed⟩) := by
  have hplain : ¬ hdr.attributes &&& 7 ≠ 0 := by
    rw [hattributes]
    decide
  unfold parseBatchBody
  rw [if_neg hroom, if_neg hplain]
  unfold decodeRecords
  simp only [List.length_nil, gt_iff_lt, Nat.lt_irrefl, if_false, if_pos hattributes]

variable (uncompressBuf) in
/-- The whole parser on the bytes of a batch is the loop over the records. -/
theorem parseRecordBatch_eq (hcrc : ∀ c a b, crc32c (crc32c c a) b = crc32c c (a ++ b))
    (hbuilt : BatchBuilt s taken) (hsize : (batchBytes crc32c s).length < 2 ^ 31)
    (hmem : Holds mem (batchBytes crc32c s)) (fuel : Nat) (before : List Record) (offset : Int64) :
    ∃ c, At mem (batchBytes crc32c s).length c
        (blocksFrom (knownBatchHeader s).baseTimestamp 0 taken).flatten ∧
      parseRecordBatch fuel mem crc32c uncompressBuf true
          ⟨⟨0, (batchBytes crc32c s).length⟩, before, offset, []⟩ =
        (Action.times (decodeRecord fuel mem (knownBatchHeader s)) taken.length
          ⟨c, before, offset⟩).map fun (_, t) =>
            (some 0, ⟨t.cur, t.recordList, t.offset, []⟩) := by
  have hat : At mem (batchBytes crc32c s).length ⟨0, (batchBytes crc32c s).length⟩
      (batchBytes crc32c s) :=
    ⟨fun i hi => by rw [Nat.cast_zero, Int.zero_add, hmem i hi], rfl, Nat.zero_add _⟩
  obtain ⟨c, hheader, hrecords⟩ := parseBatchHeader_ok hcrc hbuilt hsize hat
  have hcount : (knownBatchHeader s).recordCount.toInt.toNat = taken.length := by
    have hblocks := length_batchBytes crc32c s
    have hle : taken.length ≤ s.blocks.flatten.length := by
      rw [hbuilt.blocks]
      exact length_le_flatten_blocks _ _ _
    rw [knownBatchHeader, hbuilt.batchCnt, Int32.toInt_ofNat_of_lt (by omega), Int.toNat_natCast]
  have hlen : toSize (s.batchLength - 61 + 12).toInt = s.blocks.flatten.length := by
    have hbytes := hbuilt.toSize_sub hsize (k := 49) (by decide) (by decide)
    have hint : s.batchLength - 61 + 12 = s.batchLength - 49 := by
      rw [Int32.sub_eq_add_neg, Int32.sub_eq_add_neg, Int32.add_assoc]
      rfl
    have hk : (49 : Int32).toInt = 49 := by decide
    rw [hint]
    omega
  have hroom : ¬ c.size < toSize (s.batchLength - 61 + 12).toInt := by
    rw [hlen, hrecords.size]
    exact Nat.lt_irrefl _
  have hattributes : (knownBatchHeader s).attributes = 0 := rfl
  rw [hbuilt.blocks, ← hbuilt.firstTimestamp] at hrecords
  refine ⟨c, hrecords, ?_⟩
  rw [parseRecordBatch, Action.bind_ok (onBatchCursor_ok (d := ⟨_, before, offset, []⟩) hheader),
    parseBatchBody_plain hattributes hroom, hcount]

variable (uncompressBuf) in
/-- A batch whose last record ends with a header that has a value is read to its end. -/
theorem parseRecordBatch_ok (hcrc : ∀ c a b, crc32c (crc32c c a) b = crc32c c (a ++ b))
    (hbuilt : BatchBuilt s taken) (hne : taken ≠ [])
    (hsize : (batchBytes crc32c s).length < 2 ^ 31) (hmem : Holds mem (batchBytes crc32c s))
    {fuel : Nat} (hfuel : 10 ≤ fuel) (before : List Record) (offset : Int64)
    (hlast : LastFilled taken) :
    ∃ d', parseRecordBatch fuel mem crc32c uncompressBuf true
        ⟨⟨0, (batchBytes crc32c s).length⟩, before, offset, []⟩ = some (some 0, d') ∧
      d'.cur = { off := (batchBytes crc32c s).length, size := 0 } ∧
      d'.recordList = before ++ knownFrom 0 taken := by
  obtain ⟨c, hrecords, hparse⟩ :=
    parseRecordBatch_eq uncompressBuf hcrc hbuilt hsize hmem fuel before offset
  have hbase : (knownBatchHeader s).baseOffset = 0 := rfl
  obtain ⟨s', hloop, hcur, hlist⟩ := (decodeRecords_times hfuel hsize hbase hne 0
    (s := ⟨c, before, offset⟩) hrecords).1 hlast
  exact ⟨_, by rw [hparse, hloop, Option.map_some], hcur, hlist⟩

variable (uncompressBuf) in
/-- Any other batch is not: if the parser returns, one byte is left. -/
theorem parseRecordBatch_left (hcrc : ∀ c a b, crc32c (crc32c c a) b = crc32c c (a ++ b))
    (hbuilt : BatchBuilt s taken) (hne : taken ≠ [])
    (hsize : (batchBytes crc32c s).length < 2 ^ 31) (hmem : Holds mem (batchBytes crc32c s))
    {fuel : Nat} (hfuel : 10 ≤ fuel) {before : List Record} {offset : Int64} {r : Option Nat}
    {d' : BatchDecoding} (hlast : ¬ LastFilled taken)
    (hreturn : parseRecordBatch fuel mem crc32c uncompressBuf true
      ⟨⟨0, (batchBytes crc32c s).length⟩, before, offset, []⟩ = some (r, d')) : d'.cur.size = 1 := by
  obtain ⟨c, hrecords, hparse⟩ :=
    parseRecordBatch_eq uncompressBuf hcrc hbuilt hsize hmem fuel before offset
  have hbase : (knownBatchHeader s).baseOffset = 0 := rfl
  rw [hparse] at hreturn
  rcases (decodeRecords_times hfuel hsize hbase hne 0 (s := ⟨c, before, offset⟩) hrecords).2 hlast
    with hnone | ⟨s', hloop, hone⟩
  · rw [hnone] at hreturn
    cases hreturn
  · rw [hloop, Option.map_some, Option.some.injEq, Prod.mk.injEq] at hreturn
    rw [← hreturn.2]
    exact hone

end Batches

/-! ### The round trip -/

/-- A record as the encoder tells it from others: it writes an empty key like a missing one, and it
writes only the lengths in a header. An empty value is not written like a missing one. -/
def encoderView (record : Record) : Record where
  key := filled (contents record.key)
  value := record.value
  timestamp := record.timestamp
  offset := record.offset
  headerList := record.headerList.map knownHeader

/-- The same, and an empty value is taken for a missing one. -/
def looseView (record : Record) : Record where
  key := filled (contents record.key)
  value := filled (contents record.value)
  timestamp := record.timestamp
  offset := record.offset
  headerList := record.headerList.map knownHeader

/-- The record at place `i` of a batch. -/
def placed (i : Nat) (record : Record) : Record :=
  { record with offset := Int64.ofNat i }

/-- `parse_record_batch` on `bytes` returns 0, has moved the pointer behind the last of them, and has
appended `records` to the list, each with its place in the batch for an offset. -/
def BatchRoundTrips (view : Record → Record) (crc32c : UInt32 → List Byte → UInt32)
    (uncompressBuf : Int16 → List Byte → Option (List Byte)) (mem : Int → Byte)
    (bytes : List Byte) (records : List Record) : Prop :=
  ∀ before offset, ∃ enough, ∀ fuel ≥ enough, ∃ d decoded,
    parseRecordBatch fuel mem crc32c uncompressBuf true
      ⟨⟨0, bytes.length⟩, before, offset, []⟩ = some (some 0, d) ∧
    d.cur = { off := bytes.length, size := 0 } ∧ d.recordList = before ++ decoded ∧
    decoded.map view = (records.mapIdx placed).map view

theorem filled_contents_filled (bytes : List Byte) : filled (contents (filled bytes)) = filled bytes := by
  unfold filled
  split
  · rfl
  · rename_i hne
    exact if_neg hne

/-- Only an empty value cannot be told from none. -/
theorem filled_contents_eq {blob : Option (List Byte)} :
    filled (contents blob) = blob ↔ blob ≠ some [] := by
  cases blob with
  | none => simp [contents, filled]
  | some bytes =>
      by_cases hnil : bytes = []
      · simp [contents, filled, hnil]
      · simp [contents, filled, hnil]

/-- What is known of a header is known of it again. -/
theorem knownHeader_knownHeader (header : RecordHeader) :
    knownHeader (knownHeader header) = knownHeader header := by
  simp only [knownHeader, filled_contents_filled]

theorem map_knownHeader (headers : List RecordHeader) :
    (headers.map knownHeader).map knownHeader = headers.map knownHeader := by
  simp only [List.map_map, Function.comp_def, knownHeader_knownHeader]

theorem toInt64_ofNat_place {i : Nat} (h : i < 2 ^ 31) :
    (Int32.ofNat i).toInt64 = Int64.ofNat i := by
  apply Int64.toInt_inj.mp
  rw [Int32.toInt_toInt64, Int32.toInt_ofNat_of_lt h, Int64.toInt_ofNat_of_lt (by omega)]

/-- What a consumer sees of a record is read back. -/
theorem looseView_knownRecord {i : Nat} (h : i < 2 ^ 31) (record : Record) :
    looseView (knownRecord record (Int32.ofNat i)) = looseView (placed i record) := by
  simp only [looseView, knownRecord, placed, filled_contents_filled, map_knownHeader,
    toInt64_ofNat_place h]

theorem looseView_iff (i : Nat) (record : Record) (h : i < 2 ^ 31) :
    looseView (knownRecord record (Int32.ofNat i)) = looseView (placed i record) ↔ True :=
  iff_true_intro (looseView_knownRecord h record)

/-- A record is read back as it was, unless its value is there and empty. -/
theorem encoderView_knownRecord {i : Nat} (h : i < 2 ^ 31) (record : Record) :
    encoderView (knownRecord record (Int32.ofNat i)) = encoderView (placed i record) ↔
      record.value ≠ some [] := by
  rw [← filled_contents_eq]
  simp only [encoderView, knownRecord, placed, filled_contents_filled, map_knownHeader,
    toInt64_ofNat_place h, Record.mk.injEq, true_and, and_true]

theorem map_view_knownFrom {view : Record → Record} {P : Record → Prop}
    (hview : ∀ i record, i < 2 ^ 31 →
      (view (knownRecord record (Int32.ofNat i)) = view (placed i record) ↔ P record))
    (i : Nat) {records : List Record} (hlen : i + records.length ≤ 2 ^ 31) :
    (knownFrom i records).map view =
        (records.mapIdx fun j record => placed (i + j) record).map view ↔
      ∀ record ∈ records, P record := by
  induction records generalizing i with
  | nil => simp [knownFrom]
  | cons record records ih =>
      rw [List.length_cons] at hlen
      have hrest := ih (i + 1) (by omega)
      have hshift : (fun j r => placed (i + (j + 1)) r) = fun j r => placed (i + 1 + j) r := by
        funext j r
        rw [Nat.add_assoc, Nat.add_comm 1]
      rw [knownFrom, List.mapIdx_cons, List.map_cons, List.map_cons, List.cons.injEq, hshift, hrest,
        Nat.add_zero, hview i record (by omega), List.forall_mem_cons]

/-- The round trip under a view that tells records with `P` apart from what comes back. -/
theorem batchRoundTrips_iff {crc32c : UInt32 → List Byte → UInt32}
    (hcrc : ∀ c a b, crc32c (crc32c c a) b = crc32c c (a ++ b)) {s : BatchState}
    {taken : List Record} (hbuilt : BatchBuilt s taken) (hne : taken ≠ [])
    (hsize : (batchBytes crc32c s).length < 2 ^ 31) {mem : Int → Byte}
    (hmem : Holds mem (batchBytes crc32c s))
    (uncompressBuf : Int16 → List Byte → Option (List Byte)) {view : Record → Record}
    {P : Record → Prop}
    (hview : ∀ i record, i < 2 ^ 31 →
      (view (knownRecord record (Int32.ofNat i)) = view (placed i record) ↔ P record)) :
    BatchRoundTrips view crc32c uncompressBuf mem (batchBytes crc32c s) taken ↔
      LastFilled taken ∧ ∀ record ∈ taken, P record := by
  have hcount : taken.length ≤ 2 ^ 31 := by
    have hblocks := length_batchBytes crc32c s
    have hle := length_le_flatten_blocks (firstTimestampOf taken) 0 taken
    rw [hbuilt.blocks] at hblocks
    omega
  have hmap := map_view_knownFrom hview 0 (show 0 + taken.length ≤ 2 ^ 31 by omega)
  simp only [Nat.zero_add] at hmap
  constructor
  · intro htrips
    obtain ⟨enough, htrips⟩ := htrips [] 0
    have hfuel : 10 ≤ enough + 10 := Nat.le_add_left ..
    obtain ⟨d, decoded, hparse, hcur, hlist, hsame⟩ := htrips (enough + 10) (by omega)
    have hlast : LastFilled taken := by
      by_contra hnot
      have hone := parseRecordBatch_left uncompressBuf hcrc hbuilt hne hsize hmem hfuel hnot hparse
      rw [hcur] at hone
      cases hone
    obtain ⟨d', hparse', -, hlist'⟩ :=
      parseRecordBatch_ok uncompressBuf hcrc hbuilt hne hsize hmem hfuel [] 0 hlast
    obtain rfl : d = d' := by
      rw [hparse'] at hparse
      simpa using hparse.symm
    refine ⟨hlast, hmap.mp ?_⟩
    rw [hlist', List.nil_append, List.nil_append] at hlist
    rw [hlist, hsame]
  · rintro ⟨hlast, hall⟩ before offset
    refine ⟨10, fun fuel hfuel => ?_⟩
    obtain ⟨d, hparse, hcur, hlist⟩ := parseRecordBatch_ok uncompressBuf hcrc hbuilt hne
      hsize hmem hfuel before offset hlast
    exact ⟨d, knownFrom 0 taken, hparse, hcur, hlist, hmap.mpr hall⟩

/-- A batch that was encoded holds the records that were taken. -/
theorem encodeBatch_built {crc32c : UInt32 → List Byte → UInt32} {config : ProduceConfig}
    {records : List Record} {bytes : List Byte} {n : Nat}
    (henc : encodeBatch crc32c config records = some (bytes, n)) (hsize : bytes.length < 2 ^ 31) :
    ∃ s, bytes = batchBytes crc32c s ∧ BatchBuilt s (records.take n) ∧ records.take n ≠ [] := by
  unfold encodeBatch at henc
  dsimp only at henc
  split at henc
  · cases henc
  · rename_i hblocks
    simp only [Option.some.injEq, Prod.mk.injEq] at henc
    obtain ⟨rfl, rfl⟩ := henc
    have hcount : (appendRecords config records batchStart).blocks.length < 2 ^ 31 := by
      rw [length_batchBytes] at hsize
      have hle := appendRecords_blocks_le config records
        (Nat.le_refl batchStart.blocks.length)
      omega
    obtain ⟨k, hk, hbuilt⟩ := batchBuilt_appendRecords batchBuilt_start hcount
    rw [List.nil_append] at hbuilt
    have hlen : (appendRecords config records batchStart).blocks.length = k := by
      rw [hbuilt.blocks, length_blocksFrom, List.length_take, Nat.min_eq_left hk]
    refine ⟨_, rfl, ?_, ?_⟩
    · rw [hlen]
      exact hbuilt
    · intro hnil
      rw [hlen] at hnil
      rw [hnil] at hbuilt
      exact hblocks hbuilt.blocks

/-- A batch comes back as it was written exactly when its last record ends with a header that has a
value and no record has an empty value. Without the difference between an empty value and a missing
one, the first of these conditions is the whole one. -/
theorem recordBatch_roundTrips {crc32c : UInt32 → List Byte → UInt32}
    (hcrc : ∀ c a b, crc32c (crc32c c a) b = crc32c c (a ++ b)) {config : ProduceConfig}
    {records : List Record} {bytes : List Byte} {n : Nat}
    (henc : encodeBatch crc32c config records = some (bytes, n)) (hsize : bytes.length < 2 ^ 31)
    {mem : Int → Byte} (hmem : Holds mem bytes)
    (uncompressBuf : Int16 → List Byte → Option (List Byte)) :
    (BatchRoundTrips encoderView crc32c uncompressBuf mem bytes (records.take n) ↔
      LastFilled (records.take n) ∧ ∀ record ∈ records.take n, record.value ≠ some []) ∧
    (BatchRoundTrips looseView crc32c uncompressBuf mem bytes (records.take n) ↔
      LastFilled (records.take n)) := by
  obtain ⟨s, rfl, hbuilt, hne⟩ := encodeBatch_built henc hsize
  have hloose := batchRoundTrips_iff hcrc hbuilt hne hsize hmem uncompressBuf
    looseView_iff
  constructor
  · exact batchRoundTrips_iff hcrc hbuilt hne hsize hmem uncompressBuf fun i record hi =>
      encoderView_knownRecord hi record
  · rw [hloose]
    exact and_iff_left fun _ _ => trivial

/-- One bit of CRC-32C, lowest bit first. -/
def crcBit (crc : UInt32) : UInt32 :=
  if crc &&& 1 = 0 then crc >>> 1 else (crc >>> 1) ^^^ 0x82f63b78

def crcByte (crc : UInt32) (b : Byte) : UInt32 :=
  (List.range 8).foldl (fun crc _ => crcBit crc) (crc ^^^ b.toUInt32)

/-- `crc32c` of `util/crc32c.c`, a byte at a time. -/
def crc32cSw (crc : UInt32) (bytes : List Byte) : UInt32 :=
  ~~~ (bytes.foldl crcByte (~~~ crc))

/-- A checksum goes on where it was left. -/
theorem crc32cSw_append (crc : UInt32) (a b : List Byte) :
    crc32cSw (crc32cSw crc a) b = crc32cSw crc (a ++ b) := by
  simp only [crc32cSw, UInt32.not_not, List.foldl_append]

/-- The limits of a fresh `KafkaConfig`. -/
def defaultProduceConfig : ProduceConfig where
  produceMsgMaxBytes := 1000000
  produceMsgsetCnt := 10000
  produceMsgsetMaxBytes := 1000000

theorem appendVarintI64_length_le (v : Int64) : (appendVarintI64 v).length ≤ 10 := by
  rw [appendVarintI64, toNat_zigzag]
  exact appendVarintU64_length_le 9 (Nat.lt_of_lt_of_le (zigzagBits v.toBitVec).isLt (by decide))

theorem appendVarintI32_length_le (v : Int32) : (appendVarintI32 v).length ≤ 10 :=
  appendVarintI64_length_le _

/-- All varints of a record have at most ten bytes. -/
theorem length_recordBody_le (record : Record) (offset : Int32) (firstTimestamp : Int64) :
    (recordBody record offset firstTimestamp).length ≤
      51 + (contents record.key).length + (contents record.value).length +
        (hdrStr record).length := by
  have htimestamp := appendVarintI64_length_le (record.timestamp - firstTimestamp)
  have hoffset := appendVarintI64_length_le offset.toInt64
  have hcnt := appendVarintI32_length_le (Int32.ofNat record.headerList.length)
  have hkey : (klenStr record).length ≤ 10 := by
    unfold klenStr
    split <;> exact appendVarintI32_length_le _
  have hvalue : (vlenStr record).length ≤ 10 := by
    unfold vlenStr
    split <;> exact appendVarintI32_length_le _
  simp only [recordBody, hdrCntStr, appendI8, List.length_append, length_bigEndian]
  omega

/-- A record that is short enough for the limits of a fresh `KafkaConfig`. -/
def Record.Short (record : Record) : Prop :=
  (contents record.key).length + (contents record.value).length + (hdrStr record).length ≤ 900

/-- A short record takes 1000 bytes at most. -/
theorem length_recordBytes_le {record : Record} (hshort : record.Short) (offset : Int32)
    (firstTimestamp : Int64) : (recordBytes record offset firstTimestamp).length ≤ 1000 := by
  have hbody := length_recordBody_le record offset firstTimestamp
  have hprefix := appendVarintI32_length_le
    (Int32.ofNat (recordBody record offset firstTimestamp).length)
  rw [recordBytes, lengthStr, List.length_append]
  unfold Record.Short at hshort
  omega

/-- A short record fits into a batch that is not long yet. -/
theorem appendRecord_short {record : Record} (hshort : record.Short) (offset curMsgSize : Int32)
    (hoffset : offset.toInt ≤ 10000) (hlow : 0 ≤ curMsgSize.toInt)
    (hhigh : curMsgSize.toInt ≤ 500000) (firstTimestamp : Int64) :
    appendRecord defaultProduceConfig record offset firstTimestamp curMsgSize =
      some (recordBytes record offset firstTimestamp) := by
  have hbytes := length_recordBytes_le hshort offset firstTimestamp
  rw [recordBytes, List.length_append] at hbytes
  have hcnt : defaultProduceConfig.produceMsgsetCnt.toInt = 10000 := by decide
  have hlimit : defaultProduceConfig.maxMsgSize.toInt = 1000000 := by decide
  have hlength : (Int32.ofNat (recordBody record offset firstTimestamp).length).toInt =
      (recordBody record offset firstTimestamp).length := Int32.toInt_ofNat_of_lt (by omega)
  unfold appendRecord appendBatchRecord
  dsimp only
  rw [if_neg (by rw [Int32.lt_iff_toInt_lt, hcnt]; omega), if_neg]
  · rfl
  · rw [Int32.lt_iff_toInt_lt, hlimit, hlength, Int32.toInt_ofInt_of_le (by omega) (by omega)]
    omega

/-- A few short records all go into the batch. -/
theorem appendRecords_short {records : List Record} {s : BatchState} {taken : List Record}
    (h : BatchBuilt s taken) (hshort : ∀ record ∈ records, record.Short)
    (hcount : taken.length + records.length ≤ 100)
    (hlength : s.blocks.flatten.length ≤ 1000 * taken.length) :
    BatchBuilt (appendRecords defaultProduceConfig records s) (taken ++ records) ∧
      (appendRecords defaultProduceConfig records s).blocks.flatten.length ≤
        1000 * (taken.length + records.length) := by
  induction records generalizing s taken with
  | nil => exact ⟨by rwa [List.append_nil], hlength⟩
  | cons record records ih =>
      obtain ⟨hrecord, hrest⟩ := List.forall_mem_cons.mp hshort
      rw [List.length_cons] at hcount ⊢
      have hcnt : s.batchCnt.toInt = taken.length := by
        rw [h.batchCnt, Int32.toInt_ofNat_of_lt (by omega)]
      have hcur : s.batchLength.toInt = 49 + s.blocks.flatten.length := by
        rw [h.batchLength, Int32.toInt_ofInt_of_le (by omega) (by omega)]
      have hfits := appendRecord_short hrecord s.batchCnt s.batchLength
        (by omega) (by omega) (by omega) (s.first record)
      have hpush := h.push (by omega) record
      have hbytes := length_recordBytes_le hrecord s.batchCnt (s.first record)
      obtain ⟨hbuilt, hall⟩ := ih hpush hrest (by rw [List.length_append, List.length_singleton]; omega)
        (by
          simp only [BatchState.push, List.flatten_append, List.length_append, List.flatten_cons,
            List.flatten_nil, List.append_nil, List.length_singleton]
          omega)
      rw [List.append_assoc, List.singleton_append] at hbuilt
      rw [List.length_append, List.length_singleton] at hall
      rw [appendRecords_cons hfits]
      exact ⟨hbuilt, by omega⟩

/-- A hundred short records fit into a batch. -/
theorem encodeBatch_short {records : List Record} (hne : records ≠ [])
    (hshort : ∀ record ∈ records, record.Short) (hcount : records.length ≤ 100) :
    ∃ bytes, encodeBatch crc32cSw defaultProduceConfig records = some (bytes, records.length) ∧
      bytes.length < 2 ^ 31 := by
  have hcount' : ([] : List Record).length + records.length ≤ 100 := by
    rwa [List.length_nil, Nat.zero_add]
  obtain ⟨hbuilt, hlength⟩ :=
    appendRecords_short batchBuilt_start hshort hcount' (Nat.le_refl 0)
  rw [List.nil_append] at hbuilt
  have hblocks : (appendRecords defaultProduceConfig records batchStart).blocks.length =
      records.length := by rw [hbuilt.blocks, length_blocksFrom]
  have hsome : (appendRecords defaultProduceConfig records batchStart).blocks ≠ [] := by
    intro hnil
    rw [hnil] at hblocks
    exact hne (List.eq_nil_of_length_eq_zero hblocks.symm)
  refine ⟨batchBytes crc32cSw (appendRecords defaultProduceConfig records batchStart), ?_, ?_⟩
  · rw [encodeBatch, if_neg hsome, hblocks]
  · rw [length_batchBytes]
    omega

/-- Two records with keys, the first with a value and no header, the last with two headers. -/
def twoRecords : List Record :=
  [{ key := some (ascii "k1"), value := some (ascii "v1"), timestamp := 1000, offset := 0
     headerList := [] },
   { key := some (ascii "k2"), value := none, timestamp := 1005, offset := 0
     headerList := [⟨some (ascii "a"), none⟩, ⟨some (ascii "b"), some (ascii "2")⟩] }]

theorem twoRecords_short : ∀ record ∈ twoRecords, record.Short := by
  have hzero := appendVarintI32_length_le (Int32.ofNat 0)
  have hone := appendVarintI32_length_le (Int32.ofNat 1)
  have htext : ∀ t ∈ ["k1", "v1", "k2", "a", "b", "2"], (ascii t).length ≤ 2 := by decide
  intro record hrecord
  simp only [twoRecords, List.mem_cons, List.not_mem_nil, or_false] at hrecord
  rcases hrecord with rfl | rfl
  · have hkey := htext "k1" (by simp)
    have hvalue := htext "v1" (by simp)
    simp only [Record.Short, hdrStr, contents, Option.getD_some, List.map_nil, List.flatten_nil,
      List.length_nil]
    omega
  · have hkey := htext "k2" (by simp)
    have ha : (ascii "a").length = 1 := by decide
    have hb : (ascii "b").length = 1 := by decide
    have htwo : (ascii "2").length = 1 := by decide
    simp only [Record.Short, hdrStr, headerStr, contents, Option.getD_some, Option.getD_none,
      List.map_cons, List.map_nil, List.flatten_cons, List.flatten_nil, List.length_append,
      List.length_nil, ha, hb, htwo]
    omega

/-- Two records with keys come back, a missing value and the headers included. -/
theorem recordBatch_roundTrips_two :
    ∃ bytes mem, encodeBatch crc32cSw defaultProduceConfig twoRecords = some (bytes, 2) ∧
      Holds mem bytes ∧
      BatchRoundTrips encoderView crc32cSw (fun _ _ => none) mem bytes twoRecords := by
  have hne : twoRecords ≠ [] := by decide
  obtain ⟨bytes, henc, hsize⟩ := encodeBatch_short hne twoRecords_short (by decide)
  obtain ⟨mem, hmem⟩ := exists_holds bytes
  have htrips := (recordBatch_roundTrips crc32cSw_append henc hsize hmem fun _ _ => none).1
  exact ⟨bytes, mem, henc, hmem, htrips.mpr (by decide)⟩

/-- A record without key and value, with these headers. -/
def bareRecord (headers : List RecordHeader) : Record where
  key := none
  value := none
  timestamp := 0
  offset := 0
  headerList := headers

/-- A record without headers: what is returned looks right, but the last byte of the batch is left. -/
theorem recordBatch_byte_left :
    ∃ bytes mem, encodeBatch crc32cSw defaultProduceConfig [bareRecord []] = some (bytes, 1) ∧
      Holds mem bytes ∧
      ¬ BatchRoundTrips looseView crc32cSw (fun _ _ => none) mem bytes [bareRecord []] := by
  obtain ⟨bytes, henc, hsize⟩ := encodeBatch_short (List.cons_ne_nil (bareRecord []) [])
    (fun record hrecord => by
      obtain rfl := List.mem_singleton.mp hrecord
      exact Nat.zero_le _) (by decide)
  obtain ⟨mem, hmem⟩ := exists_holds bytes
  obtain ⟨s, rfl, hbuilt, hne⟩ := encodeBatch_built henc hsize
  refine ⟨_, mem, henc, hmem, ?_⟩
  intro htrips
  have hlast := ((batchRoundTrips_iff crc32cSw_append hbuilt hne hsize hmem (fun _ _ => none)
    looseView_iff).mp htrips).1
  exact absurd hlast (by decide)

end Workflow.Kafka
