/-
Module: Workflow.Proofs.KafkaRecord
Layer: Proofs
Purpose: The readers of a record batch on the bytes that `append_batch_record` writes. The parser of
  a variable-length integer refuses one byte that ends the buffer, and the last record of a batch ends
  with such a byte unless its last header has a value: then everything is read, else one byte is left.
Trusted boundary: none
Main exports: At.varintI64, At.varintBytes, parseHeaders_ok, parseHeaders_end, parseMessageRecord_ok,
  parseMessageRecord_end, LastFilled, decodeRecords_times
-/
import Workflow.Proofs.KafkaVarint
import Workflow.Protocol.KafkaRecord

namespace Workflow.Kafka

open Workflow.Lib

/-! ### Single fields -/

/-- Seven bits a byte. -/
theorem appendVarintU64_length_le {n : Nat} (k : Nat) (h : n < 128 ^ (k + 1)) :
    (appendVarintU64 n).length ≤ k + 1 := by
  induction k generalizing n with
  | zero =>
      rw [appendVarintU64_of_lt (by simpa using h)]
      rfl
  | succ k ih =>
      rcases Nat.lt_or_ge n 128 with hlt | hge
      · rw [appendVarintU64_of_lt hlt]
        exact Nat.le_add_left _ _
      · have hdiv : n / 128 < 128 ^ (k + 1) := by
          rw [Nat.div_lt_iff_lt_mul (by decide), ← Nat.pow_succ]
          exact h
        rw [appendVarintU64_of_ge hge, List.length_cons]
        exact Nat.succ_le_succ (ih hdiv)

theorem appendVarintI64_ne_nil (v : Int64) : appendVarintI64 v ≠ [] :=
  List.ne_nil_of_length_pos (appendVarintU64_length _).1

theorem appendVarintI32_ne_nil (v : Int32) : appendVarintI32 v ≠ [] :=
  appendVarintI64_ne_nil _

/-- Reading through `f` from a varint that is not the last thing in the buffer. -/
theorem parseVarintU64_of_rest {fuel : Nat} (hfuel : 10 ≤ fuel) {mem : Int → Byte} {n : Nat}
    (hn : n < 2 ^ 64) {rest : List Byte} (hrest : rest ≠ [])
    (hmem : Holds mem (appendVarintU64 n ++ rest))
    (hsize : (appendVarintU64 n ++ rest).length < 2 ^ 64) :
    parseVarintU64 fuel mem (appendVarintU64 n ++ rest).length =
      some (some ⟨n, (appendVarintU64 n).length, rest.length⟩) := by
  have hpos := (appendVarintU64_length n).1
  have hrestPos := List.length_pos_of_ne_nil hrest
  have hone : (appendVarintU64 n ++ rest).length ≠ 1 := by
    rw [List.length_append]
    omega
  have hshort : (appendVarintU64 n).length ≤ 10 :=
    appendVarintU64_length_le 9 (Nat.lt_of_lt_of_le hn (by decide))
  exact loop_mono (Nat.le_trans hshort hfuel) (parseVarintU64_append hn hmem hsize hone)

/-- A varint is not read from a buffer of one byte. -/
theorem parseVarintU64_of_one {fuel : Nat} (hfuel : 10 ≤ fuel) (mem : Int → Byte) :
    parseVarintU64 fuel mem 1 = some none := by
  obtain ⟨more, rfl⟩ : ∃ more, fuel = more + 1 := ⟨fuel - 1, by omega⟩
  exact loop_done (varintStep_eof (varintRead_one varintStart)) more

section Fields

variable {fuel : Nat} (hfuel : 10 ≤ fuel) {mem : Int → Byte} {stop : Nat} (hstop : stop < 2 ^ 31)
  {c : Cursor} {rest : List Byte}

/-- Neither is one at a cursor with one byte left. -/
theorem atCursor_one {c : Cursor} (hfuel : 10 ≤ fuel) (hone : c.size = 1) :
    atCursor fuel mem parseVarintI64 c = some (none, c) ∧
      atCursor fuel mem parseVarintI32 c = some (none, c) := by
  constructor
  · rw [atCursor, hone, parseVarintI64, parseVarintU64_of_one hfuel]
    rfl
  · rw [atCursor, hone, parseVarintI32, parseVarintI64, parseVarintU64_of_one hfuel]
    rfl

include hfuel hstop in
/-- A varint that is not the last thing is read back. -/
theorem At.varintI64 {v : Int64} (h : At mem stop c (appendVarintI64 v ++ rest))
    (hrest : rest ≠ []) :
    ∃ c', atCursor fuel mem parseVarintI64 c = some (some v, c') ∧ At mem stop c' rest := by
  have hend := h.stop
  have hparse : parseVarintU64 fuel (fun i => mem (c.off + i)) c.size =
      some (some ⟨(zigzagBits v.toBitVec).toNat, (appendVarintI64 v).length, rest.length⟩) := by
    have henc : appendVarintI64 v = appendVarintU64 (zigzagBits v.toBitVec).toNat := by
      rw [appendVarintI64, toNat_zigzag]
    rw [h.size, henc]
    exact parseVarintU64_of_rest hfuel (zigzagBits v.toBitVec).isLt hrest (henc ▸ h.holds)
      (by rw [← henc]; omega)
  have hskip := h.skip
  rw [h.size, List.length_append, Nat.add_sub_cancel_left] at hskip
  refine ⟨_, ?_, hskip⟩
  rw [atCursor, parseVarintI64, hparse]
  simp only [Option.map_some, unzigzag_zigzag]

include hfuel hstop in
/-- So is one of 32 bits. -/
theorem At.varintI32 {v : Int32} (h : At mem stop c (appendVarintI32 v ++ rest))
    (hrest : rest ≠ []) :
    ∃ c', atCursor fuel mem parseVarintI32 c = some (some v, c') ∧ At mem stop c' rest := by
  obtain ⟨c', hread, hat⟩ := At.varintI64 hfuel hstop h hrest
  refine ⟨c', ?_, hat⟩
  rw [atCursor, Option.map_eq_some_iff] at hread
  obtain ⟨r, hr, heq⟩ := hread
  cases r with
  | none => cases heq
  | some p =>
      simp only [Prod.mk.injEq, Option.some.injEq] at heq
      rw [atCursor, parseVarintI32, hr]
      simp only [Option.map_some, heq.1, heq.2, Int32.toInt32_toInt64]

theorem At.i8 {v : Int8} (h : At mem stop c (appendI8 v ++ rest)) :
    ∃ c', parseI8 mem c = some (some v, c') ∧ At mem stop c' rest := by
  obtain ⟨c', hread, hat⟩ := h.readFixed v.toUInt8.toNat_lt
  refine ⟨c', ?_, hat⟩
  rw [parseI8, Action.bind_ok hread, UInt8.ofNat_toNat]
  rfl

theorem At.i16 {v : Int16} (h : At mem stop c (appendI16 v ++ rest)) :
    ∃ c', parseI16 mem c = some (some v, c') ∧ At mem stop c' rest := by
  obtain ⟨c', hread, hat⟩ := h.readFixed v.toUInt16.toNat_lt
  refine ⟨c', ?_, hat⟩
  rw [parseI16, Action.bind_ok hread, UInt16.ofNat_toNat]
  rfl

theorem At.i32 {v : Int32} (h : At mem stop c (appendI32 v ++ rest)) :
    ∃ c', parseI32 mem c = some (some v, c') ∧ At mem stop c' rest := by
  obtain ⟨c', hread, hat⟩ := h.readFixed v.toUInt32.toNat_lt
  refine ⟨c', ?_, hat⟩
  rw [parseI32, Action.bind_ok hread, UInt32.ofNat_toNat]
  rfl

theorem At.i64 {v : Int64} (h : At mem stop c (appendI64 v ++ rest)) :
    ∃ c', parseI64 mem c = some (some v, c') ∧ At mem stop c' rest := by
  obtain ⟨c', hread, hat⟩ := h.readFixed v.toUInt64.toNat_lt
  refine ⟨c', ?_, hat⟩
  rw [parseI64, Action.bind_ok hread, UInt64.ofNat_toNat]
  rfl

/-- A blob as the parser knows it: there is no empty one. -/
def filled (bytes : List Byte) : Option (List Byte) :=
  if bytes = [] then none else some bytes

/-- A length as it is written before `bytes`: the number of them, or -1 for none. -/
def LengthOf (len : Int32) (bytes : List Byte) : Prop :=
  len.toInt = bytes.length ∨ len = -1 ∧ bytes = []

include hfuel hstop in
/-- A text behind its length is read back, if anything follows the length. -/
theorem At.varintBytes {len : Int32} {bytes : List Byte}
    (h : At mem stop c (appendVarintI32 len ++ (bytes ++ rest))) (hlen : LengthOf len bytes)
    (hrest : bytes ++ rest ≠ []) :
    ∃ c', parseVarintBytes fuel mem c = some (some (filled bytes), c') ∧ At mem stop c' rest := by
  obtain ⟨c₁, hread, hat⟩ := At.varintI64 hfuel hstop h hrest
  have hend := hat.stop
  rw [List.length_append] at hend
  rw [parseVarintBytes, Action.bind_ok hread]
  by_cases hnil : bytes = []
  · -- the length is 0 or -1
    subst hnil
    have hsmall : len = 0 ∨ len = -1 := by
      rcases hlen with hlen | ⟨hlen, -⟩
      · exact .inl (Int32.toInt_inj.mp hlen)
      · exact .inr hlen
    refine ⟨c₁, ?_, hat⟩
    rcases hsmall with rfl | rfl
    · rfl
    · rfl
  · have hpos := List.length_pos_of_ne_nil hnil
    have htoInt : len.toInt64.toInt = bytes.length := by
      rcases hlen with hlen | ⟨-, hbytes⟩
      · rw [Int32.toInt_toInt64, hlen]
      · exact absurd hbytes hnil
    have hlow : ¬ len.toInt64 < -1 := by
      rw [Int64.lt_iff_toInt_lt, htoInt]
      have : (-1 : Int64).toInt = -1 := by decide
      omega
    have hzero : ¬ len.toInt64 ≤ 0 := by
      rw [Int64.le_iff_toInt_le, htoInt]
      have : (0 : Int64).toInt = 0 := by decide
      omega
    have hsize : (UInt64.ofNat c₁.size).toInt64.toInt = c₁.size := by
      have hle : c₁.size < 2 ^ 31 := by
        rw [hat.size, List.length_append]
        omega
      rw [UInt64.toInt64_ofNat']
      exact Int64.toInt_ofNat_of_lt (by omega)
    have hfits : (bytes.length : Int) ≤ c₁.size := by
      have := hat.length_le
      omega
    refine ⟨_, ?_, hat.skip⟩
    rw [if_neg hlow, if_neg hzero, takeBytes, htoInt, hsize, if_pos hfits, Int.toNat_natCast,
      hat.bytesAt_eq, filled, if_neg hnil]

include hfuel in
/-- A length is not read from one byte. -/
theorem varintBytes_one (hone : c.size = 1) : parseVarintBytes fuel mem c = some (none, c) := by
  rw [parseVarintBytes, Action.bind_fail (atCursor_one hfuel hone).1]

end Fields

/-! ### A header -/

section Headers

variable {fuel : Nat} (hfuel : 10 ≤ fuel) {mem : Int → Byte} {stop : Nat} (hstop : stop < 2 ^ 31)
  {d : Decoding} {rest : List Byte}

theorem onCursor_ok {α : Type} {m : Action Cursor α} {a : Option α} {c : Cursor}
    (h : m d.cur = some (a, c)) : onCursor m d = some (a, { d with cur := c }) :=
  Action.zoom_eq h

/-- A header as it comes back. -/
def knownHeader (header : RecordHeader) : RecordHeader where
  key := filled (contents header.key)
  value := filled (contents header.value)

/-- The decoding after more headers. -/
def Decoding.withHeaders (d : Decoding) (headers : List RecordHeader) (c : Cursor) : Decoding where
  cur := c
  record := { d.record with headerList := d.record.headerList ++ headers }

/-- The length of a text of a sensible size. -/
theorem lengthOf_ofNat {bytes : List Byte} (h : bytes.length < 2 ^ 31) :
    LengthOf (Int32.ofNat bytes.length) bytes :=
  .inl (Int32.toInt_ofNat_of_lt h)

include hfuel hstop in
/-- A header that is not the last thing in the buffer, or that has a value. -/
theorem parseHeader_ok {header : RecordHeader} (h : At mem stop d.cur (headerStr header ++ rest))
    (hmore : contents header.value ++ rest ≠ []) :
    ∃ c, parseHeader fuel mem d = some (some (), d.withHeaders [knownHeader header] c) ∧
      At mem stop c rest := by
  have hend := h.stop
  simp only [headerStr, List.append_assoc] at h
  simp only [headerStr, List.length_append] at hend
  obtain ⟨c₁, hkey, hat₁⟩ := At.varintBytes hfuel hstop h (lengthOf_ofNat (by omega))
    (by simp [appendVarintI32_ne_nil])
  obtain ⟨c₂, hvalue, hat₂⟩ := At.varintBytes hfuel hstop hat₁ (lengthOf_ofNat (by omega)) hmore
  refine ⟨c₂, ?_, hat₂⟩
  rw [parseHeader, Action.bind_ok (onCursor_ok hkey),
    Action.bind_ok (Action.onError_ok (onCursor_ok (d := { d with cur := c₁ }) hvalue))]
  rfl

/-- Nothing comes back, or an error that leaves one byte. -/
def LeavesByte (outcome : Option (Option Unit × Decoding)) : Prop :=
  outcome = none ∨ ∃ d, outcome = some (none, d) ∧ d.cur.size = 1

include hfuel hstop in
/-- A header without a value at the end of the buffer: the length of the value is refused, and the key
is freed if there is one. -/
theorem parseHeader_end {header : RecordHeader} (h : At mem stop d.cur (headerStr header))
    (hvalue : contents header.value = []) : LeavesByte (parseHeader fuel mem d) := by
  have hend := h.stop
  simp only [headerStr, hvalue, List.append_assoc, List.append_nil] at h
  simp only [headerStr, List.length_append] at hend
  obtain ⟨c₁, hkey, hat₁⟩ := At.varintBytes hfuel hstop h (lengthOf_ofNat (by omega))
    (by simp [appendVarintI32_ne_nil])
  have hzero : appendVarintI32 (Int32.ofNat ([] : List Byte).length) = [0] := appendVarintU64_zero
  rw [hzero] at hat₁
  have hfail : onCursor (parseVarintBytes fuel mem) { d with cur := c₁ } =
      some (none, { d with cur := c₁ }) :=
    onCursor_ok (d := { d with cur := c₁ }) (varintBytes_one hfuel hat₁.size)
  rw [parseHeader, Action.bind_ok (onCursor_ok hkey)]
  cases hblob : filled (contents header.key) with
  | none => exact .inr ⟨_, Action.bind_fail (Action.onError_fail hfail), hat₁.size⟩
  | some key => exact .inl (Action.bind_none (Action.onError_fail hfail))

theorem headerStr_ne_nil (header : RecordHeader) : headerStr header ≠ [] := by
  simp [headerStr, appendVarintI32_ne_nil]

theorem flatten_headerStr_ne_nil {headers : List RecordHeader} (h : headers ≠ []) :
    (headers.map headerStr).flatten ≠ [] := by
  cases headers with
  | nil => exact absurd rfl h
  | cons header headers => simp [headerStr_ne_nil]

/-- The last header has a value. -/
def EndsFilled (headers : List RecordHeader) : Prop :=
  ∃ header, headers.getLast? = some header ∧ contents header.value ≠ []

instance (headers : List RecordHeader) : Decidable (EndsFilled headers) :=
  match hlast : headers.getLast? with
  | none => isFalse fun ⟨_, hsome, _⟩ => by simp [hlast] at hsome
  | some header =>
      decidable_of_iff (contents header.value ≠ []) (by simp [EndsFilled, hlast])

theorem endsFilled_singleton {header : RecordHeader} :
    EndsFilled [header] ↔ contents header.value ≠ [] := by
  simp [EndsFilled]

/-- What ends the headers is the last of them. -/
theorem endsFilled_cons {header : RecordHeader} {headers : List RecordHeader} (h : headers ≠ []) :
    EndsFilled (header :: headers) ↔ EndsFilled headers := by
  obtain ⟨next, more, rfl⟩ := List.exists_cons_of_ne_nil h
  rw [EndsFilled, List.getLast?_cons_cons, EndsFilled]

include hfuel hstop in
/-- The headers are read back, if something follows them or the last one has a value. -/
theorem parseHeaders_ok {headers : List RecordHeader}
    (h : At mem stop d.cur ((headers.map headerStr).flatten ++ rest))
    (hmore : headers = [] ∨ EndsFilled headers ∨ rest ≠ []) :
    ∃ c, Action.times (parseHeader fuel mem) headers.length d =
      some (some (), d.withHeaders (headers.map knownHeader) c) ∧ At mem stop c rest := by
  induction headers generalizing d with
  | nil =>
      refine ⟨d.cur, ?_, h⟩
      simp only [Decoding.withHeaders, List.map_nil, List.append_nil]
      rfl
  | cons header headers ih =>
      rw [List.map_cons, List.flatten_cons, List.append_assoc] at h
      have hfront : contents header.value ++ ((headers.map headerStr).flatten ++ rest) ≠ [] := by
        by_cases hnil : headers = []
        · subst hnil
          rcases hmore with hmore | hmore | hmore
          · cases hmore
          · simp [endsFilled_singleton.mp hmore]
          · simp [hmore]
        · simp [flatten_headerStr_ne_nil hnil]
      obtain ⟨c₁, hone, hat₁⟩ := parseHeader_ok hfuel hstop h hfront
      have hnext : headers = [] ∨ EndsFilled headers ∨ rest ≠ [] := by
        by_cases hnil : headers = []
        · exact .inl hnil
        · rcases hmore with hmore | hmore | hmore
          · cases hmore
          · exact .inr (.inl ((endsFilled_cons hnil).mp hmore))
          · exact .inr (.inr hmore)
      obtain ⟨c₂, hall, hat₂⟩ := ih (d := d.withHeaders [knownHeader header] c₁) hat₁ hnext
      refine ⟨c₂, ?_, hat₂⟩
      rw [List.length_cons, Action.times_succ_ok hone, hall]
      simp only [Decoding.withHeaders, List.map_cons, List.append_assoc, List.singleton_append]

include hfuel hstop in
/-- At the end of the buffer the last header cannot be read when it has no value. -/
theorem parseHeaders_end {headers : List RecordHeader} (hne : headers ≠ [])
    (h : At mem stop d.cur (headers.map headerStr).flatten) (hlast : ¬ EndsFilled headers) :
    LeavesByte (Action.times (parseHeader fuel mem) headers.length d) := by
  induction headers generalizing d with
  | nil => exact absurd rfl hne
  | cons header headers ih =>
      rw [List.map_cons, List.flatten_cons] at h
      by_cases hnil : headers = []
      · subst hnil
        rw [List.map_nil, List.flatten_nil, List.append_nil] at h
        rw [endsFilled_singleton, not_not] at hlast
        rcases parseHeader_end hfuel hstop h hlast with hnone | ⟨d', hfail, hsize⟩
        · exact .inl (Action.times_succ_none hnone)
        · exact .inr ⟨d', Action.times_succ_fail hfail, hsize⟩
      · obtain ⟨c₁, hone, hat₁⟩ := parseHeader_ok hfuel hstop h
          (by simp [flatten_headerStr_ne_nil hnil])
        rw [List.length_cons, Action.times_succ_ok hone]
        exact ih hnil hat₁ fun hends => hlast ((endsFilled_cons hnil).mpr hends)

end Headers

/-! ### A record -/

/-- The block of a record. -/
def recordBytes (record : Record) (offset : Int32) (firstTimestamp : Int64) : List Byte :=
  lengthStr record offset firstTimestamp ++ recordBody record offset firstTimestamp

/-- A record as it comes back from place `offset` of a batch. -/
def knownRecord (record : Record) (offset : Int32) : Record where
  key := filled (contents record.key)
  value := filled (contents record.value)
  timestamp := record.timestamp
  offset := offset.toInt64
  headerList := record.headerList.map knownHeader

/-- Where the headers of a record begin. -/
def beforeHeaders (record : Record) (offset : Int32) (c : Cursor) : Decoding where
  cur := c
  record := { knownRecord record offset with headerList := [] }

/-- Each header takes a byte at least. -/
theorem length_le_flatten (headers : List RecordHeader) :
    headers.length ≤ (headers.map headerStr).flatten.length := by
  induction headers with
  | nil => exact Nat.le_refl 0
  | cons header headers ih =>
      have hpos := List.length_pos_of_ne_nil (headerStr_ne_nil header)
      rw [List.map_cons, List.flatten_cons, List.length_append, List.length_cons]
      omega

/-- The key is written behind its length. -/
theorem lengthOf_key {record : Record} (h : (contents record.key).length < 2 ^ 31) :
    ∃ len, klenStr record = appendVarintI32 len ∧ LengthOf len (contents record.key) := by
  unfold klenStr
  split
  · exact ⟨_, rfl, lengthOf_ofNat h⟩
  · rename_i hnil
    exact ⟨_, rfl, .inr ⟨rfl, List.eq_nil_of_length_eq_zero (by omega)⟩⟩

/-- So is the value. -/
theorem lengthOf_value {record : Record} (h : (contents record.value).length < 2 ^ 31) :
    ∃ len, vlenStr record = appendVarintI32 len ∧ LengthOf len (contents record.value) := by
  unfold vlenStr
  split
  · rename_i value hvalue
    rw [hvalue] at h ⊢
    exact ⟨_, rfl, lengthOf_ofNat h⟩
  · rename_i hvalue
    rw [hvalue]
    exact ⟨_, rfl, .inr ⟨rfl, rfl⟩⟩

section Records

variable {fuel : Nat} (hfuel : 10 ≤ fuel) {mem : Int → Byte} {stop : Nat} (hstop : stop < 2 ^ 31)
  {c : Cursor} {rest : List Byte} {hdr : BatchRecordHeader} {record : Record} {offset : Int32}

include hfuel hstop in
/-- Everything up to the number of headers is read, whatever follows. -/
theorem parseMessageRecord_prelude (hbase : hdr.baseOffset = 0)
    (h : At mem stop c (recordBytes record offset hdr.baseTimestamp ++ rest)) :
    ∃ c', At mem stop c' (hdrCntStr record ++ (hdrStr record ++ rest)) ∧
      parseMessageRecord fuel mem { cur := c, record := freshRecord hdr } =
        (onCursor (atCursor fuel mem parseVarintI32) >>= fun hdrSize =>
          Action.times (parseHeader fuel mem) hdrSize.toInt.toNat)
          (beforeHeaders record offset c') := by
  have hend := h.stop
  simp only [recordBytes, recordBody, lengthStr, List.append_assoc, List.length_append] at h hend
  obtain ⟨klen, hklen, hkeyLen⟩ := lengthOf_key (show (contents record.key).length < 2 ^ 31 by omega)
  obtain ⟨vlen, hvlen, hvalueLen⟩ :=
    lengthOf_value (show (contents record.value).length < 2 ^ 31 by omega)
  rw [hklen, hvlen] at h
  have hcnt : hdrCntStr record ≠ [] := appendVarintI32_ne_nil _
  obtain ⟨c₁, hlength, hat₁⟩ := At.varintI64 hfuel hstop h (by simp [hcnt])
  obtain ⟨c₂, hattributes, hat₂⟩ := At.i8 hat₁
  obtain ⟨c₃, htimestamp, hat₃⟩ := At.varintI64 hfuel hstop hat₂ (by simp [hcnt])
  obtain ⟨c₄, hoffset, hat₄⟩ := At.varintI64 hfuel hstop hat₃ (by simp [hcnt])
  obtain ⟨c₅, hkey, hat₅⟩ := At.varintBytes hfuel hstop hat₄ hkeyLen (by simp [hcnt])
  obtain ⟨c₆, hvalue, hat₆⟩ := At.varintBytes hfuel hstop hat₅ hvalueLen (by simp [hcnt])
  refine ⟨c₆, hat₆, ?_⟩
  rw [parseMessageRecord, Action.bind_ok (onCursor_ok hlength)]
  rw [Action.bind_ok (onCursor_ok (d := ⟨c₁, _⟩) hattributes)]
  rw [Action.bind_ok (onCursor_ok (d := ⟨c₂, _⟩) htimestamp)]
  rw [Action.bind_ok (onCursor_ok (d := ⟨c₃, _⟩) hoffset)]
  rw [Action.bind_ok rfl, Action.bind_ok rfl]
  rw [Action.bind_ok (onCursor_ok (d := ⟨c₄, _⟩) hkey), Action.bind_ok rfl]
  rw [Action.bind_ok (onCursor_ok (d := ⟨c₅, _⟩) hvalue), Action.bind_ok rfl]
  have htime : hdr.baseTimestamp + (record.timestamp - hdr.baseTimestamp) = record.timestamp := by
    rw [Int64.add_comm, Int64.sub_add_cancel]
  simp only [beforeHeaders, knownRecord, freshRecord, hbase, htime, Int64.zero_add]

/-- The number of headers survives the conversion to `int`. -/
theorem hdrSize_eq {headers : List RecordHeader} {c : Cursor}
    (hstop : stop < 2 ^ 31) {front : List Byte}
    (h : At mem stop c (front ++ ((headers.map headerStr).flatten ++ rest))) :
    (Int32.ofNat headers.length).toInt.toNat = headers.length := by
  have hend := h.stop
  have hle := length_le_flatten headers
  simp only [List.length_append] at hend
  rw [Int32.toInt_ofNat_of_lt (by omega), Int.toNat_natCast]

include hfuel hstop in
/-- A record that is not the last one, or whose last header has a value. -/
theorem parseMessageRecord_ok (hbase : hdr.baseOffset = 0)
    (h : At mem stop c (recordBytes record offset hdr.baseTimestamp ++ rest))
    (hmore : EndsFilled record.headerList ∨ rest ≠ []) :
    ∃ c', parseMessageRecord fuel mem { cur := c, record := freshRecord hdr } =
        some (some (), { cur := c', record := knownRecord record offset }) ∧
      At mem stop c' rest := by
  obtain ⟨c₁, hat₁, hprelude⟩ := parseMessageRecord_prelude hfuel hstop hbase h
  have hleft : hdrStr record ++ rest ≠ [] := by
    rcases hmore with ⟨header, hlast, -⟩ | hmore
    · have hne : record.headerList ≠ [] := by
        rintro hnil
        rw [hnil] at hlast
        cases hlast
      simp [hdrStr, flatten_headerStr_ne_nil hne]
    · simp [hmore]
  have hsize := hdrSize_eq hstop hat₁
  obtain ⟨c₂, hcnt, hat₂⟩ := At.varintI32 hfuel hstop hat₁ hleft
  obtain ⟨c₃, hheaders, hat₃⟩ := parseHeaders_ok hfuel hstop
    (d := beforeHeaders record offset c₂) hat₂ (.inr hmore)
  refine ⟨c₃, ?_, hat₃⟩
  rw [hprelude, Action.bind_ok (onCursor_ok (d := beforeHeaders record offset c₁) hcnt), hsize]
  exact hheaders

include hfuel hstop in
/-- The last record when its last byte is a length or the number of headers. -/
theorem parseMessageRecord_end (hbase : hdr.baseOffset = 0)
    (h : At mem stop c (recordBytes record offset hdr.baseTimestamp))
    (hlast : ¬ EndsFilled record.headerList) :
    LeavesByte (parseMessageRecord fuel mem { cur := c, record := freshRecord hdr }) := by
  obtain ⟨c₁, hat₁, hprelude⟩ := parseMessageRecord_prelude hfuel hstop hbase
    (show At mem stop c (recordBytes record offset hdr.baseTimestamp ++ []) by rwa [List.append_nil])
  by_cases hnil : record.headerList = []
  · have hzero : hdrCntStr record ++ (hdrStr record ++ []) = [0] := by
      rw [hdrCntStr, hdrStr, hnil]
      exact congrArg (· ++ []) appendVarintU64_zero
    rw [hzero] at hat₁
    refine .inr ⟨beforeHeaders record offset c₁, ?_, hat₁.size⟩
    rw [hprelude]
    exact Action.bind_fail (onCursor_ok (d := beforeHeaders record offset c₁)
      (atCursor_one hfuel hat₁.size).2)
  · have hsize := hdrSize_eq hstop hat₁
    obtain ⟨c₂, hcnt, hat₂⟩ := At.varintI32 hfuel hstop hat₁
      (by simp [hdrStr, flatten_headerStr_ne_nil hnil])
    rw [List.append_nil] at hat₂
    rw [hprelude, Action.bind_ok (onCursor_ok (d := beforeHeaders record offset c₁) hcnt), hsize]
    exact parseHeaders_end hfuel hstop (d := beforeHeaders record offset c₂) hnil hat₂ hlast

/-! ### The records of a batch -/

/-- The blocks of records that begin at place `i`. -/
def blocksFrom (firstTimestamp : Int64) : Nat → List Record → List (List Byte)
  | _, [] => []
  | i, record :: records =>
      recordBytes record (Int32.ofNat i) firstTimestamp ::
        blocksFrom firstTimestamp (i + 1) records

/-- The records as they come back. -/
def knownFrom : Nat → List Record → List Record
  | _, [] => []
  | i, record :: records => knownRecord record (Int32.ofNat i) :: knownFrom (i + 1) records

/-- The last record ends with a header that has a value. -/
def LastFilled (records : List Record) : Prop :=
  ∃ record, records.getLast? = some record ∧ EndsFilled record.headerList

instance (records : List Record) : Decidable (LastFilled records) :=
  match hlast : records.getLast? with
  | none => isFalse fun ⟨_, hsome, _⟩ => by simp [hlast] at hsome
  | some record =>
      decidable_of_iff (EndsFilled record.headerList) (by simp [LastFilled, hlast])

theorem lastFilled_singleton : LastFilled [record] ↔ EndsFilled record.headerList := by
  simp [LastFilled]

/-- What ends the records is the last of them. -/
theorem lastFilled_cons {records : List Record} (h : records ≠ []) :
    LastFilled (record :: records) ↔ LastFilled records := by
  obtain ⟨next, more, rfl⟩ := List.exists_cons_of_ne_nil h
  rw [LastFilled, List.getLast?_cons_cons, LastFilled]

theorem recordBytes_ne_nil (record : Record) (offset : Int32) (firstTimestamp : Int64) :
    recordBytes record offset firstTimestamp ≠ [] := by
  simp [recordBytes, lengthStr, appendVarintI32_ne_nil]

theorem flatten_blocksFrom_ne_nil {records : List Record} (h : records ≠ [])
    (firstTimestamp : Int64) (i : Nat) : (blocksFrom firstTimestamp i records).flatten ≠ [] := by
  cases records with
  | nil => exact absurd rfl h
  | cons record records => simp [blocksFrom, recordBytes_ne_nil]

/-- Each record takes a byte at least. -/
theorem length_le_flatten_blocks (firstTimestamp : Int64) (i : Nat) (records : List Record) :
    records.length ≤ (blocksFrom firstTimestamp i records).flatten.length := by
  induction records generalizing i with
  | nil => exact Nat.le_refl 0
  | cons record records ih =>
      have hpos := List.length_pos_of_ne_nil
        (recordBytes_ne_nil record (Int32.ofNat i) firstTimestamp)
      have hrest := ih (i + 1)
      rw [blocksFrom, List.flatten_cons, List.length_append, List.length_cons]
      omega

/-- What one pass of the loop makes of the outcome of `parse_message_record`. -/
theorem decodeRecord_eq {s : RecordLoop} {r : Option Unit} {d : Decoding}
    (h : parseMessageRecord fuel mem { cur := s.cur, record := freshRecord hdr } = some (r, d)) :
    decodeRecord fuel mem hdr s =
      some (some (), ⟨d.cur, s.recordList ++ [d.record], d.record.offset⟩) := by
  rw [decodeRecord, h]
  rfl

/-- A record that runs into undefined behaviour takes the loop along. -/
theorem decodeRecord_none {s : RecordLoop}
    (h : parseMessageRecord fuel mem { cur := s.cur, record := freshRecord hdr } = none) :
    decodeRecord fuel mem hdr s = none := by
  rw [decodeRecord, h]
  rfl

include hfuel hstop in
/-- The loop over the records. All of them come back and nothing is left, unless the last one has no
last header with a value; then one byte is left, or nothing comes back. -/
theorem decodeRecords_times (hbase : hdr.baseOffset = 0) {records : List Record}
    (hne : records ≠ []) (i : Nat) {s : RecordLoop}
    (h : At mem stop s.cur (blocksFrom hdr.baseTimestamp i records).flatten) :
    (LastFilled records → ∃ s', Action.times (decodeRecord fuel mem hdr) records.length s =
        some (some (), s') ∧ s'.cur = { off := stop, size := 0 } ∧
        s'.recordList = s.recordList ++ knownFrom i records) ∧
      (¬ LastFilled records → Action.times (decodeRecord fuel mem hdr) records.length s = none ∨
        ∃ s', Action.times (decodeRecord fuel mem hdr) records.length s = some (some (), s') ∧
          s'.cur.size = 1) := by
  induction records generalizing i s with
  | nil => exact absurd rfl hne
  | cons record records ih =>
      rw [blocksFrom, List.flatten_cons] at h
      by_cases hnil : records = []
      · subst hnil
        rw [blocksFrom, List.flatten_nil] at h
        rw [lastFilled_singleton]
        constructor
        · intro hends
          obtain ⟨c, hparse, hat⟩ := parseMessageRecord_ok hfuel hstop hbase h (.inl hends)
          exact ⟨_, Action.times_succ_ok (decodeRecord_eq hparse), hat.eq_of_nil, rfl⟩
        · intro hends
          rw [List.append_nil] at h
          rcases parseMessageRecord_end hfuel hstop hbase h hends with hnone | ⟨d, hparse, hone⟩
          · exact .inl (Action.times_succ_none (decodeRecord_none hnone))
          · exact .inr ⟨_, Action.times_succ_ok (decodeRecord_eq hparse), hone⟩
      · obtain ⟨c, hparse, hat⟩ := parseMessageRecord_ok hfuel hstop hbase h
          (.inr (flatten_blocksFrom_ne_nil hnil _ _))
        obtain ⟨hfilled, hopen⟩ := ih hnil (i + 1)
          (s := ⟨c, s.recordList ++ [knownRecord record (Int32.ofNat i)], _⟩) hat
        rw [List.length_cons, Action.times_succ_ok (decodeRecord_eq hparse), lastFilled_cons hnil]
        refine ⟨fun hlast => ?_, hopen⟩
        obtain ⟨s', htimes, hcur, hlist⟩ := hfilled hlast
        refine ⟨s', htimes, hcur, ?_⟩
        rw [hlist, knownFrom, List.append_assoc, List.singleton_append]

end Records

end Workflow.Kafka
