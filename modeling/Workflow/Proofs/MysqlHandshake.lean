/-
Module: Workflow.Proofs.MysqlHandshake
Layer: Proofs
Purpose: The greeting of a MySQL server comes back as it was sent. The test of its length is one short
  of what is read afterwards, so that a greeting that lacks its last byte is read past its end.
Trusted boundary: none
Main exports: mysqlParserParseReading_value, skipText_value, decodeFields_within, decodeGreeting_within,
  HandshakeResponse.RoundTrips, ShortByOne, handshakePacket_iff
-/
import Workflow.Protocol.MysqlHandshake

namespace Workflow.Mysql

open Workflow.Lib Reading

/-! ### Numbers -/

/-- Two bytes make the number again. -/
theorem bytes16_value (n : UInt16) :
    n.toUInt8.toUInt16 + (n >>> 8).toUInt8.toUInt16 <<< 8 = n := by
  rw [← UInt16.toNat_inj]
  have hlt := n.toNat_lt
  simp [UInt16.toNat_add, UInt16.toNat_shiftLeft, UInt16.toNat_shiftRight, Nat.shiftRight_eq_div_pow,
    Nat.shiftLeft_eq]
  omega

theorem length_bytes16 (n : UInt16) : (bytes16 n).length = 2 :=
  rfl

theorem length_bytes32 (n : UInt32) : (bytes32 n).length = 4 :=
  rfl

/-- So do two halves. -/
theorem halves32 (n : UInt32) :
    (n >>> 16).toUInt16.toUInt32 <<< 16 + n.toUInt16.toUInt32 = n := by
  rw [← UInt32.toNat_inj]
  have hlt := n.toNat_lt
  simp [UInt32.toNat_add, UInt32.toNat_shiftLeft, UInt32.toNat_shiftRight, Nat.shiftRight_eq_div_pow,
    Nat.shiftLeft_eq]
  omega

/-- A number of 32 bits is written as its halves. -/
theorem bytes32_eq (n : UInt32) : bytes32 n = bytes16 n.toUInt16 ++ bytes16 (n >>> 16).toUInt16 := by
  simp only [bytes32, bytes16, List.cons_append, List.nil_append, List.cons.injEq, and_true]
  refine ⟨?_, ?_, ?_, ?_⟩ <;>
  · rw [← UInt8.toNat_inj]
    have hlt := n.toNat_lt
    simp [UInt32.toNat_shiftRight, UInt16.toNat_shiftRight, Nat.shiftRight_eq_div_pow]
    try omega

/-! ### What is read back -/

section Values

variable {b : Reply} {p : Nat}

/-- `uint2korr` reads the number back. -/
theorem uint2korr_value {n : UInt16} (h : Stored b.mem p (bytes16 n)) :
    (uint2korr b p).value = n := by
  obtain ⟨hlow, hhigh, -⟩ := h
  simp only [uint2korr, value_bind, value_load, value_pure, hlow, hhigh, bytes16_value]

/-- So does `uint4korr`. -/
theorem uint4korr_value {n : UInt32} (h : Stored b.mem p (bytes32 n)) :
    (uint4korr b p).value = n := by
  rw [bytes32_eq, stored_append] at h
  obtain ⟨hlow, hhigh⟩ := h
  simp only [uint4korr, value_bind, value_pure, uint2korr_value hlow]
  rw [uint2korr_value (p := p + 2) hhigh, UInt32.add_comm, halves32]

/-- A fixed text is copied back. -/
theorem memcpyFrom_value {n : Nat} {v : Vector Byte n} (h : Stored b.mem p v.toList) :
    (memcpyFrom b n p).value = v := by
  have hall := h.loadAll
  rw [Vector.length_toList] at hall
  simp only [memcpyFrom, hall]
  rfl

/-- A text ends at its NUL. -/
theorem skipText_nul {left : Nat} (h : b.mem p = 0) : (skipText b (left + 1) p).value = p := by
  show (if b.mem p = 0 then pure p else skipText b left (p + 1)).value = p
  rw [if_pos h, value_pure]

theorem skipText_succ {left : Nat} (h : b.mem p ≠ 0) :
    (skipText b (left + 1) p).value = (skipText b left (p + 1)).value := by
  show (if b.mem p = 0 then pure p else skipText b left (p + 1)).value = _
  rw [if_neg h]

/-- The text ends at the first NUL. -/
theorem skipText_value {text : List Byte} (left : Nat) (hnul : 0 ∉ text) (hleft : text.length < left)
    (h : Stored b.mem p (text ++ [0])) : (skipText b left p).value = p + text.length := by
  induction text generalizing left p with
  | nil =>
      obtain ⟨left, rfl⟩ : ∃ n, left = n + 1 := ⟨left - 1, by rw [List.length_nil] at hleft; omega⟩
      rw [skipText_nul h.1, List.length_nil, Nat.add_zero]
  | cons c text ih =>
      obtain ⟨hc, htext⟩ := not_or.mp (mt List.mem_cons.mpr hnul)
      rw [List.length_cons] at hleft
      obtain ⟨left, rfl⟩ : ∃ n, left = n + 1 := ⟨left - 1, by omega⟩
      have hfirst : b.mem p ≠ 0 := by
        rw [h.1]
        exact Ne.symm hc
      rw [skipText_succ hfirst, ih _ htext (by omega) h.2, List.length_cons]
      omega

end Values

/-- What decoding an encoded greeting has to give: the members that are sent, and nothing else is
touched. -/
def HandshakeResponse.RoundTrips (r : HandshakeResponse) : Prop :=
  ∀ (b : Reply) (before : HandshakeResponse), b.len = r.encodePayload.length →
    Stored b.mem b.base r.encodePayload →
    ∃ fuel m, decodePacket fuel b before = some m ∧
      m.value = (1, { r with disallowed := before.disallowed, parser := before.parser })

/-- The members behind the text. -/
theorem decodeFields_value {b : Reply} (r before : HandshakeResponse) {buf : Nat}
    (hversion : before.protocolVersion = r.protocolVersion)
    (h : Stored b.mem (buf - 1) r.encodePayload) (hbuf : 1 ≤ buf) :
    (decodeFields b before buf (buf + r.serverVersion.length)).value =
      { r with disallowed := before.disallowed, parser := before.parser } := by
  unfold HandshakeResponse.encodePayload at h
  simp only [stored_append, List.length_append, List.length_singleton, Vector.length_toList,
    List.length_replicate, length_bytes16, length_bytes32, Nat.sub_add_cancel hbuf, Nat.add_assoc,
    Nat.reduceAdd] at h
  obtain ⟨-, ⟨htext, -⟩, hconnection, hpart1, -, hlower, hset, hstatus, hupper, -, hpart2⟩ := h
  simp only [decodeFields, value_bind, value_pure, value_load, Nat.add_sub_cancel_left, htext.loadAll,
    Nat.add_assoc, Nat.reduceAdd, uint4korr_value hconnection, memcpyFrom_value hpart1,
    uint2korr_value hlower, hset.1, uint2korr_value hstatus, uint2korr_value hupper,
    memcpyFrom_value hpart2, halves32, hversion]

/-- A greeting is 45 bytes longer than the version of the server. -/
theorem length_encodePayload (r : HandshakeResponse) :
    r.encodePayload.length = r.serverVersion.length + 45 := by
  simp only [HandshakeResponse.encodePayload, List.length_append, List.length_singleton,
    length_bytes16, length_bytes32, Vector.length_toList, List.length_replicate]
  omega

/-- A packet that reports no error. -/
theorem decodePacket_greeting {b : Reply} (fuel : Nat) (before : HandshakeResponse) (hlen : b.len ≠ 0)
    (hversion : b.mem b.base ≠ 255) :
    decodePacket fuel b before =
      some ⟨(decodeGreeting b { before with protocolVersion := b.mem b.base }).value,
        b.base :: (decodeGreeting b { before with protocolVersion := b.mem b.base }).reads⟩ := by
  simp only [decodePacket, if_neg hlen, if_neg hversion]

/-- A greeting is read back. -/
theorem HandshakeResponse.roundTrips {r : HandshakeResponse} (hversion : r.protocolVersion ≠ 255)
    (hnul : 0 ∉ r.serverVersion) : r.RoundTrips := by
  intro b before hlen hstored
  rw [length_encodePayload] at hlen
  have hend : b.bufEnd = b.base + (r.serverVersion.length + 45) := by rw [Reply.bufEnd, hlen]
  have hfirst : b.mem b.base = r.protocolVersion := hstored.1
  have htext : Stored b.mem (b.base + 1) (r.serverVersion ++ [0]) :=
    (stored_append.mp (stored_append.mp hstored).2).1
  have hpos := skipText_value (b.bufEnd - (b.base + 1)) hnul (by omega) htext
  have hfields := decodeFields_value r { before with protocolVersion := r.protocolVersion } rfl
    (show Stored b.mem (b.base + 1 - 1) r.encodePayload from hstored) (Nat.le_add_left 1 b.base)
  have hgreeting : (decodeGreeting b { before with protocolVersion := r.protocolVersion }).value =
      (1, { r with disallowed := before.disallowed, parser := before.parser }) := by
    simp only [decodeGreeting, value_bind, hpos]
    rw [if_neg (by omega)]
    simp only [value_bind, value_pure, hfields]
  refine ⟨0, _, decodePacket_greeting 0 before (by omega) (by rwa [hfirst]), ?_⟩
  rw [hfirst]
  exact hgreeting

/-! ### Where it reads -/

section Bounds

variable {b : Reply} {stop : Nat}

/-- A text is looked for up to the end of the buffer only. -/
theorem skipText_within {left pos : Nat} (h : pos + left ≤ stop) :
    Within (· < stop) (skipText b left pos) := by
  induction left generalizing pos with
  | zero => exact within_pure pos
  | succ left ih =>
      rw [skipText, within_bind, within_load]
      refine ⟨by omega, ?_⟩
      split
      · exact within_pure pos
      · exact ih (by omega)

/-- Where the text ends. -/
theorem skipText_spec (left pos : Nat) :
    let next := (skipText b left pos).value
    pos ≤ next ∧ next ≤ pos + left ∧ (∀ q, pos ≤ q → q < next → b.mem q ≠ 0) ∧
      (next < pos + left → b.mem next = 0) := by
  induction left generalizing pos with
  | zero =>
      refine ⟨le_refl _, le_refl _, fun q hle hlt => ?_, fun h => absurd h (lt_irrefl _)⟩
      exact absurd hlt (not_lt.mpr hle)
  | succ left ih =>
      by_cases hzero : b.mem pos = 0
      · rw [skipText_nul hzero]
        exact ⟨le_refl _, Nat.le_add_right _ _, fun q hle hlt => absurd hlt (not_lt.mpr hle),
          fun _ => hzero⟩
      · rw [skipText_succ hzero]
        obtain ⟨hle, hend, hbefore, hstop⟩ := ih (pos + 1)
        refine ⟨by omega, by omega, fun q hq hlt => ?_, fun h => hstop (by omega)⟩
        by_cases heq : q = pos
        · rwa [heq]
        · exact hbefore q (by omega) hlt

/-- The two bytes lie inside. -/
theorem within_uint2korr {p : Nat} : Within (· < stop) (uint2korr b p) ↔ p + 1 < stop := by
  simp only [uint2korr, within_bind, within_load, within_pure, and_true]
  omega

/-- The four bytes lie inside. -/
theorem within_uint4korr {p : Nat} : Within (· < stop) (uint4korr b p) ↔ p + 3 < stop := by
  simp only [uint4korr, within_bind, within_uint2korr, within_pure, and_true]
  omega

/-- The text lies inside, if there is any. -/
theorem within_memcpyFrom {n p : Nat} :
    Within (· < stop) (memcpyFrom b n p) ↔ n = 0 ∨ p + n ≤ stop := by
  have hall : Within (· < stop) (memcpyFrom b n p) ↔ ∀ q, p ≤ q → q < p + n → q < stop :=
    within_loadAll
  rw [hall]
  constructor
  · intro h
    by_cases hzero : n = 0
    · exact Or.inl hzero
    · have hlast := h (p + n - 1) (by omega) (by omega)
      omega
  · intro h q hle hlt
    omega

/-- The last byte read lies 43 bytes behind the end of the text. -/
theorem decodeFields_within {r : HandshakeResponse} {buf pos : Nat} :
    Within (· < stop) (decodeFields b r buf pos) ↔ pos + 44 ≤ stop := by
  have htext : Within (· < stop) (loadAll b.mem (pos - buf) buf) ↔
      ∀ q, buf ≤ q → q < buf + (pos - buf) → q < stop := within_loadAll
  simp only [decodeFields, within_bind, within_uint4korr, within_uint2korr, within_memcpyFrom,
    within_load, within_pure, and_true, htext]
  constructor
  · intro h
    omega
  · intro h
    refine ⟨fun q hle hlt => by omega, ?_⟩
    omega

/-- The greeting: 43 bytes from the end of the text on are taken to be enough. -/
theorem decodeGreeting_within {r : HandshakeResponse} (hlen : b.len ≠ 0) :
    Within (· < b.bufEnd) (decodeGreeting b r) ↔
      (skipText b (b.bufEnd - (b.base + 1)) (b.base + 1)).value + 43 ≠ b.bufEnd := by
  have hstart : b.base + 1 ≤ b.bufEnd := by
    unfold Reply.bufEnd
    omega
  have hskip : Within (· < b.bufEnd) (skipText b (b.bufEnd - (b.base + 1)) (b.base + 1)) :=
    skipText_within (by omega)
  rw [decodeGreeting, within_bind]
  generalize (skipText b (b.bufEnd - (b.base + 1)) (b.base + 1)).value = pos
  by_cases hshort : pos ≥ b.bufEnd ∨ b.bufEnd - pos < 43
  · rw [if_pos hshort]
    constructor
    · intro _
      omega
    · exact fun _ => ⟨hskip, within_pure _⟩
  · rw [if_neg hshort]
    simp only [within_bind, decodeFields_within, within_pure, and_true]
    constructor
    · rintro ⟨-, hend⟩
      omega
    · intro hne
      exact ⟨hskip, by omega⟩

end Bounds

/-! ### The error packet -/

/-- The readings of the parser's functions give what the functions give. -/
theorem parseBasePacketReading_value (b : Reply) (p : MysqlParser) :
    (parseBasePacketReading b p).value = parseBasePacket b p :=
  rfl

/-- The bytes are read as the parser of replies reads them. -/
theorem uint2korr_korr (b : Reply) (p : Nat) : (uint2korr b p).value.toNat = b.korr 2 p := by
  have hlow := (b.mem p).toNat_lt
  have hhigh := (b.mem (p + 1)).toNat_lt
  simp only [uint2korr, value_bind, value_load, value_pure, Reply.korr]
  simp [UInt16.toNat_add, UInt16.toNat_shiftLeft, Nat.shiftLeft_eq]
  omega

/-- An error packet is parsed as by the parser that notes nothing. -/
theorem parseErrorPacketReading_value (b : Reply) (p : MysqlParser) :
    (parseErrorPacketReading b p).value = parseErrorPacket b p := by
  unfold parseErrorPacketReading parseErrorPacket
  by_cases hend : addSize (p.pos b) 9 > b.bufEnd
  · simp only [if_pos hend, value_pure]
  · simp only [if_neg hend]
    by_cases hmark : b.mem (p.pos b + 3) = 35
    · simp [value_bind, uint2korr_korr, hmark]
    · simp [value_bind, uint2korr_korr, hmark]

/-- So is any packet. -/
theorem callParseReading_value {b : Reply} {p : MysqlParser} {m : Reading (Int × MysqlParser)}
    (h : callParseReading b p = some m) : m.value = callParse b p := by
  unfold callParseReading at h
  unfold callParse
  split at h
  · rename_i hbase
    rw [hbase, ← Option.some.inj h, parseBasePacketReading_value]
  · rename_i herror
    rw [herror, ← Option.some.inj h, parseErrorPacketReading_value]
  · cases h

/-- Where the reading follows the parser, it gives what the parser gives. -/
theorem mysqlParserParseReading_value {b : Reply} {fuel : Nat} {p : MysqlParser}
    {m : Reading (Int × MysqlParser)} (h : mysqlParserParseReading b fuel p = some m) :
    mysqlParserParse fuel b p = some m.value := by
  induction fuel generalizing p m with
  | zero => cases h
  | succ fuel ih =>
      simp only [mysqlParserParseReading, Option.bind_eq_bind, Option.bind_eq_some_iff] at h
      obtain ⟨call, hcall, h⟩ := h
      have hstep : parseStep b p =
          if call.value.1 < 0 then .done call.value
          else if call.value.1 > 0 ∧ call.value.2.offset ≠ b.len then .done (-2, call.value.2)
          else if call.value.2.offset < b.len then .next call.value.2
          else .done call.value := by
        rw [parseStep, ← callParseReading_value hcall]
      rw [mysqlParserParse]
      split_ifs at h hstep with hneg hshort hless
      · rw [loop_done hstep, Option.some.inj h]
      · rw [loop_done hstep, ← Option.some.inj h]
      · obtain ⟨rest, hrest, hm⟩ := Option.bind_eq_some_iff.mp h
        have htail := ih hrest
        rw [loop_next hstep, ← Option.some.inj hm]
        exact htail
      · rw [loop_done hstep, Option.some.inj h]

/-- The parser as `mysql_parser_init` leaves it. -/
def HandshakeResponse.Fresh (r : HandshakeResponse) : Prop :=
  r.parser.parse = .basePacket ∧ r.parser.offset = 0

/-- The last call of the loop. -/
theorem mysqlParserParseReading_done {b : Reply} {p : MysqlParser} {m : Reading (Int × MysqlParser)}
    (hcall : callParseReading b p = some m) (hdone : m.value.1 < 0 ∨ m.value.2.offset = b.len)
    (fuel : Nat) : mysqlParserParseReading b (fuel + 1) p = some m := by
  rw [mysqlParserParseReading, hcall]
  show (if m.value.1 < 0 then some m
    else if m.value.1 > 0 ∧ m.value.2.offset ≠ b.len then some ⟨(-2, m.value.2), m.reads⟩
    else if m.value.2.offset < b.len then _ else some m) = some m
  rcases hdone with hneg | heq
  · rw [if_pos hneg]
  · rw [if_neg (fun h : m.value.1 > 0 ∧ m.value.2.offset ≠ b.len => h.2 heq),
      if_neg (not_lt.mpr heq.ge), ite_self]

/-- A call before others. -/
theorem mysqlParserParseReading_next {b : Reply} {p : MysqlParser}
    {m rest : Reading (Int × MysqlParser)} {fuel : Nat} (hcall : callParseReading b p = some m)
    (hret : m.value.1 = 0) (hless : m.value.2.offset < b.len)
    (hrest : mysqlParserParseReading b fuel m.value.2 = some rest) :
    mysqlParserParseReading b (fuel + 1) p = some ⟨rest.value, m.reads ++ rest.reads⟩ := by
  rw [mysqlParserParseReading, hcall]
  show (if m.value.1 < 0 then some m
    else if m.value.1 > 0 ∧ m.value.2.offset ≠ b.len then some ⟨(-2, m.value.2), m.reads⟩
    else if m.value.2.offset < b.len then
      (mysqlParserParseReading b fuel m.value.2).bind fun rest =>
        some ⟨rest.value, m.reads ++ rest.reads⟩
    else some m) = _
  rw [if_neg (by omega), if_neg (by omega), if_pos hless, hrest]
  rfl

/-- `parse_error_packet` at the start of the buffer. -/
theorem parseErrorPacketReading_start {b : Reply} {p : MysqlParser} (hpos : p.pos b = b.base) :
    Within (· < b.bufEnd) (parseErrorPacketReading b p) ∧
      ((parseErrorPacketReading b p).value.1 < 0 ∨
        (parseErrorPacketReading b p).value.2.offset = b.len) := by
  have huser := b.user
  have hnine : addSize b.base 9 = b.base + 9 := Nat.mod_eq_of_lt (by omega)
  unfold parseErrorPacketReading
  simp only [hpos, hnine]
  by_cases hend : b.base + 9 > b.bufEnd
  · rw [if_pos hend]
    exact ⟨within_pure _, Or.inl (show (-2 : Int) < 0 by decide)⟩
  · rw [if_neg hend]
    simp only [within_bind, within_uint2korr, within_load, value_bind]
    split
    · exact ⟨⟨by omega, by omega, within_pure _⟩, Or.inr rfl⟩
    · exact ⟨⟨by omega, by omega, within_pure _⟩, Or.inr rfl⟩

/-- An error packet is read in two calls, both inside the packet. -/
theorem mysqlParserParseReading_error {b : Reply} {p : MysqlParser} (hparse : p.parse = .basePacket)
    (hoffset : p.offset = 0) (hlen : b.len ≠ 0) (hheader : b.mem b.base = 255) (fuel : Nat) :
    ∃ m, mysqlParserParseReading b (fuel + 2) p = some m ∧ Within (· < b.bufEnd) m := by
  have huser := b.user
  have hpos : ∀ q : MysqlParser, q.offset = 0 → q.pos b = b.base := by
    intro q hq
    rw [MysqlParser.pos, hq, addSize, Nat.add_zero, Nat.mod_eq_of_lt (by omega)]
  have hbase : callParseReading b p = some (parseBasePacketReading b p) := by
    rw [callParseReading, hparse]
  have hvalue : (parseBasePacketReading b p).value = (0, { p with parse := .errorPacket }) := by
    rw [parseBasePacketReading_value, parseBasePacket, hpos p hoffset, hheader]
    rfl
  obtain ⟨hwithin, hdone⟩ := parseErrorPacketReading_start
    (hpos { p with parse := .errorPacket } hoffset)
  have herror := mysqlParserParseReading_done (b := b) (p := { p with parse := .errorPacket }) rfl
    hdone fuel
  refine ⟨_, mysqlParserParseReading_next hbase (by rw [hvalue]) ?_ (by rw [hvalue]; exact herror), ?_⟩
  · rw [hvalue]
    show p.offset < b.len
    omega
  · refine List.forall_mem_append.mpr ⟨?_, hwithin⟩
    have hfirst : Within (· < b.bufEnd) (parseBasePacketReading b p) := by
      simp only [parseBasePacketReading, within_bind, within_load, within_pure, and_true,
        hpos p hoffset, Reply.bufEnd]
      omega
    exact hfirst

/-! ### The greeting as a whole -/

/-- One byte is missing: from the NUL behind the server version on there are 43 bytes. -/
def ShortByOne (b : Reply) : Prop :=
  b.len ≠ 0 ∧ b.mem b.base ≠ 255 ∧ ∃ pos, b.base < pos ∧ pos + 43 = b.bufEnd ∧ b.mem pos = 0 ∧
    ∀ q, b.base < q → q < pos → b.mem q ≠ 0

/-- `decode_packet` returns and has read no byte at or behind the end of the buffer. -/
def ReadsInside (b : Reply) (r : HandshakeResponse) : Prop :=
  ∃ fuel m, decodePacket fuel b r = some m ∧ Within (· < b.bufEnd) m

/-- An error in place of a greeting is read inside the buffer. -/
theorem decodeError_inside {b : Reply} {r : HandshakeResponse} (hfresh : r.Fresh) (hlen : b.len ≠ 0)
    (hversion : b.mem b.base = 255) :
    ∃ m, decodeError 2 b r = some m ∧ Within (· < b.bufEnd) m := by
  unfold decodeError
  by_cases hfour : b.len ≥ 4
  · have hheader : (b.put (b.base + 3) 35).mem (b.put (b.base + 3) 35).base = 255 := by
      rw [← hversion]
      have hne : b.base ≠ b.base + 3 := by omega
      exact Function.update_of_ne hne _ _
    obtain ⟨m, hm, hwithin⟩ := mysqlParserParseReading_error (b := b.put (b.base + 3) 35) hfresh.1
      hfresh.2 hlen hheader 0
    rw [if_pos hfour, hm]
    by_cases hret : m.value.1 = 1
    · exact ⟨_, if_pos hret, hwithin⟩
    · exact ⟨_, if_neg hret, hwithin⟩
  · rw [if_neg hfour]
    exact ⟨_, rfl, within_pure _⟩

/-- In terms of where the text ends. -/
theorem shortByOne_iff {b : Reply} (hlen : b.len ≠ 0) (hversion : b.mem b.base ≠ 255) :
    ShortByOne b ↔ (skipText b (b.bufEnd - (b.base + 1)) (b.base + 1)).value + 43 = b.bufEnd := by
  have hstart : b.base + 1 ≤ b.bufEnd := by
    unfold Reply.bufEnd
    omega
  obtain ⟨hle, hend, hbefore, hstop⟩ := skipText_spec (b := b) (b.bufEnd - (b.base + 1)) (b.base + 1)
  generalize (skipText b (b.bufEnd - (b.base + 1)) (b.base + 1)).value = next at *
  constructor
  · rintro ⟨-, -, pos, hpos, hshort, hnul, hfirst⟩
    -- both are the first NUL
    rcases lt_trichotomy next pos with hlt | heq | hgt
    · exact absurd (hstop (by omega)) (hfirst next (by omega) hlt)
    · rw [heq, hshort]
    · exact absurd hnul (hbefore pos (by omega) hgt)
  · intro hshort
    exact ⟨hlen, hversion, next, by omega, hshort, hstop (by omega),
      fun q hq hlt => hbefore q (by omega) hlt⟩

/-- The test of the length fails to keep the reading inside for one length only. -/
theorem readsInside_iff {b : Reply} {r : HandshakeResponse} (hfresh : r.Fresh) :
    ReadsInside b r ↔ ¬ ShortByOne b := by
  by_cases hlen : b.len = 0
  · have hnone : decodePacket 0 b r = some (pure (-2, r)) := by rw [decodePacket, if_pos hlen]
    exact ⟨fun _ h => h.1 hlen, fun _ => ⟨0, _, hnone, within_pure _⟩⟩
  have hfirst : b.base < b.bufEnd := by
    unfold Reply.bufEnd
    omega
  by_cases hversion : b.mem b.base = 255
  · obtain ⟨m, hm, hwithin⟩ := decodeError_inside (r := { r with protocolVersion := b.mem b.base })
      hfresh hlen hversion
    refine ⟨fun _ h => h.2.1 hversion, fun _ => ⟨2, ⟨m.value, b.base :: m.reads⟩, ?_, ?_⟩⟩
    · simp only [decodePacket, if_neg hlen, if_pos hversion, hm, Option.map_some]
    · exact List.forall_mem_cons.mpr ⟨hfirst, hwithin⟩
  · rw [shortByOne_iff hlen hversion]
    have hgreeting := decodeGreeting_within (b := b)
      (r := { r with protocolVersion := b.mem b.base }) hlen
    constructor
    · rintro ⟨fuel, m, hm, hwithin⟩
      rw [decodePacket_greeting fuel r hlen hversion] at hm
      rw [← Option.some.inj hm] at hwithin
      exact hgreeting.mp (List.forall_mem_cons.mp hwithin).2
    · intro hne
      exact ⟨0, _, decodePacket_greeting 0 r hlen hversion,
        List.forall_mem_cons.mpr ⟨hfirst, hgreeting.mpr hne⟩⟩

/-- Every greeting comes back, and a packet is read inside its bounds unless just its last byte is
missing. -/
theorem handshakePacket_iff (sent : HandshakeResponse) (hversion : sent.protocolVersion ≠ 255)
    (hname : 0 ∉ sent.serverVersion) (b : Reply) (r : HandshakeResponse) (hfresh : r.Fresh) :
    sent.RoundTrips ∧ (ReadsInside b r ↔ ¬ ShortByOne b) :=
  ⟨HandshakeResponse.roundTrips hversion hname, readsInside_iff hfresh⟩

/-- A greeting of an old server. -/
def sampleGreeting : HandshakeResponse where
  protocolVersion := 10
  serverVersion := ascii "5.7.1"
  connectionId := 0x01020304
  authPluginDataPart1 := Vector.replicate 8 33
  capabilityFlags := 0x80ff0001
  characterSet := 33
  statusFlags := 2
  authPluginDataPart2 := Vector.replicate 12 35
  disallowed := false
  parser := mysqlParserInit default

/-- A packet of `len` bytes: the version, and from then on zeros. -/
def zeros (len : Nat) (h : len < 2 ^ 32) : Reply where
  base := 0
  len := len
  mem := fun p => if p = 0 then 10 else 0
  user := by omega

theorem shortByOne_zeros : ShortByOne (zeros 44 (by decide)) := by
  refine ⟨by decide, by decide, 1, by decide, by decide, by decide, fun q hq hlt => ?_⟩
  simp only [zeros] at hq
  omega

theorem handshakePacket_sample :
    sampleGreeting.RoundTrips ∧
      (ReadsInside (zeros 45 (by decide)) sampleGreeting ↔ ¬ ShortByOne (zeros 45 (by decide))) :=
  handshakePacket_iff sampleGreeting (by decide) (by decide) _ sampleGreeting ⟨rfl, rfl⟩

/-- 44 bytes with an empty server version: the byte behind them is read. -/
theorem handshakePacket_beyond :
    ¬ ((∀ r : HandshakeResponse, r.protocolVersion ≠ 255 → 0 ∉ r.serverVersion → r.RoundTrips) ∧
      ∀ (b : Reply) (r : HandshakeResponse), r.Fresh → ReadsInside b r) := by
  rintro ⟨-, hinside⟩
  have hread := hinside (zeros 44 (by decide)) sampleGreeting ⟨rfl, rfl⟩
  exact (readsInside_iff ⟨rfl, rfl⟩).mp hread shortByOne_zeros

end Workflow.Mysql
