/-
Module: Workflow.Proofs.DnsRoundTrip
Layer: Proofs
Purpose: A question that `DnsMessage::encode` writes is the question that `dns_parser.c` reads, from
  one datagram and from a stream that is cut anywhere. The name is followed through the loop of the
  encoder over the dotted text and the loop of the parser over the labels.
Trusted boundary: none
Main exports: dotted, ValidName, encodeLabels_dotted, hostLoop_labels, parseAll_question,
  question_round_trip
-/
import Workflow.Proofs.DnsBuffer
import Workflow.Proofs.DnsTermination
import Mathlib.Data.List.TakeWhile

namespace Workflow.Dns

open Workflow.Lib

/-! ### Names -/

/-- A name as text; the name without labels is the root. -/
def dotted : List (List Byte) → List Byte
  | [] => ascii "."
  | [l] => l
  | l :: labels => l ++ 46 :: dotted labels

/-- A label with its length, as it stands in a message. -/
def labelBytes (l : List Byte) : List Byte :=
  UInt8.ofNat l.length :: l

structure ValidLabel (l : List Byte) : Prop where
  ne_nil : l ≠ []
  length_le : l.length ≤ 63
  no_dot : 46 ∉ l
  no_nul : 0 ∉ l

/-- The room that the labels take in the parser's buffer, each with a dot. -/
def nameRoom (labels : List (List Byte)) : Nat :=
  (labels.map fun l => l.length + 1).sum

structure ValidName (labels : List (List Byte)) : Prop where
  label : ∀ l ∈ labels, ValidLabel l
  room : nameRoom labels ≤ 256

/-- One round of the loop of the encoder. -/
theorem encodeLabels_label {l rest : List Byte} (hl : ValidLabel l)
    (hrest : rest.takeWhile (· ≠ 46) = []) :
    encodeLabels (l ++ rest) = (encodeLabels rest.tail).map (labelBytes l ++ ·) := by
  have hpos : 0 < l.length := List.length_pos_of_ne_nil hl.ne_nil
  have hall : ∀ x ∈ l, decide (x ≠ 46) = true := by
    intro x hx
    simp only [decide_eq_true_eq]
    rintro rfl
    exact hl.no_dot hx
  have hname : (l ++ rest).takeWhile (· ≠ 46) = l := by
    rw [List.takeWhile_append_of_pos hall, hrest, List.append_nil]
  have hdrop : rest.dropWhile (· ≠ 46) = rest := by
    have hsplit := List.takeWhile_append_dropWhile (p := fun x : Byte => decide (x ≠ 46)) (l := rest)
    rwa [hrest, List.nil_append] at hsplit
  have hleft : (l ++ rest).dropWhile (· ≠ 46) = rest := by
    rw [List.dropWhile_append_of_pos hall, hdrop]
  have hne : l ++ rest ≠ [] := by simp [hl.ne_nil]
  have hmax : dnsLabelsMax = 63 := rfl
  have hlen := hl.length_le
  rw [encodeLabels, if_neg hne]
  simp only [hname, hleft]
  rw [if_neg (by omega), if_pos hpos]
  rfl

theorem encodeLabels_nil : encodeLabels [] = some [] := by
  rw [encodeLabels, if_pos rfl]

/-- The encoder writes the labels of the name. -/
theorem encodeLabels_dotted (labels : List (List Byte)) (h : ∀ l ∈ labels, ValidLabel l) :
    encodeLabels (dotted labels) = some (labels.flatMap labelBytes) := by
  fun_induction dotted labels with
  | case1 =>
      rw [encodeLabels]
      simp [ascii, encodeLabels_nil]
  | case2 l =>
      have hl : ValidLabel l := h l (List.mem_singleton_self l)
      have hround : encodeLabels (l ++ []) = _ := encodeLabels_label hl rfl
      rw [List.append_nil] at hround
      rw [hround, List.tail_nil, encodeLabels_nil]
      simp
  | case3 l labels hne ih =>
      have hl : ValidLabel l := h l List.mem_cons_self
      rw [encodeLabels_label hl (by simp), List.tail_cons,
        ih fun l' hl' => h l' (List.mem_cons_of_mem l hl')]
      simp

/-- What the loop of the parser leaves in its buffer. -/
def hostBytes (labels : List (List Byte)) : List Byte :=
  labels.flatMap (· ++ ascii ".")

theorem length_wireName (labels : List (List Byte)) :
    (labels.flatMap labelBytes).length = nameRoom labels := by
  induction labels with
  | nil => rfl
  | cons l labels ih =>
      simp only [nameRoom, List.flatMap_cons, List.length_append, List.map_cons, List.sum_cons,
        labelBytes, List.length_cons] at ih ⊢
      rw [ih]

/-- Apart from the root, the buffer holds the text of the name and a dot. -/
theorem hostBytes_eq_dotted {labels : List (List Byte)} (h : labels ≠ []) :
    hostBytes labels = dotted labels ++ ascii "." := by
  fun_induction dotted labels with
  | case1 => exact absurd rfl h
  | case2 l => simp [hostBytes]
  | case3 l labels hne ih =>
      have hsome : labels ≠ [] := fun hnil => hne hnil
      have hrest := ih hsome
      simp only [hostBytes, List.flatMap_cons] at hrest ⊢
      rw [hrest]
      simp [ascii]

theorem zero_not_mem_dotted {labels : List (List Byte)} (h : ∀ l ∈ labels, ValidLabel l) :
    0 ∉ dotted labels := by
  fun_induction dotted labels with
  | case1 => decide
  | case2 l => exact (h l (List.mem_singleton_self l)).no_nul
  | case3 l labels hne ih =>
      have hl := (h l List.mem_cons_self).no_nul
      have hrest := ih fun l' hl' => h l' (List.mem_cons_of_mem l hl')
      simp [hl, hrest]

theorem dotted_ne_nil {labels : List (List Byte)} (h : ∀ l ∈ labels, ValidLabel l) :
    dotted labels ≠ [] := by
  fun_induction dotted labels with
  | case1 => decide
  | case2 l => exact (h l (List.mem_singleton_self l)).ne_nil
  | case3 l labels hne ih => simp

/-- The parser presents the name as it was. -/
theorem hostName_hostBytes {labels : List (List Byte)} (h : ∀ l ∈ labels, ValidLabel l) :
    hostName (hostBytes labels) = dotted labels := by
  have hnul : ∀ x ∈ dotted labels, decide (x ≠ 0) = true := by
    intro x hx
    simp only [decide_eq_true_eq]
    rintro rfl
    exact zero_not_mem_dotted h hx
  by_cases hnil : labels = []
  · subst hnil
    rfl
  · have hne := dotted_ne_nil h
    have hpos : 0 < (dotted labels).length := List.length_pos_of_ne_nil hne
    have hlong : (hostBytes labels).length > 1 ∧ (hostBytes labels).getLast? = some 46 := by
      rw [hostBytes_eq_dotted hnil]
      simp only [ascii, List.length_append]
      exact ⟨by simp; omega, by simp⟩
    have hlast : (hostBytes labels).dropLast = dotted labels := by
      rw [hostBytes_eq_dotted hnil]
      exact List.dropLast_concat
    unfold hostName
    simp only [if_pos hlong, hlast, if_neg hne]
    exact List.takeWhile_eq_self_iff.mpr hnul

/-! ### The parser on a question -/

theorem ofNat_and_eq_zero {n : Nat} (h : n < 64) : UInt8.ofNat n &&& 0xC0 = 0 := by
  have hall : ∀ m : Fin 64, UInt8.ofNat m.val &&& 0xC0 = 0 := by decide +kernel
  exact hall ⟨n, h⟩

/-- One label in the loop of the parser. -/
theorem hostStep_label {m : DnsMessage} {s : HostState} {l : List Byte} (hl : ValidLabel l)
    (hmem : HoldsAt m s.cur (labelBytes l)) (hend : s.cur + (l.length + 1) < m.msgend)
    (hroom : s.host.length + (l.length + 1) ≤ 256) :
    hostStep m s = .next { s with
      cur := s.cur + (l.length + 1)
      host := s.host ++ (l ++ ascii ".") } := by
  obtain ⟨hhead, hbytes⟩ := holdsAt_cons.mp hmem
  have hlen := hl.length_le
  have hpos : 0 < l.length := List.length_pos_of_ne_nil hl.ne_nil
  have hlabel : m.msgbuf s.cur &&& 0xC0 = 0 := by
    rw [hhead]
    exact ofNat_and_eq_zero (by omega)
  have hvalue : (m.msgbuf s.cur).toNat = l.length := by
    rw [hhead, UInt8.toNat_ofNat']
    omega
  have hmax : dnsLabelsMax = 63 := rfl
  have hnames : dnsNamesMax = 256 := rfl
  unfold hostStep
  rw [if_pos (by omega)]
  simp only [hlabel, if_true, hvalue]
  rw [if_neg (by omega), if_neg (by omega), hbytes, Nat.add_assoc, Nat.add_comm 1,
    List.append_assoc]

/-- The zero at the end of the labels. -/
theorem hostStep_zero {m : DnsMessage} {s : HostState} (hmem : m.msgbuf s.cur = 0)
    (hend : s.cur < m.msgend) : hostStep m s = .done (0, { s with cur := s.cur + 1 }) := by
  unfold hostStep
  rw [if_pos hend]
  simp [hmem]

/-- The loop of the parser reads the labels up to the zero. -/
theorem hostLoop_labels {m : DnsMessage} (labels : List (List Byte)) (s : HostState)
    (hlabels : ∀ l ∈ labels, ValidLabel l)
    (hmem : HoldsAt m s.cur (labels.flatMap labelBytes ++ [0]))
    (hend : s.cur + nameRoom labels < m.msgend) (hroom : s.host.length + nameRoom labels ≤ 256) :
    loop (hostStep m) (labels.length + 1) s =
      some (0, { s with
        cur := s.cur + nameRoom labels + 1
        host := s.host ++ hostBytes labels }) := by
  induction labels generalizing s with
  | nil =>
      have hzero : m.msgbuf s.cur = 0 := (holdsAt_cons.mp hmem).1
      have hin : s.cur < m.msgend := by omega
      rw [loop_done (hostStep_zero hzero hin)]
      simp [nameRoom, hostBytes]
  | cons l labels ih =>
      have hl := hlabels l List.mem_cons_self
      have hcount : nameRoom (l :: labels) = l.length + 1 + nameRoom labels := by
        simp [nameRoom]
      rw [List.flatMap_cons, List.append_assoc, holdsAt_append] at hmem
      rw [hcount] at hend hroom
      have hnext := hostStep_label hl hmem.1 (by omega) (by omega)
      rw [List.length_cons, loop_next hnext,
        ih _ (fun l' hl' => hlabels l' (List.mem_cons_of_mem l hl')) hmem.2 (by simp; omega)
          (by simp [ascii]; omega)]
      simp only [hcount, hostBytes, List.flatMap_cons, List.append_assoc, ← Nat.add_assoc]

theorem parseHost_labels {labels : List (List Byte)} (hname : ValidName labels) {p : DnsParser}
    (hmem : HoldsAt p.toDnsMessage p.cur (labels.flatMap labelBytes ++ [0]))
    (hend : p.cur + nameRoom labels < p.msgend) {fuel : Nat} (hfuel : labels.length + 1 ≤ fuel) :
    (parseHost fuel).run.run p =
      some (.ok (dotted labels), { p with cur := p.cur + nameRoom labels + 1 }) := by
  have hloop := hostLoop_labels labels (hostStart p.cur) hname.label hmem hend
    (by simpa [hostStart] using hname.room)
  rw [parseHost_run, if_neg (by omega), loop_mono hfuel hloop]
  simp [hostStart, hostName_hostBytes hname.label]

/-- The content of a message with one question and nothing else. -/
structure Question where
  id : UInt16
  flags : Byte × Byte
  labels : List (List Byte)
  qtype : UInt16
  qclass : UInt16
  valid : ValidName labels

namespace Question

def header (q : Question) : DnsHeader where
  id := q.id.toNat
  flags := [q.flags.1, q.flags.2]
  qdcount := 1
  ancount := 0
  nscount := 0
  arcount := 0

def question (q : Question) : DnsQuestion where
  qname := some (dotted q.labels)
  qtype := q.qtype.toNat
  qclass := q.qclass.toNat

/-- The bytes of the message. -/
def bytes (q : Question) : List Byte :=
  headerBytes q.header ++ (q.labels.flatMap labelBytes ++ [0] ++
    (appendUint16 q.qtype.toNat ++ appendUint16 q.qclass.toNat))

theorem length_headerBytes (q : Question) : (headerBytes q.header).length = dnsHeaderSize :=
  rfl

theorem length_bytes (q : Question) :
    q.bytes.length = dnsHeaderSize + (nameRoom q.labels + 1 + 4) := by
  rw [bytes, List.length_append, length_headerBytes, List.length_append, List.length_append,
    length_wireName]
  rfl

theorem length_bytes_lt (q : Question) : q.bytes.length < 2 ^ 16 := by
  have hroom := q.valid.room
  have hsize : dnsHeaderSize = 12 := rfl
  rw [length_bytes]
  omega

end Question

theorem encodeReply_question {p : DnsParser} {q : Question} (hid : p.header.id = q.id.toNat)
    (hflags : p.header.flags = [q.flags.1, q.flags.2]) (hquestion : p.question = q.question) :
    encodeReply p = some q.bytes := by
  have hlabels := encodeLabels_dotted q.labels q.valid.label
  have hheader : headerBytes p.header = headerBytes q.header := by
    simp only [headerBytes, hid, hflags, Question.header]
  have hlen := q.length_bytes_lt
  have hname : q.question.qname.getD (ascii ".") = dotted q.labels := rfl
  have hbytes : headerBytes q.header ++ q.labels.flatMap labelBytes ++ [0] ++
      appendUint16 q.question.qtype ++ appendUint16 q.question.qclass = q.bytes := by
    simp only [Question.bytes, Question.question, List.append_assoc]
  rw [encodeReply, hquestion, hname, hlabels]
  simp only [Option.bind_some, hheader, hbytes]
  rw [if_neg (by omega)]

theorem readHeader_question {m : DnsMessage} {q : Question}
    (hmem : HoldsAt m m.msgbase (headerBytes q.header)) : m.readHeader = q.header := by
  simp only [headerBytes, holdsAt_append] at hmem
  obtain ⟨⟨⟨⟨⟨hid, hflags⟩, hqd⟩, han⟩, hns⟩, har⟩ := hmem
  have hid : m.uint16 m.msgbase = q.header.id := uint16_of_holdsAt hid q.id.toNat_lt
  have hflags : m.bytes (m.msgbase + 2) 2 = q.header.flags := hflags
  have hqd : m.uint16 (m.msgbase + 4) = 1 := uint16_of_holdsAt hqd (by decide)
  have han : m.uint16 (m.msgbase + 6) = 0 := uint16_of_holdsAt han (by decide)
  have hns : m.uint16 (m.msgbase + 8) = 0 := uint16_of_holdsAt hns (by decide)
  have har : m.uint16 (m.msgbase + 10) = 0 := uint16_of_holdsAt har (by decide)
  rw [DnsMessage.readHeader, hid, hflags, hqd, han, hns, har]
  rfl

theorem parseQuestion_run {fuel : Nat} {p : DnsParser} {host : List Byte} {cur : Nat}
    (hcount : p.header.qdcount = 1)
    (hhost : (parseHost fuel).run.run p = some (.ok host, { p with cur := cur }))
    (hend : cur + 4 ≤ p.msgend) :
    (parseQuestion fuel).run.run p = some (.ok (), { p with
      cur := cur + 4
      question := { qname := some host, qtype := p.uint16 cur, qclass := p.uint16 (cur + 2) } }) := by
  unfold parseQuestion
  rw [run_get_bind]
  simp only
  rw [if_neg fun hne => hne hcount, run_bind_ok hhost, run_get_bind]
  simp only
  rw [if_neg (Nat.not_lt.mpr hend)]
  rfl

theorem parseRecord_run_zero {fuel : Nat} {p : DnsParser} {idx : Section}
    (hcount : idx.count p.header = 0) : (parseRecord fuel idx).run.run p = some (.ok (), p) := by
  unfold parseRecord
  rw [run_get_bind, hcount]
  rfl

/-- The parser after it has read a question. -/
def afterQuestion (q : Question) (p : DnsParser) : DnsParser :=
  { p with
    complete := true
    cur := p.msgbase + q.bytes.length
    header := q.header
    question := q.question }

theorem parseAll_question {p : DnsParser} {q : Question}
    (hmem : HoldsAt p.toDnsMessage p.msgbase q.bytes) (hsize : p.msgsize = p.msgbase + q.bytes.length)
    {fuel : Nat} (hfuel : q.labels.length + 1 ≤ fuel) :
    dnsParserParseAll fuel p = some (0, afterQuestion q p) := by
  have hlen := q.length_bytes
  have htwelve : dnsHeaderSize = 12 := rfl
  obtain ⟨hheader, hrest⟩ := holdsAt_append.mp hmem
  obtain ⟨hname, htypes⟩ := holdsAt_append.mp hrest
  obtain ⟨htype, hclass⟩ := holdsAt_append.mp htypes
  rw [q.length_headerBytes] at hname htype hclass
  have hread : p.readHeader = q.header := readHeader_question hheader
  have hcount : (afterHeader p).header.qdcount = 1 := by
    rw [afterHeader, hread]
    rfl
  have hhost := parseHost_labels q.valid (p := afterHeader p) hname
    (by simp only [afterHeader, DnsMessage.msgend]; omega) hfuel
  have hquestion := parseQuestion_run hcount hhost
    (by simp only [afterHeader, DnsMessage.msgend]; omega)
  simp only [List.length_append, length_wireName, List.length_singleton] at htype hclass
  have htype : p.uint16 (p.msgbase + dnsHeaderSize + nameRoom q.labels + 1) = q.qtype.toNat :=
    uint16_of_holdsAt htype q.qtype.toNat_lt
  have hclass : p.uint16 (p.msgbase + dnsHeaderSize + nameRoom q.labels + 1 + 2) =
      q.qclass.toNat :=
    uint16_of_holdsAt hclass q.qclass.toNat_lt
  have hafter : ({ afterHeader p with
      cur := (afterHeader p).cur + nameRoom q.labels + 1 + 4
      question := {
        qname := some (dotted q.labels)
        qtype := (afterHeader p).uint16 ((afterHeader p).cur + nameRoom q.labels + 1)
        qclass := (afterHeader p).uint16 ((afterHeader p).cur + nameRoom q.labels + 1 + 2) } } :
      DnsParser) = afterQuestion q p := by
    simp only [afterHeader, afterQuestion, Question.question, hread, hlen]
    congr 1
    · omega
    · rw [htype, hclass]
  rw [hafter] at hquestion
  have hrecord : ∀ idx, (parseRecord fuel idx).run.run (afterQuestion q p) =
      some (.ok (), afterQuestion q p) := by
    intro idx
    refine parseRecord_run_zero ?_
    cases idx <;> rfl
  have hall : (parseAllM fuel).run.run p = some (.ok (), afterQuestion q p) := by
    unfold parseAllM
    rw [run_modify_bind, run_get_bind]
    simp only
    rw [if_neg (by omega), run_modify_bind]
    change (parseQuestion fuel >>= _).run.run (afterHeader p) = _
    rw [run_bind_ok hquestion, run_bind_ok (hrecord .answer), run_bind_ok (hrecord .authority)]
    exact hrecord .additional
  rw [dnsParserParseAll, hall]
  rfl

/-! ### Receiving a question -/

/-- The parser has accepted the question. -/
structure Accepted (q : Question) (p : DnsParser) : Prop where
  complete : p.complete = true
  header : p.header = q.header
  question : p.question = q.question

/-- A question in one datagram. -/
theorem append_datagram (q : Question) (fresh : Nat → Byte) :
    ∃ fuel r, dnsParserAppendMessage fuel fresh q.bytes (dnsParserInit true) =
      some (1, q.bytes.length, r) ∧ Accepted q r := by
  obtain ⟨p, hp, hmem, hbase, hsize⟩ : ∃ p : DnsParser,
      receive fresh q.bytes (dnsParserInit true) = .ok (q.bytes.length, p) ∧
        HoldsAt p.toDnsMessage 0 q.bytes ∧ p.msgbase = 0 ∧ p.msgsize = q.bytes.length :=
    ⟨_, rfl, bytes_memcpy rfl, rfl, rfl⟩
  have hparse := parseAll_question (hbase ▸ hmem) (by omega) (Nat.le_refl (q.labels.length + 1))
  refine ⟨q.labels.length + 1, afterQuestion q p, ?_, rfl, rfl, rfl⟩
  rw [dnsParserAppendMessage, hp]
  simp only [hparse]
  rfl

/-- The bytes of a question on a stream. -/
def Question.stream (q : Question) : List Byte :=
  appendUint16 q.bytes.length ++ q.bytes

/-- The length in front of the message, when it has been received. -/
theorem stream_total {q : Question} {received rest : List Byte} {p : DnsParser}
    (h : Stored received p) (hcut : received ++ rest = q.stream) (htwo : 2 ≤ received.length) :
    p.uint16 0 = q.bytes.length := by
  refine uint16_of_holdsAt ?_ q.length_bytes_lt
  obtain ⟨more, hmore⟩ : appendUint16 q.bytes.length <+: received :=
    List.prefix_of_prefix_length_le ⟨_, rfl⟩ ⟨rest, hcut⟩ htwo
  have hholds := h.holds
  rw [← hmore] at hholds
  exact (holdsAt_append.mp hholds).1

theorem length_stream (q : Question) : q.stream.length = q.bytes.length + 2 := by
  rw [Question.stream, List.length_append, Nat.add_comm]
  rfl

/-- A call that does not complete the message stores the chunk. -/
theorem append_chunk {q : Question} {received chunk rest : List Byte} {p : DnsParser}
    (h : Stored received p) (hcut : received ++ chunk ++ rest = q.stream) (hrest : rest ≠ [])
    (fuel : Nat) (fresh : Nat → Byte) :
    ∃ r, dnsParserAppendMessage fuel fresh chunk p = some (0, chunk.length, r) ∧
      Stored (received ++ chunk) r := by
  have hstored := copyIn_stored h fresh chunk
  have hpos : 0 < rest.length := List.length_pos_of_ne_nil hrest
  have hlen := congrArg List.length hcut
  rw [List.length_append, length_stream] at hlen
  refine ⟨copyIn fresh chunk p, ?_, hstored⟩
  have hreceive : receive fresh chunk p = .error (0, chunk.length, copyIn fresh chunk p) := by
    unfold receive
    simp only [h.complete, h.stream, Bool.not_false, Bool.false_eq_true, if_false, if_true]
    rcases Nat.lt_or_ge (received ++ chunk).length 2 with hlt | hge
    · rw [if_pos (by rw [hstored.size]; exact hlt)]
    · have htotal := stream_total hstored hcut hge
      have hsize := hstored.size
      rw [if_neg (by omega), if_pos (by omega)]
  rw [dnsParserAppendMessage, hreceive]

/-- The call that completes the message parses it. -/
theorem append_last {q : Question} {received chunk : List Byte} {p : DnsParser}
    (h : Stored received p) (hcut : received ++ chunk = q.stream)
    {fuel : Nat} (hfuel : q.labels.length + 1 ≤ fuel) (fresh : Nat → Byte) :
    ∃ n r, dnsParserAppendMessage fuel fresh chunk p = some (1, n, r) ∧ Accepted q r := by
  have hstored := copyIn_stored h fresh chunk
  have hlen := congrArg List.length hcut
  rw [length_stream] at hlen
  have htotal := stream_total hstored (by rw [hcut, List.append_nil]) (by omega)
  have hsize := hstored.size
  obtain ⟨n, t, hreceive, hmem, hbase, htsize⟩ : ∃ n, ∃ t : DnsParser,
      receive fresh chunk p = .ok (n, t) ∧ HoldsAt t.toDnsMessage t.msgbase q.bytes ∧
        t.msgbase = 2 ∧ t.msgsize = q.bytes.length + 2 := by
    unfold receive
    simp only [h.complete, h.stream, Bool.not_false, Bool.false_eq_true, if_false, if_true]
    rw [if_neg (by omega), if_neg (by omega), htotal]
    refine ⟨_, _, rfl, ?_, rfl, rfl⟩
    have hholds := hstored.holds
    rw [hcut] at hholds
    exact (holdsAt_append.mp hholds).2
  have hparse := parseAll_question hmem (by omega) hfuel
  refine ⟨n, afterQuestion q t, ?_, rfl, rfl, rfl⟩
  rw [dnsParserAppendMessage, hreceive]
  simp only [hparse]
  rfl

/-- A question over a stream, cut anywhere. -/
theorem appendAll_stream {q : Question} {fuel : Nat} (hfuel : q.labels.length + 1 ≤ fuel)
    (fresh : Nat → Nat → Byte) (chunks : List (List Byte)) {final : List Byte} (hfinal : final ≠ [])
    (received : List Byte) (p : DnsParser) (h : Stored received p)
    (hcut : received ++ (chunks.flatten ++ final) = q.stream) :
    ∃ r, appendAll fuel fresh (chunks ++ [final]) p =
      some (List.replicate chunks.length 0 ++ [1], r) ∧ Accepted q r := by
  induction chunks generalizing received p with
  | nil =>
      rw [List.flatten_nil, List.nil_append] at hcut
      obtain ⟨n, r, hcall, hr⟩ := append_last h hcut hfuel (fresh 0)
      refine ⟨r, ?_, hr⟩
      simp [appendAll, hcall]
  | cons chunk chunks ih =>
      rw [List.flatten_cons, List.append_assoc, ← List.append_assoc received] at hcut
      obtain ⟨r, hcall, hr⟩ := append_chunk h hcut (by simp [hfinal]) fuel
        (fresh (chunks ++ [final]).length)
      obtain ⟨t, hrest, ht⟩ := ih (received ++ chunk) r hr hcut
      refine ⟨t, ?_, ht⟩
      rw [List.cons_append, appendAll, hcall]
      simp [hrest, List.replicate_succ]

/-! ### The round trip -/

/-- A message that holds this question and these header fields. -/
structure Question.SetIn (q : Question) (p : DnsParser) : Prop where
  id : p.header.id = q.id.toNat
  flags : p.header.flags = [q.flags.1, q.flags.2]
  question : p.question = q.question

theorem getLast?_dotted {labels : List (List Byte)} (hne : labels ≠ [])
    (h : ∀ l ∈ labels, ValidLabel l) : (dotted labels).getLast? ≠ some 46 := by
  fun_induction dotted labels with
  | case1 => exact absurd rfl hne
  | case2 l =>
      intro hlast
      exact (h l (List.mem_singleton_self l)).no_dot (List.mem_of_getLast? hlast)
  | case3 l labels hsome ih =>
      have hrest := fun l' hl' => h l' (List.mem_cons_of_mem l hl')
      have hlast := ih (fun hnil => hsome hnil) hrest
      have hdotted := dotted_ne_nil hrest
      rwa [List.getLast?_append_of_ne_nil _ (List.cons_ne_nil _ _),
        List.getLast?_cons_of_ne_nil hdotted]

/-- `dns_parser_set_question` stores the name as it is. -/
theorem setQuestion_question (q : Question) (p : DnsParser) :
    (setQuestion (dotted q.labels) q.qtype.toNat q.qclass.toNat p).question = q.question := by
  have hname : ¬ ((dotted q.labels).length > 1 ∧ (dotted q.labels).getLast? = some 46) := by
    rintro ⟨hlong, hlast⟩
    by_cases hne : q.labels = []
    · rw [hne] at hlong
      exact absurd hlong (by decide)
    · exact getLast?_dotted hne q.valid.label hlast
  simp only [setQuestion, setQuestionName, if_neg hname, Question.question]

/-- A question is encoded, and it is accepted as it was from one datagram and from a stream that is
cut anywhere. -/
theorem question_round_trip (q : Question) (p : DnsParser) (h : q.SetIn p) :
    (p.singlePacket = true → ∃ msg, encode p = some [msg] ∧
      ∀ fresh : Nat → Byte, ∃ fuel r,
        dnsParserAppendMessage fuel fresh msg (dnsParserInit true) = some (1, msg.length, r) ∧
          Accepted q r) ∧
    (p.singlePacket = false → ∃ vectors, encode p = some vectors ∧
      ∀ (fresh : Nat → Nat → Byte) (chunks : List (List Byte)) (final : List Byte), final ≠ [] →
        chunks.flatten ++ final = vectors.flatten →
        ∃ fuel r, appendAll fuel fresh (chunks ++ [final]) (dnsParserInit false) =
          some (List.replicate chunks.length 0 ++ [1], r) ∧ Accepted q r) := by
  have hreply := encodeReply_question h.id h.flags h.question
  constructor
  · intro hsingle
    refine ⟨q.bytes, ?_, append_datagram q⟩
    simp only [encode, hreply, Option.map_some, hsingle, if_true]
  · intro hstream
    refine ⟨[appendUint16 q.bytes.length, q.bytes], ?_, fun fresh chunks final hfinal hcut => ?_⟩
    · simp only [encode, hreply, Option.map_some, hstream, Bool.false_eq_true, if_false]
    · have hbytes : [] ++ (chunks.flatten ++ final) = q.stream := by
        rw [List.nil_append, hcut, Question.stream]
        simp
      exact ⟨_, appendAll_stream (Nat.le_refl _) fresh chunks hfinal [] _ stored_init hbytes⟩

/-- The question "a.b" of type and class 1. -/
def shortQuestion : Question where
  id := 258
  flags := (1, 0)
  labels := [[97], [98]]
  qtype := 1
  qclass := 1
  valid := by
    refine ⟨fun l hl => ?_, by decide⟩
    have hcases : l = [97] ∨ l = [98] := by simpa using hl
    obtain rfl | rfl := hcases
    · exact ⟨by decide, by decide, by decide, by decide⟩
    · exact ⟨by decide, by decide, by decide, by decide⟩

/-- The message that asks it. -/
def shortMessage (singlePacket : Bool) : DnsParser :=
  { setQuestion (dotted shortQuestion.labels) 1 1 (dnsParserInit singlePacket) with
    header := { shortQuestion.header with qdcount := 0 } }

theorem shortMessage_setIn (singlePacket : Bool) : shortQuestion.SetIn (shortMessage singlePacket) :=
  ⟨rfl, rfl, setQuestion_question shortQuestion (dnsParserInit singlePacket)⟩

theorem short_question_round_trip :
    shortQuestion.SetIn (shortMessage true) ∧
      (∃ msg, encode (shortMessage true) = some [msg] ∧ ∀ fresh : Nat → Byte, ∃ fuel r,
        dnsParserAppendMessage fuel fresh msg (dnsParserInit true) = some (1, msg.length, r) ∧
          Accepted shortQuestion r) ∧
      ∃ vectors, encode (shortMessage false) = some vectors ∧
        ∀ (fresh : Nat → Nat → Byte) (chunks : List (List Byte)) (final : List Byte), final ≠ [] →
          chunks.flatten ++ final = vectors.flatten →
          ∃ fuel r, appendAll fuel fresh (chunks ++ [final]) (dnsParserInit false) =
            some (List.replicate chunks.length 0 ++ [1], r) ∧ Accepted shortQuestion r :=
  ⟨shortMessage_setIn true,
    (question_round_trip shortQuestion _ (shortMessage_setIn true)).1 rfl,
    (question_round_trip shortQuestion _ (shortMessage_setIn false)).2 rfl⟩

end Workflow.Dns
