/-
Module: Workflow.Proofs.DnsStray
Layer: Proofs
Purpose: Datagrams that do not answer the request. `DnsResponse::append` drops such a datagram by
  starting the parser anew, and `dns_parser_init` starts it for a stream: what arrives afterwards is
  taken for a stream with a length in front. `Extends` says of the parser's functions that more fuel
  does not change their result and that they leave the message and the header alone.
Trusted boundary: none
Main exports: Extends, parseAll_extends, Reads, stream_call, stray_datagrams
-/
import Workflow.Proofs.DnsRoundTrip

namespace Workflow.Dns

open Workflow.Lib

/-! ### What parsing leaves alone -/

/-- The members that the functions behind the header do not write. -/
def DnsParser.frame (p : DnsParser) : DnsMessage × Bool × Bool × DnsHeader :=
  (p.toDnsMessage, p.complete, p.singlePacket, p.header)

/-- Whenever `f` returns, `g` returns the same, and the frame is unchanged. -/
def Extends {α : Type} (f g : ParseM α) : Prop :=
  ∀ p r q, f.run.run p = some (r, q) → g.run.run p = some (r, q) ∧ q.frame = p.frame

namespace Extends

variable {α β : Type}

theorem ret (a : α) : Extends (pure a) (pure a) := by
  rintro p r q ⟨⟩
  exact ⟨rfl, rfl⟩

theorem fail (e : Int) : Extends (throw e : ParseM α) (throw e) := by
  rintro p r q ⟨⟩
  exact ⟨rfl, rfl⟩

theorem read : Extends get get := by
  rintro p r q ⟨⟩
  exact ⟨rfl, rfl⟩

theorem write {f : DnsParser → DnsParser} (hf : ∀ p, (f p).frame = p.frame) :
    Extends (modify f) (modify f) := by
  rintro p r q ⟨⟩
  exact ⟨rfl, hf p⟩

/-- Parts that read on the same way do so one after the other. -/
theorem seq {f f' : ParseM α} {g g' : α → ParseM β} (hf : Extends f f')
    (hg : ∀ a, Extends (g a) (g' a)) : Extends (f >>= g) (f' >>= g') := by
  intro p r q h
  cases hrun : f.run.run p with
  | none =>
      rw [run_bind_none hrun] at h
      cases h
  | some result =>
      obtain ⟨r₁, q₁⟩ := result
      obtain ⟨hrun', hframe⟩ := hf p r₁ q₁ hrun
      cases r₁ with
      | error e =>
          simp only [ExceptT.run_bind, StateT.run_bind, hrun, Option.bind_eq_bind,
            Option.bind_some] at h
          simp only [ExceptT.run_bind, StateT.run_bind, hrun', Option.bind_eq_bind,
            Option.bind_some]
          cases h
          exact ⟨rfl, hframe⟩
      | ok a =>
          rw [run_bind_ok hrun] at h
          rw [run_bind_ok hrun']
          obtain ⟨hrest, hframe'⟩ := hg a q₁ r q h
          exact ⟨hrest, hframe'.trans hframe⟩

/-- An early `return` with an error code, in front of the rest `g`. -/
theorem check {c : Prop} [Decidable c] {e : Int} {g g' : Unit → ParseM α}
    (hg : ∀ u, Extends (g u) (g' u)) :
    Extends (if c then throw e >>= g else g ()) (if c then throw e >>= g' else g' ()) := by
  split
  · exact (fail e).seq hg
  · exact hg ()

end Extends

section Functions

variable {fuel fuel' : Nat} (hle : fuel ≤ fuel')

theorem advance_extends (n : Nat) : Extends (advance n) (advance n) :=
  Extends.write fun _ => rfl

theorem parseAddress_extends (size rdlength : Nat) :
    Extends (parseAddress size rdlength) (parseAddress size rdlength) := by
  unfold parseAddress
  exact Extends.check fun _ => Extends.read.seq fun _ => (advance_extends rdlength).seq fun _ =>
    Extends.ret _

include hle

/-- A name is read the same way in a longer message and with more fuel. -/
theorem parseHost_extends : Extends (parseHost fuel) (parseHost fuel') := by
  intro p r q h
  rw [parseHost_run] at h ⊢
  split at h
  · rename_i hend
    rw [if_pos hend]
    cases h
    exact ⟨rfl, rfl⟩
  · rename_i hend
    rw [if_neg hend]
    obtain ⟨result, hloop, hresult⟩ := Option.map_eq_some_iff.mp h
    rw [loop_mono hle hloop]
    refine ⟨by rw [Option.map_some, hresult], ?_⟩
    dsimp only at hresult
    split at hresult
    · cases hresult
      rfl
    · cases hresult
      rfl

theorem parseNames_extends (rdlength : Nat) :
    Extends (parseNames fuel rdlength) (parseNames fuel' rdlength) :=
  Extends.read.seq fun _ => (parseHost_extends hle).seq fun _ => Extends.read.seq fun _ =>
    Extends.check fun _ => Extends.ret _

theorem parseSoa_extends (rdlength : Nat) :
    Extends (parseSoa fuel rdlength) (parseSoa fuel' rdlength) :=
  Extends.read.seq fun _ => (parseHost_extends hle).seq fun _ => (parseHost_extends hle).seq fun _ =>
    Extends.read.seq fun _ => Extends.check fun _ => (advance_extends 20).seq fun _ => Extends.ret _

theorem parseSrv_extends (rdlength : Nat) :
    Extends (parseSrv fuel rdlength) (parseSrv fuel' rdlength) :=
  Extends.read.seq fun _ => Extends.check fun _ => (advance_extends 6).seq fun _ =>
    (parseHost_extends hle).seq fun _ => Extends.read.seq fun _ => Extends.check fun _ =>
      Extends.ret _

theorem parseMx_extends (rdlength : Nat) :
    Extends (parseMx fuel rdlength) (parseMx fuel' rdlength) :=
  Extends.read.seq fun _ => Extends.check fun _ => (advance_extends 2).seq fun _ =>
    (parseHost_extends hle).seq fun _ => Extends.read.seq fun _ => Extends.check fun _ =>
      Extends.ret _

/-- So is the data of a record. -/
theorem parseRdata_extends (type rdlength : Nat) :
    Extends (parseRdata fuel type rdlength) (parseRdata fuel' type rdlength) := by
  unfold parseRdata
  split
  · exact parseAddress_extends 4 rdlength
  · exact parseAddress_extends 16 rdlength
  · exact parseNames_extends hle rdlength
  · exact parseNames_extends hle rdlength
  · exact parseNames_extends hle rdlength
  · exact parseSoa_extends hle rdlength
  · exact parseSrv_extends hle rdlength
  · exact parseMx_extends hle rdlength
  · exact Extends.read.seq fun _ => (advance_extends rdlength).seq fun _ => Extends.ret _

theorem parseOneRecord_extends (idx : Section) :
    Extends (parseOneRecord fuel idx) (parseOneRecord fuel' idx) := by
  refine (parseHost_extends hle).seq fun _ => Extends.read.seq fun _ => Extends.check fun _ =>
    (advance_extends 10).seq fun _ => Extends.check fun _ =>
      (parseRdata_extends hle _ _).seq fun _ => Extends.write fun _ => ?_
  cases idx <;> rfl

/-- So is a section. -/
theorem parseRecord_extends (idx : Section) :
    Extends (parseRecord fuel idx) (parseRecord fuel' idx) := by
  refine Extends.read.seq fun p => ?_
  induction idx.count p.header with
  | zero => exact Extends.ret _
  | succ count ih => exact (parseOneRecord_extends hle idx).seq fun _ => ih

/-- So is the question. -/
theorem parseQuestion_extends : Extends (parseQuestion fuel) (parseQuestion fuel') :=
  Extends.read.seq fun _ => Extends.check fun _ => (parseHost_extends hle).seq fun _ =>
    Extends.read.seq fun _ => Extends.check fun _ => (advance_extends 4).seq fun _ =>
      Extends.write fun _ => rfl

end Functions

/-- The statements of `dns_parser_parse_all` behind the header. -/
def parseBody (fuel : Nat) : ParseM Unit := do
  parseQuestion fuel
  parseRecord fuel .answer
  parseRecord fuel .authority
  parseRecord fuel .additional

/-- So is everything behind the header. -/
theorem parseBody_extends {fuel fuel' : Nat} (hle : fuel ≤ fuel') :
    Extends (parseBody fuel) (parseBody fuel') :=
  (parseQuestion_extends hle).seq fun _ => (parseRecord_extends hle .answer).seq fun _ =>
    (parseRecord_extends hle .authority).seq fun _ => parseRecord_extends hle .additional

/-- A message without exactly one question is rejected at once. -/
theorem parseBody_count {fuel : Nat} {p : DnsParser} (h : p.header.qdcount ≠ 1) :
    (parseBody fuel).run.run p = some (.error (-2), p) := by
  have hquestion : (parseQuestion fuel).run.run p = some (.error (-2), p) := by
    unfold parseQuestion
    rw [run_get_bind]
    simp only
    rw [if_pos h]
    rfl
  simp [parseBody, ExceptT.run_bind, hquestion]

/-- A message is parsed from behind its header on. -/
theorem parseAllM_run (fuel : Nat) (p : DnsParser) :
    (parseAllM fuel).run.run p =
      if p.msgsize < dnsHeaderSize then
        some (.error (-2), { p with complete := true, cur := p.msgbase })
      else (parseBody fuel).run.run (afterHeader p) := by
  unfold parseAllM
  rw [run_modify_bind, run_get_bind]
  simp only
  split
  · rfl
  · rfl

/-- What `dns_parser_parse_all` says about its result, and that more fuel does not change it. -/
theorem parseAll_extends {fuel fuel' : Nat} (hle : fuel ≤ fuel') {p q : DnsParser} {ret : Int}
    (h : dnsParserParseAll fuel p = some (ret, q)) :
    dnsParserParseAll fuel' p = some (ret, q) ∧ q.complete = true ∧
      q.singlePacket = p.singlePacket ∧
      (0 ≤ ret → dnsHeaderSize ≤ p.msgsize ∧ q.header = p.readHeader ∧ p.readHeader.qdcount = 1) := by
  unfold dnsParserParseAll at h ⊢
  rw [parseAllM_run] at h ⊢
  by_cases hsize : p.msgsize < dnsHeaderSize
  · rw [if_pos hsize] at h ⊢
    cases h
    exact ⟨rfl, rfl, rfl, fun hneg => absurd hneg (by decide)⟩
  · rw [if_neg hsize] at h ⊢
    obtain ⟨⟨r, q'⟩, hrun, hresult⟩ := Option.map_eq_some_iff.mp h
    obtain ⟨hrun', hframe⟩ := parseBody_extends hle _ _ _ hrun
    obtain rfl : q' = q := by
      cases r with
      | ok u =>
          cases hresult
          rfl
      | error e =>
          cases hresult
          rfl
    simp only [DnsParser.frame, afterHeader, Prod.mk.injEq] at hframe
    obtain ⟨-, hcomplete, hsingle, hheader⟩ := hframe
    refine ⟨by rw [hrun', Option.map_some, hresult], hcomplete, hsingle, fun hret => ?_⟩
    refine ⟨Nat.le_of_not_lt hsize, hheader, ?_⟩
    by_contra hcount
    rw [parseBody_count hcount] at hrun
    cases hrun
    cases hresult
    exact absurd hret (by decide)

/-! ### Datagrams -/

/-- What a parsed message says. -/
structure Content where
  header : DnsHeader
  question : DnsQuestion
  answerList : List DnsRecord
  authorityList : List DnsRecord
  additionalList : List DnsRecord

def DnsParser.content (p : DnsParser) : Content where
  header := p.header
  question := p.question
  answerList := p.answerList
  authorityList := p.authorityList
  additionalList := p.additionalList

/-- The message has the id and the name of the request. -/
def Content.answers (requestId : Nat) (requestName : List Byte) (c : Content) : Bool :=
  requestId == c.header.id &&
    strcasecmpEq (requestName.takeWhile (· ≠ 0)) (c.question.qname.getD [])

/-- The parser in datagram mode accepts `d` and reads `c`, whatever lies in memory behind it. -/
def Reads (d : List Byte) (c : Content) : Prop :=
  ∀ fresh, ∃ fuel p, dnsParserAppendMessage fuel fresh d (dnsParserInit true) =
    some (1, d.length, p) ∧ p.content = c

/-- The bit QR of the header is set. -/
def IsResponse (c : Content) : Prop :=
  ∃ f g, c.header.flags = [f, g] ∧ f &&& 0x80 ≠ 0

/-- A well-formed response. -/
structure ResponseDatagram (d : List Byte) (c : Content) : Prop where
  reads : Reads d c
  response : IsResponse c

/-- The parser that holds a datagram. -/
def datagramParser (fresh : Nat → Byte) (d : List Byte) : DnsParser :=
  { dnsParserInit true with
    msgbuf := memcpy fresh 0 d
    msgsize := d.length
    bufsize := d.length }

/-- A datagram is parsed in one call. -/
theorem append_datagram_eq (fuel : Nat) (fresh : Nat → Byte) (d : List Byte) :
    dnsParserAppendMessage fuel fresh d (dnsParserInit true) =
      (dnsParserParseAll fuel (datagramParser fresh d)).map fun (ret, r) =>
        (if ret < 0 then ret else 1, d.length, r) :=
  rfl

/-- One call in datagram mode, with any fuel with which it returns. -/
theorem Reads.call {d : List Byte} {c : Content} (h : Reads d c) {fuel : Nat} {fresh : Nat → Byte}
    {result : Int × Nat × DnsParser}
    (hcall : dnsParserAppendMessage fuel fresh d (dnsParserInit true) = some result) :
    ∃ p, result = (1, d.length, p) ∧ p.content = c ∧ p.complete = true ∧ p.singlePacket = true := by
  obtain ⟨enough, p, hp, hcontent⟩ := h fresh
  rw [append_datagram_eq] at hcall hp
  obtain ⟨⟨ret, q⟩, hparse, rfl⟩ := Option.map_eq_some_iff.mp hcall
  obtain ⟨⟨ret', q'⟩, hparse', hresult⟩ := Option.map_eq_some_iff.mp hp
  obtain ⟨hmore, hcomplete, hsingle, -⟩ := parseAll_extends (Nat.le_max_left fuel enough) hparse
  obtain ⟨hmore', -⟩ := parseAll_extends (Nat.le_max_right fuel enough) hparse'
  rw [hmore] at hmore'
  cases hmore'
  simp only [Prod.mk.injEq] at hresult
  obtain ⟨hret, -, rfl⟩ := hresult
  exact ⟨q, by simp only [hret], hcontent, hcomplete, hsingle⟩

/-- The bytes have a header with one question. -/
def OneQuestion (bytes : List Byte) : Prop :=
  ∃ front rest, front.length = 4 ∧ bytes = front ++ (0 :: 1 :: rest)

/-- More bytes do not change the number of questions. -/
theorem OneQuestion.append {bytes : List Byte} (h : OneQuestion bytes) (more : List Byte) :
    OneQuestion (bytes ++ more) := by
  obtain ⟨front, rest, hlen, rfl⟩ := h
  exact ⟨front, rest ++ more, hlen, by simp⟩

/-- What is read has one question. -/
theorem Reads.oneQuestion {d : List Byte} {c : Content} (h : Reads d c) : OneQuestion d := by
  obtain ⟨fuel, p, hp, -⟩ := h fun _ => 0
  rw [append_datagram_eq] at hp
  obtain ⟨⟨ret, q⟩, hparse, hresult⟩ := Option.map_eq_some_iff.mp hp
  simp only [Prod.mk.injEq] at hresult
  have hret : 0 ≤ ret := by
    by_contra hneg
    rw [if_pos (by omega)] at hresult
    omega
  obtain ⟨-, -, -, hfacts⟩ := parseAll_extends (Nat.le_refl fuel) hparse
  obtain ⟨hsize, -, hcount⟩ := hfacts hret
  have hlen : 12 ≤ d.length := hsize
  have hmem : HoldsAt (datagramParser (fun _ => 0) d).toDnsMessage 0 d := bytes_memcpy rfl
  obtain ⟨front, back, hfront, hd⟩ : ∃ front back, front.length = 4 ∧ d = front ++ back :=
    ⟨d.take 4, d.drop 4, by rw [List.length_take]; omega, (List.take_append_drop 4 d).symm⟩
  obtain ⟨a, b, rest, rfl⟩ : ∃ a b rest, back = a :: b :: rest := by
    match back, hd with
    | [], hd => rw [hd] at hlen; simp at hlen; omega
    | [_], hd => rw [hd] at hlen; simp at hlen; omega
    | a :: b :: rest, _ => exact ⟨a, b, rest, rfl⟩
  rw [hd] at hmem
  obtain ⟨-, hback⟩ := holdsAt_append.mp hmem
  rw [Nat.zero_add, hfront] at hback
  obtain ⟨ha, hrest⟩ := holdsAt_cons.mp hback
  obtain ⟨hb, -⟩ := holdsAt_cons.mp hrest
  have hcount : (datagramParser (fun _ => 0) (front ++ a :: b :: rest)).uint16 4 = 1 := by
    rw [hd] at hcount
    exact hcount
  rw [DnsMessage.uint16, ha, hb] at hcount
  have hzero : a = 0 := UInt8.toNat_inj.mp (by rw [UInt8.toNat_zero]; omega)
  have hone : b = 1 := UInt8.toNat_inj.mp (by rw [UInt8.toNat_one]; omega)
  exact ⟨front, rest, hfront, by rw [hd, hzero, hone]⟩

/-! ### Responses -/

/-- A response is judged by what the parser has read. -/
theorem answers_eq (r : DnsResponse) :
    r.answers = r.parser.content.answers r.requestId r.requestName :=
  rfl

/-- A call in datagram mode that does not answer the request leaves a parser for a stream, unless the
response grew too large. -/
theorem stray_call {d : List Byte} {c : Content} (h : Reads d c) {fuel : Nat} {fresh : Nat → Byte}
    {r t : DnsResponse} {ret : Int} {n : Nat} (hparser : r.parser = dnsParserInit true)
    (hstray : c.answers r.requestId r.requestName = false)
    (hcall : responseAppend fuel fresh d r = some (ret, n, t)) :
    ret ≠ 1 ∧ (ret = 0 → t.parser = dnsParserInit false) := by
  obtain ⟨⟨code, size, s⟩, hmessage, hresult⟩ := Option.map_eq_some_iff.mp hcall
  obtain ⟨result, happend, hcode⟩ := Option.map_eq_some_iff.mp hmessage
  rw [hparser] at happend
  obtain ⟨p, rfl, hcontent, -, hsingle⟩ := h.call happend
  simp only [ge_iff_le, Int.reduceLE, if_true, Prod.mk.injEq] at hcode
  obtain ⟨hcode, -, rfl⟩ := hcode
  have hanswers : ({ r with parser := p, curSize := addSize r.curSize d.length } :
      DnsResponse).answers = false := by
    rw [answers_eq]
    simp only [hcontent, hstray]
  simp only [hanswers, hsingle, and_true, Bool.not_true, Bool.false_eq_true, if_false] at hresult
  split at hcode
  · subst hcode
    cases hresult
    exact ⟨by decide, fun hzero => absurd hzero (by decide)⟩
  · subst hcode
    cases hresult
    exact ⟨by decide, fun _ => rfl⟩

/-- The parser in stream mode: it stores the bytes, or it reads a message behind the length, whose
flags are the count of questions of the first datagram in the stream. -/
theorem append_stream {received d : List Byte} {fuel : Nat} {fresh : Nat → Byte} {p q : DnsParser}
    {ret : Int} {n : Nat} (hstored : Stored received p) (hone : OneQuestion (received ++ d))
    (hcall : dnsParserAppendMessage fuel fresh d p = some (ret, n, q)) :
    (ret = 0 ∧ Stored (received ++ d) q) ∨
      (ret ≠ 0 ∧ q.singlePacket = false ∧ (0 ≤ ret → q.header.flags = [0, 1])) := by
  have hcopy := copyIn_stored hstored fresh d
  have hreceive : (∃ size, receive fresh d p = .error (0, size, copyIn fresh d p)) ∨
      ∃ size t, receive fresh d p = .ok (size, t) ∧ t.singlePacket = false ∧
        t.msgbuf = (copyIn fresh d p).msgbuf ∧ t.msgbase = 2 := by
    unfold receive
    simp only [hstored.complete, hstored.stream, Bool.not_false, Bool.false_eq_true, if_false,
      if_true]
    split
    · exact .inl ⟨_, rfl⟩
    · split
      · exact .inl ⟨_, rfl⟩
      · exact .inr ⟨_, _, rfl, hcopy.stream, rfl, rfl⟩
  unfold dnsParserAppendMessage at hcall
  rcases hreceive with ⟨size, hreceive⟩ | ⟨size, t, hreceive, hsingle, hbuf, hbase⟩
  · rw [hreceive] at hcall
    cases hcall
    exact .inl ⟨rfl, hcopy⟩
  · rw [hreceive] at hcall
    obtain ⟨⟨parsed, q'⟩, hparse, hpair⟩ := Option.map_eq_some_iff.mp hcall
    simp only [Prod.mk.injEq] at hpair
    obtain ⟨hret, -, rfl⟩ := hpair
    obtain ⟨-, -, hkept, hfacts⟩ := parseAll_extends (Nat.le_refl fuel) hparse
    refine .inr ⟨by split at hret <;> omega, hkept.trans hsingle, fun hnonneg => ?_⟩
    have hparsed : 0 ≤ parsed := by split at hret <;> omega
    obtain ⟨-, hheader, -⟩ := hfacts hparsed
    obtain ⟨front, rest, hfront, hbytes⟩ := hone
    have hholds := hcopy.holds
    rw [hbytes] at hholds
    obtain ⟨-, hback⟩ := holdsAt_append.mp hholds
    rw [Nat.zero_add, hfront] at hback
    obtain ⟨hfour, hnext⟩ := holdsAt_cons.mp hback
    obtain ⟨hfive, -⟩ := holdsAt_cons.mp hnext
    rw [hheader]
    simp [DnsMessage.readHeader, DnsMessage.bytes, hbase, hbuf, hfour, hfive, List.range_succ]

/-- A call in stream mode. -/
theorem stream_call {received d : List Byte} {fuel : Nat} {fresh : Nat → Byte}
    {r t : DnsResponse} {ret : Int} {n : Nat} (hstored : Stored received r.parser)
    (hone : OneQuestion (received ++ d))
    (hcall : responseAppend fuel fresh d r = some (ret, n, t)) :
    (ret = 0 → Stored (received ++ d) t.parser) ∧ (ret = 1 → t.parser.header.flags = [0, 1]) := by
  obtain ⟨⟨code, size, s⟩, hmessage, hresult⟩ := Option.map_eq_some_iff.mp hcall
  obtain ⟨⟨code', size', p⟩, happend, hcode⟩ := Option.map_eq_some_iff.mp hmessage
  rcases append_stream hstored hone happend with ⟨rfl, hp⟩ | ⟨hne, hsingle, hflags⟩
  · simp only [ge_iff_le, Int.le_refl, if_true, Prod.mk.injEq] at hcode
    obtain ⟨hcode, -, rfl⟩ := hcode
    have hlow : ¬ (code ≥ 1) := by
      split at hcode <;> omega
    simp only [hlow, false_and, if_false, Prod.mk.injEq] at hresult
    obtain ⟨rfl, -, rfl⟩ := hresult
    exact ⟨fun _ => hp, fun hret => absurd hret (by omega)⟩
  · have hs : s.parser = p ∧ code ≠ 0 ∧ (code = 1 → 0 ≤ code') := by
      simp only at hcode
      split at hcode
      · simp only [Prod.mk.injEq] at hcode
        obtain ⟨hcode, -, rfl⟩ := hcode
        exact ⟨rfl, by split at hcode <;> omega, fun _ => by omega⟩
      · simp only [Prod.mk.injEq] at hcode
        obtain ⟨hcode, -, rfl⟩ := hcode
        exact ⟨rfl, by split at hcode <;> omega, fun hone => by split at hcode <;> omega⟩
    obtain ⟨hs, hcodeNe, hcodeOne⟩ := hs
    simp only [hs, hsingle, Bool.not_false, if_true] at hresult
    split at hresult
    · cases hresult
      exact ⟨fun hzero => absurd hzero (by decide), fun hret => absurd hret (by decide)⟩
    · cases hresult
      exact ⟨fun hzero => absurd hzero hcodeNe, fun hret => by rw [hs]; exact hflags (hcodeOne hret)⟩

/-- A run in stream mode never ends with the flags of a response. -/
theorem stream_run {fuel : Nat} {fresh : Nat → Nat → Byte} (ds : List (List Byte))
    (received : List Byte) (r t : DnsResponse) (hstored : Stored received r.parser)
    (hreceived : received = [] ∨ OneQuestion received) (hds : ∀ d ∈ ds, OneQuestion d)
    (hrun : receiveAll fuel fresh ds r = some (1, t)) : t.parser.header.flags = [0, 1] := by
  induction ds generalizing received r with
  | nil =>
      simp [receiveAll] at hrun
  | cons d ds ih =>
      obtain ⟨⟨ret, n, q⟩, hcall, hrest⟩ := Option.bind_eq_some_iff.mp hrun
      have hone : OneQuestion (received ++ d) := by
        rcases hreceived with rfl | hreceived
        · exact hds d List.mem_cons_self
        · exact hreceived.append d
      obtain ⟨hmore, hend⟩ := stream_call hstored hone hcall
      simp only at hrest
      split at hrest
      · rename_i hzero
        exact ih (received ++ d) q (hmore hzero) (.inr hone)
          (fun d' hd' => hds d' (List.mem_cons_of_mem d hd')) hrest
      · cases hrest
        exact hend rfl

/-- The response ends complete, with this header, this question and these records. -/
def EndsAs (fresh : Nat → Nat → Byte) (ds : List (List Byte)) (r : DnsResponse) (c : Content) :
    Prop :=
  ∃ fuel t, receiveAll fuel fresh ds r = some (1, t) ∧ t.parser.complete = true ∧
    t.parser.content = c

section Request

variable {requestId sizeLimit : Nat} {requestName m : List Byte} {c : Content}

/-- A datagram that answers the request ends the receiving. -/
theorem endsAs_first (hm : ResponseDatagram m c) (hanswers : c.answers requestId requestName = true)
    (hlimit : m.length ≤ sizeLimit) (fresh : Nat → Nat → Byte) :
    EndsAs fresh [m] (udpResponse requestId requestName sizeLimit) c := by
  obtain ⟨fuel, p, hp, -⟩ := hm.reads (fresh 0)
  obtain ⟨q, hq, hcontent, hcomplete, -⟩ := hm.reads.call hp
  simp only [Prod.mk.injEq, true_and] at hq
  subst hq
  have hsize : ¬ addSize 0 m.length > sizeLimit := by
    have hle : addSize 0 m.length ≤ m.length := by
      rw [addSize, Nat.zero_add]
      exact Nat.mod_le _ _
    omega
  have hcall : responseAppend fuel (fresh 0) m (udpResponse requestId requestName sizeLimit) =
      some (1, m.length, { udpResponse requestId requestName sizeLimit with
        parser := p, curSize := addSize 0 m.length }) := by
    have hok : ({ udpResponse requestId requestName sizeLimit with
        parser := p, curSize := addSize 0 m.length } : DnsResponse).answers = true := by
      rw [answers_eq]
      simp only [hcontent]
      exact hanswers
    rw [responseAppend, messageAppend, udpResponse]
    simp only [hp, Option.map_some, ge_iff_le, Int.reduceLE, if_true, if_neg hsize]
    simp only [udpResponse] at hok
    simp [hok]
  exact ⟨fuel, _, by rw [receiveAll, List.length_nil, hcall]; rfl, hcomplete, hcontent⟩

/-- After one stray datagram the matching one is not recognised any more. -/
theorem not_endsAs_of_stray (hm : ResponseDatagram m c) {stray : List Byte} {c' : Content}
    (hstray : ResponseDatagram stray c') (hmismatch : c'.answers requestId requestName = false)
    (more : List (List Byte)) (hmore : ∀ d ∈ more, OneQuestion d) (fresh : Nat → Nat → Byte) :
    ¬ EndsAs fresh (stray :: (more ++ [m])) (udpResponse requestId requestName sizeLimit) c := by
  rintro ⟨fuel, t, hrun, -, hcontent⟩
  obtain ⟨⟨ret, n, r⟩, hcall, hrest⟩ := Option.bind_eq_some_iff.mp hrun
  obtain ⟨hne, hreset⟩ := stray_call hstray.reads rfl hmismatch hcall
  simp only at hrest
  split at hrest
  · rename_i hzero
    have hstored : Stored [] r.parser := by
      rw [hreset hzero]
      exact stored_init
    have hflags := stream_run (more ++ [m]) [] r t hstored (.inl rfl)
      (by
        intro d hd
        rcases List.mem_append.mp hd with hd | hd
        · exact hmore d hd
        · exact (List.mem_singleton.mp hd) ▸ hm.reads.oneQuestion)
      hrest
    obtain ⟨f, g, hresponse, hbit⟩ := hm.response
    rw [← hcontent] at hresponse
    have hpair : [f, g] = [0, 1] := hresponse.symm.trans hflags
    cases hpair
    exact hbit rfl
  · cases hrest
    exact hne rfl

end Request

/-- A response over UDP that is preceded by datagrams which do not answer the request ends as it does
without them exactly when there are none. -/
theorem stray_datagrams (requestId sizeLimit : Nat) (requestName : List Byte)
    (strays : List (List Byte)) (m : List Byte) (c : Content) (fresh : Nat → Nat → Byte)
    (hm : ResponseDatagram m c) (hanswers : c.answers requestId requestName = true)
    (hlimit : m.length ≤ sizeLimit)
    (hstrays : ∀ d ∈ strays, ∃ c', ResponseDatagram d c' ∧
      c'.answers requestId requestName = false) :
    EndsAs fresh (strays ++ [m]) (udpResponse requestId requestName sizeLimit) c ↔ strays = [] := by
  constructor
  · intro hends
    cases strays with
    | nil => rfl
    | cons stray more =>
        obtain ⟨c', hstray, hmismatch⟩ := hstrays stray List.mem_cons_self
        refine absurd hends (not_endsAs_of_stray hm hstray hmismatch more (fun d hd => ?_) fresh)
        obtain ⟨c'', hd, -⟩ := hstrays d (List.mem_cons_of_mem stray hd)
        exact hd.reads.oneQuestion
  · rintro rfl
    exact endsAs_first hm hanswers hlimit fresh

/-- A response that repeats the question and has no records. -/
def Question.content (q : Question) : Content where
  header := q.header
  question := q.question
  answerList := []
  authorityList := []
  additionalList := []

/-- A question is read back. -/
theorem Question.reads (q : Question) : Reads q.bytes q.content := by
  intro fresh
  have hparse := parseAll_question (p := datagramParser fresh q.bytes) (bytes_memcpy rfl)
    (Nat.zero_add _).symm (Nat.le_refl (q.labels.length + 1))
  refine ⟨q.labels.length + 1, afterQuestion q (datagramParser fresh q.bytes), ?_, rfl⟩
  rw [append_datagram_eq, hparse]
  rfl

/-- An answer to `shortQuestion` with a given id. -/
def shortResponse (id : UInt16) : Question :=
  { shortQuestion with id := id, flags := (0x80, 0) }

/-- A response of a question alone. -/
theorem shortResponse_datagram (id : UInt16) :
    ResponseDatagram (shortResponse id).bytes (shortResponse id).content :=
  ⟨(shortResponse id).reads, 0x80, 0, rfl, by decide⟩

theorem short_response_datagrams :
    EndsAs (fun _ _ => 0) ([] ++ [(shortResponse 258).bytes]) (udpResponse 258 (ascii "A.b") sizeMax)
        (shortResponse 258).content ∧
      ¬ EndsAs (fun _ _ => 0) ([(shortResponse 7).bytes] ++ [(shortResponse 258).bytes])
        (udpResponse 258 (ascii "A.b") sizeMax) (shortResponse 258).content := by
  constructor
  · exact (stray_datagrams 258 sizeMax (ascii "A.b") [] _ _ _ (shortResponse_datagram 258)
      (by decide) (by decide) (by simp)).mpr rfl
  · rw [stray_datagrams 258 sizeMax (ascii "A.b") _ _ _ _ (shortResponse_datagram 258) (by decide)
      (by decide) fun d hd => ?_]
    · exact List.cons_ne_nil _ _
    · rw [List.mem_singleton.mp hd]
      exact ⟨_, shortResponse_datagram 7, by decide⟩

/-- A response with another id, and then the answer: it is not recognised. -/
theorem stray_datagram_blocks :
    ResponseDatagram (shortResponse 7).bytes (shortResponse 7).content ∧
      (shortResponse 7).content.answers 258 (ascii "A.b") = false ∧
      ResponseDatagram (shortResponse 258).bytes (shortResponse 258).content ∧
      (shortResponse 258).content.answers 258 (ascii "A.b") = true ∧
      ¬ EndsAs (fun _ _ => 0) [(shortResponse 7).bytes, (shortResponse 258).bytes]
        (udpResponse 258 (ascii "A.b") sizeMax) (shortResponse 258).content := by
  have hmismatch : (shortResponse 7).content.answers 258 (ascii "A.b") = false := by decide
  exact ⟨shortResponse_datagram 7, hmismatch, shortResponse_datagram 258, by decide,
    not_endsAs_of_stray (shortResponse_datagram 258) (shortResponse_datagram 7) hmismatch []
      (by simp) _⟩

end Workflow.Dns
