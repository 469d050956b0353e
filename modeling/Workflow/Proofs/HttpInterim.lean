/-
Module: Workflow.Proofs.HttpInterim
Layer: Proofs
Purpose: Interim responses in front of a final one. A response that arrives in any pieces is answered
  like the whole stream, and every interim response makes the parser start over; what
  `parse_zero_body` told the parser before does not survive that.
Trusted boundary: none
Main exports: opening, Answers, receive_answers, SameResponse, SameOutcome, interim_transparent
-/
import Workflow.Proofs.HttpStream
import Workflow.Protocol.HttpResponse

namespace Workflow.Http

open Workflow.Lib

/-! ### A parser that expects no body -/

/-- The parser after `parse_zero_body`. -/
def zeroBody (p : HttpParser) : HttpParser :=
  { p with transferLength := 0 }

/-- The parser of a response before its first byte, for a request with the method HEAD or not. -/
def opening (head : Bool) (p : HttpParser) : HttpParser :=
  if head then zeroBody (httpParserInit true p) else httpParserInit true p

theorem headerNameLoop_zeroBody (i : Nat) (p : HttpParser) (bytes : List Byte) :
    headerNameLoop i (zeroBody p) bytes =
      ((headerNameLoop i p bytes).1, zeroBody (headerNameLoop i p bytes).2) := by
  induction bytes generalizing i p with
  | nil =>
      simp only [headerNameLoop]
      split <;> rfl
  | cons c rest ih =>
      simp only [headerNameLoop]
      split
      · rfl
      · split
        · rfl
        · split
          · exact ih (i + 1) { p with namebuf := p.namebuf.setIfInBounds i c }
          · rfl

theorem applyHeader_zeroBody (name value : List Byte) (p : HttpParser) :
    applyHeader name value (zeroBody p) = zeroBody (applyHeader name value p) := by
  unfold applyHeader
  repeat' split
  all_goals rfl

theorem parseStartLine_zeroBody (p : HttpParser) (bytes : List Byte) :
    parseStartLine (zeroBody p) bytes =
      ((parseStartLine p bytes).1, zeroBody (parseStartLine p bytes).2) := by
  have hresp : (zeroBody p).isResp = p.isResp := rfl
  unfold parseStartLine
  split
  · rfl
  · cases scanLine httpStartLineMax isPositive 0 bytes with
    | more => rfl
    | bad => rfl
    | line content =>
        cases hfirst : strchr SP content with
        | none => simp only [hfirst]
        | some first =>
            cases hsecond : strchr SP first.2 with
            | none => simp only [hfirst, hsecond]
            | some second =>
                simp only [hfirst, hsecond, hresp]
                cases p.isResp with
                | true => simp [matchStatusLine, zeroBody]
                | false => rfl

/-- The header is read alike whether a body is expected or not. -/
theorem parseMessageHeaderStep_zeroBody (p : HttpParser) (bytes : List Byte) :
    parseMessageHeaderStep (zeroBody p) bytes =
      ((parseMessageHeaderStep p bytes).1, zeroBody (parseMessageHeaderStep p bytes).2) := by
  have hstate : (zeroBody p).headerState = p.headerState := rfl
  unfold parseMessageHeaderStep
  rw [hstate]
  split
  · exact parseStartLine_zeroBody p bytes
  · split
    · unfold parseHeaderValue
      have hname : (zeroBody p).name = p.name := rfl
      cases headerValueLoop true [] bytes with
      | more => rfl
      | bad => rfl
      | value content rest =>
          simp only [hname, matchMessageHeader, applyHeader_zeroBody]
          rfl
    · unfold parseHeaderName
      split
      · rfl
      · exact headerNameLoop_zeroBody 0 p bytes

theorem headerRun_zeroBody (message : List Byte) (p : HttpParser) :
    headerScanner.run message (zeroBody p) =
      ((headerScanner.run message p).1, zeroBody (headerScanner.run message p).2) :=
  Scanner.run_map (f := zeroBody) parseMessageHeaderStep_zeroBody (fun _ => rfl) (fun _ => rfl) message p

/-- The header of a stream for a request with the method HEAD. -/
theorem scanBuffer_zeroBody (p : HttpParser) (bytes : List Byte) :
    scanBuffer (zeroBody (httpParserInit true p)) bytes =
      if (streamHead true p bytes).1 ≤ 0 then
        ((streamHead true p bytes).1, zeroBody (streamHead true p bytes).2)
      else finishMessage (beginBody (zeroBody (streamHead true p bytes).2)) := by
  have hset : setBuf (zeroBody (httpParserInit true p)) bytes =
      zeroBody (setBuf (httpParserInit true p) bytes) := rfl
  rw [scanBuffer_header (by simp [zeroBody, httpParserInit]), hset, headerRun_zeroBody]
  rfl

/-- With no body expected the message ends with its header. -/
theorem finishMessage_zeroBody {p : HttpParser} (hlen : p.headerOffset < 2 ^ 64)
    (hle : p.headerOffset ≤ p.msgsize) :
    (finishMessage (beginBody (zeroBody p))).1 = 1 ∧
      (finishMessage (beginBody (zeroBody p))).2 =
        { beginBody (zeroBody p) with msgsize := p.headerOffset, complete := true } := by
  have hzero : (beginBody (zeroBody p)).transferLength = 0 ∧
      (beginBody (zeroBody p)).headerOffset = p.headerOffset ∧
      (beginBody (zeroBody p)).msgsize = p.msgsize := by
    unfold beginBody zeroBody
    split
    · exact ⟨rfl, rfl, rfl⟩
    · simp [sizeMax]
  have hmax : (beginBody (zeroBody p)).transferLength ≠ sizeMax := by
    rw [hzero.1]
    decide
  have htotal : addSize (beginBody (zeroBody p)).headerOffset (beginBody (zeroBody p)).transferLength =
      p.headerOffset := by
    rw [hzero.1, hzero.2.1, addSize_of_lt (by omega), Nat.add_zero]
  unfold finishMessage
  rw [if_pos hmax, htotal, hzero.2.2, if_pos hle]
  exact ⟨rfl, rfl⟩

/-! ### The parser before the first byte -/

theorem opening_ready (head : Bool) (p : HttpParser) : Ready (opening head p) := by
  have hinit := httpParserInit_ready true p
  cases head with
  | false => exact hinit
  | true => exact ⟨⟨hinit.complete, hinit.chunk⟩, hinit.size⟩

theorem opening_state (head : Bool) (p : HttpParser) :
    (opening head p).headerState = .startLine ∧ (opening head p).msgbuf = [] ∧
      (opening head p).msgsize = 0 := by
  cases head <;> exact ⟨rfl, rfl, rfl⟩

theorem opening_not_complete (head : Bool) (p : HttpParser) :
    (opening head p).headerState ≠ .headerComplete := by
  rw [(opening_state head p).1]
  exact HeaderState.noConfusion

theorem opening_nil (head : Bool) (p : HttpParser) :
    scanBuffer (opening head p) [] = (0, opening head p) :=
  scanBuffer_nil (opening_state head p).1 (opening_state head p).2.1 (opening_state head p).2.2

/-- What the memory held before does not matter. -/
theorem opening_sameMessage (head : Bool) (p q : HttpParser) :
    SameMessage (opening head p) (opening head q) := by
  have hinit := httpParserInit_sameMessage true p q
  cases head with
  | false => exact hinit
  | true =>
      have hfields := core_eq_iff.mp hinit.core
      refine ⟨⟨⟨core_eq_iff.mpr ?_, hinit.name⟩, hinit.chunk⟩, hinit.message⟩
      simp only [opening, zeroBody, if_true]
      grind

/-- A positive answer is a complete message. -/
theorem scanBuffer_pos {p : HttpParser} {bytes : List Byte} (h : 0 < (scanBuffer p bytes).1) :
    (scanBuffer p bytes).1 = 1 := by
  have hfinish : ∀ q : HttpParser, 0 < (finishMessage q).1 → (finishMessage q).1 = 1 := by
    intro q hq
    unfold finishMessage at hq ⊢
    grind
  unfold scanBuffer scanMessage at h ⊢
  split at h
  · rename_i hstate
    rw [if_pos hstate]
    simp only at h ⊢
    split at h
    · omega
    · rename_i hpos
      rw [if_neg hpos]
      exact hfinish _ h
  · rename_i hstate
    rw [if_neg hstate]
    exact hfinish _ h

/-- What a complete response has from its header. -/
theorem opening_framed {head : Bool} {p : HttpParser} {bytes : List Byte}
    (h : (scanBuffer (opening head p) bytes).1 = 1) :
    0 < (streamHead true p bytes).1 ∧
      SameHead (scanBuffer (opening head p) bytes).2 (streamHead true p bytes).2 ∧
      (scanBuffer (opening head p) bytes).2.transferLength =
        if head then 0 else bodyLength true (streamHead true p bytes).2 := by
  cases head with
  | false => exact scanBuffer_framed h
  | true =>
      simp only [opening, if_true] at h ⊢
      rw [scanBuffer_zeroBody] at h ⊢
      split at h
      · omega
      · rename_i hpos
        rw [if_neg hpos]
        obtain ⟨hhead, htl⟩ := finishMessage_sameHead (beginBody (zeroBody (streamHead true p bytes).2))
        have hbegin := beginBody_sameHead (zeroBody (streamHead true p bytes).2)
        refine ⟨Int.not_le.mp hpos, ⟨hhead.headerOffset.trans hbegin.headerOffset,
          hhead.headerList.trans hbegin.headerList, hhead.code.trans hbegin.code,
          hhead.chunked.trans hbegin.chunked⟩, htl.trans ?_⟩
        unfold beginBody zeroBody
        split
        · rfl
        · simp [sizeMax]

/-- A complete response whose status has no body ends with its header. -/
theorem opening_bodyless {head : Bool} {p : HttpParser} {bytes : List Byte}
    (hlen : bytes.length < 2 ^ 64) (h : (scanBuffer (opening head p) bytes).1 = 1)
    (hcode : (scanBuffer (opening head p) bytes).2.code.any isBodyless = true) :
    NoWrap (scanBuffer (opening head p) bytes).2 := by
  obtain ⟨hpos, hhead, htl⟩ := opening_framed h
  have hoff := streamHead_offset_le hpos
  rw [hhead.code] at hcode
  refine Or.inr ?_
  rw [htl, hhead.headerOffset, bodyLength, hcode]
  simp only [if_true, ite_self]
  omega

/-! ### The answer to a stream -/

/-- The code of an interim response. -/
def interimCode : List Byte := ascii "100"

/-- The scan ends with a complete interim response. -/
def IsInterim (r : Int × HttpParser) : Prop :=
  r.1 = 1 ∧ r.2.code = some interimCode

instance (r : Int × HttpParser) : Decidable (IsInterim r) :=
  inferInstanceAs (Decidable (_ ∧ _))

theorem interimCode_bodyless {r : Int × HttpParser} (h : IsInterim r) :
    r.2.code.any isBodyless = true := by
  rw [h.2]
  decide

/-- The answer to a whole stream: that of the parser, and behind an interim response that of a parser
that starts over. -/
inductive Answers : Bool → List Byte → Int × HttpParser → Prop where
  | last {head : Bool} {stream : List Byte}
      (h : ¬ IsInterim (scanBuffer (opening head default) stream)) :
      Answers head stream (scanBuffer (opening head default) stream)
  | interim {head : Bool} {stream : List Byte} {r : Int × HttpParser}
      (h : IsInterim (scanBuffer (opening head default) stream))
      (hrest : Answers false
        (stream.drop (scanBuffer (opening head default) stream).2.msgsize) r) :
      Answers head stream r

theorem Answers.unique {head : Bool} {stream : List Byte} {r r' : Int × HttpParser}
    (h : Answers head stream r) (h' : Answers head stream r') : r = r' := by
  induction h with
  | last hlast =>
      cases h' with
      | last => rfl
      | interim hint => exact absurd hint hlast
  | interim hint _ ih =>
      cases h' with
      | last hlast => exact absurd hint hlast
      | interim _ hrest => exact ih hrest

/-! ### Receiving in pieces -/

/-- A response between two calls: its parser has read `buf` of the response that is under way, after
`base` bytes of interim responses. -/
structure Waiting (head : Bool) (buf : List Byte) (base : Nat) (r : HttpResponse) : Prop where
  ready : Ready r.parser
  msgbuf : r.parser.msgbuf = buf
  wait : (scanBuffer (opening head default) buf).1 = 0
  same : SameMessage r.parser (scanBuffer (opening head default) buf).2
  curSize : r.curSize = base + buf.length
  errno : r.errno = none

/-- The code that `HttpMessage::append` makes of the parser's. -/
def verdict (ret : Int) : Int :=
  if ret = -2 then -1 else ret

def verdictErrno (ret : Int) : Option AppendError :=
  if ret = -2 then some .badMsg else none

theorem Waiting.start (head : Bool) (p : HttpParser) (base : Nat) {r : HttpResponse}
    (hparser : r.parser = opening head p) (hsize : r.curSize = base) (herrno : r.errno = none) :
    Waiting head [] base r where
  ready := hparser ▸ opening_ready head p
  msgbuf := by rw [hparser, (opening_state head p).2.1]
  wait := by rw [opening_nil]
  same := by
    rw [hparser, opening_nil]
    exact opening_sameMessage head p default
  curSize := by rw [hsize, List.length_nil, Nat.add_zero]
  errno := herrno

section Call

variable {head : Bool} {buf chunk : List Byte} {base : Nat} {r : HttpResponse}

/-- A call continues the scan of the response that is under way. -/
theorem Waiting.call (h : Waiting head buf base r) (chunk : List Byte) :
    SameResult SameMessage
      ((httpParserAppendMessage chunk r.parser).1, (httpParserAppendMessage chunk r.parser).2.2)
      (scanBuffer (opening head default) (buf ++ chunk)) := by
  have hopen := (opening_ready head default).toScanning
  have hscan := httpParserAppendMessage_scan h.ready (scanBuffer_resumable.keep buf hopen h.wait)
    h.same chunk
  rw [h.msgbuf] at hscan
  exact hscan.trans SameMessage.equivalence (scanBuffer_resumable.resume buf chunk hopen h.wait)

/-- `HttpMessage::append` below the size limit. -/
theorem messageAppend_fits {n : Nat} (hret : 0 ≤ (httpParserAppendMessage chunk r.parser).1)
    (hn : addSize r.curSize (httpParserAppendMessage chunk r.parser).2.1 = n)
    (hlimit : n ≤ r.sizeLimit) :
    messageAppend chunk r = ((httpParserAppendMessage chunk r.parser).1,
      (httpParserAppendMessage chunk r.parser).2.1,
      { r with parser := (httpParserAppendMessage chunk r.parser).2.2, curSize := n }) := by
  simp only [messageAppend, ge_iff_le, hret, if_true, hn, gt_iff_lt, Nat.not_lt.mpr hlimit, if_false]

/-- A call that wants more has taken the whole chunk. -/
theorem Waiting.more (h : Waiting head buf base r)
    (hzero : (scanBuffer (opening head default) (buf ++ chunk)).1 = 0)
    (hmem : base + buf.length + chunk.length < 2 ^ 63)
    (hlimit : base + buf.length + chunk.length ≤ r.sizeLimit) :
    ∃ r', responseAppend chunk r = (0, chunk.length, r') ∧ Waiting head (buf ++ chunk) base r' ∧
      r'.sizeLimit = r.sizeLimit := by
  obtain ⟨hcode, hsame⟩ := h.call chunk
  simp only at hcode
  rw [hzero] at hcode
  obtain ⟨hready, hbuf, hn⟩ := httpParserAppendMessage_waiting h.ready hcode
  have hsize : addSize r.curSize (httpParserAppendMessage chunk r.parser).2.1 =
      base + (buf ++ chunk).length := by
    rw [hn, h.curSize, addSize_of_lt (by omega), List.length_append, Nat.add_assoc]
  have hcall := messageAppend_fits (Int.le_of_eq hcode.symm) hsize
    (by rw [List.length_append]; omega)
  refine ⟨{ r with
    parser := (httpParserAppendMessage chunk r.parser).2.2
    curSize := base + (buf ++ chunk).length }, ?_, ?_, rfl⟩
  · simp only [responseAppend, hcall, hcode, hn, gt_iff_lt, Int.lt_irrefl, false_and, if_false]
  · exact ⟨hready, by rw [hbuf, h.msgbuf], hzero, hsame (by simp only [hcode]; decide), rfl, h.errno⟩

/-- What a call that completes a response has used of its chunk. -/
theorem Waiting.used (h : Waiting head buf base r)
    (hone : (scanBuffer (opening head default) (buf ++ chunk)).1 = 1)
    (hmem : base + buf.length + chunk.length < 2 ^ 63) :
    let m := (scanBuffer (opening head default) (buf ++ chunk)).2.msgsize
    m ≤ buf.length + chunk.length ∧
      addSize r.curSize (httpParserAppendMessage chunk r.parser).2.1 = base + m ∧
      (buf.length ≤ m → (httpParserAppendMessage chunk r.parser).2.1 = m - buf.length) := by
  intro m
  have hopen := (opening_ready head default).toScanning
  have hended := scanBuffer_ended hopen (opening_not_complete head default) hone
  obtain ⟨hcode, hsame⟩ := h.call chunk
  have hcode' : (httpParserAppendMessage chunk r.parser).1 = 1 := hcode.trans hone
  have hsame := hsame (by simp only [hcode']; decide)
  have hcomplete : (httpParserAppendMessage chunk r.parser).2.2.complete = true := by
    have hfields := core_eq_iff.mp hsame.core
    exact hfields.2.2.2.2.2.2.2.2.2.2.2.2.2.1.trans hended.1
  have hm : (httpParserAppendMessage chunk r.parser).2.2.msgsize = m := (hsame.message hcomplete).1
  obtain ⟨q, _, _, heq⟩ := httpParserAppendMessage_eq h.ready chunk
  rw [heq] at hcode' hm
  have hle : m ≤ buf.length + chunk.length := by
    have hle := hended.2
    rwa [List.length_append] at hle
  have hn : (httpParserAppendMessage chunk r.parser).2.1 =
      subSize chunk.length (subSize (buf.length + chunk.length) m) := by
    rw [heq]
    simp only at hcode' hm ⊢
    rw [consumed, if_pos hcode', hm, h.msgbuf, List.length_append]
  rw [hn, subSize_of_le hle (by omega), h.curSize]
  refine ⟨hle, ?_, fun hbefore => ?_⟩
  · unfold addSize subSize
    omega
  · rw [subSize_of_le (by omega) (by omega)]
    omega

/-- A call that completes a response, before `HttpResponse::append` looks at its code. -/
theorem Waiting.completed (h : Waiting head buf base r)
    (hone : (scanBuffer (opening head default) (buf ++ chunk)).1 = 1)
    (hmem : base + buf.length + chunk.length < 2 ^ 63)
    (hlimit : base + buf.length + chunk.length ≤ r.sizeLimit) :
    ∃ n p, messageAppend chunk r = (1, n, { r with
        parser := p
        curSize := base + (scanBuffer (opening head default) (buf ++ chunk)).2.msgsize }) ∧
      SameMessage p (scanBuffer (opening head default) (buf ++ chunk)).2 ∧
      (buf.length ≤ (scanBuffer (opening head default) (buf ++ chunk)).2.msgsize →
        n = (scanBuffer (opening head default) (buf ++ chunk)).2.msgsize - buf.length) := by
  obtain ⟨hle, hsize, hused⟩ := h.used hone hmem
  obtain ⟨hcode, hsame⟩ := h.call chunk
  have hcode' : (httpParserAppendMessage chunk r.parser).1 = 1 := hcode.trans hone
  have hcall := messageAppend_fits (by rw [hcode']; decide) hsize (by omega)
  rw [hcode'] at hcall
  exact ⟨_, _, hcall, hsame (by simp only [hcode']; decide), hused⟩

/-- A call that refuses the response. -/
theorem Waiting.refused (h : Waiting head buf base r)
    (hneg : (scanBuffer (opening head default) (buf ++ chunk)).1 < 0) :
    ∃ n r', responseAppend chunk r =
        (verdict (scanBuffer (opening head default) (buf ++ chunk)).1, n, r') ∧
      verdict (scanBuffer (opening head default) (buf ++ chunk)).1 < 0 ∧
      r'.errno = verdictErrno (scanBuffer (opening head default) (buf ++ chunk)).1 := by
  have hcode : (httpParserAppendMessage chunk r.parser).1 =
      (scanBuffer (opening head default) (buf ++ chunk)).1 := (h.call chunk).1
  generalize (scanBuffer (opening head default) (buf ++ chunk)).1 = ret at hneg hcode
  have hnonneg : ¬ 0 ≤ ret := Int.not_le.mpr hneg
  refine ⟨(httpParserAppendMessage chunk r.parser).2.1, ?_⟩
  by_cases hbad : ret = -2
  · refine ⟨{ r with
      parser := (httpParserAppendMessage chunk r.parser).2.2, errno := some .badMsg }, ?_, ?_, ?_⟩
    · subst hbad
      simp [responseAppend, messageAppend, hcode, verdict]
    · simp [verdict, hbad]
    · simp [verdictErrno, hbad]
  · refine ⟨{ r with parser := (httpParserAppendMessage chunk r.parser).2.2 }, ?_, ?_, ?_⟩
    · have hpos : ¬ 0 < ret := by omega
      simp [responseAppend, messageAppend, hcode, verdict, hnonneg, hbad, hpos]
    · simpa [verdict, hbad] using hneg
    · simp [verdictErrno, hbad, h.errno]

end Call

/-- An interim response does not end before the bytes that it waited with. -/
theorem Waiting.interim_beyond {head : Bool} {buf chunk : List Byte} {base : Nat} {r : HttpResponse}
    (h : Waiting head buf base r) (hlen : (buf ++ chunk).length < 2 ^ 64)
    (hint : IsInterim (scanBuffer (opening head default) (buf ++ chunk))) :
    buf.length < (scanBuffer (opening head default) (buf ++ chunk)).2.msgsize :=
  scanBuffer_waited (opening_ready head default).toScanning (opening_not_complete head default)
    h.wait hint.1 (opening_bodyless hlen hint.1 (interimCode_bodyless hint))

/-- More bytes do not change an answer. -/
theorem scanBuffer_more {head : Bool} {bytes : List Byte} (more : List Byte)
    (h : (scanBuffer (opening head default) bytes).1 ≠ 0) :
    SameResult SameMessage (scanBuffer (opening head default) (bytes ++ more))
      (scanBuffer (opening head default) bytes) :=
  scanBuffer_resumable.decided bytes more (opening_ready head default).toScanning h

theorem IsInterim.congr {x y : Int × HttpParser} (h : SameResult SameMessage x y) :
    IsInterim x ↔ IsInterim y := by
  unfold IsInterim
  rw [h.1]
  refine and_congr_right fun hone => ?_
  have hfields := core_eq_iff.mp (h.2 (by rw [h.1, hone]; decide)).core
  rw [hfields.2.2.2.2.2.2.2.1]

/-- A call that answers, and not with an interim response, ends the receiving. -/
theorem Waiting.ended {head : Bool} {buf chunk : List Byte} {base : Nat} {r : HttpResponse}
    (h : Waiting head buf base r) (chunks : List (List Byte))
    (hne : (scanBuffer (opening head default) (buf ++ chunk)).1 ≠ 0)
    (hlast : ¬ IsInterim (scanBuffer (opening head default) (buf ++ chunk)))
    (hmem : base + buf.length + chunk.length < 2 ^ 63)
    (hlimit : base + buf.length + chunk.length ≤ r.sizeLimit) :
    ∃ x, receive (chunk :: chunks) r = some x ∧
      x.1 = verdict (scanBuffer (opening head default) (buf ++ chunk)).1 ∧
      x.2.errno = verdictErrno (scanBuffer (opening head default) (buf ++ chunk)).1 ∧
      (0 ≤ (scanBuffer (opening head default) (buf ++ chunk)).1 →
        SameMessage x.2.parser (scanBuffer (opening head default) (buf ++ chunk)).2) := by
  by_cases hneg : (scanBuffer (opening head default) (buf ++ chunk)).1 < 0
  · obtain ⟨n, r', hcall, hverdict, herrno⟩ := h.refused hneg
    refine ⟨(verdict (scanBuffer (opening head default) (buf ++ chunk)).1, r'), ?_, rfl, herrno,
      fun hnonneg => absurd hneg (Int.not_lt.mpr hnonneg)⟩
    rw [receive, hcall]
    simp [Int.ne_of_lt hverdict]
  · have hone := scanBuffer_pos (by omega : 0 < (scanBuffer (opening head default) (buf ++ chunk)).1)
    obtain ⟨n, p, hcall, hsame, _⟩ := h.completed hone hmem hlimit
    have hcode : p.code ≠ some (ascii "100") := by
      intro hcode
      exact hlast ⟨hone, ((core_eq_iff.mp hsame.core).2.2.2.2.2.2.2.1.symm.trans hcode)⟩
    refine ⟨(1, { r with
      parser := p
      curSize := base + (scanBuffer (opening head default) (buf ++ chunk)).2.msgsize }), ?_,
      by rw [hone]; rfl, ?_, fun _ => hsame⟩
    · rw [receive]
      simp [responseAppend, hcall, hcode]
    · rw [hone]
      exact h.errno

/-- A response that arrives in any pieces is answered like the whole stream. -/
theorem receive_answers (n : Nat) {head : Bool} {buf : List Byte} {base : Nat} {r : HttpResponse}
    {chunks : List (List Byte)} (hn : chunks.flatten.length + chunks.length ≤ n)
    (h : Waiting head buf base r) (hmem : base + buf.length + chunks.flatten.length < 2 ^ 63)
    (hlimit : base + buf.length + chunks.flatten.length ≤ r.sizeLimit) :
    ∃ a x, Answers head (buf ++ chunks.flatten) a ∧ receive chunks r = some x ∧
      x.1 = verdict a.1 ∧ x.2.errno = verdictErrno a.1 ∧ (0 ≤ a.1 → SameMessage x.2.parser a.2) := by
  have hnil : ∀ {head : Bool} {buf : List Byte} {base : Nat} {r : HttpResponse},
      Waiting head buf base r → ∃ a x, Answers head (buf ++ []) a ∧ receive [] r = some x ∧
        x.1 = verdict a.1 ∧ x.2.errno = verdictErrno a.1 ∧
        (0 ≤ a.1 → SameMessage x.2.parser a.2) := by
    intro head buf base r h
    have hwait := h.wait
    have hlast : ¬ IsInterim (scanBuffer (opening head default) buf) := by
      intro hint
      have hone := hint.1
      omega
    rw [List.append_nil]
    exact ⟨_, (0, r), .last hlast, by rw [receive], by rw [hwait]; rfl,
      by rw [hwait]; exact h.errno, fun _ => h.same⟩
  induction n generalizing head buf base r chunks with
  | zero =>
      have hempty : chunks = [] := List.eq_nil_of_length_eq_zero (by omega)
      subst hempty
      exact hnil h
  | succ n ih =>
      cases chunks with
      | nil => exact hnil h
      | cons chunk chunks =>
          simp only [List.flatten_cons, List.length_append, List.length_cons] at hn hmem hlimit
          rw [List.flatten_cons, ← List.append_assoc]
          by_cases hzero : (scanBuffer (opening head default) (buf ++ chunk)).1 = 0
          · obtain ⟨r', hcall, hwait, hkeep⟩ := h.more hzero (by omega) (by omega)
            have hrest := @ih _ _ _ _ chunks (by omega) hwait
              (by rw [List.length_append]; omega) (by rw [hkeep, List.length_append]; omega)
            rw [receive, hcall]
            simpa using hrest
          · have hmore := scanBuffer_more chunks.flatten hzero
            by_cases hint : IsInterim (scanBuffer (opening head default) (buf ++ chunk))
            · -- the interim response is dropped, and the parser starts over
              have hbeyond := h.interim_beyond (by rw [List.length_append]; omega) hint
              have hcomplete := (scanBuffer_ended (opening_ready head default).toScanning
                (opening_not_complete head default) hint.1).1
              obtain ⟨hle, _, _⟩ := h.used hint.1 (by omega)
              obtain ⟨used, p, hcall, hsame, hused⟩ := h.completed hint.1 (by omega) (by omega)
              have hused := hused (Nat.le_of_lt hbeyond)
              have hcode : p.code = some (ascii "100") :=
                (core_eq_iff.mp hsame.core).2.2.2.2.2.2.2.1.trans hint.2
              have hwhole := hmore.2 (by rw [hmore.1, hint.1]; decide)
              have hend := (hwhole.message ((core_eq_iff.mp hwhole.core).2.2.2.2.2.2.2.2.2.2.2.2.2.1.trans
                hcomplete)).1
              generalize (scanBuffer (opening head default) (buf ++ chunk)).2.msgsize = m at *
              generalize hr' : ({ r with
                parser := httpParserInit true p, curSize := base + m } : HttpResponse) = r'
              have happend : responseAppend chunk r = (0, used, r') := by
                simp [responseAppend, hcall, hcode, ← hr']
              have hwait : Waiting false [] (base + m) r' :=
                .start false p (base + m) (by rw [← hr']; rfl) (by rw [← hr'])
                  (by rw [← hr']; exact h.errno)
              have hkeep : r'.sizeLimit = r.sizeLimit := by rw [← hr']
              have hdrop : (buf ++ chunk ++ chunks.flatten).drop m =
                  chunk.drop used ++ chunks.flatten := by
                rw [List.drop_append_of_le_length (by rw [List.length_append]; omega), hused,
                  List.drop_append, List.drop_eq_nil_of_le (Nat.le_of_lt hbeyond), List.nil_append]
              have hanswers : ∀ a, Answers false (chunk.drop used ++ chunks.flatten) a →
                  Answers head (buf ++ chunk ++ chunks.flatten) a := by
                intro a ha
                refine .interim ((IsInterim.congr hmore).mpr hint) ?_
                rw [hend, hdrop]
                exact ha
              rw [receive, happend]
              by_cases hfull : chunk.length ≤ used
              · obtain ⟨a, x, ha, hx, hrest⟩ := @ih _ _ _ _ chunks (by omega) hwait
                  (by rw [List.length_nil]; omega) (by rw [hkeep, List.length_nil]; omega)
                rw [List.nil_append] at ha
                refine ⟨a, x, hanswers a ?_, by simpa [hfull] using hx, hrest⟩
                rw [List.drop_eq_nil_of_le hfull, List.nil_append]
                exact ha
              · have hne : used ≠ 0 := by omega
                obtain ⟨a, x, ha, hx, hrest⟩ := @ih _ _ _ _ (chunk.drop used :: chunks)
                  (by simp only [List.flatten_cons, List.length_append, List.length_drop,
                        List.length_cons]
                      omega) hwait
                  (by simp only [List.flatten_cons, List.length_append, List.length_drop,
                        List.length_nil]
                      omega)
                  (by simp only [hkeep, List.flatten_cons, List.length_append, List.length_drop,
                        List.length_nil]
                      omega)
                exact ⟨a, x, hanswers a (by simpa using ha), by simpa [hfull, hne] using hx, hrest⟩
            · -- the answer to the bytes so far is the answer to the stream
              have hlast : ¬ IsInterim (scanBuffer (opening head default)
                  (buf ++ chunk ++ chunks.flatten)) := by
                rwa [IsInterim.congr hmore]
              obtain ⟨x, hx, hverdict, herrno, hsame⟩ :=
                h.ended chunks hzero hint (by omega) (by omega)
              rw [← hmore.1] at hverdict herrno
              refine ⟨_, x, .last hlast, hx, hverdict, herrno, fun hnonneg => ?_⟩
              have hsame := hsame (by rw [← hmore.1]; exact hnonneg)
              exact SameMessage.equivalence.trans hsame
                (SameMessage.equivalence.symm (hmore.2 hnonneg))

/-! ### A response with no body -/

theorem zeroBody_eq {p : HttpParser} (h : p.transferLength = 0) : zeroBody p = p := by
  rw [zeroBody, ← h]

theorem beginBody_zeroBody {p : HttpParser} (h : (beginBody p).transferLength = 0) :
    beginBody (zeroBody p) = beginBody p := by
  by_cases hchunked : p.chunked = true
  · rw [beginBody, if_pos hchunked] at h
    have hzero : p.transferLength = 0 := h
    rw [zeroBody_eq hzero]
  · by_cases hmax : p.transferLength = sizeMax
    · rw [beginBody, if_neg hchunked, if_pos hmax] at h
      simp only at h
      rw [beginBody, beginBody, if_neg hchunked, if_pos hmax]
      simp [zeroBody, hchunked, sizeMax, h]
    · rw [beginBody, if_neg hchunked, if_neg hmax] at h
      rw [zeroBody_eq h]

/-- A response whose own header announces no body is read alike for every method. -/
theorem scanBuffer_opening_eq {bytes : List Byte} (hpos : 0 < (streamHead true default bytes).1)
    (hzero : bodyLength true (streamHead true default bytes).2 = 0) (head : Bool) :
    scanBuffer (opening head default) bytes = scanBuffer (opening false default) bytes := by
  cases head with
  | false => rfl
  | true =>
      simp only [opening, if_true, Bool.false_eq_true, if_false]
      rw [scanBuffer_zeroBody, scanBuffer_init, if_neg (Int.not_le.mpr hpos),
        if_neg (Int.not_le.mpr hpos), beginBody_zeroBody]
      rw [streamHead_transferLength, hzero]

/-- A well-formed interim response: the parser accepts all of it, with the code 100. -/
def WellFormedInterim (bytes : List Byte) : Prop :=
  IsInterim (scanBuffer (opening false default) bytes) ∧
    (scanBuffer (opening false default) bytes).2.msgsize = bytes.length

instance (bytes : List Byte) : Decidable (WellFormedInterim bytes) :=
  inferInstanceAs (Decidable (_ ∧ _))

/-- A stream that does not begin with an interim response. -/
def FinalResponse (bytes : List Byte) : Prop :=
  ¬ (0 < (streamHead true default bytes).1 ∧
    (streamHead true default bytes).2.code = some interimCode)

instance (bytes : List Byte) : Decidable (FinalResponse bytes) :=
  inferInstanceAs (Decidable (¬ (_ ∧ _)))

/-- The answer to interim responses with something behind them. Only without interim responses the
parser still knows the method. -/
theorem Answers.interims {head : Bool} {interims : List (List Byte)} {rest : List Byte}
    {a : Int × HttpParser} (hwell : ∀ i ∈ interims, WellFormedInterim i)
    (hlen : interims.flatten.length < 2 ^ 64)
    (ha : Answers (head && interims.isEmpty) rest a) : Answers head (interims.flatten ++ rest) a := by
  induction interims generalizing head with
  | nil => simpa using ha
  | cons i interims ih =>
      obtain ⟨hint, hsize⟩ := hwell i List.mem_cons_self
      rw [List.flatten_cons, List.length_append] at hlen
      obtain ⟨hpos, hhead, _⟩ := opening_framed hint.1
      have hzero : bodyLength true (streamHead true default i).2 = 0 := by
        rw [bodyLength, ← hhead.code, interimCode_bodyless hint, if_pos rfl]
      rw [← scanBuffer_opening_eq hpos hzero head] at hint hsize
      have hmore := scanBuffer_more (interims.flatten ++ rest) (by rw [hint.1]; decide)
      have hsame := hmore.2 (by rw [hmore.1, hint.1]; decide)
      have hcomplete := (scanBuffer_ended (opening_ready head default).toScanning
        (opening_not_complete head default) hint.1).1
      have hend := (hsame.message
        ((core_eq_iff.mp hsame.core).2.2.2.2.2.2.2.2.2.2.2.2.2.1.trans hcomplete)).1
      rw [List.flatten_cons, List.append_assoc]
      refine .interim ((IsInterim.congr hmore).mpr hint) ?_
      rw [hend, hsize, List.drop_left]
      refine ih (fun j hj => hwell j (List.mem_cons_of_mem i hj)) (by omega) ?_
      simpa using ha

theorem FinalResponse.answers {final : List Byte} (h : FinalResponse final) (head : Bool) :
    Answers head final (scanBuffer (opening head default) final) := by
  refine .last fun hint => h ?_
  obtain ⟨hpos, hhead, _⟩ := opening_framed hint.1
  exact ⟨hpos, hhead.code.symm.trans hint.2⟩

/-! ### The outcome of receiving -/

/-- Two complete responses agree: start line, headers, framing, and the bytes of the message. -/
structure SameResponse (p q : HttpParser) : Prop where
  version : p.version = q.version
  code : p.code = q.code
  phrase : p.phrase = q.phrase
  headers : p.headerList = q.headerList
  keepAlive : p.keepAlive = q.keepAlive
  chunked : p.chunked = q.chunked
  transferLength : p.transferLength = q.transferLength
  headerOffset : p.headerOffset = q.headerOffset
  message : p.message = q.message

theorem SameMessage.response {p q : HttpParser} (h : SameMessage p q) (hp : p.complete = true) :
    SameResponse p q := by
  have hfields := core_eq_iff.mp h.core
  have hmessage := (h.message hp).2
  exact ⟨by grind, by grind, by grind, by grind, by grind, by grind, by grind, by grind, hmessage⟩

/-- Two ways of receiving end alike. -/
structure SameOutcome (x y : Int × HttpResponse) : Prop where
  verdict : x.1 = y.1
  errno : x.2.errno = y.2.errno
  response : x.1 = 1 → SameResponse x.2.parser y.2.parser

def EndAlike (x y : Option (Int × HttpResponse)) : Prop :=
  ∃ a b, x = some a ∧ y = some b ∧ SameOutcome a b

/-- The header of the final response, if it is complete, announces no body: the status has none, or
the response is not chunked and its last numeric Content-Length is stored as 0. -/
def AnnouncesNoBody (final : List Byte) : Prop :=
  0 < (streamHead true default final).1 →
    bodyLength true (streamHead true default final).2 = 0

instance (final : List Byte) : Decidable (AnnouncesNoBody final) :=
  inferInstanceAs (Decidable (_ → _))

theorem messageIn_waiting (method : List Byte) (memory : HttpParser) (limit : Nat) :
    Waiting (method == ascii "HEAD") [] 0 (messageIn method (.init memory limit)) ∧
      (messageIn method (.init memory limit)).sizeLimit = limit := by
  unfold messageIn
  by_cases hhead : method = ascii "HEAD"
  · rw [if_pos hhead, hhead]
    exact ⟨.start true memory 0 rfl rfl rfl, rfl⟩
  · rw [if_neg hhead, beq_false_of_ne hhead]
    exact ⟨.start false memory 0 rfl rfl rfl, rfl⟩

theorem verdict_eq_one {ret : Int} (h : verdict ret = 1) : ret = 1 := by
  unfold verdict at h
  split at h <;> omega

/-- With no body expected a complete header is a complete response. -/
theorem scanBuffer_head_complete {bytes : List Byte} (hlen : bytes.length < 2 ^ 64)
    (hpos : 0 < (streamHead true default bytes).1) :
    (scanBuffer (opening true default) bytes).1 = 1 := by
  have hoff := streamHead_offset_le hpos
  have hsize := (headerRun_sameBuffer bytes (setBuf (httpParserInit true default) bytes)).msgsize
  simp only [opening, if_true]
  rw [scanBuffer_zeroBody, if_neg (Int.not_le.mpr hpos)]
  refine (finishMessage_zeroBody (by omega) (Nat.le_trans hoff (Nat.le_of_eq ?_))).1
  exact hsize.symm

/-- How the answers to the final response compare. -/
theorem answers_compare {final : List Byte} {interims : List (List Byte)} {head : Bool}
    (hbody : head = true → interims ≠ [] → AnnouncesNoBody final) :
    let a := scanBuffer (opening (head && interims.isEmpty) default) final
    let b := scanBuffer (opening head default) final
    a.1 = b.1 ∧ (a.1 = 1 → a = b) := by
  intro a b
  by_cases hpos : 0 < (streamHead true default final).1
  · have heq : a = b := by
      cases interims with
      | nil => simp [a, b]
      | cons i interims =>
          cases head with
          | false => rfl
          | true =>
              have hzero := hbody rfl (List.cons_ne_nil _ _) hpos
              exact (scanBuffer_opening_eq hpos hzero true).symm
    exact ⟨congrArg Prod.fst heq, fun _ => heq⟩
  · have hcode : ∀ head, (scanBuffer (opening head default) final).1 =
        (streamHead true default final).1 := by
      intro head
      cases head with
      | false =>
          simp only [opening, Bool.false_eq_true, if_false]
          rw [scanBuffer_init, if_pos (Int.not_lt.mp hpos)]
      | true =>
          simp only [opening, if_true]
          rw [scanBuffer_zeroBody, if_pos (Int.not_lt.mp hpos)]
    refine ⟨(hcode _).trans (hcode _).symm, fun hone => absurd ?_ hpos⟩
    rw [← hcode (head && interims.isEmpty), hone]
    decide

/-- Interim responses are transparent exactly for requests other than HEAD, without interim responses,
and for final responses that announce no body of their own. -/
theorem interim_transparent (method : List Byte) (memory : HttpParser) (limit : Nat)
    (interims chunks alone : List (List Byte)) (final : List Byte)
    (hchunks : chunks.flatten = interims.flatten ++ final) (halone : alone.flatten = final)
    (hinterims : ∀ i ∈ interims, WellFormedInterim i) (hfinal : FinalResponse final)
    (hmem : chunks.flatten.length < 2 ^ 63) (hlimit : chunks.flatten.length ≤ limit) :
    EndAlike (receive chunks (messageIn method (.init memory limit)))
        (receive alone (messageIn method (.init memory limit))) ↔
      (method = ascii "HEAD" → interims ≠ [] → AnnouncesNoBody final) := by
  obtain ⟨hwait, hkeep⟩ := messageIn_waiting method memory limit
  generalize messageIn method (.init memory limit) = r at hwait hkeep ⊢
  generalize hhead : (method == ascii "HEAD") = head at hwait
  have hlen : chunks.flatten.length = interims.flatten.length + final.length := by
    rw [hchunks, List.length_append]
  obtain ⟨a, x, ha, hx, hverdict, herrno, hsame⟩ := @receive_answers _ _ _ _ _ chunks
    (Nat.le_refl _) hwait (by rw [List.length_nil]; omega) (by rw [hkeep, List.length_nil]; omega)
  obtain ⟨b, y, hb, hy, hverdict', herrno', hsame'⟩ := @receive_answers _ _ _ _ _ alone
    (Nat.le_refl _) hwait (by rw [List.length_nil, halone]; omega)
    (by rw [hkeep, List.length_nil, halone]; omega)
  rw [List.nil_append, hchunks] at ha
  rw [List.nil_append, halone] at hb
  -- both answers are answers of the parser to the final response
  obtain rfl := ha.unique (Answers.interims hinterims (by omega)
    (hfinal.answers (head && interims.isEmpty)))
  obtain rfl := hb.unique (hfinal.answers head)
  have hsome : EndAlike (receive chunks r) (receive alone r) ↔ SameOutcome x y := by
    rw [hx, hy]
    constructor
    · rintro ⟨_, _, ⟨rfl⟩, ⟨rfl⟩, hsame⟩
      exact hsame
    · exact fun hsame => ⟨x, y, rfl, rfl, hsame⟩
  rw [hsome]
  constructor
  · intro hout hmethod hne hpos
    have htrue : head = true := by
      rw [← hhead, hmethod]
      exact beq_self_eq_true _
    subst htrue
    have hfalse : (true && interims.isEmpty) = false := by
      simpa using hne
    rw [hfalse] at hverdict hsame
    have hb := scanBuffer_head_complete (by omega : final.length < 2 ^ 64) hpos
    have hy1 : y.1 = 1 := by
      rw [hverdict', hb]
      rfl
    have ha := verdict_eq_one (hverdict.symm.trans (hout.verdict.trans hy1))
    have htl := (hout.response (hout.verdict.trans hy1)).transferLength
    rw [(core_eq_iff.mp (hsame (by rw [ha]; decide)).core).2.2.2.1,
      (core_eq_iff.mp (hsame' (by rw [hb]; decide)).core).2.2.2.1,
      (opening_framed ha).2.2, (opening_framed hb).2.2] at htl
    simpa using htl
  · intro hbody
    have hmethod : head = true → method = ascii "HEAD" := by
      intro htrue
      rw [htrue] at hhead
      exact eq_of_beq hhead
    obtain ⟨hcode, heq⟩ := answers_compare fun htrue hne => hbody (hmethod htrue) hne
    refine ⟨by rw [hverdict, hverdict', hcode], by rw [herrno, herrno', hcode], fun hone => ?_⟩
    have ha := verdict_eq_one (hverdict.symm.trans hone)
    have hended := scanBuffer_ended (opening_ready _ default).toScanning
      (opening_not_complete _ default) ha
    have hsame := hsame (by rw [ha]; decide)
    have hsame' := hsame' (by rw [← hcode, ha]; decide)
    rw [← heq ha] at hsame'
    refine (SameMessage.equivalence.trans hsame (SameMessage.equivalence.symm hsame')).response ?_
    exact (core_eq_iff.mp hsame.core).2.2.2.2.2.2.2.2.2.2.2.2.2.1.trans hended.1

/-- Two interim responses in front of a response with a body, cut at arbitrary places. -/
theorem interim_transparent_get :
    EndAlike
      (receive [ascii "HTTP/1.1 100 Continue\r\n\r\nHTTP/1.1 100 Go\r\nA: b\r", ascii "\n\r\nHTTP/1.1 200",
        ascii " OK\r\nContent-Length: 3\r\n\r\nab", ascii "c"]
        (messageIn (ascii "GET") (.init default 1000)))
      (receive [ascii "HTTP/1.1 200 OK\r\nContent-Length: 3\r\n\r\nabc"]
        (messageIn (ascii "GET") (.init default 1000))) :=
  (interim_transparent (ascii "GET") default 1000
    [ascii "HTTP/1.1 100 Continue\r\n\r\n", ascii "HTTP/1.1 100 Go\r\nA: b\r\n\r\n"] _ _
    (ascii "HTTP/1.1 200 OK\r\nContent-Length: 3\r\n\r\nabc") (by decide +kernel)
    (by decide +kernel) (by decide +kernel) (by decide +kernel) (by decide +kernel)
    (by decide +kernel)).mpr (fun h => absurd h (by decide))

/-- Behind an interim response the parser waits for the body that a response to HEAD does not have. -/
theorem interim_head_waits :
    let interim := ascii "HTTP/1.1 100 Continue\r\n\r\n"
    let final := ascii "HTTP/1.1 200 OK\r\nContent-Length: 3\r\n\r\n"
    WellFormedInterim interim ∧ FinalResponse final ∧
      (receive [final] (messageIn (ascii "HEAD") (.init default 1000))).map Prod.fst = some 1 ∧
      (receive [interim ++ final] (messageIn (ascii "HEAD") (.init default 1000))).map Prod.fst =
        some 0 := by
  decide +kernel

end Workflow.Http
