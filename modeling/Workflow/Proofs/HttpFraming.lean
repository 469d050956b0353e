/-
Module: Workflow.Proofs.HttpFraming
Layer: Proofs
Purpose: Where a message ends. The framing fields of the parser follow from the headers read so far,
  and a message that had to wait for bytes ends behind the bytes it waited with.
Trusted boundary: none
Main exports: lastContentLength, declaredLength, HeadInv, headerRun_headInv, scanBuffer_waited
-/
import Workflow.Proofs.HttpResume

namespace Workflow.Http

open Workflow.Lib

/-! ### The framing fields -/

/-- A header whose value the parser takes as the length of the body. -/
def isContentLength (line : HeaderLine) : Bool :=
  strcasecmpEq line.name (ascii "Content-Length") && startsWithDigit line.value

/-- The text of the last numeric Content-Length header. -/
def lastContentLength (lines : List HeaderLine) : Option (List Byte) :=
  (lines.filter isContentLength).getLast?.map HeaderLine.value

/-- The length of the body that the headers read so far announce, as the parser stores it. -/
def declaredLength (isResp : Bool) (lines : List HeaderLine) : Nat :=
  match lastContentLength lines with
  | some value => toSize (atoi value)
  | none => if isResp then sizeMax else 0

/-- The framing fields while the header is being read. -/
structure HeadInv (resp : Bool) (p : HttpParser) : Prop where
  isResp : p.isResp = resp
  contentLength : p.contentLength = declaredLength resp p.headerList
  transferLength : p.transferLength = if p.code.any isBodyless then 0 else sizeMax
  fresh : p.headerState = .startLine → p.code = none

theorem httpParserInit_headInv (isResp : Bool) (p : HttpParser) :
    HeadInv isResp (httpParserInit isResp p) :=
  ⟨rfl, rfl, rfl, fun _ => rfl⟩

theorem httpParserInit_scanning (isResp : Bool) (p : HttpParser) :
    Scanning (httpParserInit isResp p) :=
  ⟨rfl, fun h => by simp [httpParserInit] at h⟩

theorem strcasecmpEq_length {a b : List Byte} (h : strcasecmpEq a b = true) :
    a.length = b.length := by
  have hmap : a.map tolower = b.map tolower := by simpa [strcasecmpEq] using h
  simpa using congrArg List.length hmap

theorem lastContentLength_append (lines : List HeaderLine) (line : HeaderLine) :
    lastContentLength (lines ++ [line]) =
      if isContentLength line then some line.value else lastContentLength lines := by
  unfold lastContentLength
  rw [List.filter_append]
  by_cases h : isContentLength line = true
  · simp [h]
  · simp [h]

/-- A header sets the stored length exactly when it is a numeric Content-Length. -/
theorem applyHeader_contentLength (name value : List Byte) (p : HttpParser) :
    (applyHeader name value p).contentLength =
      if isContentLength { name := name, value := value } then toSize (atoi value)
      else p.contentLength := by
  have hlen : strcasecmpEq name (ascii "Content-Length") = true → name.length = 14 :=
    fun h => (strcasecmpEq_length h).trans (by decide)
  by_cases h14 : name.length = 14
  · simp only [applyHeader, isContentLength, h14]
    simp
    split <;> rfl
  · have hno : isContentLength { name := name, value := value } = false := by
      simp only [isContentLength, Bool.and_eq_false_imp]
      exact fun h => absurd (hlen h) h14
    simp only [hno, applyHeader, if_neg h14]
    grind

/-- A header touches neither the status line's fields nor the direction. -/
theorem applyHeader_frame (name value : List Byte) (p : HttpParser) :
    (applyHeader name value p).isResp = p.isResp ∧
      (applyHeader name value p).transferLength = p.transferLength ∧
      (applyHeader name value p).code = p.code ∧
      (applyHeader name value p).headerList = p.headerList := by
  unfold applyHeader
  grind

theorem parseStartLine_headInv {isResp : Bool} {p : HttpParser} (h : HeadInv isResp p)
    (hs : p.headerState = .startLine) (bytes : List Byte) :
    HeadInv isResp (parseStartLine p bytes).2 := by
  have hcode := h.fresh hs
  have htransfer : p.transferLength = sizeMax := by
    rw [h.transferLength, hcode]
    rfl
  unfold parseStartLine
  split
  · exact ⟨h.isResp, h.contentLength, h.transferLength, h.fresh⟩
  · split
    · exact h
    · exact h
    · split
      · exact h
      · split
        · exact h
        · rename_i p1 _ _ _ p2 p3 _
          cases hresp : p.isResp
          · exact ⟨h.isResp, h.contentLength, h.transferLength, fun hstate => by simp at hstate⟩
          · refine ⟨h.isResp, h.contentLength, ?_, fun hstate => by simp at hstate⟩
            simp [matchStatusLine, htransfer]

theorem parseHeaderValue_headInv {isResp : Bool} {p : HttpParser} (h : HeadInv isResp p)
    (bytes : List Byte) : HeadInv isResp (parseHeaderValue p bytes).2 := by
  unfold parseHeaderValue
  split
  · exact h
  · exact h
  · rename_i content rest _
    obtain ⟨hresp, htransfer, hcode, hlist⟩ := applyHeader_frame p.name content p
    refine ⟨hresp.trans h.isResp, ?_, ?_, fun hstate => by simp at hstate⟩
    · simp only [matchMessageHeader, httpParserAddHeader, applyHeader_contentLength, hlist,
        declaredLength, lastContentLength_append]
      split
      · rfl
      · exact h.contentLength
    · simp only [matchMessageHeader, httpParserAddHeader, htransfer, hcode]
      exact h.transferLength

theorem headerNameLoop_headInv {isResp : Bool} {i : Nat} {p : HttpParser} (bytes : List Byte)
    (h : HeadInv isResp p) : HeadInv isResp (headerNameLoop i p bytes).2 := by
  fun_induction headerNameLoop i p bytes with
  | case4 => exact ⟨h.isResp, h.contentLength, h.transferLength, fun hstate => by simp at hstate⟩
  | case5 i p c rest hi hc hok ih =>
      exact ih ⟨h.isResp, h.contentLength, h.transferLength, h.fresh⟩
  | _ => exact h

theorem parseMessageHeaderStep_headInv {isResp : Bool} (p : HttpParser) (bytes : List Byte)
    (h : HeadInv isResp p) : HeadInv isResp (parseMessageHeaderStep p bytes).2 := by
  unfold parseMessageHeaderStep
  split
  · exact parseStartLine_headInv h (by assumption) bytes
  · split
    · exact parseHeaderValue_headInv h bytes
    · unfold parseHeaderName
      split
      · exact ⟨h.isResp, h.contentLength, h.transferLength, fun hstate => by simp at hstate⟩
      · exact headerNameLoop_headInv bytes h

/-- The framing fields follow from the headers for as long as the header is being read. -/
theorem headerRun_headInv {isResp : Bool} (message : List Byte) (p : HttpParser)
    (h : HeadInv isResp p) : HeadInv isResp (headerScanner.run message p).2 :=
  Scanner.run_preserves parseMessageHeaderStep_headInv message p h

/-! ### A step that waited reads past the bytes it waited with -/

theorem scanLine_waited {max : Nat} {ok : Byte → Bool} {i : Nat} {bytes more content : List Byte}
    (h : scanLine max ok i bytes = .more)
    (hmore : scanLine max ok i (bytes ++ more) = .line content) :
    bytes.length < content.length + 2 := by
  fun_induction scanLine max ok i bytes generalizing content with
  | case2 => simp
  | case4 => simp
  | case7 i c rest hi hc hok ih =>
      have hrest : scanLine max ok (i + 1) rest = .more := by
        cases hscan : scanLine max ok (i + 1) rest <;> simp_all [LineScan.cons]
      simp only [List.cons_append, scanLine, hi, hc, hok, if_false, if_true] at hmore
      cases hscan : scanLine max ok (i + 1) (rest ++ more) with
      | more => simp [hscan, LineScan.cons] at hmore
      | bad => simp [hscan, LineScan.cons] at hmore
      | line tail =>
          simp only [hscan, LineScan.cons, LineScan.line.injEq] at hmore
          have hlt := ih hrest hscan
          simp only [← hmore, List.length_cons]
          omega
  | _ => simp at h

theorem headerNameLoop_waited {i : Nat} {p : HttpParser} {bytes more : List Byte}
    (h : (headerNameLoop i p bytes).1 = 0) (hmore : 0 < (headerNameLoop i p (bytes ++ more)).1) :
    p.headerOffset + i + bytes.length <
      (headerNameLoop i p (bytes ++ more)).2.headerOffset := by
  fun_induction headerNameLoop i p bytes with
  | case2 i p hi => simpa using (headerNameLoop_progress hmore).2
  | case5 i p c rest hi hc hok ih =>
      simp only [List.cons_append, headerNameLoop, hi, hc, hok, if_false, if_true] at hmore ⊢
      have hlt := ih h hmore
      simp only [List.length_cons] at hlt ⊢
      omega
  | _ => simp at h

/-- A value that waited leaves at most the bytes that came later. -/
theorem headerValueLoop_waited {skipping : Bool} {value bytes more content rest : List Byte}
    (h : headerValueLoop skipping value bytes = .more)
    (hmore : headerValueLoop skipping value (bytes ++ more) = .value content rest) :
    rest.length ≤ more.length := by
  fun_induction headerValueLoop skipping value bytes with
  | case1 =>
      have hlt := headerValueLoop_rest_lt hmore
      simp at hlt
      omega
  | case2 skipping value c tail hb ih =>
      rw [List.cons_append, headerValueLoop.eq_def] at hmore
      simp only [if_pos hb] at hmore
      exact ih h hmore
  | case4 skipping value c hb hlen =>
      have hlt := headerValueLoop_rest_lt hmore
      simp at hlt
      omega
  | case5 skipping value hlen hb =>
      rw [headerValueLoop.eq_def] at hmore
      simp only [List.cons_append, List.nil_append, if_neg hb, if_neg hlen, if_true] at hmore
      cases more with
      | nil => simp at hmore
      | cons e tail =>
          simp only at hmore
          split at hmore
          · have hlt := headerValueLoop_rest_lt hmore
            simp only [List.length_cons]
            omega
          · simp only [ValueScan.value.injEq] at hmore
            simp [← hmore.2]
  | case6 skipping value hlen e tail he hb ih =>
      rw [headerValueLoop.eq_def] at hmore
      simp only [List.cons_append, if_neg hb, if_neg hlen, if_true, if_pos he] at hmore
      exact ih h hmore
  | case9 skipping value c hb hlen d tail hc hok ih =>
      rw [headerValueLoop.eq_def] at hmore
      simp only [List.cons_append, if_neg hb, if_neg hlen, if_neg hc, if_pos hok] at hmore
      exact ih h hmore
  | _ => simp at h

/-- Only an empty buffer or a lone CR waits in front of a CR LF. -/
theorem startsWithCrlf_waited {bytes more : List Byte} (h : startsWithCrlf (bytes ++ more) = true)
    (hn : startsWithCrlf bytes = false) : bytes.length < 2 := by
  rcases startsWithCrlf_of_append h hn with rfl | rfl <;> simp

theorem parseStartLine_waited {p : HttpParser} {bytes more : List Byte}
    (h : (parseStartLine p bytes).1 = 0) (hmore : 0 < (parseStartLine p (bytes ++ more)).1) :
    p.headerOffset + bytes.length < (parseStartLine p (bytes ++ more)).2.headerOffset := by
  unfold parseStartLine at h hmore ⊢
  have hnc : startsWithCrlf bytes = false := by
    cases hc : startsWithCrlf bytes with
    | false => rfl
    | true => simp [hc] at h
  by_cases hc : startsWithCrlf (bytes ++ more) = true
  · rw [if_pos hc]
    have hlt := startsWithCrlf_waited hc hnc
    simp only
    omega
  · rw [if_neg hc] at hmore ⊢
    have hscan : scanLine httpStartLineMax isPositive 0 bytes = .more := by
      rw [if_neg (by simp [hnc])] at h
      grind
    cases hline : scanLine httpStartLineMax isPositive 0 (bytes ++ more) with
    | more => simp [hline] at hmore
    | bad => simp [hline] at hmore
    | line content =>
        have hlt := scanLine_waited hscan hline
        rw [hline] at hmore
        grind

theorem parseHeaderName_waited {p : HttpParser} {bytes more : List Byte}
    (h : (parseHeaderName p bytes).1 = 0) (hmore : 0 < (parseHeaderName p (bytes ++ more)).1) :
    p.headerOffset + bytes.length < (parseHeaderName p (bytes ++ more)).2.headerOffset := by
  unfold parseHeaderName at h hmore ⊢
  have hnc : startsWithCrlf bytes = false := by
    cases hc : startsWithCrlf bytes with
    | false => rfl
    | true => simp [hc] at h
  by_cases hc : startsWithCrlf (bytes ++ more) = true
  · rw [if_pos hc]
    have hlt := startsWithCrlf_waited hc hnc
    simp only
    omega
  · rw [if_neg (by simp [hnc])] at h
    rw [if_neg hc] at hmore ⊢
    simpa using headerNameLoop_waited h hmore

theorem parseHeaderValue_waited {p : HttpParser} {bytes more : List Byte}
    (h : (parseHeaderValue p bytes).1 = 0) (hmore : 0 < (parseHeaderValue p (bytes ++ more)).1) :
    p.headerOffset + bytes.length ≤ (parseHeaderValue p (bytes ++ more)).2.headerOffset ∧
      (parseHeaderValue p (bytes ++ more)).2.headerState = .headerName := by
  unfold parseHeaderValue at h hmore ⊢
  have hscan : headerValueLoop true [] bytes = .more := by grind
  cases hvalue : headerValueLoop true [] (bytes ++ more) with
  | more => simp [hvalue] at hmore
  | bad => simp [hvalue] at hmore
  | value content rest =>
      have hle := headerValueLoop_waited hscan hvalue
      simp only [List.length_append, and_true]
      omega

/-- Only a value can end exactly at the bytes it waited with, and it does not end the header. -/
theorem headerStep_waited (p : HttpParser) (bytes more : List Byte)
    (h : (headerScanner.step p bytes).1 = 0)
    (hmore : 0 < (headerScanner.step p (bytes ++ more)).1) :
    headerScanner.offset p + bytes.length ≤
        headerScanner.offset (headerScanner.step p (bytes ++ more)).2 ∧
      (headerScanner.stop (headerScanner.step p (bytes ++ more)).2 = true →
        headerScanner.offset p + bytes.length <
          headerScanner.offset (headerScanner.step p (bytes ++ more)).2) := by
  simp only [headerScanner, parseMessageHeaderStep] at h hmore ⊢
  split at h
  · rename_i hstart
    rw [if_pos hstart] at hmore ⊢
    have hlt := parseStartLine_waited h hmore
    exact ⟨Nat.le_of_lt hlt, fun _ => hlt⟩
  · rename_i hstart
    rw [if_neg hstart] at hmore ⊢
    split at h
    · rename_i hvalue
      rw [if_pos hvalue] at hmore ⊢
      obtain ⟨hle, hname⟩ := parseHeaderValue_waited h hmore
      exact ⟨hle, fun hstop => by simp [hname] at hstop⟩
    · rename_i hvalue
      rw [if_neg hvalue] at hmore ⊢
      have hlt := parseHeaderName_waited h hmore
      exact ⟨Nat.le_of_lt hlt, fun _ => hlt⟩

theorem parseChunkStep_waited {p : HttpParser} {bytes more : List Byte}
    (h : (parseChunkStep p bytes).1 = 0) (hmore : 0 < (parseChunkStep p (bytes ++ more)).1) :
    p.chunkOffset + bytes.length < (parseChunkStep p (bytes ++ more)).2.chunkOffset := by
  unfold parseChunkStep at h hmore ⊢
  split at h
  · rename_i hdata
    rw [if_pos hdata] at hmore ⊢
    unfold parseChunkData at h hmore ⊢
    cases hscan : scanLine httpChunkLineMax (fun _ => true) 0 bytes with
    | bad => simp [hscan] at h
    | more =>
        cases hline : scanLine httpChunkLineMax (fun _ => true) 0 (bytes ++ more) with
        | more => simp [hline] at hmore
        | bad => simp [hline] at hmore
        | line content =>
            have hlt := scanLine_waited hscan hline
            rw [hline] at hmore
            grind
    | line content =>
        have hline := scanLine_append more (by rw [hscan]; simp)
        rw [hscan] at h hline
        rw [hline] at hmore ⊢
        grind
  · rename_i hdata
    rw [if_neg hdata] at hmore ⊢
    unfold parseTrailerPart at h hmore ⊢
    have hscan : scanLine httpTrailerLineMax (fun _ => true) 0 bytes = .more := by grind
    cases hline : scanLine httpTrailerLineMax (fun _ => true) 0 (bytes ++ more) with
    | more => simp [hline] at hmore
    | bad => simp [hline] at hmore
    | line content =>
        have hlt := scanLine_waited hscan hline
        simp only
        omega

/-! ### The end of the message -/

/-- How a completed message ends: at its announced length, or with its last chunk. -/
theorem finishMessage_complete {p : HttpParser} (hp : Scanning p)
    (hstate : p.headerState = .headerComplete) (h : (finishMessage p).1 = 1) :
    (p.transferLength ≠ sizeMax ∧ addSize p.headerOffset p.transferLength ≤ p.msgsize ∧
      (finishMessage p).2 =
        { p with msgsize := addSize p.headerOffset p.transferLength, complete := true }) ∨
    (InChunks p ∧ 0 < (chunkScanner.run p.msgbuf p).1 ∧
      (finishMessage p).2 = { (chunkScanner.run p.msgbuf p).2 with
        msgsize := (chunkScanner.run p.msgbuf p).2.chunkOffset
        complete := true }) := by
  by_cases hin : p.transferLength = sizeMax ∧ p.chunked = true
  · have hpin : InChunks p := ⟨hp, hstate, hin.1, hin.2⟩
    rw [finishMessage_chunks hpin] at h ⊢
    split at h
    · omega
    · rename_i hpos
      exact Or.inr ⟨hpin, by omega, by rw [if_neg hpos]⟩
  · left
    unfold finishMessage at h ⊢
    grind

/-- The size arithmetic of a completed message did not wrap. -/
def NoWrap (p : HttpParser) : Prop :=
  p.transferLength = sizeMax ∨ p.headerOffset + p.transferLength < 2 ^ 64

/-- A completed message does not end before its header does. -/
theorem finishMessage_headerOffset_le {p : HttpParser} (hp : Scanning p)
    (hstate : p.headerState = .headerComplete) (hchunk : p.chunked = true →
      p.headerOffset ≤ p.chunkOffset) (h : (finishMessage p).1 = 1)
    (hwrap : NoWrap (finishMessage p).2) :
    p.headerOffset ≤ (finishMessage p).2.msgsize := by
  rcases finishMessage_complete hp hstate h with ⟨htl, hle, heq⟩ | ⟨hin, hpos, heq⟩
  · rw [heq] at hwrap ⊢
    rcases hwrap with hmax | hlt
    · exact absurd hmax htl
    · simp only at hlt ⊢
      rw [addSize_of_lt hlt]
      omega
  · rw [heq]
    have hlt := Scanner.run_offset_lt chunkScanner_stable p.msgbuf p hin.stop hpos
    exact Nat.le_trans (hchunk hin.chunked) (Nat.le_of_lt hlt)

theorem beginBody_offsets (p : HttpParser) :
    (beginBody p).headerOffset = p.headerOffset ∧
      ((beginBody p).chunked = true → (beginBody p).headerOffset ≤ (beginBody p).chunkOffset) := by
  unfold beginBody
  grind

/-- The body phase ends behind the bytes it waited with. -/
theorem finishMessage_waited {p q : HttpParser} {buffer more : List Byte} (h : SameParse q p)
    (hstate : p.headerState = .headerComplete) (hp : Scanning p) (hq : Scanning q)
    (hpbuf : p.msgbuf = buffer) (hpsize : p.msgsize = buffer.length)
    (hqbuf : q.msgbuf = buffer ++ more)
    (hwait : (finishMessage p).1 = 0) (hdone : (finishMessage q).1 = 1) :
    buffer.length < (finishMessage q).2.msgsize := by
  have hfields := core_eq_iff.mp h.core
  have hqstate : q.headerState = .headerComplete := hfields.1.trans hstate
  rcases finishMessage_complete hq hqstate hdone with ⟨htl, hle, heq⟩ | ⟨hin, hpos, heq⟩
  · rw [heq]
    have hptl : p.transferLength ≠ sizeMax := by grind
    have htotal : addSize q.headerOffset q.transferLength =
        addSize p.headerOffset p.transferLength := by grind
    simp only [finishMessage, ne_eq, hptl, not_false_eq_true, if_true] at hwait
    simp only [htotal]
    grind
  · rw [heq]
    have hpin : InChunks p := ⟨hp, hstate, by grind [hin.transferLength], by grind [hin.chunked]⟩
    have hsame : SameChunk q p := ⟨h.toSameHeader, h.chunk hqstate hin.chunked⟩
    have hzero : (chunkScanner.run buffer p).1 = 0 := by
      rw [finishMessage_chunks hpin, hpbuf] at hwait
      grind
    have hqzero : (chunkScanner.run buffer q).1 = 0 :=
      (Scanner.run_congr chunkScanner_stable buffer hin.stop hsame).1.trans hzero
    rw [hqbuf] at hpos ⊢
    exact Scanner.run_beyond chunkScanner_stable
      (fun s bytes more h0 h1 =>
        let hlt := parseChunkStep_waited h0 h1
        ⟨Nat.le_of_lt hlt, fun _ => hlt⟩)
      buffer more q hin.stop hqzero hpos

/-- A completed message is a prefix of the bytes received. -/
theorem finishMessage_ended {p : HttpParser} (hp : Scanning p)
    (hstate : p.headerState = .headerComplete) (hsize : p.msgsize = p.msgbuf.length)
    (h : (finishMessage p).1 = 1) :
    (finishMessage p).2.complete = true ∧ (finishMessage p).2.msgsize ≤ p.msgbuf.length := by
  rcases finishMessage_complete hp hstate h with ⟨htl, hle, heq⟩ | ⟨hin, hpos, heq⟩
  · rw [heq]
    exact ⟨rfl, hsize ▸ hle⟩
  · rw [heq]
    exact ⟨rfl, Scanner.run_offset_le chunkScanner_stable parseChunkStep_offset_le p.msgbuf p
      hin.stop hpos⟩

/-- What a completed header hands over to the body phase. -/
theorem beginBody_headerRun {p : HttpParser} {buffer : List Byte} (hp : Scanning p)
    (hpos : 0 < (headerScanner.run buffer (setBuf p buffer)).1) :
    Scanning (beginBody (headerScanner.run buffer (setBuf p buffer)).2) ∧
      (beginBody (headerScanner.run buffer (setBuf p buffer)).2).headerState = .headerComplete ∧
      (beginBody (headerScanner.run buffer (setBuf p buffer)).2).msgbuf = buffer ∧
      (beginBody (headerScanner.run buffer (setBuf p buffer)).2).msgsize = buffer.length := by
  have hbuf := headerRun_sameBuffer buffer (setBuf p buffer)
  have hframe := beginBody_frame (headerScanner.run buffer (setBuf p buffer)).2
  exact ⟨beginBody_scanning (hbuf.complete.trans hp.complete),
    hframe.2.trans (headerRun_pos_state _ _ hpos), hframe.1.msgbuf.trans hbuf.msgbuf,
    hframe.1.msgsize.trans hbuf.msgsize⟩

theorem scanBuffer_ended {p : HttpParser} {buffer : List Byte} (hp : Scanning p)
    (hstate : p.headerState ≠ .headerComplete) (h : (scanBuffer p buffer).1 = 1) :
    (scanBuffer p buffer).2.complete = true ∧
      (scanBuffer p buffer).2.msgsize ≤ buffer.length := by
  rw [scanBuffer_header hstate] at h ⊢
  split at h
  · omega
  · rename_i hpos
    rw [if_neg hpos]
    obtain ⟨hscan, hcomplete, hbuf, hsize⟩ := beginBody_headerRun hp (Int.not_le.mp hpos)
    have hended := finishMessage_ended hscan hcomplete (hsize.trans (congrArg _ hbuf.symm)) h
    rw [hbuf] at hended
    exact hended

/-- A message that had to wait ends behind the bytes it waited with, unless its size wraps. -/
theorem scanBuffer_waited {p : HttpParser} {buffer more : List Byte} (hp : Scanning p)
    (hstate : p.headerState ≠ .headerComplete) (hwait : (scanBuffer p buffer).1 = 0)
    (hdone : (scanBuffer p (buffer ++ more)).1 = 1)
    (hwrap : NoWrap (scanBuffer p (buffer ++ more)).2) :
    buffer.length < (scanBuffer p (buffer ++ more)).2.msgsize := by
  rw [scanBuffer_header hstate] at hdone hwrap ⊢
  split at hdone
  · omega
  · rename_i hposm
    rw [if_neg hposm] at hwrap ⊢
    have hposm' := Int.not_le.mp hposm
    obtain ⟨hscanm, hstatem, hbufm, _⟩ := beginBody_headerRun hp hposm'
    have hrun : SameResult SameHeader
        (headerScanner.run buffer (setBuf p (buffer ++ more)))
        (headerScanner.run buffer (setBuf p buffer)) :=
      Scanner.run_congr headerScanner_stable buffer (headerScanner_stop_setBuf hstate _)
        ⟨rfl, fun _ => rfl⟩
    by_cases hpos : 0 < (headerScanner.run buffer (setBuf p buffer)).1
    · rw [scanBuffer_header hstate, if_neg (by omega)] at hwait
      obtain ⟨hscan, hcomplete, hbuf, hsize⟩ := beginBody_headerRun hp hpos
      have hsame : SameHeader (headerScanner.run (buffer ++ more) (setBuf p (buffer ++ more))).2
          (headerScanner.run buffer (setBuf p buffer)).2 := by
        rw [Scanner.run_decided headerScanner_stable buffer more _
          (headerScanner_stop_setBuf hstate _) (by rw [hrun.1]; omega)]
        exact hrun.2 (by rw [hrun.1]; omega)
      exact finishMessage_waited (beginBody_sameParse hsame) hcomplete hscan hscanm hbuf hsize hbufm
        hwait hdone
    · rw [scanBuffer_header hstate, if_pos (by omega)] at hwait
      have hlt := Scanner.run_beyond headerScanner_stable headerStep_waited buffer more
        (setBuf p (buffer ++ more)) (headerScanner_stop_setBuf hstate _) (hrun.1.trans hwait) hposm'
      have hoff := beginBody_offsets (headerScanner.run (buffer ++ more) (setBuf p (buffer ++ more))).2
      have hle := finishMessage_headerOffset_le hscanm hstatem hoff.2 hdone hwrap
      rw [hoff.1] at hle
      exact Nat.lt_of_lt_of_le hlt hle

/-! ### The length of the body -/

/-- The length of the body that a completed header announces, `sizeMax` when it announces none. -/
def bodyLength (isResp : Bool) (p : HttpParser) : Nat :=
  if p.code.any isBodyless then 0
  else if p.chunked then sizeMax
  else declaredLength isResp p.headerList

/-- What the body phase takes from the header and never changes. -/
structure SameHead (p q : HttpParser) : Prop where
  headerOffset : p.headerOffset = q.headerOffset
  headerList : p.headerList = q.headerList
  code : p.code = q.code
  chunked : p.chunked = q.chunked

theorem beginBody_sameHead (p : HttpParser) : SameHead (beginBody p) p := by
  unfold beginBody
  repeat' split
  all_goals exact ⟨rfl, rfl, rfl, rfl⟩

theorem finishMessage_sameHead (p : HttpParser) :
    SameHead (finishMessage p).2 p ∧ (finishMessage p).2.transferLength = p.transferLength := by
  have hcore := core_eq_iff.mp (chunkRun_sameHeader p.msgbuf p).core
  unfold finishMessage parseChunk
  repeat' split
  all_goals exact ⟨⟨by grind, by grind, by grind, by grind⟩, by grind⟩

theorem beginBody_transferLength {isResp : Bool} {p : HttpParser} (h : HeadInv isResp p) :
    (beginBody p).transferLength = bodyLength isResp p := by
  have hpos : sizeMax ≠ 0 := by decide
  unfold beginBody bodyLength
  grind [h.transferLength, h.contentLength]

/-- The header of a stream: the header loop on a fresh parser. -/
def streamHead (isResp : Bool) (p : HttpParser) (bytes : List Byte) : Int × HttpParser :=
  parseMessageHeader bytes (setBuf (httpParserInit isResp p) bytes)

theorem scanBuffer_init (isResp : Bool) (p : HttpParser) (bytes : List Byte) :
    scanBuffer (httpParserInit isResp p) bytes =
      if (streamHead isResp p bytes).1 ≤ 0 then streamHead isResp p bytes
      else finishMessage (beginBody (streamHead isResp p bytes).2) :=
  scanBuffer_header (by simp [httpParserInit]) bytes

/-- The length that the body phase works with is the announced one. -/
theorem streamHead_transferLength (isResp : Bool) (p : HttpParser) (bytes : List Byte) :
    (beginBody (streamHead isResp p bytes).2).transferLength =
      bodyLength isResp (streamHead isResp p bytes).2 := by
  have hinv := httpParserInit_headInv isResp p
  exact beginBody_transferLength (headerRun_headInv bytes _
    ⟨hinv.isResp, hinv.contentLength, hinv.transferLength, hinv.fresh⟩)

/-- A completed message has the header of its stream, and its length is the announced one. -/
theorem scanBuffer_framed {isResp : Bool} {p : HttpParser} {bytes : List Byte}
    (h : (scanBuffer (httpParserInit isResp p) bytes).1 = 1) :
    0 < (streamHead isResp p bytes).1 ∧
      SameHead (scanBuffer (httpParserInit isResp p) bytes).2 (streamHead isResp p bytes).2 ∧
      (scanBuffer (httpParserInit isResp p) bytes).2.transferLength =
        bodyLength isResp (streamHead isResp p bytes).2 := by
  rw [scanBuffer_init] at h ⊢
  split at h
  · omega
  · rename_i hpos
    rw [if_neg hpos]
    obtain ⟨hhead, htl⟩ := finishMessage_sameHead (beginBody (streamHead isResp p bytes).2)
    have hbegin := beginBody_sameHead (streamHead isResp p bytes).2
    exact ⟨Int.not_le.mp hpos, ⟨hhead.headerOffset.trans hbegin.headerOffset,
      hhead.headerList.trans hbegin.headerList, hhead.code.trans hbegin.code,
      hhead.chunked.trans hbegin.chunked⟩, htl.trans (streamHead_transferLength isResp p bytes)⟩

/-- A header ends inside the stream. -/
theorem streamHead_offset_le {isResp : Bool} {p : HttpParser} {bytes : List Byte}
    (h : 0 < (streamHead isResp p bytes).1) :
    (streamHead isResp p bytes).2.headerOffset ≤ bytes.length :=
  Scanner.run_offset_le headerScanner_stable parseMessageHeaderStep_offset_le bytes _
    (headerScanner_stop_setBuf (by simp [httpParserInit]) bytes) h

theorem finishMessage_unchunked {p : HttpParser} (hc : p.chunked = false) :
    finishMessage p =
      if p.transferLength ≠ sizeMax ∧ addSize p.headerOffset p.transferLength ≤ p.msgsize then
        (1, { p with msgsize := addSize p.headerOffset p.transferLength, complete := true })
      else (0, p) := by
  unfold finishMessage
  grind

/-- The body phase of an unchunked message compares the bytes received with the announced length. -/
theorem scanBuffer_unchunked {isResp : Bool} {p : HttpParser} {bytes : List Byte}
    (hpos : 0 < (streamHead isResp p bytes).1)
    (hchunked : (streamHead isResp p bytes).2.chunked = false) :
    ((scanBuffer (httpParserInit isResp p) bytes).1 = 1 ↔
      bodyLength isResp (streamHead isResp p bytes).2 ≠ sizeMax ∧
        addSize (streamHead isResp p bytes).2.headerOffset
          (bodyLength isResp (streamHead isResp p bytes).2) ≤ bytes.length) ∧
    ((scanBuffer (httpParserInit isResp p) bytes).1 = 1 →
      (scanBuffer (httpParserInit isResp p) bytes).2.msgsize =
        addSize (streamHead isResp p bytes).2.headerOffset
          (bodyLength isResp (streamHead isResp p bytes).2)) := by
  have hbegin := beginBody_sameHead (streamHead isResp p bytes).2
  have htl := streamHead_transferLength isResp p bytes
  have hsize : (beginBody (streamHead isResp p bytes).2).msgsize = bytes.length :=
    (beginBody_headerRun (httpParserInit_scanning isResp p) hpos).2.2.2
  rw [scanBuffer_init, if_neg (by omega), finishMessage_unchunked (hbegin.chunked.trans hchunked),
    htl, hbegin.headerOffset, hsize]
  split
  · rename_i hdone
    simpa using hdone
  · rename_i hwait
    simpa using hwait

end Workflow.Http
