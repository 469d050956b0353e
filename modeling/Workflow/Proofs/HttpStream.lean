/-
Module: Workflow.Proofs.HttpStream
Layer: Proofs
Purpose: A stream fed to the HTTP parser in any chunks. Every call continues the scan of all bytes
  received so far, so the verdict and the message do not depend on the chunks; the body is framed by
  the last Content-Length as long as its value survives the conversion to `int`.
Trusted boundary: none
Main exports: appendAll_feed, appendAll_consumed, httpParserAppendMessage_split,
  httpParserAppendMessage_framed
-/
import Workflow.Proofs.HttpFraming

namespace Workflow.Http

open Workflow.Lib

/-! ### One call -/

/-- A parser between two calls: it waits, and its message is everything in the buffer. -/
structure Ready (p : HttpParser) : Prop extends Scanning p where
  size : p.msgsize = p.msgbuf.length

theorem httpParserInit_ready (isResp : Bool) (p : HttpParser) : Ready (httpParserInit isResp p) :=
  ⟨httpParserInit_scanning isResp p, rfl⟩

/-- What the memory held before does not matter. -/
theorem httpParserInit_sameMessage (isResp : Bool) (p q : HttpParser) :
    SameMessage (httpParserInit isResp p) (httpParserInit isResp q) :=
  ⟨⟨⟨rfl, fun h => by simp [httpParserInit] at h⟩, fun h => by simp [httpParserInit] at h⟩,
    fun h => by simp [httpParserInit] at h⟩

/-- The value left in `*n` by a call that received `chunk` after `before`. -/
def consumed (before chunk : List Byte) (r : Int × HttpParser) : Nat :=
  if r.1 = 1 then subSize chunk.length (subSize (before ++ chunk).length r.2.msgsize)
  else chunk.length

/-- A call is a scan of all bytes received so far, by a parser that differs in `bufsize` only. -/
theorem httpParserAppendMessage_eq {p : HttpParser} (hp : Ready p) (chunk : List Byte) :
    ∃ q, Scanning q ∧ SameMessage q p ∧ httpParserAppendMessage chunk p =
      ((scanBuffer q (p.msgbuf ++ chunk)).1,
        consumed p.msgbuf chunk (scanBuffer q (p.msgbuf ++ chunk)),
        (scanBuffer q (p.msgbuf ++ chunk)).2) := by
  refine ⟨{ p with bufsize := (copyIn chunk p).bufsize }, ⟨hp.complete, hp.chunk⟩,
    ⟨⟨⟨rfl, fun _ => rfl⟩, fun _ _ => ⟨rfl, rfl⟩⟩, fun _ => ⟨rfl, rfl⟩⟩, ?_⟩
  have hcopy : copyIn chunk p =
      setBuf { p with bufsize := (copyIn chunk p).bufsize } (p.msgbuf ++ chunk) := by
    simp [copyIn, setBuf, hp.size]
  have hsize : (copyIn chunk p).msgsize = (p.msgbuf ++ chunk).length := by
    simp [copyIn, hp.size]
  unfold httpParserAppendMessage
  rw [if_neg (by simp [hp.complete])]
  simp only [scanBuffer, consumed, ← hcopy, hsize]

/-- A scan that waits leaves the storage alone. -/
theorem scanBuffer_more_sameBuffer {p : HttpParser} {buffer : List Byte} (hp : Scanning p)
    (h : (scanBuffer p buffer).1 = 0) : SameBuffer (scanBuffer p buffer).2 (setBuf p buffer) := by
  have hfinish : ∀ q : HttpParser, Scanning q → q.headerState = .headerComplete →
      (finishMessage q).1 = 0 → SameBuffer (finishMessage q).2 q := by
    intro q hq hstate hzero
    rcases finishMessage_more hstate hq hzero with heq | ⟨_, _, heq⟩
    · rw [heq]
      exact ⟨rfl, rfl, rfl⟩
    · rw [heq]
      exact chunkRun_sameBuffer _ _
  by_cases hstate : p.headerState = .headerComplete
  · rw [scanBuffer_complete hstate] at h ⊢
    exact hfinish _ ⟨hp.complete, hp.chunk⟩ hstate h
  · have hbuf := headerRun_sameBuffer buffer (setBuf p buffer)
    rw [scanBuffer_header hstate] at h ⊢
    split
    · exact hbuf
    · rename_i hpos
      rw [if_neg hpos] at h
      have hframe := beginBody_frame (headerScanner.run buffer (setBuf p buffer)).2
      have hkeep := hfinish _ (beginBody_scanning (hbuf.complete.trans hp.complete))
        (hframe.2.trans (headerRun_pos_state _ _ (by omega))) h
      exact ⟨hkeep.msgbuf.trans (hframe.1.msgbuf.trans hbuf.msgbuf),
        hkeep.msgsize.trans (hframe.1.msgsize.trans hbuf.msgsize),
        hkeep.complete.trans (hframe.1.complete.trans hbuf.complete)⟩

/-- A call on related parsers answers like the scan of all bytes. -/
theorem httpParserAppendMessage_scan {p s : HttpParser} (hp : Ready p) (hs : Scanning s)
    (h : SameMessage p s) (chunk : List Byte) :
    SameResult SameMessage
      ((httpParserAppendMessage chunk p).1, (httpParserAppendMessage chunk p).2.2)
      (scanBuffer s (p.msgbuf ++ chunk)) := by
  obtain ⟨q, hq, hqp, heq⟩ := httpParserAppendMessage_eq hp chunk
  rw [heq]
  exact scanBuffer_congr _ hs hq (SameMessage.equivalence.trans hqp h)

/-- A call that waits keeps all bytes. -/
theorem httpParserAppendMessage_waiting {p : HttpParser} (hp : Ready p) {chunk : List Byte}
    (h : (httpParserAppendMessage chunk p).1 = 0) :
    Ready (httpParserAppendMessage chunk p).2.2 ∧
      (httpParserAppendMessage chunk p).2.2.msgbuf = p.msgbuf ++ chunk ∧
      (httpParserAppendMessage chunk p).2.1 = chunk.length := by
  obtain ⟨q, hq, hqp, heq⟩ := httpParserAppendMessage_eq hp chunk
  rw [heq] at h ⊢
  have hbuf := scanBuffer_more_sameBuffer hq h
  have hkeep := scanBuffer_resumable.keep _ hq h
  refine ⟨⟨hkeep, hbuf.msgsize.trans (congrArg List.length hbuf.msgbuf.symm)⟩, hbuf.msgbuf, ?_⟩
  have hone : ¬ (scanBuffer q (p.msgbuf ++ chunk)).1 = 1 := by
    simp only at h
    omega
  simp only [consumed, if_neg hone]

/-! ### A run of calls -/

theorem appendAll_waiting {chunks : List (List Byte)} {p : HttpParser} (hp : Ready p)
    (h : (appendAll chunks p).1 = 0) :
    Ready (appendAll chunks p).2.2 ∧
      (appendAll chunks p).2.2.msgbuf = p.msgbuf ++ chunks.flatten ∧
      (appendAll chunks p).2.1 = chunks.flatten.length := by
  induction chunks generalizing p with
  | nil => simpa [appendAll] using hp
  | cons chunk chunks ih =>
      rw [appendAll] at h ⊢
      simp only at h ⊢
      split at h
      · rename_i hzero
        obtain ⟨hready, hbuf, hn⟩ := httpParserAppendMessage_waiting hp hzero
        obtain ⟨hready', hbuf', hn'⟩ := ih hready h
        rw [if_pos hzero]
        exact ⟨hready', by simp [hbuf', hbuf], by simp [hn', hn]⟩
      · rename_i hne
        exact absurd h hne

/-- Feeding chunks is the library's `feed` of the scan. -/
theorem appendAll_feed (chunks : List (List Byte)) {p s : HttpParser} (hp : Ready p)
    (hs : Scanning s) (h : SameMessage p s) :
    SameResult SameMessage ((appendAll chunks p).1, (appendAll chunks p).2.2)
      (feed scanBuffer s p.msgbuf chunks) := by
  induction chunks generalizing p s with
  | nil => exact ⟨rfl, fun _ => h⟩
  | cons chunk chunks ih =>
      have hcall := httpParserAppendMessage_scan hp hs h chunk
      have hcode : (httpParserAppendMessage chunk p).1 = (scanBuffer s (p.msgbuf ++ chunk)).1 :=
        hcall.1
      rw [appendAll, feed]
      simp only
      by_cases hzero : (httpParserAppendMessage chunk p).1 = 0
      · rw [if_pos hzero, if_pos (hcode.symm.trans hzero)]
        obtain ⟨hready, hbuf, _⟩ := httpParserAppendMessage_waiting hp hzero
        rw [← hbuf]
        refine ih hready ?_ ?_
        · rw [hbuf]
          exact scanBuffer_resumable.keep _ hs (hcode.symm.trans hzero)
        · rw [hbuf]
          exact hcall.2 (Int.le_of_eq hzero.symm)
      · rw [if_neg hzero, if_neg (by rw [← hcode]; exact hzero)]
        exact hcall

/-- The last of several calls. -/
theorem appendAll_concat {chunks : List (List Byte)} {p : HttpParser} (chunk : List Byte)
    (h : (appendAll chunks p).1 = 0) :
    appendAll (chunks ++ [chunk]) p =
      ((httpParserAppendMessage chunk (appendAll chunks p).2.2).1,
        (appendAll chunks p).2.1 + (httpParserAppendMessage chunk (appendAll chunks p).2.2).2.1,
        (httpParserAppendMessage chunk (appendAll chunks p).2.2).2.2) := by
  induction chunks generalizing p with
  | nil =>
      simp only [List.nil_append, appendAll, Nat.zero_add, Nat.add_zero]
      split
      · rename_i hzero
        rw [← hzero]
      · rfl
  | cons first chunks ih =>
      rw [appendAll] at h
      simp only at h
      split at h
      · rename_i hzero
        simp only [List.cons_append, appendAll, if_pos hzero, ih h, Nat.add_assoc]
      · rename_i hne
        exact absurd h hne

/-- A run that did not wait for more ended with its first call that did not. -/
theorem appendAll_ended {chunks : List (List Byte)} {p : HttpParser}
    (h : (appendAll chunks p).1 ≠ 0) :
    ∃ before chunk after, chunks = before ++ chunk :: after ∧ (appendAll before p).1 = 0 ∧
      appendAll chunks p = appendAll (before ++ [chunk]) p := by
  induction chunks generalizing p with
  | nil => simp [appendAll] at h
  | cons chunk chunks ih =>
      rw [appendAll] at h
      simp only at h
      by_cases hzero : (httpParserAppendMessage chunk p).1 = 0
      · rw [if_pos hzero] at h
        obtain ⟨before, last, after, rfl, hbefore, heq⟩ := ih h
        refine ⟨chunk :: before, last, after, rfl, ?_, ?_⟩
        · simpa [appendAll, hzero] using hbefore
        · simp only [List.cons_append, appendAll, if_pos hzero, heq]
      · exact ⟨[], chunk, chunks, rfl, rfl, by simp [appendAll, hzero]⟩

/-- A parser that has not seen a byte waits for the first one. -/
theorem scanBuffer_nil {p : HttpParser} (hstate : p.headerState = .startLine) (hbuf : p.msgbuf = [])
    (hsize : p.msgsize = 0) : scanBuffer p [] = (0, p) := by
  have hset : setBuf p [] = p := setBuf_eq hbuf hsize
  have hstep : headerScanner.step p [] = (0, p) := by
    simp [headerScanner, parseMessageHeaderStep, hstate, parseStartLine, startsWithCrlf, scanLine,
      httpStartLineMax]
  have hrun : headerScanner.run [] p = (0, p) := by
    rw [Scanner.run, List.drop_nil, hstep]
    simp [headerScanner, hstate]
  rw [scanBuffer_header (by simp [hstate]), hset, hrun]
  rfl

/-- The empty stream is an incomplete message. -/
theorem scanBuffer_init_nil (isResp : Bool) (p : HttpParser) :
    scanBuffer (httpParserInit isResp p) [] = (0, httpParserInit isResp p) :=
  scanBuffer_nil rfl rfl rfl

/-- Any way of feeding a stream gives what the scan of the stream gives. -/
theorem appendAll_init (isResp : Bool) (p q : HttpParser) (chunks : List (List Byte)) :
    SameResult SameMessage
      ((appendAll chunks (httpParserInit isResp p)).1,
        (appendAll chunks (httpParserInit isResp p)).2.2)
      (scanBuffer (httpParserInit isResp q) chunks.flatten) := by
  have hinit := httpParserInit_sameMessage isResp p q
  have hready := httpParserInit_ready isResp p
  have hscan := httpParserInit_scanning isResp q
  cases chunks with
  | nil =>
      rw [List.flatten_nil, scanBuffer_init_nil]
      exact ⟨rfl, fun _ => hinit⟩
  | cons chunk chunks =>
      have hfeed := appendAll_feed (chunk :: chunks) hready hscan hinit
      have hflat := feed_flatten scanBuffer_resumable (httpParserInit isResp q) [] chunk chunks hscan
      rw [List.nil_append] at hflat
      exact hfeed.trans SameMessage.equivalence hflat

/-- A completed run has the message of the scan. -/
theorem appendAll_completed {isResp : Bool} {p : HttpParser} (q : HttpParser)
    {chunks : List (List Byte)} (hone : (appendAll chunks (httpParserInit isResp p)).1 = 1) :
    (scanBuffer (httpParserInit isResp q) chunks.flatten).1 = 1 ∧
      SameMessage (appendAll chunks (httpParserInit isResp p)).2.2
        (scanBuffer (httpParserInit isResp q) chunks.flatten).2 ∧
      (appendAll chunks (httpParserInit isResp p)).2.2.complete = true ∧
      (appendAll chunks (httpParserInit isResp p)).2.2.msgsize ≤ chunks.flatten.length := by
  have hwhole := appendAll_init isResp p q chunks
  have hsame := hwhole.2 (by rw [hone]; decide)
  have hcode := hwhole.1.symm.trans hone
  have hended := scanBuffer_ended (httpParserInit_scanning isResp q) (by simp [httpParserInit]) hcode
  have hcomplete : (appendAll chunks (httpParserInit isResp p)).2.2.complete = true := by
    have hfields := core_eq_iff.mp hsame.core
    grind
  exact ⟨hcode, hsame, hcomplete, (hsame.message hcomplete).1 ▸ hended.2⟩

/-- A message that ends with the last of several calls ends inside the bytes of that call, unless its
size wraps. -/
theorem appendAll_within {isResp : Bool} {p : HttpParser} {before : List (List Byte)}
    {chunk : List Byte} (hbefore : (appendAll before (httpParserInit isResp p)).1 = 0)
    (hone : (appendAll (before ++ [chunk]) (httpParserInit isResp p)).1 = 1)
    (hwrap : NoWrap (appendAll (before ++ [chunk]) (httpParserInit isResp p)).2.2) :
    before.flatten.length ≤
      (appendAll (before ++ [chunk]) (httpParserInit isResp p)).2.2.msgsize := by
  obtain ⟨hcode, hsame, hcomplete, _⟩ := appendAll_completed p hone
  have hfields := core_eq_iff.mp hsame.core
  have hflat : (before ++ [chunk]).flatten = before.flatten ++ chunk := by simp
  rw [(hsame.message hcomplete).1]
  rw [hflat] at hcode hfields ⊢
  refine Nat.le_of_lt (scanBuffer_waited (httpParserInit_scanning isResp p)
    (by simp [httpParserInit]) ((appendAll_init isResp p p before).1.symm.trans hbefore) hcode ?_)
  unfold NoWrap at hwrap ⊢
  grind

/-- The last of several calls consumes the bytes of its chunk up to the end of the message. -/
theorem httpParserAppendMessage_consumed {isResp : Bool} {p : HttpParser}
    {before : List (List Byte)} {chunk : List Byte}
    (hlen : (before ++ [chunk]).flatten.length < 2 ^ 64)
    (hbefore : (appendAll before (httpParserInit isResp p)).1 = 0)
    (hone : (appendAll (before ++ [chunk]) (httpParserInit isResp p)).1 = 1)
    (hwrap : NoWrap (appendAll (before ++ [chunk]) (httpParserInit isResp p)).2.2) :
    before.flatten.length +
        (httpParserAppendMessage chunk (appendAll before (httpParserInit isResp p)).2.2).2.1 =
      (appendAll (before ++ [chunk]) (httpParserInit isResp p)).2.2.msgsize := by
  have hwithin := appendAll_within hbefore hone hwrap
  obtain ⟨_, _, _, hle⟩ := appendAll_completed p hone
  obtain ⟨hready, hbuf, _⟩ := appendAll_waiting (httpParserInit_ready isResp p) hbefore
  rw [appendAll_concat chunk hbefore] at hone hwithin hle ⊢
  obtain ⟨q, _, _, heq⟩ := httpParserAppendMessage_eq hready chunk
  rw [hbuf] at heq
  rw [heq] at hone hwithin hle ⊢
  have hnil : (httpParserInit isResp p).msgbuf = [] := rfl
  simp only [hnil, List.nil_append, List.flatten_append, List.flatten_cons, List.flatten_nil,
    List.append_nil, List.length_append] at hone hwithin hle hlen ⊢
  rw [consumed, if_pos hone, List.length_append, subSize_of_le hle hlen,
    subSize_of_le (by omega) (by omega)]
  omega

/-- The bytes consumed by a completed run are the bytes of the message. -/
theorem appendAll_consumed {isResp : Bool} {p : HttpParser} {chunks : List (List Byte)}
    (hlen : chunks.flatten.length < 2 ^ 64)
    (hone : (appendAll chunks (httpParserInit isResp p)).1 = 1)
    (hwrap : NoWrap (appendAll chunks (httpParserInit isResp p)).2.2) :
    (appendAll chunks (httpParserInit isResp p)).2.1 =
      (appendAll chunks (httpParserInit isResp p)).2.2.msgsize := by
  obtain ⟨before, chunk, after, rfl, hbefore, heq⟩ := appendAll_ended (by rw [hone]; decide)
  rw [heq] at hone hwrap ⊢
  have hcount := httpParserAppendMessage_consumed
    (by simp only [List.flatten_append, List.flatten_cons, List.flatten_nil, List.append_nil,
          List.length_append] at hlen ⊢
        omega) hbefore hone hwrap
  rw [← hcount, appendAll_concat chunk hbefore,
    (appendAll_waiting (httpParserInit_ready isResp p) hbefore).2.2]

/-! ### The value of a Content-Length -/

/-- The number that the decimal digits in front of a text write. -/
def decimalValue (value : List Byte) : Nat :=
  digitsValue 10 (digits 10 value)

theorem lastContentLength_digit {lines : List HeaderLine} {value : List Byte}
    (h : lastContentLength lines = some value) :
    ∃ line ∈ lines, isContentLength line = true ∧ line.value = value := by
  obtain ⟨line, hlast, rfl⟩ := Option.map_eq_some_iff.mp h
  have hmem := List.mem_filter.mp (List.mem_of_getLast? hlast)
  exact ⟨line, hmem.1, hmem.2, rfl⟩

/-- A numeric text is stored as its value saturated to `long`, cut to `int` and widened. -/
theorem toSize_atoi {value : List Byte} (h : startsWithDigit value = true) :
    toSize (atoi value) = toSize (toInt (saturate (decimalValue value))) := by
  cases value with
  | nil => simp [startsWithDigit] at h
  | cons c rest => rw [atoi, strtol_ten_of_isDigit h, decimalValue]

/-- Every Content-Length that the parser takes as a number is below `2 ^ 31`. -/
def ContentLengthsSmall (lines : List HeaderLine) : Prop :=
  ∀ line ∈ lines, isContentLength line = true → decimalValue line.value < 2 ^ 31

instance (lines : List HeaderLine) : Decidable (ContentLengthsSmall lines) :=
  inferInstanceAs (Decidable (∀ line ∈ lines, _ → _))

/-- The length of the body by the header: the decimal value of the last numeric Content-Length, 0
without one and for a status that has no body. -/
def announcedLength (p : HttpParser) : Nat :=
  if p.code.any isBodyless then 0
  else ((lastContentLength p.headerList).map decimalValue).getD 0

theorem lastContentLength_stored {lines : List HeaderLine} {value : List Byte}
    (h : lastContentLength lines = some value) :
    toSize (atoi value) = toSize (toInt (saturate (decimalValue value))) := by
  obtain ⟨line, _, hline, rfl⟩ := lastContentLength_digit h
  simp only [isContentLength, Bool.and_eq_true] at hline
  exact toSize_atoi hline.2

/-- The stored length of an unchunked body is what the last Content-Length is converted to. -/
theorem bodyLength_contentLength (isResp : Bool) {p : HttpParser} {value : List Byte}
    (hbody : p.code.any isBodyless = false) (hchunked : p.chunked = false)
    (hlast : lastContentLength p.headerList = some value) :
    bodyLength isResp p = toSize (atoi value) := by
  simp [bodyLength, hbody, hchunked, declaredLength, hlast]

/-- The stored length of a body is the announced one while the last Content-Length is small. -/
theorem bodyLength_small (isResp : Bool) {p : HttpParser}
    (hsmall : p.code.any isBodyless = false → p.chunked = false →
      ∀ value, lastContentLength p.headerList = some value → decimalValue value < 2 ^ 31) :
    bodyLength isResp p = sizeMax ∨
      bodyLength isResp p = announcedLength p ∧ bodyLength isResp p < 2 ^ 31 := by
  cases hbody : p.code.any isBodyless with
  | true => exact Or.inr ⟨by simp [bodyLength, announcedLength, hbody], by simp [bodyLength, hbody]⟩
  | false =>
      cases hchunked : p.chunked with
      | true => exact Or.inl (by simp [bodyLength, hbody, hchunked])
      | false =>
          cases hlast : lastContentLength p.headerList with
          | none =>
              cases isResp with
              | true => exact Or.inl (by simp [bodyLength, hbody, hchunked, declaredLength, hlast])
              | false =>
                  refine Or.inr ⟨?_, ?_⟩ <;>
                    simp [bodyLength, announcedLength, hbody, hchunked, declaredLength, hlast]
          | some value =>
              have hlt := hsmall hbody hchunked value hlast
              have hannounced : announcedLength p = decimalValue value := by
                simp [announcedLength, hbody, hlast]
              rw [bodyLength_contentLength _ hbody hchunked hlast, lastContentLength_stored hlast,
                toSize_toInt_saturate_of_lt hlt, hannounced]
              exact Or.inr ⟨rfl, hlt⟩

/-- Small Content-Lengths cannot make the size of a completed message wrap. -/
theorem appendAll_noWrap {isResp : Bool} {p : HttpParser} {chunks : List (List Byte)}
    (hmem : chunks.flatten.length < 2 ^ 63)
    (hone : (appendAll chunks (httpParserInit isResp p)).1 = 1)
    (hsmall : ∀ value,
      lastContentLength (appendAll chunks (httpParserInit isResp p)).2.2.headerList = some value →
      decimalValue value < 2 ^ 31) :
    NoWrap (appendAll chunks (httpParserInit isResp p)).2.2 := by
  obtain ⟨hcode, hsame, _, _⟩ := appendAll_completed p hone
  obtain ⟨hpos, hhead, htl⟩ := scanBuffer_framed hcode
  have hfields := core_eq_iff.mp hsame.core
  have hle := streamHead_offset_le hpos
  have hlist := hfields.2.2.2.2.2.2.2.2.2.1.trans hhead.headerList
  rw [hlist] at hsmall
  unfold NoWrap
  rw [hfields.2.2.2.1, htl, hfields.2.1, hhead.headerOffset]
  rcases bodyLength_small isResp fun _ _ => hsmall with hmax | ⟨_, hlt⟩
  · exact Or.inl hmax
  · exact Or.inr (by omega)

/-! ### The stream as a whole -/

/-- The parse of a stream does not depend on the chunks it arrives in. `p` and `q` are whatever the
memory of the two parsers held before `http_parser_init`; a stream that fits in memory is shorter
than `2 ^ 63`. -/
theorem httpParserAppendMessage_split (isResp : Bool) (p q : HttpParser)
    (chunks : List (List Byte)) (hmem : chunks.flatten.length < 2 ^ 63)
    (hsmall : ContentLengthsSmall
      (httpParserAppendMessage chunks.flatten (httpParserInit isResp q)).2.2.headerList) :
    let split := appendAll chunks (httpParserInit isResp p)
    let whole := httpParserAppendMessage chunks.flatten (httpParserInit isResp q)
    split.1 = whole.1 ∧
      (split.1 = 1 →
        split.2.1 = whole.2.1 ∧ split.2.2.version = whole.2.2.version ∧
        split.2.2.method = whole.2.2.method ∧ split.2.2.uri = whole.2.2.uri ∧
        split.2.2.code = whole.2.2.code ∧ split.2.2.phrase = whole.2.2.phrase ∧
        split.2.2.headerList = whole.2.2.headerList ∧
        split.2.2.keepAlive = whole.2.2.keepAlive ∧ split.2.2.chunked = whole.2.2.chunked ∧
        split.2.2.message = whole.2.2.message) := by
  -- the single call is the run over one chunk
  have hsingle : appendAll [chunks.flatten] (httpParserInit isResp q) =
      httpParserAppendMessage chunks.flatten (httpParserInit isResp q) := by
    rw [← List.nil_append [chunks.flatten], appendAll_concat chunks.flatten rfl]
    simp [appendAll]
  have hsplit := appendAll_init isResp p q chunks
  have hwhole := appendAll_init isResp q q [chunks.flatten]
  simp only [List.flatten_cons, List.flatten_nil, List.append_nil] at hwhole
  have hboth := hsplit.trans SameMessage.equivalence (hwhole.symm SameMessage.equivalence)
  rw [← hsingle] at hsmall ⊢
  refine ⟨hboth.1, fun hone => ?_⟩
  have hsame := hboth.2 (by rw [hone]; decide)
  have hfields := core_eq_iff.mp hsame.core
  obtain ⟨_, _, hcomplete, _⟩ := appendAll_completed q hone
  have hmessage := hsame.message hcomplete
  have hwone : (appendAll [chunks.flatten] (httpParserInit isResp q)).1 = 1 :=
    hboth.1.symm.trans hone
  have hwrap : NoWrap (appendAll [chunks.flatten] (httpParserInit isResp q)).2.2 := by
    refine appendAll_noWrap (by simpa using hmem) hwone fun value hlast => ?_
    obtain ⟨line, hmem', hline, rfl⟩ := lastContentLength_digit hlast
    exact hsmall line hmem' hline
  have hwrap' : NoWrap (appendAll chunks (httpParserInit isResp p)).2.2 := by
    unfold NoWrap at hwrap ⊢
    grind
  have hflat : [chunks.flatten].flatten.length < 2 ^ 64 := by
    simp only [List.flatten_cons, List.flatten_nil, List.append_nil]
    omega
  refine ⟨?_, by grind, by grind, by grind, by grind, by grind, by grind, by grind, by grind,
    hmessage.2⟩
  rw [appendAll_consumed (by omega) hone hwrap', appendAll_consumed hflat hwone hwrap, hmessage.1]

/-- A header name, the end of the header and the body cut in two each. -/
theorem httpParserAppendMessage_split_request :
    let chunks := [ascii "GET / HTTP/1.1\r\nContent-Le", ascii "ngth: 3\r\n\r", ascii "\na",
      ascii "bcGET"]
    let split := appendAll chunks (httpParserInit false default)
    let whole := httpParserAppendMessage chunks.flatten (httpParserInit false default)
    split.1 = whole.1 ∧ split.1 = 1 ∧ split.2.1 = whole.2.1 ∧
      split.2.2.message = whole.2.2.message := by
  intro chunks split whole
  have hsplit := httpParserAppendMessage_split false default default chunks (by decide +kernel)
    (by decide +kernel)
  have hone : split.1 = 1 := by decide +kernel
  exact ⟨hsplit.1, hone, (hsplit.2 hone).1, (hsplit.2 hone).2.2.2.2.2.2.2.2.2⟩

/-! ### The framing of the body -/

/-- What a call that completes an unchunked message leaves behind when it frames the body. -/
def FramedCall (chunk : List Byte) (r : Int × Nat × HttpParser) : Prop :=
  r.1 = 1 → r.2.2.chunked = false →
    r.2.2.headerOffset ≤ r.2.2.msgsize ∧
    r.2.2.msgsize - r.2.2.headerOffset = announcedLength r.2.2 ∧
    r.2.1 ≤ chunk.length ∧
    r.2.2.headerOffset + r.2.2.transferLength < 2 ^ 64

instance (chunk : List Byte) (r : Int × Nat × HttpParser) : Decidable (FramedCall chunk r) :=
  inferInstanceAs (Decidable (_ → _ → _))

/-- The last Content-Length of the stream is below `2 ^ 31`, or what the conversion to `int` makes of
it does not complete the message: it is `-1`, or it asks for more bytes than the stream has. -/
def LengthKept (isResp : Bool) (p : HttpParser) (bytes : List Byte) : Prop :=
  let head := streamHead isResp p bytes
  0 < head.1 → head.2.chunked = false → head.2.code.any isBodyless = false →
    ∀ value, lastContentLength head.2.headerList = some value →
      decimalValue value < 2 ^ 31 ∨ toSize (atoi value) = sizeMax ∨
        bytes.length < addSize head.2.headerOffset (toSize (atoi value))

/-- A completed run has the header of the stream, and its length is the announced one. -/
theorem appendAll_framed {isResp : Bool} {p : HttpParser} {chunks : List (List Byte)}
    (hone : (appendAll chunks (httpParserInit isResp p)).1 = 1) :
    0 < (streamHead isResp p chunks.flatten).1 ∧
      SameHead (appendAll chunks (httpParserInit isResp p)).2.2
        (streamHead isResp p chunks.flatten).2 ∧
      (appendAll chunks (httpParserInit isResp p)).2.2.transferLength =
        bodyLength isResp (streamHead isResp p chunks.flatten).2 ∧
      ((streamHead isResp p chunks.flatten).2.chunked = false →
        (appendAll chunks (httpParserInit isResp p)).2.2.transferLength ≠ sizeMax ∧
        addSize (appendAll chunks (httpParserInit isResp p)).2.2.headerOffset
          (appendAll chunks (httpParserInit isResp p)).2.2.transferLength ≤ chunks.flatten.length ∧
        (appendAll chunks (httpParserInit isResp p)).2.2.msgsize =
          addSize (appendAll chunks (httpParserInit isResp p)).2.2.headerOffset
            (appendAll chunks (httpParserInit isResp p)).2.2.transferLength) := by
  obtain ⟨hcode, hsame, hcomplete, _⟩ := appendAll_completed p hone
  obtain ⟨hpos, hhead, htl⟩ := scanBuffer_framed hcode
  have hfields := core_eq_iff.mp hsame.core
  have hhead' : SameHead (appendAll chunks (httpParserInit isResp p)).2.2
      (streamHead isResp p chunks.flatten).2 :=
    ⟨by grind [hhead.headerOffset], by grind [hhead.headerList], by grind [hhead.code],
      by grind [hhead.chunked]⟩
  have htl' := hfields.2.2.2.1.trans htl
  refine ⟨hpos, hhead', htl', fun hchunked => ?_⟩
  have hbody := scanBuffer_unchunked hpos hchunked
  obtain ⟨hmax, hle⟩ := hbody.1.mp hcode
  rw [htl', hhead'.headerOffset, (hsame.message hcomplete).1]
  exact ⟨hmax, hle, hbody.2 hcode⟩

/-- A call frames the body of the message exactly when the length survives the conversion to `int` or
the message does not complete. `before` is what arrived earlier. -/
theorem httpParserAppendMessage_framed (isResp : Bool) (p : HttpParser)
    (before : List (List Byte)) (chunk : List Byte)
    (hmem : (before ++ [chunk]).flatten.length < 2 ^ 63)
    (hbefore : (appendAll before (httpParserInit isResp p)).1 = 0) :
    FramedCall chunk
        (httpParserAppendMessage chunk (appendAll before (httpParserInit isResp p)).2.2) ↔
      LengthKept isResp p (before ++ [chunk]).flatten := by
  have hconcat := appendAll_concat chunk hbefore
  have hcode : (httpParserAppendMessage chunk (appendAll before (httpParserInit isResp p)).2.2).1 =
      (appendAll (before ++ [chunk]) (httpParserInit isResp p)).1 := by rw [hconcat]
  have hparser :
      (httpParserAppendMessage chunk (appendAll before (httpParserInit isResp p)).2.2).2.2 =
        (appendAll (before ++ [chunk]) (httpParserInit isResp p)).2.2 := by rw [hconcat]
  unfold FramedCall
  rw [hcode, hparser]
  constructor
  · intro hframed hpos hchunked hbody value hlast
    by_contra hbad
    simp only [not_or, Nat.not_lt] at hbad
    obtain ⟨hlarge, hmax, hle⟩ := hbad
    have hlen := bodyLength_contentLength isResp hbody hchunked hlast
    have hscan : (scanBuffer (httpParserInit isResp p) (before ++ [chunk]).flatten).1 = 1 :=
      (scanBuffer_unchunked hpos hchunked).1.mpr (by rw [hlen]; exact ⟨hmax, hle⟩)
    have hone : (appendAll (before ++ [chunk]) (httpParserInit isResp p)).1 = 1 :=
      (appendAll_init isResp p p (before ++ [chunk])).1.trans hscan
    obtain ⟨_, hhead, htl, hun⟩ := appendAll_framed hone
    obtain ⟨_, _, hsize⟩ := hun hchunked
    obtain ⟨hoff, hdiff, _, hwrap⟩ := hframed hone (hhead.chunked.trans hchunked)
    have hannounced : announcedLength (appendAll (before ++ [chunk]) (httpParserInit isResp p)).2.2 =
        decimalValue value := by
      simp only [announcedLength, hhead.code, hhead.headerList, hbody, hlast]
      rfl
    rw [hsize, addSize_of_lt hwrap, htl, hlen, hannounced] at hdiff
    -- the stored length is the decimal value, so that is below 2 ^ 31
    have hstored : toSize (atoi value) = decimalValue value := by omega
    rw [hstored] at hmax
    rw [lastContentLength_stored hlast] at hstored
    have hlt := lt_of_toSize_toInt_saturate hstored hmax
    omega
  · intro hkept hone hchunked
    obtain ⟨hpos, hhead, htl, hun⟩ := appendAll_framed hone
    rw [hhead.chunked] at hchunked
    obtain ⟨hmax, hle, hsize⟩ := hun hchunked
    -- the message is complete, so the last two cases of `LengthKept` are out
    have hsmall : (streamHead isResp p (before ++ [chunk]).flatten).2.code.any isBodyless = false →
        (streamHead isResp p (before ++ [chunk]).flatten).2.chunked = false →
        ∀ value, lastContentLength (streamHead isResp p (before ++ [chunk]).flatten).2.headerList =
          some value → decimalValue value < 2 ^ 31 := by
      intro hbody _ value hlast
      rw [htl, bodyLength_contentLength _ hbody hchunked hlast] at hmax hle
      rw [hhead.headerOffset] at hle
      rcases hkept hpos hchunked hbody value hlast with hlt | hmax' | hmore
      · exact hlt
      · exact absurd hmax' hmax
      · omega
    have hoff := streamHead_offset_le hpos
    rcases bodyLength_small isResp hsmall with hmax' | ⟨hlen, hlt⟩
    · exact absurd (htl.trans hmax') hmax
    · have hwrap : (appendAll (before ++ [chunk]) (httpParserInit isResp p)).2.2.headerOffset +
          (appendAll (before ++ [chunk]) (httpParserInit isResp p)).2.2.transferLength < 2 ^ 64 := by
        rw [hhead.headerOffset, htl]
        omega
      have hconsumed := httpParserAppendMessage_consumed (by omega) hbefore hone (Or.inr hwrap)
      have hannounced : announcedLength
          (appendAll (before ++ [chunk]) (httpParserInit isResp p)).2.2 =
            announcedLength (streamHead isResp p (before ++ [chunk]).flatten).2 := by
        simp only [announcedLength, hhead.code, hhead.headerList]
      obtain ⟨_, _, _, hinside⟩ := appendAll_completed p hone
      rw [hsize, addSize_of_lt hwrap] at hconsumed hinside ⊢
      have hlength : (before ++ [chunk]).flatten.length = before.flatten.length + chunk.length := by
        simp only [List.flatten_append, List.flatten_cons, List.flatten_nil, List.append_nil,
          List.length_append]
      refine ⟨by omega, ?_, by omega, hwrap⟩
      rw [hannounced, ← hlen, ← htl]
      omega

theorem httpParserAppendMessage_framed_request :
    let before := [ascii "POST / HTTP/1.1\r\nContent-Length: 3\r\n"]
    let chunk := ascii "\r\nabcGET"
    FramedCall chunk
        (httpParserAppendMessage chunk (appendAll before (httpParserInit false default)).2.2) ∧
      LengthKept false default (before ++ [chunk]).flatten := by
  intro before chunk
  have hframed : FramedCall chunk
      (httpParserAppendMessage chunk (appendAll before (httpParserInit false default)).2.2) := by
    decide +kernel
  exact ⟨hframed, (httpParserAppendMessage_framed false default before chunk (by decide +kernel)
    (by decide +kernel)).mp hframed⟩

/-- A length of 2 ^ 32 - 6 is stored as -6: the message ends inside its own header. -/
theorem httpParserAppendMessage_wrapped :
    ¬ FramedCall (ascii "GET / HTTP/1.1\r\nContent-Length: 4294967290\r\n\r\nabc")
      (httpParserAppendMessage (ascii "GET / HTTP/1.1\r\nContent-Length: 4294967290\r\n\r\nabc")
        (appendAll [] (httpParserInit false default)).2.2) := by
  decide +kernel

end Workflow.Http
