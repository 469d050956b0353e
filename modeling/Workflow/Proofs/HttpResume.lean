/-
Module: Workflow.Proofs.HttpResume
Layer: Proofs
Purpose: The HTTP parser can be restarted at every place where it runs out of bytes. Each line
  scanner answers the same once it has answered, so the header loop and the chunk loop are stable
  scanners, and the whole scan of a message is resumable up to the scratch data it keeps.
Trusted boundary: none
Main exports: SameParse, headerScanner_stable, chunkScanner_stable, scanBuffer, scanBuffer_resumable
-/
import Workflow.Protocol.HttpParser

namespace Workflow.Http

open Workflow.Lib

/-! ### Answers that later bytes do not change -/

/-- A line that has been decided does not change with what follows. -/
theorem scanLine_append {max : Nat} {ok : Byte → Bool} {i : Nat} {bytes : List Byte}
    (more : List Byte) (h : scanLine max ok i bytes ≠ .more) :
    scanLine max ok i (bytes ++ more) = scanLine max ok i bytes := by
  fun_induction scanLine max ok i bytes with
  | case1 => cases more <;> simp [scanLine]
  | case2 => simp at h
  | case3 => simp [scanLine]
  | case4 => simp at h
  | case5 => simp_all [scanLine]
  | case6 => simp_all [scanLine]
  | case7 i c rest hi hc hok ih =>
      have hrest : scanLine max ok (i + 1) rest ≠ .more := by
        intro hmore
        simp [hmore, LineScan.cons] at h
      simp [scanLine, hi, hc, hok, ih hrest]
  | case8 => simp_all [scanLine]

/-- Nor does its end. -/
theorem startsWithCrlf_append {bytes : List Byte} (more : List Byte)
    (h : startsWithCrlf bytes = true) : startsWithCrlf (bytes ++ more) = true := by
  match bytes with
  | [] => simp [startsWithCrlf] at h
  | [_] => simp [startsWithCrlf] at h
  | _ :: _ :: _ => simpa [startsWithCrlf] using h

/-- Only an empty buffer or a lone CR can become a CR LF by appending bytes. -/
theorem startsWithCrlf_of_append {bytes more : List Byte}
    (h : startsWithCrlf (bytes ++ more) = true) (hn : startsWithCrlf bytes = false) :
    bytes = [] ∨ bytes = [CR] := by
  match bytes with
  | [] => exact Or.inl rfl
  | [c] =>
      cases more with
      | nil => simp [startsWithCrlf] at h
      | cons d more =>
          simp [startsWithCrlf] at h
          simp [h.1]
  | c :: d :: rest =>
      simp [startsWithCrlf] at h hn
      exact absurd h.2 (hn h.1)

/-- Nor the start line. -/
theorem parseStartLine_decided (p : HttpParser) (bytes more : List Byte)
    (h : (parseStartLine p bytes).1 ≠ 0) :
    parseStartLine p (bytes ++ more) = parseStartLine p bytes := by
  unfold parseStartLine at h ⊢
  by_cases hc : startsWithCrlf bytes = true
  · rw [if_pos hc, if_pos (startsWithCrlf_append more hc)]
  · rw [if_neg hc] at h ⊢
    have hscan : scanLine httpStartLineMax isPositive 0 bytes ≠ .more := by
      intro hmore
      simp [hmore] at h
    have hcm : ¬ startsWithCrlf (bytes ++ more) = true := by
      intro hcm
      rcases startsWithCrlf_of_append hcm (by simpa using hc) with rfl | rfl
      · simp [scanLine, httpStartLineMax] at hscan
      · simp [scanLine, httpStartLineMax] at hscan
    rw [if_neg hcm, scanLine_append more hscan]

/-- Nor the name of a header. -/
theorem headerNameLoop_decided (more : List Byte) {i : Nat} {p : HttpParser} {bytes : List Byte}
    (h : (headerNameLoop i p bytes).1 ≠ 0) :
    headerNameLoop i p (bytes ++ more) = headerNameLoop i p bytes := by
  fun_induction headerNameLoop i p bytes with
  | case1 => cases more <;> simp [headerNameLoop]
  | case2 => simp at h
  | case3 => simp [headerNameLoop]
  | case4 => simp_all [headerNameLoop]
  | case5 i p c rest hi hc hok ih => simp [headerNameLoop, hi, hc, hok, ih h]
  | case6 => simp_all [headerNameLoop]

/-- Nor the line that it begins. -/
theorem parseHeaderName_decided (p : HttpParser) (bytes more : List Byte)
    (h : (parseHeaderName p bytes).1 ≠ 0) :
    parseHeaderName p (bytes ++ more) = parseHeaderName p bytes := by
  unfold parseHeaderName at h ⊢
  by_cases hc : startsWithCrlf bytes = true
  · rw [if_pos hc, if_pos (startsWithCrlf_append more hc)]
  · rw [if_neg hc] at h ⊢
    have hcm : ¬ startsWithCrlf (bytes ++ more) = true := by
      intro hcm
      rcases startsWithCrlf_of_append hcm (by simpa using hc) with rfl | rfl
      · simp [headerNameLoop, httpHeaderNameMax] at h
      · simp [headerNameLoop, httpHeaderNameMax, CR, isPositive] at h
    rw [if_neg hcm, headerNameLoop_decided more h]

/-- The bytes behind a value grow with the buffer; everything else stays. -/
theorem headerValueLoop_append (more : List Byte) {skipping : Bool} {value bytes : List Byte}
    (h : headerValueLoop skipping value bytes ≠ .more) :
    headerValueLoop skipping value (bytes ++ more) =
      match headerValueLoop skipping value bytes with
      | .value content rest => .value content (rest ++ more)
      | other => other := by
  fun_induction headerValueLoop skipping value bytes with
  | case1 => simp at h
  | case2 skipping value c rest hb ih =>
      rw [List.cons_append, headerValueLoop.eq_def]
      simp only [if_pos hb]
      exact ih h
  | case3 skipping value c rest hb hlen =>
      rw [List.cons_append, headerValueLoop.eq_def]
      simp only [if_neg hb, if_pos hlen]
  | case4 => simp at h
  | case5 => simp at h
  | case6 skipping value hlen e rest he hb ih =>
      rw [headerValueLoop.eq_def]
      simp only [List.cons_append, if_neg hb, if_neg hlen, if_true, if_pos he]
      exact ih h
  | case7 skipping value hlen e rest he hb =>
      rw [headerValueLoop.eq_def]
      simp only [List.cons_append, if_neg hb, if_neg hlen, if_true, if_neg he]
  | case8 skipping value hlen d rest hd hb =>
      rw [headerValueLoop.eq_def]
      simp only [List.cons_append, if_neg hb, if_neg hlen, if_true, if_neg hd]
  | case9 skipping value c hb hlen d rest hc hok ih =>
      rw [headerValueLoop.eq_def]
      simp only [List.cons_append, if_neg hb, if_neg hlen, if_neg hc, if_pos hok]
      exact ih h
  | case10 skipping value c hb hlen d rest hc hok =>
      rw [headerValueLoop.eq_def]
      simp only [List.cons_append, if_neg hb, if_neg hlen, if_neg hc, if_neg hok]

/-- Nor the value. -/
theorem parseHeaderValue_decided (p : HttpParser) (bytes more : List Byte)
    (h : (parseHeaderValue p bytes).1 ≠ 0) :
    parseHeaderValue p (bytes ++ more) = parseHeaderValue p bytes := by
  unfold parseHeaderValue at h ⊢
  have hscan : headerValueLoop true [] bytes ≠ .more := by
    intro hmore
    simp [hmore] at h
  rw [headerValueLoop_append more hscan]
  cases headerValueLoop true [] bytes with
  | more => rfl
  | bad => rfl
  | value content rest =>
      simp only [List.length_append]
      rw [Nat.add_sub_add_right]

/-- Nor a chunk. -/
theorem parseChunkData_decided (p : HttpParser) (bytes more : List Byte)
    (h : (parseChunkData p bytes).1 ≠ 0) :
    parseChunkData p (bytes ++ more) = parseChunkData p bytes := by
  unfold parseChunkData at h ⊢
  have hscan : scanLine httpChunkLineMax (fun _ => true) 0 bytes ≠ .more := by
    intro hmore
    simp [hmore] at h
  rw [scanLine_append more hscan]
  cases hline : scanLine httpChunkLineMax (fun _ => true) 0 bytes with
  | more => rfl
  | bad => rfl
  | line content =>
      rw [hline] at h
      simp only [List.length_append] at h ⊢
      grind

/-- Nor the trailer. -/
theorem parseTrailerPart_decided (p : HttpParser) (bytes more : List Byte)
    (h : (parseTrailerPart p bytes).1 ≠ 0) :
    parseTrailerPart p (bytes ++ more) = parseTrailerPart p bytes := by
  unfold parseTrailerPart at h ⊢
  have hscan : scanLine httpTrailerLineMax (fun _ => true) 0 bytes ≠ .more := by
    intro hmore
    simp [hmore] at h
  rw [scanLine_append more hscan]

/-! ### Equality up to scratch data -/

/-- The parser without its scratch fields: the name buffer, the chunk cursor and the storage. -/
def HttpParser.core (p : HttpParser) : HttpParser :=
  { p with
    namebuf := Vector.replicate httpHeaderNameMax 0
    chunkState := .chunkData
    chunkOffset := 0
    msgbuf := []
    msgsize := 0
    bufsize := 0 }

/-- Two parsers that reading a header cannot tell apart. The name buffer matters only while a value
is being read. -/
structure SameHeader (p q : HttpParser) : Prop where
  core : p.core = q.core
  name : p.headerState = .headerValue → p.name = q.name

/-- Two parsers that later calls cannot tell apart. The chunk cursor matters only behind the header
of a chunked message. -/
structure SameParse (p q : HttpParser) : Prop extends SameHeader p q where
  chunk : p.headerState = .headerComplete → p.chunked = true →
    p.chunkState = q.chunkState ∧ p.chunkOffset = q.chunkOffset

/-- Equal cores agree in every field that is not scratch. -/
theorem core_eq_iff {p q : HttpParser} :
    p.core = q.core ↔
      p.headerState = q.headerState ∧ p.headerOffset = q.headerOffset ∧
      p.contentLength = q.contentLength ∧ p.transferLength = q.transferLength ∧
      p.version = q.version ∧ p.method = q.method ∧ p.uri = q.uri ∧ p.code = q.code ∧
      p.phrase = q.phrase ∧ p.headerList = q.headerList ∧ p.expectContinue = q.expectContinue ∧
      p.keepAlive = q.keepAlive ∧ p.chunked = q.chunked ∧ p.complete = q.complete ∧
      p.isResp = q.isResp := by
  simp [HttpParser.core, HttpParser.mk.injEq]

theorem SameHeader.equivalence : Equivalence SameHeader where
  refl p := ⟨rfl, fun _ => rfl⟩
  symm {p q} h := by
    have hcore := core_eq_iff.mp h.core
    exact ⟨h.core.symm, fun hs => (h.name (hcore.1.trans hs)).symm⟩
  trans {p q r} h₁ h₂ := by
    have hcore := core_eq_iff.mp h₁.core
    exact ⟨h₁.core.trans h₂.core, fun hs => (h₁.name hs).trans (h₂.name (by grind))⟩

theorem SameParse.equivalence : Equivalence SameParse where
  refl p := ⟨SameHeader.equivalence.refl p, fun _ _ => ⟨rfl, rfl⟩⟩
  symm {p q} h := by
    have hcore := core_eq_iff.mp h.core
    refine ⟨SameHeader.equivalence.symm h.toSameHeader, fun hs hc => ?_⟩
    obtain ⟨h1, h2⟩ := h.chunk (by grind) (by grind)
    exact ⟨h1.symm, h2.symm⟩
  trans {p q r} h₁ h₂ := by
    have hcore := core_eq_iff.mp h₁.core
    refine ⟨SameHeader.equivalence.trans h₁.toSameHeader h₂.toSameHeader, fun hs hc => ?_⟩
    obtain ⟨h1, h2⟩ := h₁.chunk hs hc
    obtain ⟨h3, h4⟩ := h₂.chunk (by grind) (by grind)
    exact ⟨h1.trans h3, h2.trans h4⟩

/-! ### The header loop -/

/-- A step that answers with a plain code and keeps the state respects the relation. -/
theorem SameHeader.keep {p q : HttpParser} (h : SameHeader p q) (code : Int) :
    SameResult SameHeader (code, p) (code, q) :=
  ⟨rfl, fun _ => h⟩

/-- The start line is parsed alike in parsers that agree. -/
theorem parseStartLine_congr {p q : HttpParser} (h : SameHeader p q)
    (hs : p.headerState = .startLine) (bytes : List Byte) :
    SameResult SameHeader (parseStartLine p bytes) (parseStartLine q bytes) := by
  have hcore := core_eq_iff.mp h.core
  unfold parseStartLine
  split
  · refine ⟨rfl, fun _ => ⟨core_eq_iff.mpr (by grind), ?_⟩⟩
    simp [hs]
  · split
    · exact h.keep 0
    · exact h.keep (-2)
    · split
      · exact h.keep (-2)
      · split
        · exact h.keep (-2)
        · refine ⟨rfl, fun _ => ⟨core_eq_iff.mpr ?_, by simp⟩⟩
          simp only [matchStatusLine, matchRequestLine]
          grind

/-- So is a value. -/
theorem parseHeaderValue_congr {p q : HttpParser} (h : SameHeader p q)
    (hs : p.headerState = .headerValue) (bytes : List Byte) :
    SameResult SameHeader (parseHeaderValue p bytes) (parseHeaderValue q bytes) := by
  have hcore := core_eq_iff.mp h.core
  unfold parseHeaderValue
  split
  · exact h.keep 0
  · exact h.keep (-2)
  · rename_i content rest _
    refine ⟨rfl, fun _ => ⟨core_eq_iff.mpr ?_, by simp⟩⟩
    rw [h.name hs]
    simp only [matchMessageHeader, httpParserAddHeader, applyHeader]
    grind

/-- Writing NUL behind the bytes of a name makes them the C string in the buffer. -/
theorem takeWhile_setIfInBounds_zero {buf : Vector Byte httpHeaderNameMax} {i : Nat}
    (hi : i < httpHeaderNameMax) (hne : ∀ c ∈ buf.toList.take i, c ≠ 0) :
    (buf.setIfInBounds i 0).toList.takeWhile (· ≠ 0) = buf.toList.take i := by
  have hlen : buf.toList.length = httpHeaderNameMax := by simp
  have hset : (buf.setIfInBounds i 0).toList =
      buf.toList.take i ++ 0 :: buf.toList.drop (i + 1) := by
    rw [Vector.toList_setIfInBounds, List.set_eq_take_append_cons_drop, if_pos (by omega)]
  rw [hset, List.takeWhile_append_of_pos (by simpa using hne)]
  simp

/-- The loop over a name depends on the buffer only through the bytes already written. -/
theorem headerNameLoop_congr {bytes : List Byte} {i : Nat} {p q : HttpParser}
    (hcore : p.core = q.core)
    (hs : p.headerState = .headerName) (hi : i ≤ httpHeaderNameMax)
    (hbuf : p.namebuf.toList.take i = q.namebuf.toList.take i)
    (hne : ∀ c ∈ p.namebuf.toList.take i, c ≠ 0) :
    SameResult SameHeader (headerNameLoop i p bytes) (headerNameLoop i q bytes) := by
  have hfields := core_eq_iff.mp hcore
  have hkeep : ∀ code : Int, SameResult SameHeader (code, p) (code, q) :=
    fun code => ⟨rfl, fun _ => ⟨hcore, by simp [hs]⟩⟩
  induction bytes generalizing i p q with
  | nil =>
      unfold headerNameLoop
      split <;> exact hkeep _
  | cons c rest ih =>
      unfold headerNameLoop
      split
      · exact hkeep _
      · rename_i hmax
        have hlt : i < httpHeaderNameMax := by omega
        split
        · refine ⟨rfl, fun _ => ⟨core_eq_iff.mpr (by grind), fun _ => ?_⟩⟩
          simp only [HttpParser.name]
          rw [takeWhile_setIfInBounds_zero hlt hne,
            takeWhile_setIfInBounds_zero hlt (by rw [← hbuf]; exact hne), hbuf]
        · split
          · rename_i hpos
            have htake : ∀ buf : Vector Byte httpHeaderNameMax,
                (buf.setIfInBounds i c).toList.take (i + 1) = buf.toList.take i ++ [c] := by
              intro buf
              have hlen : buf.toList.length = httpHeaderNameMax := by simp
              rw [Vector.toList_setIfInBounds, List.take_add_one, List.take_set_of_le (Nat.le_refl i)]
              simp [hlen, hlt]
            have hcne : c ≠ 0 := by
              rintro rfl
              simp [isPositive] at hpos
            refine ih (core_eq_iff.mpr (by grind)) hs hlt ?_ ?_ ?_ ?_
            · rw [htake, htake, hbuf]
            · rw [htake]
              intro d hd
              rcases List.mem_append.mp hd with hd | hd
              · exact hne d hd
              · rw [List.mem_singleton.mp hd]
                exact hcne
            · grind
            · exact fun code => ⟨rfl, fun _ => ⟨core_eq_iff.mpr (by grind), by simp [hs]⟩⟩
          · exact hkeep _

/-- So is a name. -/
theorem parseHeaderName_congr {p q : HttpParser} (h : SameHeader p q)
    (hs : p.headerState = .headerName) (bytes : List Byte) :
    SameResult SameHeader (parseHeaderName p bytes) (parseHeaderName q bytes) := by
  have hfields := core_eq_iff.mp h.core
  unfold parseHeaderName
  split
  · exact ⟨rfl, fun _ => ⟨core_eq_iff.mpr (by grind), by simp⟩⟩
  · exact headerNameLoop_congr h.core hs (Nat.zero_le _) (by simp) (by simp)

/-- The loop over a name writes to the name buffer only, until it finds the colon. -/
theorem headerNameLoop_more {i : Nat} {p : HttpParser} {bytes : List Byte}
    (h : (headerNameLoop i p bytes).1 = 0) :
    (headerNameLoop i p bytes).2 = { p with namebuf := (headerNameLoop i p bytes).2.namebuf } := by
  fun_induction headerNameLoop i p bytes with
  | case1 => simp at h
  | case2 => rfl
  | case3 => simp at h
  | case4 => simp at h
  | case5 i p c rest hi hc hok ih =>
      rw [ih h]
  | case6 => simp at h

/-- A name that is not complete leaves no trace. -/
theorem parseHeaderName_more {p : HttpParser} (hs : p.headerState ≠ .headerValue)
    (bytes : List Byte) (h : (parseHeaderName p bytes).1 = 0) :
    SameHeader (parseHeaderName p bytes).2 p := by
  unfold parseHeaderName at h ⊢
  split at h
  · simp at h
  · rename_i hcrlf
    rw [if_neg hcrlf, headerNameLoop_more h]
    exact ⟨rfl, fun hv => absurd hv hs⟩

/-- A start line that is not complete leaves none. -/
theorem parseStartLine_more {p : HttpParser} {bytes : List Byte}
    (h : (parseStartLine p bytes).1 ≤ 0) : (parseStartLine p bytes).2 = p := by
  unfold parseStartLine at h ⊢
  grind

/-- A value that is not complete leaves none. -/
theorem parseHeaderValue_more {p : HttpParser} {bytes : List Byte}
    (h : (parseHeaderValue p bytes).1 ≤ 0) : (parseHeaderValue p bytes).2 = p := by
  unfold parseHeaderValue at h ⊢
  grind

/-- An incomplete name stays in its state. -/
theorem headerNameLoop_state {i : Nat} {p : HttpParser} {bytes : List Byte}
    (h : (headerNameLoop i p bytes).1 ≤ 0) :
    (headerNameLoop i p bytes).2.headerState = p.headerState := by
  fun_induction headerNameLoop i p bytes with
  | case4 => simp at h
  | case5 i p c rest hi hc hok ih => exact ih h
  | _ => rfl

/-- Without a positive code the header is where it was. -/
theorem parseMessageHeaderStep_state {p : HttpParser} {bytes : List Byte}
    (h : (parseMessageHeaderStep p bytes).1 ≤ 0) :
    (parseMessageHeaderStep p bytes).2.headerState = p.headerState := by
  unfold parseMessageHeaderStep at h ⊢
  split at h
  · rename_i hs
    rw [if_pos hs, parseStartLine_more h]
  · rename_i hs
    rw [if_neg hs]
    split at h
    · rename_i hv
      rw [if_pos hv, parseHeaderValue_more h]
    · rename_i hv
      rw [if_neg hv]
      unfold parseHeaderName at h ⊢
      split at h
      · simp at h
      · rename_i hcrlf
        rw [if_neg hcrlf, headerNameLoop_state h]

theorem headerScanner_stable : headerScanner.Stable SameHeader where
  equiv := SameHeader.equivalence
  offset_eq h := (core_eq_iff.mp h.core).2.1
  stop_eq h := by simp [headerScanner, (core_eq_iff.mp h.core).1]
  step_congr {p q} bytes hstop h := by
    have hstate := (core_eq_iff.mp h.core).1
    have hstop : p.headerState ≠ .headerComplete := by simpa [headerScanner] using hstop
    simp only [headerScanner, parseMessageHeaderStep, ← hstate]
    split
    · exact parseStartLine_congr h (by assumption) bytes
    · split
      · exact parseHeaderValue_congr h (by assumption) bytes
      · refine parseHeaderName_congr h ?_ bytes
        cases hs : p.headerState <;> simp_all
  step_decided p bytes more h := by
    simp only [headerScanner, parseMessageHeaderStep] at h ⊢
    split at h
    · rename_i hs
      rw [if_pos hs, if_pos hs, parseStartLine_decided p bytes more h]
    · rename_i hs
      rw [if_neg hs, if_neg hs]
      split at h
      · rename_i hv
        rw [if_pos hv, if_pos hv, parseHeaderValue_decided p bytes more h]
      · rename_i hv
        rw [if_neg hv, if_neg hv, parseHeaderName_decided p bytes more h]
  step_more p bytes h := by
    simp only [headerScanner, parseMessageHeaderStep] at h ⊢
    split at h
    · rename_i hs
      rw [if_pos hs, parseStartLine_more (Int.le_of_eq h)]
      exact SameHeader.equivalence.refl p
    · rename_i hs
      rw [if_neg hs]
      split at h
      · rename_i hv
        rw [if_pos hv, parseHeaderValue_more (Int.le_of_eq h)]
        exact SameHeader.equivalence.refl p
      · rename_i hv
        rw [if_neg hv]
        exact parseHeaderName_more hv bytes h
  step_stop p bytes hp h := by
    simp only [headerScanner, decide_eq_false_iff_not, decide_eq_true_eq] at hp h ⊢
    by_contra hcode
    exact hp ((parseMessageHeaderStep_state (Int.not_lt.mp hcode)).symm.trans h)

/-! ### The chunk loop -/

/-- A chunk that is not complete leaves no trace. -/
theorem parseChunkStep_more {p : HttpParser} {bytes : List Byte}
    (h : (parseChunkStep p bytes).1 ≤ 0) : (parseChunkStep p bytes).2 = p := by
  unfold parseChunkStep parseChunkData parseTrailerPart at h ⊢
  grind

/-- The relation of the chunk loop: the chunk cursors agree as well. -/
def SameChunk (p q : HttpParser) : Prop :=
  SameHeader p q ∧ p.chunkState = q.chunkState ∧ p.chunkOffset = q.chunkOffset

theorem SameChunk.equivalence : Equivalence SameChunk where
  refl p := ⟨SameHeader.equivalence.refl p, rfl, rfl⟩
  symm h := ⟨SameHeader.equivalence.symm h.1, h.2.1.symm, h.2.2.symm⟩
  trans h₁ h₂ := ⟨SameHeader.equivalence.trans h₁.1 h₂.1, h₁.2.1.trans h₂.2.1,
    h₁.2.2.trans h₂.2.2⟩

/-- The chunk loop moves the chunk cursor and nothing else. -/
theorem parseChunkStep_sameHeader (p : HttpParser) (bytes : List Byte) :
    SameHeader (parseChunkStep p bytes).2 p := by
  unfold parseChunkStep parseChunkData parseTrailerPart
  repeat' split
  all_goals exact ⟨rfl, fun _ => rfl⟩

/-- Where the chunk cursor goes depends on the cursor alone. -/
theorem parseChunkStep_cursor {p q : HttpParser} (hstate : p.chunkState = q.chunkState)
    (hoff : p.chunkOffset = q.chunkOffset) (bytes : List Byte) :
    (parseChunkStep p bytes).1 = (parseChunkStep q bytes).1 ∧
      (parseChunkStep p bytes).2.chunkState = (parseChunkStep q bytes).2.chunkState ∧
      (parseChunkStep p bytes).2.chunkOffset = (parseChunkStep q bytes).2.chunkOffset := by
  unfold parseChunkStep
  rw [hstate]
  split
  · unfold parseChunkData
    cases scanLine httpChunkLineMax (fun _ => true) 0 bytes with
    | more => exact ⟨rfl, hstate, hoff⟩
    | bad => exact ⟨rfl, hstate, hoff⟩
    | line content =>
        simp only
        repeat' split
        all_goals simp [hstate, hoff]
  · unfold parseTrailerPart
    cases scanLine httpTrailerLineMax (fun _ => true) 0 bytes with
    | more => exact ⟨rfl, hstate, hoff⟩
    | bad => exact ⟨rfl, hstate, hoff⟩
    | line content => simp [hstate, hoff]

/-- A chunk is parsed alike in parsers that agree. -/
theorem parseChunkStep_congr {p q : HttpParser} (h : SameChunk p q) (bytes : List Byte) :
    SameResult SameChunk (parseChunkStep p bytes) (parseChunkStep q bytes) := by
  obtain ⟨hsame, hstate, hoff⟩ := h
  obtain ⟨hcode, hstate', hoff'⟩ := parseChunkStep_cursor hstate hoff bytes
  have hp := SameHeader.equivalence.trans (parseChunkStep_sameHeader p bytes) hsame
  have hq := SameHeader.equivalence.symm (parseChunkStep_sameHeader q bytes)
  exact ⟨hcode, fun _ => ⟨SameHeader.equivalence.trans hp hq, hstate', hoff'⟩⟩

theorem chunkScanner_stable : chunkScanner.Stable SameChunk where
  equiv := SameChunk.equivalence
  offset_eq h := h.2.2
  stop_eq h := by simp [chunkScanner, h.2.1]
  step_congr bytes _ h := parseChunkStep_congr h bytes
  step_decided p bytes more h := by
    simp only [chunkScanner, parseChunkStep] at h ⊢
    split at h
    · rename_i hs
      rw [if_pos hs, if_pos hs, parseChunkData_decided p bytes more h]
    · rename_i hs
      rw [if_neg hs, if_neg hs, parseTrailerPart_decided p bytes more h]
  step_more p bytes h := by
    simp only [chunkScanner] at h ⊢
    rw [parseChunkStep_more (Int.le_of_eq h)]
    exact SameChunk.equivalence.refl p
  step_stop p bytes hp h := by
    simp only [chunkScanner, decide_eq_false_iff_not, decide_eq_true_eq] at hp h ⊢
    by_contra hcode
    rw [parseChunkStep_more (Int.not_lt.mp hcode)] at h
    exact hp h

/-! ### Offsets stay inside the message -/

/-- A line and its end lie in the bytes. -/
theorem scanLine_length {max : Nat} {ok : Byte → Bool} {i : Nat} {bytes content : List Byte}
    (h : scanLine max ok i bytes = .line content) : content.length + 2 ≤ bytes.length := by
  fun_induction scanLine max ok i bytes generalizing content with
  | case5 =>
      simp at h
      simp [h]
  | case7 i c rest hi hc hok ih =>
      cases hrest : scanLine max ok (i + 1) rest with
      | more => simp [hrest, LineScan.cons] at h
      | bad => simp [hrest, LineScan.cons] at h
      | line tail =>
          simp [hrest, LineScan.cons] at h
          have := ih hrest
          simp [← h]
          omega
  | _ => simp at h

theorem startsWithCrlf_length {bytes : List Byte} (h : startsWithCrlf bytes = true) :
    2 ≤ bytes.length := by
  match bytes with
  | [] => simp [startsWithCrlf] at h
  | [_] => simp [startsWithCrlf] at h
  | _ :: _ :: _ => simp

/-- The offset stays inside the bytes. -/
theorem headerNameLoop_offset_le {i : Nat} {p : HttpParser} {bytes : List Byte}
    (h : 0 < (headerNameLoop i p bytes).1) :
    (headerNameLoop i p bytes).2.headerOffset ≤ p.headerOffset + (i + bytes.length) := by
  fun_induction headerNameLoop i p bytes with
  | case4 => simp
  | case5 i p c rest hi hc hok ih =>
      have := ih h
      simp at this ⊢
      omega
  | _ => simp at h

/-- So it does over a step of the header. -/
theorem parseMessageHeaderStep_offset_le (p : HttpParser) (bytes : List Byte)
    (h : 0 < (parseMessageHeaderStep p bytes).1) :
    (parseMessageHeaderStep p bytes).2.headerOffset ≤ p.headerOffset + bytes.length := by
  unfold parseMessageHeaderStep at h ⊢
  split
  · unfold parseStartLine at h ⊢
    have := @startsWithCrlf_length bytes
    have := @scanLine_length httpStartLineMax isPositive 0 bytes
    grind
  · split
    · unfold parseHeaderValue at h ⊢
      grind
    · unfold parseHeaderName at h ⊢
      split
      · rename_i hcrlf
        exact Nat.add_le_add_left (startsWithCrlf_length hcrlf) _
      · have := @headerNameLoop_offset_le 0 p bytes
        grind

/-- And over a chunk. -/
theorem parseChunkStep_offset_le (p : HttpParser) (bytes : List Byte)
    (h : 0 < (parseChunkStep p bytes).1) :
    (parseChunkStep p bytes).2.chunkOffset ≤ p.chunkOffset + bytes.length := by
  unfold parseChunkStep at h ⊢
  split
  · unfold parseChunkData at h ⊢
    have := @scanLine_length httpChunkLineMax (fun _ => true) 0 bytes
    grind
  · unfold parseTrailerPart at h ⊢
    have := @scanLine_length httpTrailerLineMax (fun _ => true) 0 bytes
    grind

/-! ### The whole scan -/

/-- The parser with the bytes received so far put in place. -/
def setBuf (p : HttpParser) (buffer : List Byte) : HttpParser :=
  { p with msgbuf := buffer, msgsize := buffer.length }

/-- The scan of a message as a function of the bytes received so far. -/
def scanBuffer (p : HttpParser) (buffer : List Byte) : Int × HttpParser :=
  scanMessage (setBuf p buffer)

/-- Between two calls the message is not complete, and a chunk loop that was begun has not ended. -/
structure Scanning (p : HttpParser) : Prop where
  complete : p.complete = false
  chunk : p.headerState = .headerComplete → p.chunked = true → p.chunkState ≠ .chunkComplete

/-- The relation on whole parsers: a complete message has the same bytes. -/
structure SameMessage (p q : HttpParser) : Prop extends SameParse p q where
  message : p.complete = true → p.msgsize = q.msgsize ∧ p.message = q.message

theorem SameMessage.equivalence : Equivalence SameMessage where
  refl p := ⟨SameParse.equivalence.refl p, fun _ => ⟨rfl, rfl⟩⟩
  symm {p q} h := by
    have hcore := core_eq_iff.mp h.core
    refine ⟨SameParse.equivalence.symm h.toSameParse, fun hc => ?_⟩
    obtain ⟨h1, h2⟩ := h.message (by grind)
    exact ⟨h1.symm, h2.symm⟩
  trans {p q r} h₁ h₂ := by
    have hcore := core_eq_iff.mp h₁.core
    refine ⟨SameParse.equivalence.trans h₁.toSameParse h₂.toSameParse, fun hc => ?_⟩
    obtain ⟨h1, h2⟩ := h₁.message hc
    obtain ⟨h3, h4⟩ := h₂.message (by grind)
    exact ⟨h1.trans h3, h2.trans h4⟩

/-- A buffer that is there already. -/
theorem setBuf_eq {p : HttpParser} {buffer : List Byte} (hbuf : p.msgbuf = buffer)
    (hsize : p.msgsize = buffer.length) : setBuf p buffer = p := by
  rw [setBuf, ← hsize, ← hbuf]

theorem setBuf_sameHeader (p : HttpParser) (buffer : List Byte) : SameHeader (setBuf p buffer) p :=
  ⟨rfl, fun _ => rfl⟩

theorem setBuf_sameChunk (p : HttpParser) (buffer : List Byte) : SameChunk (setBuf p buffer) p :=
  ⟨setBuf_sameHeader p buffer, rfl, rfl⟩

/-- The storage is not touched by the two loops. -/
structure SameBuffer (p q : HttpParser) : Prop where
  msgbuf : p.msgbuf = q.msgbuf
  msgsize : p.msgsize = q.msgsize
  complete : p.complete = q.complete

theorem headerNameLoop_sameBuffer (i : Nat) (p : HttpParser) (bytes : List Byte) :
    SameBuffer (headerNameLoop i p bytes).2 p := by
  fun_induction headerNameLoop i p bytes with
  | case5 i p c rest hi hc hok ih => exact ⟨ih.msgbuf, ih.msgsize, ih.complete⟩
  | _ => exact ⟨rfl, rfl, rfl⟩

theorem parseMessageHeaderStep_sameBuffer (p : HttpParser) (bytes : List Byte) :
    SameBuffer (parseMessageHeaderStep p bytes).2 p := by
  unfold parseMessageHeaderStep
  split
  · unfold parseStartLine matchStatusLine matchRequestLine
    repeat' split
    all_goals exact ⟨rfl, rfl, rfl⟩
  · split
    · unfold parseHeaderValue matchMessageHeader httpParserAddHeader applyHeader
      repeat' split
      all_goals exact ⟨by grind, by grind, by grind⟩
    · unfold parseHeaderName
      split
      · exact ⟨rfl, rfl, rfl⟩
      · exact headerNameLoop_sameBuffer 0 p bytes

theorem parseChunkStep_sameBuffer (p : HttpParser) (bytes : List Byte) :
    SameBuffer (parseChunkStep p bytes).2 p := by
  unfold parseChunkStep parseChunkData parseTrailerPart
  repeat' split
  all_goals exact ⟨rfl, rfl, rfl⟩

/-- The header is parsed in the same buffer. -/
theorem headerRun_sameBuffer (message : List Byte) (p : HttpParser) :
    SameBuffer (headerScanner.run message p).2 p :=
  Scanner.run_preserves (S := headerScanner) (P := fun q => SameBuffer q p)
    (fun q bytes hq =>
      let h := parseMessageHeaderStep_sameBuffer q bytes
      ⟨h.msgbuf.trans hq.msgbuf, h.msgsize.trans hq.msgsize, h.complete.trans hq.complete⟩)
    message p ⟨rfl, rfl, rfl⟩

/-- So are the chunks. -/
theorem chunkRun_sameBuffer (message : List Byte) (p : HttpParser) :
    SameBuffer (chunkScanner.run message p).2 p :=
  Scanner.run_preserves (S := chunkScanner) (P := fun q => SameBuffer q p)
    (fun q bytes hq =>
      let h := parseChunkStep_sameBuffer q bytes
      ⟨h.msgbuf.trans hq.msgbuf, h.msgsize.trans hq.msgsize, h.complete.trans hq.complete⟩)
    message p ⟨rfl, rfl, rfl⟩

/-- The chunks do not touch the header. -/
theorem chunkRun_sameHeader (message : List Byte) (p : HttpParser) :
    SameHeader (chunkScanner.run message p).2 p :=
  Scanner.run_preserves (S := chunkScanner) (P := fun q => SameHeader q p)
    (fun q bytes hq => SameHeader.equivalence.trans (parseChunkStep_sameHeader q bytes) hq)
    message p (SameHeader.equivalence.refl p)

/-! ### The body -/

/-- Completing related parsers at the same place of a common buffer gives the same message. -/
theorem SameHeader.completed {p q : HttpParser} {buffer more : List Byte} (h : SameHeader q p)
    (hq : q.msgbuf = buffer ++ more) (hp : p.msgbuf = buffer) {total total' : Nat}
    (heq : total' = total) (htotal : total ≤ buffer.length)
    (hchunk : q.chunked = true → q.chunkState = p.chunkState ∧ q.chunkOffset = p.chunkOffset) :
    SameMessage { q with msgsize := total', complete := true }
      { p with msgsize := total, complete := true } := by
  subst heq
  have hfields := core_eq_iff.mp h.core
  refine ⟨⟨⟨core_eq_iff.mpr (by grind), h.name⟩, fun _ hc => hchunk hc⟩, fun _ => ⟨rfl, ?_⟩⟩
  simp only [HttpParser.message, hq, hp]
  rw [List.take_append_of_le_length htotal]

/-- A parser in the middle of a chunked body. -/
structure InChunks (p : HttpParser) : Prop extends Scanning p where
  headerState : p.headerState = .headerComplete
  transferLength : p.transferLength = sizeMax
  chunked : p.chunked = true

theorem InChunks.stop {p : HttpParser} (h : InChunks p) : chunkScanner.stop p = false := by
  simpa [chunkScanner] using h.chunk h.headerState h.chunked

/-- A chunked message is complete with its last chunk. -/
theorem finishMessage_chunks {p : HttpParser} (h : InChunks p) :
    finishMessage p =
      if (chunkScanner.run p.msgbuf p).1 ≤ 0 then chunkScanner.run p.msgbuf p
      else (1, { (chunkScanner.run p.msgbuf p).2 with
        msgsize := (chunkScanner.run p.msgbuf p).2.chunkOffset
        complete := true }) := by
  simp [finishMessage, h.transferLength, h.chunked, h.chunk h.headerState h.chunked, parseChunk]

/-- Chunk loops that end alike complete the message alike. -/
theorem finishMessage_of_run {p q : HttpParser} (buffer more : List Byte) (hp : InChunks p)
    (hq : InChunks q) (hpbuf : p.msgbuf = buffer) (hqbuf : q.msgbuf = buffer ++ more)
    (hrun : SameResult SameChunk (chunkScanner.run (buffer ++ more) q)
      (chunkScanner.run buffer p)) :
    SameResult SameMessage (finishMessage q) (finishMessage p) := by
  have hbufp := chunkRun_sameBuffer buffer p
  have hbufq := chunkRun_sameBuffer (buffer ++ more) q
  rw [finishMessage_chunks hp, finishMessage_chunks hq, hpbuf, hqbuf, hrun.1]
  split
  · refine ⟨hrun.1, fun hnonneg => ?_⟩
    obtain ⟨hsame, hcs, hco⟩ := hrun.2 hnonneg
    exact ⟨⟨hsame, fun _ _ => ⟨hcs, hco⟩⟩,
      fun hcomplete => by simp [hbufq.complete, hq.complete] at hcomplete⟩
  · obtain ⟨hsame, hcs, hco⟩ := hrun.2 (by rw [hrun.1]; omega)
    have hle := Scanner.run_offset_le chunkScanner_stable parseChunkStep_offset_le buffer p
      hp.stop (by omega)
    exact ⟨rfl, fun _ => hsame.completed (hbufq.msgbuf.trans hqbuf) (hbufp.msgbuf.trans hpbuf)
      hco hle (fun _ => ⟨hcs, hco⟩)⟩

/-- The body phase on a longer buffer: same answer if it had answered, or if nothing was added. -/
theorem finishMessage_extend {p q : HttpParser} {buffer : List Byte} (more : List Byte)
    (h : SameParse q p)
    (hstate : p.headerState = .headerComplete) (hp : Scanning p) (hq : Scanning q)
    (hpbuf : p.msgbuf = buffer) (hpsize : p.msgsize = buffer.length)
    (hqbuf : q.msgbuf = buffer ++ more) (hqsize : q.msgsize = (buffer ++ more).length)
    (hmore : (finishMessage p).1 ≠ 0 ∨ more = []) :
    SameResult SameMessage (finishMessage q) (finishMessage p) := by
  have hfields := core_eq_iff.mp h.core
  have hqstate : q.headerState = .headerComplete := hfields.1.trans hstate
  have hkeep : SameMessage q p := ⟨h, fun hc => by simp [hq.complete] at hc⟩
  have hlength : buffer.length ≤ (buffer ++ more).length := by simp
  by_cases htl : p.transferLength = sizeMax
  · by_cases hc : p.chunked = true
    · have hpin : InChunks p := ⟨hp, hstate, htl, hc⟩
      have hqin : InChunks q := ⟨hq, hqstate, by grind, by grind⟩
      have hchunk : SameChunk q p := ⟨h.toSameHeader, h.chunk hqstate hqin.chunked⟩
      refine finishMessage_of_run buffer more hpin hqin hpbuf hqbuf ?_
      rcases hmore with hne | rfl
      · have hcode : (chunkScanner.run buffer p).1 ≠ 0 := by
          intro hzero
          apply hne
          rw [finishMessage_chunks hpin, hpbuf, if_pos (Int.le_of_eq hzero), hzero]
        rw [← Scanner.run_decided chunkScanner_stable buffer more p hpin.stop hcode]
        exact Scanner.run_congr chunkScanner_stable _ hqin.stop hchunk
      · rw [List.append_nil]
        exact Scanner.run_congr chunkScanner_stable _ hqin.stop hchunk
    · have hqc : q.chunked ≠ true := by grind
      have hqtl : q.transferLength = sizeMax := by grind
      simp only [finishMessage, htl, hqtl, hc, hqc, ne_eq, not_true_eq_false, if_false,
        Bool.not_eq_eq_eq_not, Bool.not_true, if_true]
      exact ⟨rfl, fun _ => hkeep⟩
  · have hqtl : q.transferLength ≠ sizeMax := by grind
    have htotal : addSize q.headerOffset q.transferLength =
        addSize p.headerOffset p.transferLength := by grind
    simp only [finishMessage, htl, hqtl, htotal, hpsize, hqsize, ne_eq, not_false_eq_true, if_true,
      ge_iff_le] at hmore ⊢
    by_cases hge : addSize p.headerOffset p.transferLength ≤ buffer.length
    · rw [if_pos hge, if_pos (Nat.le_trans hge hlength)]
      exact ⟨rfl, fun _ => h.toSameHeader.completed hqbuf hpbuf rfl hge (h.chunk hqstate)⟩
    · rw [if_neg hge] at hmore ⊢
      obtain rfl : more = [] := by simpa using hmore
      rw [List.append_nil, if_neg hge]
      exact ⟨rfl, fun _ => hkeep⟩

/-- When the body phase waits for more bytes, only a chunk loop has moved. -/
theorem finishMessage_more {p : HttpParser} (hstate : p.headerState = .headerComplete)
    (hp : Scanning p) (h : (finishMessage p).1 = 0) :
    (finishMessage p).2 = p ∨
      (InChunks p ∧ (chunkScanner.run p.msgbuf p).1 = 0 ∧
        (finishMessage p).2 = (chunkScanner.run p.msgbuf p).2) := by
  by_cases hin : p.transferLength = sizeMax ∧ p.chunked = true
  · have hpin : InChunks p := ⟨hp, hstate, hin.1, hin.2⟩
    rw [finishMessage_chunks hpin] at h ⊢
    split at h
    · rename_i hle
      exact Or.inr ⟨hpin, h, by rw [if_pos hle]⟩
    · simp at h
  · left
    unfold finishMessage at h ⊢
    grind

/-- A body phase that waited continues on the longer buffer as if it had started there. -/
theorem finishMessage_resume {p : HttpParser} (buffer more : List Byte)
    (hstate : p.headerState = .headerComplete) (hp : Scanning p)
    (h : (finishMessage (setBuf p buffer)).1 = 0) :
    SameResult SameMessage
        (finishMessage (setBuf (finishMessage (setBuf p buffer)).2 (buffer ++ more)))
        (finishMessage (setBuf p (buffer ++ more))) ∧
      Scanning (finishMessage (setBuf p buffer)).2 ∧
      (finishMessage (setBuf p buffer)).2.headerState = .headerComplete := by
  have hp' : Scanning (setBuf p buffer) := ⟨hp.complete, hp.chunk⟩
  rcases finishMessage_more (p := setBuf p buffer) hstate hp' h with heq | ⟨hin, hzero, heq⟩
  · rw [heq]
    exact ⟨.refl SameMessage.equivalence _, hp', hstate⟩
  · rw [heq]
    have hbuf : (setBuf p buffer).msgbuf = buffer := rfl
    rw [hbuf] at hzero ⊢
    have hsame := chunkRun_sameHeader buffer (setBuf p buffer)
    have hfields := core_eq_iff.mp hsame.core
    have hstopped := Scanner.run_more_stop buffer (setBuf p buffer) hzero
    have hscan : Scanning (chunkScanner.run buffer (setBuf p buffer)).2 :=
      ⟨by grind [hp'.complete], fun _ _ => by simpa [chunkScanner] using hstopped⟩
    refine ⟨?_, hscan, hfields.1.trans hstate⟩
    have hin' : InChunks (setBuf p (buffer ++ more)) :=
      ⟨⟨hp.complete, hp.chunk⟩, hstate, hin.transferLength, hin.chunked⟩
    have hinr : InChunks (setBuf (chunkScanner.run buffer (setBuf p buffer)).2 (buffer ++ more)) :=
      ⟨⟨hscan.complete, hscan.chunk⟩, hfields.1.trans hstate,
        by simpa [setBuf] using (by grind [hin.transferLength] :
          (chunkScanner.run buffer (setBuf p buffer)).2.transferLength = sizeMax),
        by simpa [setBuf] using (by grind [hin.chunked] :
          (chunkScanner.run buffer (setBuf p buffer)).2.chunked = true)⟩
    refine finishMessage_of_run (buffer ++ more) [] hin' hinr rfl (by simp [setBuf]) ?_
    rw [List.append_nil]
    have h1 := Scanner.run_congr chunkScanner_stable (buffer ++ more) hinr.stop
      (setBuf_sameChunk (chunkScanner.run buffer (setBuf p buffer)).2 (buffer ++ more))
    have h2 := Scanner.run_resume chunkScanner_stable buffer more (setBuf p buffer) hin.stop hzero
    have h3 := Scanner.run_congr chunkScanner_stable (buffer ++ more) (s := setBuf p buffer)
      (t := setBuf p (buffer ++ more)) hin.stop ⟨⟨rfl, fun _ => rfl⟩, rfl, rfl⟩
    exact (h1.trans SameChunk.equivalence h2).trans SameChunk.equivalence h3

/-! ### The message as a whole -/

/-- The body begins alike in parsers that agree. -/
theorem beginBody_sameParse {p q : HttpParser} (h : SameHeader q p) :
    SameParse (beginBody q) (beginBody p) := by
  have hfields := core_eq_iff.mp h.core
  have hname := h.name
  unfold beginBody
  by_cases hc : p.chunked = true
  · have hqc : q.chunked = true := by grind
    rw [if_pos hc, if_pos hqc]
    exact ⟨⟨core_eq_iff.mpr (by grind), hname⟩, fun _ _ => ⟨rfl, hfields.2.1⟩⟩
  · have hqc : ¬ q.chunked = true := by grind
    rw [if_neg hc, if_neg hqc, hfields.2.2.2.1]
    by_cases htl : p.transferLength = sizeMax
    · rw [if_pos htl, if_pos htl]
      exact ⟨⟨core_eq_iff.mpr (by grind), hname⟩, fun _ hc' => absurd hc' hqc⟩
    · rw [if_neg htl, if_neg htl]
      exact ⟨h, fun _ hc' => absurd hc' hqc⟩

/-- The beginning of the body touches neither the buffer nor the state of the header. -/
theorem beginBody_frame (p : HttpParser) :
    SameBuffer (beginBody p) p ∧ (beginBody p).headerState = p.headerState := by
  unfold beginBody
  repeat' split
  all_goals exact ⟨⟨rfl, rfl, rfl⟩, rfl⟩

theorem beginBody_scanning {p : HttpParser} (h : p.complete = false) : Scanning (beginBody p) := by
  refine ⟨(beginBody_frame p).1.complete.trans h, fun _ hc => ?_⟩
  unfold beginBody at hc ⊢
  grind

/-- A header that has been read is complete. -/
theorem headerRun_pos_state (message : List Byte) (p : HttpParser)
    (h : 0 < (headerScanner.run message p).1) :
    (headerScanner.run message p).2.headerState = .headerComplete := by
  simpa [headerScanner] using Scanner.run_pos_stop message p h

/-- While the header is being read, the scan is the header loop and then the body. -/
theorem scanBuffer_header {p : HttpParser} (hp : p.headerState ≠ .headerComplete)
    (buffer : List Byte) :
    scanBuffer p buffer =
      if (headerScanner.run buffer (setBuf p buffer)).1 ≤ 0 then
        headerScanner.run buffer (setBuf p buffer)
      else finishMessage (beginBody (headerScanner.run buffer (setBuf p buffer)).2) := by
  have hp' : (setBuf p buffer).headerState ≠ .headerComplete := hp
  simp only [scanBuffer, scanMessage, if_pos hp', parseMessageHeader]
  rfl

theorem headerScanner_stop_setBuf {p : HttpParser} (hp : p.headerState ≠ .headerComplete)
    (buffer : List Byte) : headerScanner.stop (setBuf p buffer) = false := by
  simpa [headerScanner, setBuf] using hp

/-- Header loops that end alike let the rest of the scan end alike. -/
theorem scanMessage_of_run {p q : HttpParser} (buffer more : List Byte)
    (hp : p.headerState ≠ .headerComplete) (hq : q.headerState ≠ .headerComplete)
    (hpc : p.complete = false) (hqc : q.complete = false)
    (hrun : SameResult SameHeader (headerScanner.run (buffer ++ more) (setBuf q (buffer ++ more)))
      (headerScanner.run buffer (setBuf p buffer)))
    (hmore : (scanBuffer p buffer).1 ≠ 0 ∨ more = []) :
    SameResult SameMessage (scanBuffer q (buffer ++ more)) (scanBuffer p buffer) := by
  have hbufp := headerRun_sameBuffer buffer (setBuf p buffer)
  have hbufq := headerRun_sameBuffer (buffer ++ more) (setBuf q (buffer ++ more))
  rw [scanBuffer_header hp] at hmore
  rw [scanBuffer_header hp, scanBuffer_header hq, hrun.1]
  split
  · refine ⟨hrun.1, fun hnonneg => ⟨⟨hrun.2 hnonneg, fun hstate => ?_⟩, fun hcomplete => ?_⟩⟩
    · rename_i hle
      have hstop := Scanner.run_more_stop (S := headerScanner) (buffer ++ more)
        (setBuf q (buffer ++ more)) (by rw [hrun.1] at hnonneg ⊢; omega)
      simp [headerScanner] at hstop hstate
      exact absurd hstate hstop
    · rw [hbufq.complete] at hcomplete
      simp [setBuf, hqc] at hcomplete
  · rename_i hpos
    rw [if_neg hpos] at hmore
    have hpos' : 0 < (headerScanner.run buffer (setBuf p buffer)).1 := by omega
    have hframep := beginBody_frame (headerScanner.run buffer (setBuf p buffer)).2
    have hframeq := beginBody_frame
      (headerScanner.run (buffer ++ more) (setBuf q (buffer ++ more))).2
    refine finishMessage_extend _ (beginBody_sameParse (hrun.2 (by rw [hrun.1]; omega)))
      (hframep.2.trans (headerRun_pos_state _ _ hpos'))
      (beginBody_scanning (hbufp.complete.trans hpc)) (beginBody_scanning (hbufq.complete.trans hqc))
      (hframep.1.msgbuf.trans hbufp.msgbuf) (hframep.1.msgsize.trans hbufp.msgsize)
      (hframeq.1.msgbuf.trans hbufq.msgbuf) (hframeq.1.msgsize.trans hbufq.msgsize) hmore

/-- With a complete header the body is read on. -/
theorem scanBuffer_complete {p : HttpParser} (hp : p.headerState = .headerComplete)
    (buffer : List Byte) : scanBuffer p buffer = finishMessage (setBuf p buffer) := by
  have hp' : (setBuf p buffer).headerState = .headerComplete := hp
  simp [scanBuffer, scanMessage, hp']

/-- Parsers that agree on the message read a buffer alike. -/
theorem scanBuffer_congr {p q : HttpParser} (buffer : List Byte) (hp : Scanning p)
    (hq : Scanning q) (h : SameMessage q p) :
    SameResult SameMessage (scanBuffer q buffer) (scanBuffer p buffer) := by
  have hfields := core_eq_iff.mp h.core
  by_cases hstate : p.headerState = .headerComplete
  · rw [scanBuffer_complete hstate, scanBuffer_complete (hfields.1.trans hstate)]
    have hsame : SameParse (setBuf q buffer) (setBuf p buffer) :=
      ⟨⟨h.core, h.name⟩, h.chunk⟩
    exact finishMessage_extend [] hsame hstate ⟨hp.complete, hp.chunk⟩
      ⟨hq.complete, hq.chunk⟩ rfl rfl (by simp [setBuf]) (by simp [setBuf]) (Or.inr rfl)
  · have hqstate : q.headerState ≠ .headerComplete := hfields.1 ▸ hstate
    have hrun := Scanner.run_congr headerScanner_stable buffer (s := setBuf q buffer)
      (t := setBuf p buffer) (headerScanner_stop_setBuf hqstate buffer) ⟨h.core, h.name⟩
    have hsame := scanMessage_of_run buffer [] hstate hqstate hp.complete hq.complete
      (by simpa using hrun) (Or.inr rfl)
    simpa using hsame

/-- What has been decided does not change with what follows. -/
theorem scanBuffer_decided {p : HttpParser} (buffer more : List Byte) (hp : Scanning p)
    (h : (scanBuffer p buffer).1 ≠ 0) :
    SameResult SameMessage (scanBuffer p (buffer ++ more)) (scanBuffer p buffer) := by
  by_cases hstate : p.headerState = .headerComplete
  · rw [scanBuffer_complete hstate] at h
    rw [scanBuffer_complete hstate, scanBuffer_complete hstate]
    exact finishMessage_extend _ ⟨⟨rfl, fun _ => rfl⟩, fun _ _ => ⟨rfl, rfl⟩⟩ hstate
      ⟨hp.complete, hp.chunk⟩ ⟨hp.complete, hp.chunk⟩ rfl rfl rfl rfl (Or.inl h)
  · refine scanMessage_of_run buffer more hstate hstate hp.complete hp.complete ?_ (Or.inl h)
    have hcode : (headerScanner.run buffer (setBuf p buffer)).1 ≠ 0 := by
      intro hzero
      apply h
      rw [scanBuffer_header hstate, if_pos (Int.le_of_eq hzero), hzero]
    rw [← Scanner.run_decided headerScanner_stable buffer more _
      (headerScanner_stop_setBuf hstate buffer) hcode]
    exact Scanner.run_congr headerScanner_stable _ (headerScanner_stop_setBuf hstate _)
      ⟨rfl, fun _ => rfl⟩

/-- The scan waited in the middle of the header: the header loop is resumed. -/
theorem scanBuffer_resume_header {p : HttpParser} (buffer more : List Byte)
    (hp : Scanning p) (hstate : p.headerState ≠ .headerComplete)
    (hzero : (headerScanner.run buffer (setBuf p buffer)).1 = 0) :
    SameResult SameMessage
        (scanBuffer (headerScanner.run buffer (setBuf p buffer)).2 (buffer ++ more))
        (scanBuffer p (buffer ++ more)) ∧
      Scanning (headerScanner.run buffer (setBuf p buffer)).2 := by
  have hstop := Scanner.run_more_stop buffer (setBuf p buffer) hzero
  have hqstate : (headerScanner.run buffer (setBuf p buffer)).2.headerState ≠ .headerComplete := by
    simpa [headerScanner] using hstop
  have hqc : (headerScanner.run buffer (setBuf p buffer)).2.complete = false :=
    (headerRun_sameBuffer buffer (setBuf p buffer)).complete.trans hp.complete
  have h1 := Scanner.run_congr headerScanner_stable (buffer ++ more)
    (headerScanner_stop_setBuf hqstate (buffer ++ more))
    (setBuf_sameHeader (headerScanner.run buffer (setBuf p buffer)).2 (buffer ++ more))
  have h2 := Scanner.run_resume headerScanner_stable buffer more (setBuf p buffer)
    (headerScanner_stop_setBuf hstate buffer) hzero
  have h3 := Scanner.run_congr headerScanner_stable (buffer ++ more) (s := setBuf p buffer)
    (t := setBuf p (buffer ++ more)) (headerScanner_stop_setBuf hstate buffer) ⟨rfl, fun _ => rfl⟩
  have hsame := scanMessage_of_run (buffer ++ more) [] hstate hqstate hp.complete hqc
    (by simpa using (h1.trans SameHeader.equivalence h2).trans SameHeader.equivalence h3)
    (Or.inr rfl)
  exact ⟨by simpa using hsame, hqc, fun hs => absurd hs hqstate⟩

/-- The scan waited in the body: the header is read again with the same result, and the body phase
is resumed. -/
theorem scanBuffer_resume_body {p : HttpParser} (buffer more : List Byte)
    (hp : Scanning p) (hstate : p.headerState ≠ .headerComplete)
    (hpos : 0 < (headerScanner.run buffer (setBuf p buffer)).1)
    (hzero : (scanBuffer p buffer).1 = 0) :
    SameResult SameMessage (scanBuffer (scanBuffer p buffer).2 (buffer ++ more))
        (scanBuffer p (buffer ++ more)) ∧
      Scanning (scanBuffer p buffer).2 := by
  have hbuf := headerRun_sameBuffer buffer (setBuf p buffer)
  have hbufm := headerRun_sameBuffer (buffer ++ more) (setBuf p (buffer ++ more))
  have hrun := Scanner.run_congr headerScanner_stable (buffer ++ more) (s := setBuf p (buffer ++ more))
    (t := setBuf p buffer) (headerScanner_stop_setBuf hstate _) ⟨rfl, fun _ => rfl⟩
  rw [Scanner.run_decided headerScanner_stable buffer more _ (headerScanner_stop_setBuf hstate buffer)
    (by omega)] at hrun
  have hposm : 0 < (headerScanner.run (buffer ++ more) (setBuf p (buffer ++ more))).1 := by
    rw [hrun.1]
    exact hpos
  have hrel := hrun.2 (Int.le_of_lt hposm)
  rw [scanBuffer_header hstate, if_neg (by omega)] at hzero ⊢
  rw [scanBuffer_header hstate, if_neg (by omega)]
  have hframe := beginBody_frame (headerScanner.run buffer (setBuf p buffer)).2
  have hframem := beginBody_frame
    (headerScanner.run (buffer ++ more) (setBuf p (buffer ++ more))).2
  have hbody : (beginBody (headerScanner.run buffer (setBuf p buffer)).2).headerState =
      .headerComplete := hframe.2.trans (headerRun_pos_state _ _ hpos)
  have hscan := beginBody_scanning (hbuf.complete.trans hp.complete)
  have hset : setBuf (beginBody (headerScanner.run buffer (setBuf p buffer)).2) buffer =
      beginBody (headerScanner.run buffer (setBuf p buffer)).2 :=
    setBuf_eq (hframe.1.msgbuf.trans hbuf.msgbuf) (hframe.1.msgsize.trans hbuf.msgsize)
  obtain ⟨hresume, hkeep, hcomplete⟩ := finishMessage_resume buffer more hbody hscan
    (by rw [hset]; exact hzero)
  rw [hset] at hresume hkeep hcomplete
  have hsame := beginBody_sameParse hrel
  have hagain := finishMessage_extend []
    (p := setBuf (beginBody (headerScanner.run buffer (setBuf p buffer)).2) (buffer ++ more))
    ⟨⟨hsame.core, hsame.name⟩, hsame.chunk⟩ hbody ⟨hscan.complete, hscan.chunk⟩
    (beginBody_scanning (hbufm.complete.trans hp.complete)) rfl rfl
    (by rw [List.append_nil]; exact hframem.1.msgbuf.trans hbufm.msgbuf)
    (by rw [List.append_nil]; exact hframem.1.msgsize.trans hbufm.msgsize) (Or.inr rfl)
  rw [scanBuffer_complete hcomplete]
  exact ⟨hresume.trans SameMessage.equivalence (hagain.symm SameMessage.equivalence), hkeep⟩

/-- A scan that waited continues on the longer buffer as if it had started there. -/
theorem scanBuffer_resume {p : HttpParser} (buffer more : List Byte) (hp : Scanning p)
    (h : (scanBuffer p buffer).1 = 0) :
    SameResult SameMessage (scanBuffer (scanBuffer p buffer).2 (buffer ++ more))
        (scanBuffer p (buffer ++ more)) ∧
      Scanning (scanBuffer p buffer).2 := by
  by_cases hstate : p.headerState = .headerComplete
  · rw [scanBuffer_complete hstate] at h ⊢
    obtain ⟨hresume, hkeep, hcomplete⟩ := finishMessage_resume buffer more hstate hp h
    rw [scanBuffer_complete hcomplete, scanBuffer_complete hstate]
    exact ⟨hresume, hkeep⟩
  · by_cases hpos : 0 < (headerScanner.run buffer (setBuf p buffer)).1
    · exact scanBuffer_resume_body buffer more hp hstate hpos h
    · rw [scanBuffer_header hstate, if_pos (by omega)] at h ⊢
      exact scanBuffer_resume_header buffer more hp hstate h

/-- The scan of a message does not depend on how its bytes arrived. -/
theorem scanBuffer_resumable : Resumable Scanning SameMessage scanBuffer where
  equiv := SameMessage.equivalence
  congr buffer hs ht h := scanBuffer_congr buffer ht hs h
  decided buffer more hs h := scanBuffer_decided buffer more hs h
  resume buffer more hs h := (scanBuffer_resume buffer more hs h).1
  keep buffer hs h := (scanBuffer_resume buffer [] hs h).2

end Workflow.Http
