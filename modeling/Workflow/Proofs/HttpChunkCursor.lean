/-
Module: Workflow.Proofs.HttpChunkCursor
Layer: Proofs
Purpose: The chunk cursor against the parser. Both cut the body at the same chunk lines; they part
  only at a NUL in the line of a chunk with data, where the cursor loses the end of the line.
Trusted boundary: none
Main exports: Framed, Framed.all, delimitedChunks_framed, ChunksAgree, chunkCursor_agrees
-/
import Workflow.Protocol.HttpChunkCursor
import Workflow.Proofs.HttpStream

namespace Workflow.Http

open Workflow.Lib Workflow.Util

/-! ### One chunk line -/

theorem scanLine_line {max : Nat} {ok : Byte → Bool} {i : Nat} {bytes line : List Byte}
    (h : scanLine max ok i bytes = .line line) :
    CR ∉ line ∧ ∃ tail, bytes = line ++ CR :: LF :: tail := by
  fun_induction scanLine max ok i bytes generalizing line with
  | case5 =>
      simp only [LineScan.line.injEq] at h
      subst h
      exact ⟨List.not_mem_nil, _, rfl⟩
  | case7 i c rest hi hc hok ih =>
      cases hrest : scanLine max ok (i + 1) rest with
      | more => simp [hrest, LineScan.cons] at h
      | bad => simp [hrest, LineScan.cons] at h
      | line content =>
          simp only [hrest, LineScan.cons, LineScan.line.injEq] at h
          subst h
          obtain ⟨hnot, tail, htail⟩ := ih hrest
          refine ⟨fun hmem => ?_, tail, by rw [htail, List.cons_append]⟩
          rcases List.mem_cons.mp hmem with hhead | htl
          · exact hc hhead.symm
          · exact hnot htl
  | _ => simp at h

/-- A line is found in every prefix that holds it. -/
theorem scanLine_take {max : Nat} {ok : Byte → Bool} {i n : Nat} {bytes line : List Byte}
    (h : scanLine max ok i bytes = .line line) (hn : line.length + 2 ≤ n) :
    scanLine max ok i (bytes.take n) = .line line := by
  fun_induction scanLine max ok i bytes generalizing line n with
  | case5 =>
      rename_i hne rest
      obtain ⟨m, rfl⟩ : ∃ m, n = m + 2 := ⟨n - 2, by omega⟩
      simpa [scanLine, hne] using h
  | case7 i c rest hi hc hok ih =>
      obtain ⟨m, rfl⟩ : ∃ m, n = m + 1 := ⟨n - 1, by omega⟩
      cases hrest : scanLine max ok (i + 1) rest with
      | more => simp [hrest, LineScan.cons] at h
      | bad => simp [hrest, LineScan.cons] at h
      | line content =>
          simp only [hrest, LineScan.cons, LineScan.line.injEq] at h
          subst h
          have htake := ih hrest (n := m) (by simp only [List.length_cons] at hn; omega)
          simp only [List.take_succ_cons, scanLine, hi, hc, hok, if_false, if_true, htake,
            LineScan.cons]
  | _ => simp at h

theorem strtol_range (base : Nat) (s : List Byte) :
    longMin ≤ (strtol base s).1 ∧ (strtol base s).1 ≤ longMax := by
  simp only [strtol, saturate, longMin, longMax]
  split_ifs <;> omega

/-- A converted number is zero exactly when it is zero as a `size_t`. -/
theorem toSize_strtol_eq_zero (base : Nat) (s : List Byte) :
    toSize (strtol base s).1 = 0 ↔ (strtol base s).1 = 0 := by
  have hrange := strtol_range base s
  simp only [longMin, longMax] at hrange
  unfold toSize
  omega

/-- What a call of `__parse_chunk_data` that succeeds has read. -/
theorem parseChunkData_read {p : HttpParser} {bytes : List Byte}
    (h : 0 < (parseChunkData p bytes).1) :
    ∃ line tail, bytes = line ++ CR :: LF :: tail ∧ CR ∉ line ∧ (strtol 16 line).2 = true ∧
      (((strtol 16 line).1 = 0 ∧ (parseChunkData p bytes).2.chunkState = .trailerPart) ∨
        ((strtol 16 line).1 ≠ 0 ∧ (parseChunkData p bytes).2.chunkState = p.chunkState ∧
          toSize (strtol 16 line).1 + (line.length + 4) ≤ bytes.length ∧
          (parseChunkData p bytes).2.chunkOffset =
            p.chunkOffset + (toSize (strtol 16 line).1 + (line.length + 4)))) := by
  unfold parseChunkData at h ⊢
  cases hscan : scanLine httpChunkLineMax (fun _ => true) 0 bytes with
  | more => simp [hscan] at h
  | bad => simp [hscan] at h
  | line line =>
      obtain ⟨hnot, tail, htail⟩ := scanLine_line hscan
      refine ⟨line, tail, htail, hnot, ?_⟩
      rw [hscan] at h
      grind

/-- A chunk step that succeeds looks at the bytes it passes over only. -/
theorem parseChunkStep_take (p : HttpParser) (bytes : List Byte) (n : Nat)
    (h : 0 < (parseChunkStep p bytes).1)
    (hn : (parseChunkStep p bytes).2.chunkOffset ≤ p.chunkOffset + n) :
    parseChunkStep p (bytes.take n) = parseChunkStep p bytes := by
  unfold parseChunkStep at h hn ⊢
  split at h
  · rename_i hdata
    rw [if_pos hdata] at hn ⊢
    unfold parseChunkData at h hn ⊢
    cases hscan : scanLine httpChunkLineMax (fun _ => true) 0 bytes with
    | more => simp [hscan] at h
    | bad => simp [hscan] at h
    | line line =>
        rw [hscan] at h hn
        have hlen : line.length + 2 ≤ n := by grind
        rw [scanLine_take hscan hlen]
        simp only [List.length_take]
        grind
  · rename_i hdata
    rw [if_neg hdata] at hn ⊢
    unfold parseTrailerPart at h hn ⊢
    cases hscan : scanLine httpTrailerLineMax (fun _ => true) 0 bytes with
    | more => simp [hscan] at h
    | bad => simp [hscan] at h
    | line line =>
        rw [hscan] at hn
        have hline := scanLine_take hscan (n := n) (by simp only at hn; omega)
        simp only [hline, if_neg hdata]

/-! ### The cursor over a framed body -/

/-- The chunks lie one behind another from `pos` on, and a zero chunk line follows them. -/
def Framed (memory : List Byte) : Nat → List ParsedChunk → Prop
  | pos, [] =>
      ∃ line tail, memory.drop pos = line ++ CR :: tail ∧ CR ∉ line ∧ strtol 16 line = (0, true)
  | pos, c :: cs =>
      (∃ tail, memory.drop pos = c.line ++ CR :: tail) ∧ CR ∉ c.line ∧
        (strtol 16 c.line).2 = true ∧ c.size = toSize (strtol 16 c.line).1 ∧ c.size ≠ 0 ∧
        c.start = pos + c.line.length + 2 ∧ Framed memory (c.start + c.size + 2) cs

theorem endsNumber_CR : endsNumber CR :=
  ⟨by decide, by decide, by decide⟩

theorem strchr_of_not_mem {c : Byte} {s : List Byte} (tail : List Byte) (h : c ∉ s) :
    strchr c (s ++ c :: tail) = some (s, tail) := by
  induction s with
  | nil => simp [strchr]
  | cons x s ih =>
      have hx : ¬ x = c := fun heq => h (by simp [heq])
      have hs : c ∉ s := fun hmem => h (List.mem_cons_of_mem x hmem)
      simp [strchr, hx, ih hs]

theorem strchr_eq_none {c : Byte} {s : List Byte} (h : c ∉ s) : strchr c s = none := by
  induction s with
  | nil => rfl
  | cons x s ih =>
      have hx : ¬ x = c := fun heq => h (by simp [heq])
      have hs : c ∉ s := fun hmem => h (List.mem_cons_of_mem x hmem)
      simp [strchr, hx, ih hs]

/-- A NUL is never part of the number, so it is behind it. -/
theorem zero_mem_strtolRest {line : List Byte} : 0 ∈ strtolRest 16 line ↔ 0 ∈ line := by
  obtain ⟨front, hfront, hchars⟩ := strtolRest_front 16 line
  have hnot : (0 : Byte) ∉ front := by
    intro hmem
    have hchar := hchars 0 hmem
    revert hchar
    unfold numberChar
    decide
  constructor
  · intro hmem
    rw [hfront]
    exact List.mem_append_right front hmem
  · intro hmem
    rw [hfront] at hmem
    exact (List.mem_append.mp hmem).resolve_left hnot

/-- The search for the CR finds it, or a NUL in front of it. -/
theorem strchr_cString {s : List Byte} (tail : List Byte) (hcr : CR ∉ s) :
    (0 ∈ s → strchr CR (cString (s ++ CR :: tail)) = none) ∧
      (0 ∉ s → ∃ after, strchr CR (cString (s ++ CR :: tail)) = some (s, after)) := by
  constructor
  · intro hzero
    refine strchr_eq_none fun hmem => ?_
    have hcut : (s.takeWhile (· ≠ 0)).length ≠ s.length := by
      intro hlen
      have hall := (List.takeWhile_prefix (p := (· ≠ (0 : Byte))) (l := s)).eq_of_length hlen
      have hne := List.takeWhile_eq_self_iff.mp hall 0 hzero
      simp at hne
    rw [cString, List.takeWhile_append, if_neg hcut] at hmem
    exact hcr ((List.takeWhile_prefix _).subset hmem)
  · intro hzero
    have hpos : ∀ x ∈ s, decide (x ≠ 0) = true := by
      intro x hx
      simp only [ne_eq, decide_not, Bool.not_eq_eq_eq_not, Bool.not_true, decide_eq_false_iff_not]
      rintro rfl
      exact hzero hx
    rw [cString, List.takeWhile_append_of_pos hpos]
    exact ⟨_, strchr_of_not_mem _ hcr⟩

/-- One call of the cursor at a chunk line. -/
theorem HttpChunkCursor.next_line {memory line tail : List Byte} {c : HttpChunkCursor}
    (hend : c.atEnd = false) (hchunked : c.chunked = true)
    (hline : memory.drop c.pos = line ++ CR :: tail) (hcr : CR ∉ line)
    (hconv : (strtol 16 line).2 = true) :
    c.next memory =
      if (strtol 16 line).1 = 0 then .ended { c with atEnd := true }
      else if 0 ∈ line then .fault
      else .chunk (c.pos + line.length + 2) (toSize (strtol 16 line).1)
        { c with pos := c.pos + line.length + toSize (strtol 16 line).1 + 4 } := by
  have hin : ¬ memory.length ≤ c.pos := by
    intro hle
    rw [List.drop_eq_nil_of_le hle] at hline
    simp at hline
  have hvalue := strtol_append tail (by decide : 16 ≤ digitValue CR) endsNumber_CR hconv
  have hrest := strtolRest_append tail (by decide : 16 ≤ digitValue CR) endsNumber_CR hconv
  obtain ⟨front, hfront, _⟩ := strtolRest_front 16 line
  have hcr' : CR ∉ strtolRest 16 line := by
    intro hmem
    rw [hfront] at hcr
    exact hcr (List.mem_append_right front hmem)
  obtain ⟨hnone, hsome⟩ := strchr_cString tail hcr'
  have hlen : line.length = front.length + (strtolRest 16 line).length := by
    rw [← List.length_append, ← hfront]
  unfold next
  simp only [hend, hchunked, hin, hline, hvalue, hrest, toSize_strtol_eq_zero, Bool.not_true,
    Bool.false_eq_true, if_false]
  split
  · rfl
  · by_cases hzero : 0 ∈ line
    · rw [hnone (zero_mem_strtolRest.mpr hzero), if_pos hzero]
    · obtain ⟨after, hafter⟩ := hsome fun hmem => hzero (zero_mem_strtolRest.mp hmem)
      have hcut : (line ++ CR :: tail).length - (strtolRest 16 line ++ CR :: tail).length +
          (strtolRest 16 line).length = line.length := by
        simp only [List.length_append, List.length_cons]
        omega
      rw [hafter, if_neg hzero]
      simp only [hcut]

/-- The cursor over a framed body gives its chunks, unless a chunk line holds a NUL. -/
theorem Framed.all {memory : List Byte} {cs : List ParsedChunk} {c : HttpChunkCursor}
    (h : Framed memory c.pos cs) (hend : c.atEnd = false) (hchunked : c.chunked = true) :
    c.all memory =
      if ∀ x ∈ cs, 0 ∉ x.line then some (cs.map fun x => (x.start, x.size)) else none := by
  induction cs generalizing c with
  | nil =>
      obtain ⟨line, tail, hline, hcr, hzero⟩ := h
      have hnext := HttpChunkCursor.next_line hend hchunked hline hcr (by rw [hzero])
      rw [HttpChunkCursor.all]
      split
      · simp
      · rename_i hchunk
        simp [hnext, hzero] at hchunk
      · rename_i hfault
        simp [hnext, hzero] at hfault
  | cons x cs ih =>
      obtain ⟨⟨tail, hline⟩, hcr, hconv, hsize, hne, hstart, hrest⟩ := h
      have hvalue : ¬ (strtol 16 x.line).1 = 0 := by
        rw [← toSize_strtol_eq_zero, ← hsize]
        exact hne
      have hnext := HttpChunkCursor.next_line hend hchunked hline hcr hconv
      rw [if_neg hvalue] at hnext
      rw [HttpChunkCursor.all]
      split
      · rename_i hended
        rw [hnext] at hended
        split at hended <;> simp at hended
      · rename_i start size c' hchunk
        rw [hnext] at hchunk
        split at hchunk
        · simp at hchunk
        · rename_i hzero
          simp only [NextChunk.chunk.injEq] at hchunk
          obtain ⟨hs, hz, rfl⟩ := hchunk
          have hpos : c.pos + x.line.length + toSize (strtol 16 x.line).1 + 4 =
              x.start + x.size + 2 := by omega
          have hall := ih
            (c := { c with pos := c.pos + x.line.length + toSize (strtol 16 x.line).1 + 4 })
            (by simpa only [hpos] using hrest) hend hchunked
          rw [hall]
          have hfirst : (start, size) = (x.start, x.size) := by
            rw [← hs, ← hz, hstart, hsize]
          simp only [List.forall_mem_cons, hzero, not_false_eq_true, true_and, hfirst]
          split <;> rfl
      · rename_i hfault
        have hzero : 0 ∈ x.line := by
          by_contra hnot
          simp [hnext, hnot] at hfault
        simp [hzero]

/-! ### The body that the parser accepted -/

/-- Two parsers at the same place of a chunked body. -/
def SameCursor (p q : HttpParser) : Prop :=
  p.chunkState = q.chunkState ∧ p.chunkOffset = q.chunkOffset

/-- The chunk loop reads its cursor alone. -/
theorem chunkScanner_cursor : chunkScanner.Stable SameCursor where
  equiv := ⟨fun _ => ⟨rfl, rfl⟩, fun h => ⟨h.1.symm, h.2.symm⟩,
    fun h₁ h₂ => ⟨h₁.1.trans h₂.1, h₁.2.trans h₂.2⟩⟩
  offset_eq h := h.2
  stop_eq h := by simp [chunkScanner, h.1]
  step_congr bytes _ h := by
    obtain ⟨hcode, hstate, hoff⟩ := parseChunkStep_cursor h.1 h.2 bytes
    exact ⟨hcode, fun _ => ⟨hstate, hoff⟩⟩
  step_decided := chunkScanner_stable.step_decided
  step_more p bytes h := (chunkScanner_stable.step_more p bytes h).2
  step_stop := chunkScanner_stable.step_stop

/-- The extents of chunks that lie between two offsets. -/
def Inside (low high : Nat) (cs : List ParsedChunk) : Prop :=
  ∀ c ∈ cs, low ≤ c.start ∧ c.start + c.size ≤ high

/-- A body that the chunk loop accepted is framed by the chunks that it delimits. -/
theorem delimitedChunks_framed {message : List Byte} {p : HttpParser}
    (hstate : p.chunkState = .chunkData) (h : 0 < (chunkScanner.run message p).1) :
    Framed (message ++ [0]) p.chunkOffset (delimitedChunks message p) ∧
      Inside p.chunkOffset message.length (delimitedChunks message p) := by
  induction p using Scanner.run.induct chunkScanner message with
  | case1 p hstop =>
      -- a chunk line never ends the trailer
      exfalso
      simp only [chunkScanner, parseChunkStep, hstate, if_true, decide_eq_true_eq] at hstop
      have hpos : 0 < (parseChunkData p (message.drop p.chunkOffset)).1 := by
        by_contra hle
        have hsame := @parseChunkStep_more p (message.drop p.chunkOffset)
          (by simpa only [parseChunkStep, hstate, if_true] using Int.not_lt.mp hle)
        simp only [parseChunkStep, hstate, if_true] at hsame
        rw [hsame, hstate] at hstop
        exact ChunkState.noConfusion hstop
      obtain ⟨_, _, _, _, _, ⟨_, hnext⟩ | ⟨_, hnext, _⟩⟩ := parseChunkData_read hpos
      · rw [hnext] at hstop
        exact ChunkState.noConfusion hstop
      · rw [hnext, hstate] at hstop
        exact ChunkState.noConfusion hstop
  | case2 p hstop hpos ih =>
      rw [Scanner.run_next (by simpa using hstop) hpos] at h
      have hstep : chunkScanner.step p (message.drop (chunkScanner.offset p)) =
          parseChunkData p (message.drop p.chunkOffset) := by
        simp only [chunkScanner, parseChunkStep, hstate, if_true]
      rw [hstep] at hpos h ih
      obtain ⟨line, tail, htail, hcr, hconv, hcases⟩ := parseChunkData_read hpos
      have hmemory : (message ++ [0]).drop p.chunkOffset = line ++ CR :: LF :: (tail ++ [0]) := by
        have hin : p.chunkOffset ≤ message.length := by
          by_contra hgt
          rw [List.drop_eq_nil_of_le (by omega)] at htail
          simp at htail
        rw [List.drop_append_of_le_length hin, htail]
        simp
      rw [delimitedChunks]
      rcases hcases with ⟨hzero, hnext⟩ | ⟨hne, hnext, hlen, hoff⟩
      · simp only [hnext, reduceCtorEq, and_false, if_false]
        exact ⟨⟨line, _, hmemory, hcr, Prod.ext hzero hconv⟩, by simp [Inside]⟩
      · rw [hstate] at hnext
        obtain ⟨hframed, hinside⟩ := ih hnext h
        have hline : (message.drop p.chunkOffset).takeWhile (· ≠ CR) = line := by
          rw [htail, List.takeWhile_append_of_pos]
          · simp
          · intro x hx
            simp only [ne_eq, decide_not, Bool.not_eq_eq_eq_not, Bool.not_true,
              decide_eq_false_iff_not]
            rintro rfl
            exact hcr hx
        have hsize : toSize (strtol 16 line).1 ≠ 0 := by
          rwa [ne_eq, toSize_strtol_eq_zero]
        have hdrop : (message.drop p.chunkOffset).length = message.length - p.chunkOffset :=
          List.length_drop
        have hbetween : ParsedChunk.between (message.drop p.chunkOffset) p
            (parseChunkData p (message.drop p.chunkOffset)).2 =
              { line := line, start := p.chunkOffset + line.length + 2
                size := toSize (strtol 16 line).1 } := by
          simp only [ParsedChunk.between, hline, hoff, ParsedChunk.mk.injEq, true_and]
          omega
        simp only [hpos, hnext, and_self, if_true, hbetween]
        refine ⟨⟨⟨_, hmemory⟩, hcr, hconv, rfl, hsize, rfl, ?_⟩, ?_⟩
        · have hpos' : p.chunkOffset + line.length + 2 + toSize (strtol 16 line).1 + 2 =
              (parseChunkData p (message.drop p.chunkOffset)).2.chunkOffset := by omega
          simp only [hpos']
          exact hframed
        · intro c hc
          rcases List.mem_cons.mp hc with rfl | hrest
          · simp only
            omega
          · have hc' := hinside c hrest
            omega
  | case3 p hstop hpos =>
      rw [Scanner.run_last (by simpa using hstop) hpos] at h
      exact absurd h hpos

/-- A scan that accepts a chunked message: the status allows no body, or the chunk loop has read the
body to its end. -/
theorem scanBuffer_chunks {isResp : Bool} {p : HttpParser} {bytes : List Byte}
    (hlen : bytes.length < 2 ^ 64) (h : (scanBuffer (httpParserInit isResp p) bytes).1 = 1)
    (hchunked : (scanBuffer (httpParserInit isResp p) bytes).2.chunked = true) :
    let q := (scanBuffer (httpParserInit isResp p) bytes).2
    q.headerState = .headerComplete ∧ q.msgbuf = bytes ∧
      ((q.transferLength ≠ sizeMax ∧ q.msgsize = q.headerOffset) ∨
        (q.transferLength = sizeMax ∧ 0 < (chunkScanner.run bytes q.atChunks).1 ∧
          (chunkScanner.run bytes q.atChunks).2.chunkOffset = q.msgsize)) := by
  intro q
  have hq : q = (scanBuffer (httpParserInit isResp p) bytes).2 := rfl
  obtain ⟨hpos, hhead, htl⟩ := scanBuffer_framed h
  have hoff := streamHead_offset_le hpos
  obtain ⟨hscan, hcomplete, hbuf, hsize⟩ :=
    beginBody_headerRun (httpParserInit_scanning isResp p) hpos
  have hhchunked := hhead.chunked.symm.trans hchunked
  rw [scanBuffer_init, if_neg (Int.not_le.mpr hpos)] at h hq
  generalize hbody : beginBody (streamHead isResp p bytes).2 = body at h hq
  have hbody' : beginBody (headerScanner.run bytes (setBuf (httpParserInit isResp p) bytes)).2 =
      body := hbody
  rw [hbody'] at hscan hcomplete hbuf hsize
  have hstart : body.chunkState = .chunkData ∧ body.chunkOffset = body.headerOffset ∧
      body.headerOffset = (streamHead isResp p bytes).2.headerOffset := by
    rw [← hbody, beginBody, if_pos hhchunked]
    exact ⟨rfl, rfl, rfl⟩
  rcases finishMessage_complete hscan hcomplete h with ⟨hne, hle, heq⟩ | ⟨hin, hrun, heq⟩
  · have htl' : q.transferLength = body.transferLength := by rw [hq, heq]
    have hzero : body.transferLength = 0 := by
      rw [← htl']
      refine htl.trans ?_
      rw [htl'.symm.trans htl, bodyLength, hhchunked] at hne
      rw [bodyLength, hhchunked]
      grind
    refine ⟨by rw [hq, heq]; exact hcomplete, by rw [hq, heq]; exact hbuf, Or.inl ⟨?_, ?_⟩⟩
    · rw [htl']
      exact hne
    · rw [hq, heq]
      simp only [hzero]
      rw [addSize_of_lt (by omega), Nat.add_zero]
  · have hcore := core_eq_iff.mp (chunkRun_sameHeader body.msgbuf body).core
    have hrunbuf := chunkRun_sameBuffer body.msgbuf body
    have hcursor : SameCursor body q.atChunks := by
      refine ⟨hstart.1, hstart.2.1.trans ?_⟩
      rw [hq, heq]
      exact hcore.2.1.symm
    obtain ⟨hcode, hend⟩ := Scanner.run_congr chunkScanner_cursor bytes hin.stop hcursor
    rw [← hbuf] at hcode hend ⊢
    refine ⟨?_, ?_, Or.inr ⟨?_, hcode ▸ hrun, ?_⟩⟩
    · rw [hq, heq]
      exact hcore.1.trans hcomplete
    · rw [hq, heq]
      exact hrunbuf.msgbuf
    · rw [hq, heq]
      exact hcore.2.2.2.1.trans hin.transferLength
    · rw [← (hend (Int.le_of_lt hrun)).2, hq, heq]

/-- What the parser accepted: no body, or one that the chunk loop reads to its end. -/
theorem appendAll_chunks {isResp : Bool} {p : HttpParser} {chunks : List (List Byte)}
    (hmem : chunks.flatten.length < 2 ^ 63)
    (hone : (appendAll chunks (httpParserInit isResp p)).1 = 1)
    (hchunked : (appendAll chunks (httpParserInit isResp p)).2.2.chunked = true) :
    let q := (appendAll chunks (httpParserInit isResp p)).2.2
    q.complete = true ∧ q.headerState = .headerComplete ∧ q.message.length = q.msgsize ∧
      ((q.transferLength ≠ sizeMax ∧ q.msgsize = q.headerOffset) ∨
        (q.transferLength = sizeMax ∧ 0 < (chunkScanner.run q.message q.atChunks).1)) := by
  intro q
  obtain ⟨hcode, hsame, hcomplete, hsize⟩ := appendAll_completed p hone
  obtain ⟨hmsgsize, hmessage⟩ := hsame.message hcomplete
  have hfields := core_eq_iff.mp hsame.core
  have hchunked' := hfields.2.2.2.2.2.2.2.2.2.2.2.2.1.symm.trans hchunked
  obtain ⟨hstate, hbuf, hcases⟩ := scanBuffer_chunks (by omega) hcode hchunked'
  have hbytes : q.message = chunks.flatten.take q.msgsize := by
    rw [hmessage, HttpParser.message, hbuf, ← hmsgsize]
  refine ⟨hcomplete, hfields.1.trans hstate, ?_, ?_⟩
  · rw [hbytes, List.length_take]
    exact Nat.min_eq_left hsize
  · rcases hcases with ⟨hne, hempty⟩ | ⟨htl, hpos, hend⟩
    · exact Or.inl ⟨by rwa [hfields.2.2.2.1], hmsgsize.trans (hempty.trans hfields.2.1.symm)⟩
    · refine Or.inr ⟨hfields.2.2.2.1.trans htl, ?_⟩
      generalize (scanBuffer (httpParserInit isResp p) chunks.flatten).2 = s at *
      have hcursor : SameCursor s.atChunks q.atChunks := ⟨rfl, hfields.2.1.symm⟩
      have htake := Scanner.run_take chunkScanner_stable parseChunkStep_take chunks.flatten q.msgsize
        s.atChunks (by simp [chunkScanner, HttpParser.atChunks]) hpos
        (Nat.le_of_eq (hend.trans hmsgsize.symm))
      have hrun := (Scanner.run_congr chunkScanner_cursor q.message
        (by simp [chunkScanner, HttpParser.atChunks]) hcursor).1
      rw [← hrun, hbytes, htake]
      exact hpos

/-! ### The two readers agree -/

/-- The cursor gives the parser's chunks, which lie inside the parsed body, and the decoded body is
their data. -/
def ChunksAgree (p : HttpParser) : Prop :=
  (HttpChunkCursor.ofMessage p).all p.memory =
      some ((parsedChunks p).map fun c => (c.start, c.size)) ∧
    Inside p.headerOffset p.msgsize (parsedChunks p) ∧
    decodeChunkedBody p =
      some ((parsedChunks p).flatMap fun c => (p.message.drop c.start).take c.size)

instance (low high : Nat) (cs : List ParsedChunk) : Decidable (Inside low high cs) :=
  inferInstanceAs (Decidable (∀ c ∈ cs, _ ∧ _))

instance (p : HttpParser) : Decidable (ChunksAgree p) :=
  inferInstanceAs (Decidable (_ ∧ _ ∧ _))

/-- The cursor at a body without bytes reads the NUL behind it. -/
theorem HttpChunkCursor.all_nil {memory : List Byte} {c : HttpChunkCursor}
    (hend : c.atEnd = false) (hchunked : c.chunked = true) (hdrop : memory.drop c.pos = [0]) :
    c.all memory = some [] := by
  have hin : ¬ memory.length ≤ c.pos := by
    intro hle
    rw [List.drop_eq_nil_of_le hle] at hdrop
    simp at hdrop
  have hnext : c.next memory = .ended { c with atEnd := true } := by
    have hzero : toSize (strtol 16 [0]).1 = 0 := by decide
    simp [next, hend, hchunked, hin, hdrop, hzero]
  rw [all]
  split
  · rfl
  · rename_i hchunk
    simp [hnext] at hchunk
  · rename_i hfault
    simp [hnext] at hfault

/-- Chunks that lie in the message are the same bytes in the memory. -/
theorem flatMap_inside {q : HttpParser} {cs : List ParsedChunk}
    (hlen : q.message.length = q.msgsize) (hinside : Inside q.headerOffset q.msgsize cs) :
    (cs.map fun c : ParsedChunk => (c.start, c.size)).flatMap
        (fun (start, size) => (q.memory.drop start).take size) =
      cs.flatMap fun c => (q.message.drop c.start).take c.size := by
  rw [List.flatMap_map]
  refine List.flatMap_congr fun c hc => ?_
  have hc' := (hinside c hc).2
  simp only [HttpParser.memory]
  rw [List.drop_append_of_le_length (by omega),
    List.take_append_of_le_length (by rw [List.length_drop]; omega)]

/-- On a chunked message that the parser accepts, the cursor agrees with the parser exactly when no
line of a chunk with data holds a NUL. -/
theorem chunkCursor_agrees (isResp : Bool) (p : HttpParser) (chunks : List (List Byte))
    (hmem : chunks.flatten.length < 2 ^ 63)
    (hone : (appendAll chunks (httpParserInit isResp p)).1 = 1)
    (hchunked : (appendAll chunks (httpParserInit isResp p)).2.2.chunked = true) :
    ChunksAgree (appendAll chunks (httpParserInit isResp p)).2.2 ↔
      ∀ c ∈ parsedChunks (appendAll chunks (httpParserInit isResp p)).2.2, 0 ∉ c.line := by
  have haccepted := appendAll_chunks hmem hone hchunked
  generalize (appendAll chunks (httpParserInit isResp p)).2.2 = q at *
  obtain ⟨hcomplete, hstate, hlen, hcases⟩ := haccepted
  have hbody : (httpParserGetBody q).isSome = true := by
    simp [httpParserGetBody, hcomplete, hstate]
  have hcursor : HttpChunkCursor.ofMessage q =
      { body := q.headerOffset, bodyLen := subSize q.msgsize q.headerOffset
        pos := q.headerOffset, chunked := true, atEnd := false } := by
    rw [HttpChunkCursor.ofMessage, if_pos hbody, hchunked]
  have hagree : ∀ found, Inside q.headerOffset q.msgsize (parsedChunks q) →
      (HttpChunkCursor.ofMessage q).all q.memory = found →
      (ChunksAgree q ↔ found = some ((parsedChunks q).map fun c => (c.start, c.size))) := by
    intro found hinside hall
    refine ⟨fun h => hall.symm.trans h.1, fun h => ⟨hall.trans h, hinside, ?_⟩⟩
    rw [decodeChunkedBody, if_pos hbody, hall, h, Option.map_some,
      flatMap_inside hlen hinside]
  rcases hcases with ⟨hne, hempty⟩ | ⟨htl, hrun⟩
  · have hnone : parsedChunks q = [] := by rw [parsedChunks, if_neg hne]
    have hdrop : q.memory.drop q.headerOffset = [0] := by
      rw [HttpParser.memory, ← hempty, ← hlen, List.drop_left]
    have hall : (HttpChunkCursor.ofMessage q).all q.memory = some [] := by
      rw [hcursor]
      exact HttpChunkCursor.all_nil rfl rfl hdrop
    rw [hagree _ (by simp [hnone, Inside]) hall, hnone]
    simp
  · have hsome : parsedChunks q = delimitedChunks q.message q.atChunks := by
      rw [parsedChunks, if_pos htl]
    obtain ⟨hframed, hinside⟩ := delimitedChunks_framed (p := q.atChunks) rfl hrun
    rw [← hsome] at hframed hinside
    rw [hlen] at hinside
    have hall : (HttpChunkCursor.ofMessage q).all q.memory =
        if ∀ x ∈ parsedChunks q, 0 ∉ x.line then
          some ((parsedChunks q).map fun x => (x.start, x.size)) else none := by
      rw [hcursor]
      exact hframed.all rfl rfl
    rw [hagree _ hinside hall]
    split
    · rename_i hclean
      exact iff_of_true rfl hclean
    · rename_i hdirty
      exact iff_of_false (by simp) hdirty

/-- A chunk with an extension, cut in its data. -/
theorem chunkCursor_agrees_extension :
    ChunksAgree (appendAll [ascii "POST / HTTP/1.1\r\nTransfer-Encoding: chunked\r\n\r\n 5;x\r\nhel",
      ascii "lo\r\n0\r\n\r\n"] (httpParserInit false default)).2.2 :=
  (chunkCursor_agrees false default _ (by decide +kernel) (by decide +kernel)
    (by decide +kernel)).mpr (by decide +kernel)

/-- The parser accepts a NUL in the line of a chunk with data; the cursor loses the chunk. -/
theorem chunkCursor_lost :
    let chunks := [ascii "POST / HTTP/1.1\r\nTransfer-Encoding: chunked\r\n\r\n5",
      0 :: ascii "\r\nhello\r\n0\r\n\r\n"]
    (appendAll chunks (httpParserInit false default)).1 = 1 ∧
      (appendAll chunks (httpParserInit false default)).2.2.chunked = true ∧
      ¬ ChunksAgree (appendAll chunks (httpParserInit false default)).2.2 := by
  decide +kernel

end Workflow.Http
