/-
Module: Workflow.Protocol.HttpParser
Layer: Protocol
Purpose: `http_parser.c`: the incremental HTTP/1 parser. The parser keeps every byte received so far
  in `msgbuf`; each call rescans from `headerOffset` (or `chunkOffset`) and stops in the middle of a
  start line, a header or a chunk when the bytes run out. Allocation succeeds throughout, so the
  code -1 does not occur.
Trusted boundary: human-reviewed spec
Main exports: HttpParser, httpParserInit, parseStartLine, parseHeaderName, parseHeaderValue,
  parseMessageHeader, parseChunk, finishMessage, httpParserAppendMessage, httpParserGetBody
-/
import Workflow.Lib.CString
import Workflow.Lib.Rescan

namespace Workflow.Http

open Workflow.Lib

def httpHeaderNameMax : Nat := 64
def httpStartLineMax : Nat := 8192
def httpHeaderValueMax : Nat := 8192
def httpChunkLineMax : Nat := 1024
def httpTrailerLineMax : Nat := 8192
def httpMsgbufInitSize : Nat := 2048

/-- `CHUNK_SIZE_MAX`. -/
def chunkSizeMax : Nat := 2 * 1024 * 1024 * 1024 - httpChunkLineMax - 4

inductive HeaderState where
  | startLine
  | headerName
  | headerValue
  | headerComplete
deriving Repr, DecidableEq, Inhabited

inductive ChunkState where
  | chunkData
  | trailerPart
  | chunkComplete
deriving Repr, DecidableEq, Inhabited

/-- `struct __header_line`. -/
structure HeaderLine where
  name : List Byte
  value : List Byte
deriving Repr, DecidableEq

/-- `http_parser_t`. The character pointers are `none` for NULL. -/
structure HttpParser where
  headerState : HeaderState
  chunkState : ChunkState
  headerOffset : Nat
  chunkOffset : Nat
  contentLength : Nat
  transferLength : Nat
  version : Option (List Byte)
  method : Option (List Byte)
  uri : Option (List Byte)
  code : Option (List Byte)
  phrase : Option (List Byte)
  headerList : List HeaderLine
  namebuf : Vector Byte httpHeaderNameMax
  msgbuf : List Byte
  msgsize : Nat
  bufsize : Nat
  expectContinue : Bool
  keepAlive : Bool
  chunked : Bool
  complete : Bool
  isResp : Bool
deriving DecidableEq, Inhabited

/-- The C string in `namebuf`: the bytes before the first NUL. -/
def HttpParser.name (p : HttpParser) : List Byte :=
  p.namebuf.toList.takeWhile (· ≠ 0)

/-- `http_parser_init`. The fields it does not write keep what the memory held. -/
def httpParserInit (isResp : Bool) (p : HttpParser) : HttpParser :=
  { p with
    headerState := .startLine
    headerOffset := 0
    transferLength := sizeMax
    contentLength := if isResp then sizeMax else 0
    version := none
    method := none
    uri := none
    code := none
    phrase := none
    headerList := []
    msgbuf := []
    msgsize := 0
    bufsize := 0
    expectContinue := false
    keepAlive := true
    chunked := false
    complete := false
    isResp := isResp }

/-- `http_parser_add_header`. -/
def httpParserAddHeader (name value : List Byte) (p : HttpParser) : HttpParser :=
  { p with headerList := p.headerList ++ [{ name := name, value := value }] }

/-! ### The start line -/

/-- `strcmp(version, "HTTP/1.0") == 0 || strncmp(version, "HTTP/0", 6) == 0`. -/
def closesByDefault (version : List Byte) : Bool :=
  version == ascii "HTTP/1.0" || version.take 6 == ascii "HTTP/0"

/-- `__match_request_line`. -/
def matchRequestLine (method uri version : List Byte) (p : HttpParser) : HttpParser :=
  { p with
    keepAlive := if closesByDefault version then false else p.keepAlive
    method := some method
    uri := some uri
    version := some version }

/-- `*code == '1' || strcmp(code, "204") == 0 || strcmp(code, "304") == 0`. -/
def isBodyless (code : List Byte) : Bool :=
  code.head? == some 49 || code == ascii "204" || code == ascii "304"

/-- `__match_status_line`. -/
def matchStatusLine (version code phrase : List Byte) (p : HttpParser) : HttpParser :=
  { p with
    keepAlive := if closesByDefault version then false else p.keepAlive
    transferLength := if isBodyless code then 0 else p.transferLength
    version := some version
    code := some code
    phrase := some phrase }

/-- What a search for the CRLF at the end of a line finds. -/
inductive LineScan where
  | more
  | bad
  | line (content : List Byte)
deriving Repr, DecidableEq

def LineScan.cons (c : Byte) : LineScan → LineScan
  | .line content => .line (c :: content)
  | other => other

/-- The loop shared by the start line, the chunk line and the trailer: look for CR LF among the first
`max` bytes and refuse a byte that is not `ok`. `i` counts the bytes before the list. -/
def scanLine (max : Nat) (ok : Byte → Bool) : Nat → List Byte → LineScan
  | i, [] => if i = max then .bad else .more
  | i, c :: rest =>
      if i = max then .bad
      else if c = CR then
        match rest with
        | [] => .more
        | d :: _ => if d = LF then .line [] else .bad
      else if ok c then (scanLine max ok (i + 1) rest).cons c
      else .bad

def startsWithCrlf (bytes : List Byte) : Bool :=
  bytes.take 2 == [CR, LF]

/-- `__parse_start_line`. -/
def parseStartLine (p : HttpParser) (bytes : List Byte) : Int × HttpParser :=
  if startsWithCrlf bytes then
    (1, { p with headerOffset := p.headerOffset + 2 })
  else
    match scanLine httpStartLineMax isPositive 0 bytes with
    | .more => (0, p)
    | .bad => (-2, p)
    | .line content =>
        match strchr SP content with
        | none => (-2, p)
        | some (p1, rest) =>
            match strchr SP rest with
            | none => (-2, p)
            | some (p2, p3) =>
                let q := if p.isResp then matchStatusLine p1 p2 p3 p
                  else matchRequestLine p1 p2 p3 p
                (1, { q with
                  headerOffset := p.headerOffset + (content.length + 2)
                  headerState := .headerName })

/-! ### Header lines -/

/-- The loop of `__parse_header_name`. Every byte before the colon goes to `namebuf`. -/
def headerNameLoop : Nat → HttpParser → List Byte → Int × HttpParser
  | i, p, [] => if i = httpHeaderNameMax then (-2, p) else (0, p)
  | i, p, c :: rest =>
      if i = httpHeaderNameMax then (-2, p)
      else if c = 58 then
        (1, { p with
          namebuf := p.namebuf.setIfInBounds i 0
          headerOffset := p.headerOffset + (i + 1)
          headerState := .headerValue })
      else if isPositive c then
        headerNameLoop (i + 1) { p with namebuf := p.namebuf.setIfInBounds i c } rest
      else (-2, p)

/-- `__parse_header_name`. -/
def parseHeaderName (p : HttpParser) (bytes : List Byte) : Int × HttpParser :=
  if startsWithCrlf bytes then
    (1, { p with headerOffset := p.headerOffset + 2, headerState := .headerComplete })
  else
    headerNameLoop 0 p bytes

/-- `*value >= '0' && *value <= '9'`. -/
def startsWithDigit : List Byte → Bool
  | [] => false
  | c :: _ => isDigit c

/-- The effect of a header on the framing fields; `case 6` falls through to `case 10`. -/
def applyHeader (name value : List Byte) (p : HttpParser) : HttpParser :=
  if name.length = 6 ∨ name.length = 10 then
    let q := if name.length = 6 ∧ strcasecmpEq name (ascii "Expect")
        ∧ strcasecmpEq value (ascii "100-continue") then { p with expectContinue := true } else p
    if strcasecmpEq name (ascii "Connection") then
      if strcasecmpEq value (ascii "Keep-Alive") then { q with keepAlive := true }
      else if strcasecmpEq value (ascii "close") then { q with keepAlive := false }
      else q
    else q
  else if name.length = 14 then
    if strcasecmpEq name (ascii "Content-Length") ∧ startsWithDigit value then
      { p with contentLength := toSize (atoi value) }
    else p
  else if name.length = 17 then
    if strcasecmpEq name (ascii "Transfer-Encoding") ∧
        (value.length ≠ 8 ∨ ¬ strcasecmpEq value (ascii "identity")) then
      { p with chunked := true }
    else p
  else p

/-- `__match_message_header`. -/
def matchMessageHeader (name value : List Byte) (p : HttpParser) : HttpParser :=
  httpParserAddHeader name value (applyHeader name value p)

def isBlank (c : Byte) : Bool :=
  c == SP || c == HT

/-- Drop the blanks at the end of a value. -/
def trimEnd (value : List Byte) : List Byte :=
  (value.reverse.dropWhile isBlank).reverse

inductive ValueScan where
  | more
  | bad
  | value (content : List Byte) (rest : List Byte)
deriving Repr, DecidableEq

/-- The loops of `__parse_header_value`: `skipping` is the loop over leading blanks, otherwise bytes
go to `value`. After CR LF one more byte decides between a continuation line, whose blanks become a
single space, and the end of the value. -/
def headerValueLoop : Bool → List Byte → List Byte → ValueScan
  | _, _, [] => .more
  | skipping, value, c :: rest =>
      if skipping && isBlank c then headerValueLoop true value rest
      else if value.length = httpHeaderValueMax then .bad
      else
        match rest with
        | [] => .more
        | d :: rest' =>
            if c = CR then
              if d = LF then
                match rest' with
                | [] => .more
                | e :: rest'' =>
                    if isBlank e then headerValueLoop true (trimEnd value ++ [SP]) rest''
                    else .value (trimEnd value) (e :: rest'')
              else .bad
            else if isPositive c then headerValueLoop false (value ++ [c]) (d :: rest')
            else .bad

/-- `__parse_header_value`. -/
def parseHeaderValue (p : HttpParser) (bytes : List Byte) : Int × HttpParser :=
  match headerValueLoop true [] bytes with
  | .more => (0, p)
  | .bad => (-2, p)
  | .value content rest =>
      (1, { matchMessageHeader p.name content p with
        headerOffset := p.headerOffset + (bytes.length - rest.length)
        headerState := .headerName })

/-! ### Chunks -/

/-- `__parse_chunk_data`. -/
def parseChunkData (p : HttpParser) (bytes : List Byte) : Int × HttpParser :=
  match scanLine httpChunkLineMax (fun _ => true) 0 bytes with
  | .more => (0, p)
  | .bad => (-2, p)
  | .line content =>
      let (chunkSize, converted) := strtol 16 content
      if !converted then (-2, p)
      else if chunkSize = 0 then
        (1, { p with
          chunkOffset := p.chunkOffset + (content.length + 2)
          chunkState := .trailerPart })
      else if toSize chunkSize < chunkSizeMax then
        if bytes.length < toSize chunkSize + (content.length + 4) then (0, p)
        else (1, { p with chunkOffset := p.chunkOffset + (toSize chunkSize + (content.length + 4)) })
      else (-2, p)

/-- `__parse_trailer_part`. -/
def parseTrailerPart (p : HttpParser) (bytes : List Byte) : Int × HttpParser :=
  match scanLine httpTrailerLineMax (fun _ => true) 0 bytes with
  | .more => (0, p)
  | .bad => (-2, p)
  | .line content =>
      (1, { p with
        chunkOffset := p.chunkOffset + (content.length + 2)
        chunkState := if content = [] then .chunkComplete else p.chunkState })

/-! ### The two loops -/

/-- The body of the loop in `__parse_message_header`. -/
def parseMessageHeaderStep (p : HttpParser) (bytes : List Byte) : Int × HttpParser :=
  if p.headerState = .startLine then parseStartLine p bytes
  else if p.headerState = .headerValue then parseHeaderValue p bytes
  else parseHeaderName p bytes

/-- The body of the loop in `__parse_chunk`. -/
def parseChunkStep (p : HttpParser) (bytes : List Byte) : Int × HttpParser :=
  if p.chunkState = .chunkData then parseChunkData p bytes
  else parseTrailerPart p bytes

theorem parseStartLine_progress {p : HttpParser} {bytes : List Byte}
    (h : 0 < (parseStartLine p bytes).1) :
    bytes ≠ [] ∧ p.headerOffset < (parseStartLine p bytes).2.headerOffset := by
  refine ⟨?_, ?_⟩
  · rintro rfl
    simp [parseStartLine, startsWithCrlf, scanLine, httpStartLineMax] at h
  · unfold parseStartLine at h ⊢
    grind

theorem headerNameLoop_progress {i : Nat} {p : HttpParser} {bytes : List Byte}
    (h : 0 < (headerNameLoop i p bytes).1) :
    bytes ≠ [] ∧ p.headerOffset + i < (headerNameLoop i p bytes).2.headerOffset := by
  induction bytes generalizing i p with
  | nil =>
      unfold headerNameLoop at h
      split at h <;> simp at h
  | cons c rest ih =>
      refine ⟨by simp, ?_⟩
      unfold headerNameLoop at h ⊢
      grind

theorem parseHeaderName_progress {p : HttpParser} {bytes : List Byte}
    (h : 0 < (parseHeaderName p bytes).1) :
    bytes ≠ [] ∧ p.headerOffset < (parseHeaderName p bytes).2.headerOffset := by
  unfold parseHeaderName at h ⊢
  split at h
  · rename_i hcrlf
    refine ⟨?_, by simp [hcrlf]⟩
    rintro rfl
    simp [startsWithCrlf] at hcrlf
  · rename_i hcrlf
    simpa [hcrlf] using headerNameLoop_progress h

/-- A value ends strictly inside the bytes it was read from. -/
theorem headerValueLoop_rest_lt {skipping : Bool} {value bytes content rest : List Byte}
    (h : headerValueLoop skipping value bytes = .value content rest) :
    rest.length < bytes.length := by
  fun_induction headerValueLoop skipping value bytes with grind

theorem parseHeaderValue_progress {p : HttpParser} {bytes : List Byte}
    (h : 0 < (parseHeaderValue p bytes).1) :
    bytes ≠ [] ∧ p.headerOffset < (parseHeaderValue p bytes).2.headerOffset := by
  unfold parseHeaderValue at h ⊢
  split at h
  · simp at h
  · simp at h
  · rename_i content rest hscan
    have hlt := headerValueLoop_rest_lt hscan
    refine ⟨by rintro rfl; simp at hlt, ?_⟩
    simp only
    omega

theorem parseChunkData_progress {p : HttpParser} {bytes : List Byte}
    (h : 0 < (parseChunkData p bytes).1) :
    bytes ≠ [] ∧ p.chunkOffset < (parseChunkData p bytes).2.chunkOffset := by
  refine ⟨?_, ?_⟩
  · rintro rfl
    simp [parseChunkData, scanLine, httpChunkLineMax] at h
  · unfold parseChunkData at h ⊢
    grind

theorem parseTrailerPart_progress {p : HttpParser} {bytes : List Byte}
    (h : 0 < (parseTrailerPart p bytes).1) :
    bytes ≠ [] ∧ p.chunkOffset < (parseTrailerPart p bytes).2.chunkOffset := by
  refine ⟨?_, ?_⟩
  · rintro rfl
    simp [parseTrailerPart, scanLine, httpTrailerLineMax] at h
  · unfold parseTrailerPart at h ⊢
    grind

/-- The header loop as a scanner from `headerOffset`. -/
def headerScanner : Scanner HttpParser Byte where
  step := parseMessageHeaderStep
  offset := HttpParser.headerOffset
  stop p := decide (p.headerState = .headerComplete)
  progress p bytes h := by
    unfold parseMessageHeaderStep at h ⊢
    split at h
    · rename_i hs
      simpa [hs] using parseStartLine_progress h
    · split at h
      · rename_i hs hv
        simpa [hs, hv] using parseHeaderValue_progress h
      · rename_i hs hv
        simpa [hs, hv] using parseHeaderName_progress h

/-- The chunk loop as a scanner from `chunkOffset`. -/
def chunkScanner : Scanner HttpParser Byte where
  step := parseChunkStep
  offset := HttpParser.chunkOffset
  stop p := decide (p.chunkState = .chunkComplete)
  progress p bytes h := by
    unfold parseChunkStep at h ⊢
    split at h
    · rename_i hs
      simpa [hs] using parseChunkData_progress h
    · rename_i hs
      simpa [hs] using parseTrailerPart_progress h

/-- `__parse_message_header`. -/
def parseMessageHeader (message : List Byte) (p : HttpParser) : Int × HttpParser :=
  headerScanner.run message p

/-- `__parse_chunk`. -/
def parseChunk (message : List Byte) (p : HttpParser) : Int × HttpParser :=
  chunkScanner.run message p

/-! ### `http_parser_append_message` -/

/-- Copy the received bytes behind the message, enlarging the buffer when it is too small. -/
def copyIn (buf : List Byte) (p : HttpParser) : HttpParser :=
  let need := p.msgsize + buf.length + 1
  { p with
    bufsize := if need > p.bufsize then growBuf need (max httpMsgbufInitSize (2 * p.bufsize))
      else p.bufsize
    msgbuf := p.msgbuf.take p.msgsize ++ buf
    msgsize := p.msgsize + buf.length }

/-- What a completed header sets up for the body. -/
def beginBody (p : HttpParser) : HttpParser :=
  if p.chunked then { p with chunkOffset := p.headerOffset, chunkState := .chunkData }
  else if p.transferLength = sizeMax then { p with transferLength := p.contentLength }
  else p

/-- The part of `http_parser_append_message` behind the header: the message ends at a known length
or with the last chunk. `msgsize` is cut to the length of the message. -/
def finishMessage (p : HttpParser) : Int × HttpParser :=
  if p.transferLength ≠ sizeMax then
    let total := addSize p.headerOffset p.transferLength
    if p.msgsize ≥ total then (1, { p with msgsize := total, complete := true }) else (0, p)
  else if !p.chunked then (0, p)
  else
    let r := if p.chunkState ≠ .chunkComplete then parseChunk p.msgbuf p else (1, p)
    if r.1 ≤ 0 then r
    else (1, { r.2 with msgsize := r.2.chunkOffset, complete := true })

/-- The scan of the bytes received so far. -/
def scanMessage (p : HttpParser) : Int × HttpParser :=
  if p.headerState ≠ .headerComplete then
    let r := parseMessageHeader p.msgbuf p
    if r.1 ≤ 0 then r else finishMessage (beginBody r.2)
  else
    finishMessage p

/-- `http_parser_append_message`: the code, the value left in `*n`, and the parser. Both places that
return 1 do `*n -= msgsize - total; msgsize = total`. -/
def httpParserAppendMessage (buf : List Byte) (p : HttpParser) : Int × Nat × HttpParser :=
  if p.complete then (1, 0, p)
  else
    let q := copyIn buf p
    let r := scanMessage q
    let n := if r.1 = 1 then subSize buf.length (subSize q.msgsize r.2.msgsize) else buf.length
    (r.1, n, r.2)

/-- Feed chunks one after another and stop at the first code other than 0. The second component is
the sum of the values left in `*n`. -/
def appendAll : List (List Byte) → HttpParser → Int × Nat × HttpParser
  | [], p => (0, 0, p)
  | chunk :: chunks, p =>
      let r := httpParserAppendMessage chunk p
      if r.1 = 0 then
        let rest := appendAll chunks r.2.2
        (rest.1, r.2.1 + rest.2.1, rest.2.2)
      else r

/-- `http_parser_get_body`: the body, once the message is complete. -/
def httpParserGetBody (p : HttpParser) : Option (List Byte) :=
  if p.complete ∧ p.headerState = .headerComplete then
    some ((p.msgbuf.drop p.headerOffset).take (subSize p.msgsize p.headerOffset))
  else none

/-- The bytes of the message. -/
def HttpParser.message (p : HttpParser) : List Byte :=
  p.msgbuf.take p.msgsize

end Workflow.Http
