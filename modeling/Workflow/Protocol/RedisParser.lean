/-
Module: Workflow.Protocol.RedisParser
Layer: Protocol
Purpose: `redis_parser.c`: an iterative parser with a list of the elements that are still to be read.
  Pointers to replies are paths in the tree of replies. A length line is converted with `atoi` on the
  buffer itself, so the functions take the bytes that lie behind the message. Allocation succeeds
  throughout.
Trusted boundary: human-reviewed model
Main exports: Reply, RedisParser, parseLine, parseCrlf, parseNchar, forward, finishOne, parseLoop,
  redisParserAppendMessage, appendAll
-/
import Workflow.Lib.CString

namespace Workflow.Redis

open Workflow.Lib

/-! ### Replies -/

/-- `REDIS_REPLY_TYPE_*`. -/
inductive ReplyType where
  | string
  | array
  | integer
  | nil
  | status
  | error
deriving DecidableEq

/-- `redis_reply_t`; `str` is an offset into the message, and the length of `element` is
`elements`. -/
structure Reply where
  type : ReplyType
  integer : Int
  len : Nat
  str : Nat
  element : List Reply

/-- `redis_reply_init`. -/
def replyInit : Reply where
  type := .nil
  integer := 0
  len := 0
  str := 0
  element := []

namespace Reply

/-- `redis_reply_set_string`. -/
def setString (str len : Nat) (r : Reply) : Reply :=
  { r with type := .string, len := len, str := str }

/-- `redis_reply_set_status`. -/
def setStatus (str len : Nat) (r : Reply) : Reply :=
  { r with type := .status, len := len, str := str }

/-- `redis_reply_set_error`. -/
def setError (str len : Nat) (r : Reply) : Reply :=
  { r with type := .error, len := len, str := str }

/-- `redis_reply_set_integer`. -/
def setInteger (integer : Int) (r : Reply) : Reply :=
  { r with type := .integer, integer := integer }

/-- `redis_reply_set_null`. -/
def setNull (r : Reply) : Reply :=
  { r with type := .nil }

/-- `redis_reply_set_array`. -/
def setArray (size : Nat) (r : Reply) : Reply :=
  { r with type := .array, element := List.replicate size replyInit }

/-- Change the reply that a pointer points to. -/
def update (f : Reply → Reply) : List Nat → Reply → Reply
  | [], r => f r
  | i :: path, r => { r with element := r.element.modify i (update f path) }

/-- The reply that a pointer points to. -/
def get? : List Nat → Reply → Option Reply
  | [], r => some r
  | i :: path, r => r.element[i]?.bind (get? path)

end Reply

/-! ### The parser -/

inductive Status where
  | getCmd
  | getCr
  | getLf
  | untilCrlf
  | getNchar
  | parseEnd
deriving DecidableEq

/-- `redis_parser_t`. `msgbuf` holds the `msgsize` bytes received, and `scanned` is
`findidx - msgidx`, which is used only while a line is read. -/
structure RedisParser where
  parseSucc : Bool
  status : Status
  msgbuf : List Byte
  bufsize : Nat
  cur : List Nat
  readList : List (List Nat)
  msgidx : Nat
  scanned : Nat
  nleft : Int
  nchar : Nat
  cmd : Byte
  reply : Reply

/-- `redis_parser_init`. -/
def redisParserInit : RedisParser where
  parseSucc := false
  status := .getCmd
  msgbuf := []
  bufsize := 0
  cur := []
  readList := []
  msgidx := 0
  scanned := 0
  nleft := 1
  nchar := 0
  cmd := 0
  reply := replyInit

/-- A call of one of the setters on `parser->cur`. -/
def RedisParser.setCur (f : Reply → Reply) (p : RedisParser) : RedisParser :=
  { p with reply := p.reply.update f p.cur }

/-- The first characters of a reply: '+', '-', ':', '$' and '*'. -/
def isCmd (ch : Byte) : Bool :=
  ch == 43 || ch == 45 || ch == 58 || ch == 36 || ch == 42

/-- `__redis_parse_cmd`; `msgidx` is already behind the character. -/
def parseCmd (ch : Byte) (p : RedisParser) : Int × RedisParser :=
  if isCmd ch then (0, { p with cmd := ch, status := .untilCrlf, scanned := 0 }) else (-2, p)

/-- `__redis_parse_cr`. -/
def parseCr (ch : Byte) (p : RedisParser) : Int × RedisParser :=
  if ch ≠ CR then (-2, p) else (0, { p with status := .getLf })

/-- `__redis_parse_lf`. -/
def parseLf (ch : Byte) (p : RedisParser) : Int × RedisParser :=
  if ch ≠ LF then (-2, p) else (1, p)

/-- The end of the case `'*'` of `__redis_parse_line`: the elements behind the first one are put in
front of the list, the second one first. -/
def enterArray (n : Int) (p : RedisParser) : RedisParser :=
  { p with
    nleft := toInt (p.nleft - 1)
    readList := (List.range (n.toNat - 1)).map (fun i => p.cur ++ [i + 1]) ++ p.readList
    cur := p.cur ++ [0]
    status := .getCmd }

/-- `__redis_parse_line` on a line of `slen` bytes at `msgidx`; `n` is what `atoi` gives for a length
line. -/
def parseLineAs (n : Int) (p : RedisParser) : Int × RedisParser :=
  let offset := p.msgidx
  let slen := p.scanned
  let q := { p with msgidx := p.msgidx + p.scanned + 2 }
  if p.cmd = 43 then (1, q.setCur (.setStatus offset slen))
  else if p.cmd = 45 then (1, q.setCur (.setError offset slen))
  else if p.cmd = 58 then
    if slen = 0 ∨ slen > 30 then (-1, q)
    else (1, q.setCur (.setInteger (atoll ((p.msgbuf.drop offset).take slen))))
  else if p.cmd = 36 then
    if n < 0 then (1, q.setCur .setNull)
    else if n = 0 then (0, { q.setCur (.setString offset 0) with status := .getCr })
    else (0, { q with nchar := n.toNat, status := .getNchar })
  else if p.cmd = 42 then
    if n < 0 then (1, q.setCur .setNull)
    else
      let t := { q.setCur (.setArray n.toNat) with nleft := toInt (q.nleft + n) }
      if n = 0 then (1, t) else (0, enterArray n t)
  else (-1, q)

/-- `__redis_parse_line`: `atoi` starts at the line and is not held back by its end; `behind` is the
memory behind the message. -/
def parseLine (behind : List Byte) (p : RedisParser) : Int × RedisParser :=
  parseLineAs (atoi ((p.msgbuf ++ behind).drop p.msgidx)) p

/-- The search for CR LF from `findidx` on: how far it goes, and whether it succeeds. -/
def searchCrlf (msgbuf : List Byte) (findidx : Nat) : Nat × Bool :=
  if findidx + 1 < msgbuf.length then
    if msgbuf.getD findidx 0 = CR ∧ msgbuf.getD (findidx + 1) 0 = LF then (0, true)
    else
      let r := searchCrlf msgbuf (findidx + 1)
      (r.1 + 1, r.2)
  else (0, false)
termination_by msgbuf.length - findidx

/-- `__redis_parse_crlf`. -/
def parseCrlf (behind : List Byte) (p : RedisParser) : Int × RedisParser :=
  let r := searchCrlf p.msgbuf (p.msgidx + p.scanned)
  let q := { p with scanned := p.scanned + r.1 }
  if r.2 then parseLine behind q else (2, q)

/-- `__redis_parse_nchar`. -/
def parseNchar (p : RedisParser) : Int × RedisParser :=
  if p.nchar ≤ p.msgbuf.length - p.msgidx then
    (0, { p.setCur (.setString p.msgidx p.nchar) with
      msgidx := p.msgidx + p.nchar, status := .getCr })
  else (2, p)

/-- `__redis_parser_forward`: -1 and -2 error, 0 continue, 1 finish-one, 2 not-enough. -/
def forward (behind : List Byte) (p : RedisParser) : Int × RedisParser :=
  if p.msgidx ≥ p.msgbuf.length then (2, p)
  else
    let ch := p.msgbuf.getD p.msgidx 0
    let q := { p with msgidx := p.msgidx + 1 }
    match p.status with
    | .getCmd => parseCmd ch q
    | .getCr => parseCr ch q
    | .getLf => parseLf ch q
    | .untilCrlf => parseCrlf behind p
    | .getNchar => parseNchar p
    | .parseEnd => (-1, p)

/-- What the loop does when a reply has been read. -/
def finishOne (p : RedisParser) : RedisParser :=
  let q := { p with
    nleft := toInt (p.nleft - 1)
    cur := p.readList.headD p.cur
    readList := p.readList.tail }
  if q.nleft > 0 then { q with status := .getCmd }
  else { q with parseSucc := true, status := .parseEnd }

/-- The parser after a pass of the loop that does not return. -/
def afterForward (r : Int × RedisParser) : RedisParser :=
  if r.1 = 1 then finishOne r.2 else r.2

/-! ### The loop -/

/-- The message stays, and after 0 or 1 the position is behind a byte of the message or a string of
known length has been passed. -/
def Moves (p : RedisParser) (r : Int × RedisParser) : Prop :=
  r.2.msgbuf = p.msgbuf ∧
    (r.1 = 0 ∨ r.1 = 1 → p.msgidx < p.msgbuf.length ∧
      (p.msgidx < r.2.msgidx ∨
        (p.status = .getNchar ∧ r.2.status = .getCr ∧ p.msgidx ≤ r.2.msgidx ∧ r.1 = 0)))

theorem parseLineAs_moves (n : Int) (p : RedisParser) :
    (parseLineAs n p).2.msgbuf = p.msgbuf ∧ p.msgidx < (parseLineAs n p).2.msgidx := by
  unfold parseLineAs
  dsimp only
  repeat' split
  all_goals exact ⟨rfl, by simp only [RedisParser.setCur, enterArray]; omega⟩

theorem forward_moves (behind : List Byte) (p : RedisParser) : Moves p (forward behind p) := by
  unfold forward
  split
  · exact ⟨rfl, fun h => by simp at h⟩
  · rename_i hin
    have hin : p.msgidx < p.msgbuf.length := by omega
    cases hstatus : p.status with
    | getCmd =>
        simp only [parseCmd]
        split <;> exact ⟨rfl, fun _ => ⟨hin, .inl (Nat.lt_succ_self _)⟩⟩
    | getCr =>
        simp only [parseCr]
        split <;> exact ⟨rfl, fun _ => ⟨hin, .inl (Nat.lt_succ_self _)⟩⟩
    | getLf =>
        simp only [parseLf]
        split <;> exact ⟨rfl, fun _ => ⟨hin, .inl (Nat.lt_succ_self _)⟩⟩
    | untilCrlf =>
        simp only [parseCrlf]
        split
        · have hline := parseLineAs_moves
            (atoi ((p.msgbuf ++ behind).drop p.msgidx))
            { p with scanned := p.scanned + (searchCrlf p.msgbuf (p.msgidx + p.scanned)).1 }
          exact ⟨hline.1, fun _ => ⟨hin, .inl hline.2⟩⟩
        · exact ⟨rfl, fun h => by simp at h⟩
    | getNchar =>
        simp only [parseNchar]
        split
        · exact ⟨rfl, fun _ => ⟨hin, .inr ⟨hstatus, rfl, Nat.le_add_right _ _, rfl⟩⟩⟩
        · exact ⟨rfl, fun h => by simp at h⟩
    | parseEnd => exact ⟨rfl, fun h => by simp at h⟩

theorem finishOne_frame (p : RedisParser) :
    (finishOne p).msgbuf = p.msgbuf ∧ (finishOne p).msgidx = p.msgidx ∧
      (finishOne p).status ≠ .getNchar := by
  unfold finishOne
  dsimp only
  split <;> exact ⟨rfl, rfl, by simp⟩

/-- Bounds the passes of the loop that are left. -/
def passes (p : RedisParser) : Nat :=
  2 * (p.msgbuf.length - p.msgidx) + if p.status = .getNchar then 1 else 0

theorem passes_lt {behind : List Byte} {p : RedisParser}
    (h : (forward behind p).1 = 0 ∨ (forward behind p).1 = 1) :
    passes (afterForward (forward behind p)) < passes p := by
  obtain ⟨hbuf, hmove⟩ := forward_moves behind p
  obtain ⟨hin, hmove⟩ := hmove h
  generalize forward behind p = r at hbuf hmove h
  obtain ⟨ret, q⟩ := r
  unfold afterForward passes
  dsimp only at hbuf hmove h ⊢
  rcases hmove with hlt | ⟨hstatus, hq, hle, rfl⟩
  · split
    · obtain ⟨hfbuf, hfidx, hfstatus⟩ := finishOne_frame q
      rw [hfbuf, hfidx, hbuf, if_neg hfstatus]
      omega
    · rw [hbuf]
      split <;> omega
  · rw [if_neg (by decide), hbuf, hq, hstatus, if_neg (by decide), if_pos rfl]
    omega

/-- The loop of `redis_parser_append_message`. -/
def parseLoop (behind : List Byte) (p : RedisParser) : Int × RedisParser :=
  if (forward behind p).1 = 0 ∨ (forward behind p).1 = 1 then
    if (afterForward (forward behind p)).status ≠ .parseEnd then
      parseLoop behind (afterForward (forward behind p))
    else (1, afterForward (forward behind p))
  else if (forward behind p).1 = 2 then (0, (forward behind p).2)
  else forward behind p
termination_by passes p
decreasing_by
  exact passes_lt ‹_›

/-- `redis_parser_append_message`: the code, `*size` and the parser. -/
def redisParserAppendMessage (behind buf : List Byte) (p : RedisParser) : Int × Nat × RedisParser :=
  if p.status = .parseEnd then (1, 0, p)
  else
    let need := p.msgbuf.length + buf.length
    let bufsize := if need > p.bufsize then growBuf need (max 8 (2 * p.bufsize)) else p.bufsize
    let r := parseLoop behind { p with msgbuf := p.msgbuf ++ buf, bufsize := bufsize }
    (r.1, if r.1 = 1 then subSize r.2.msgidx p.msgbuf.length else buf.length, r.2)

/-- Successive calls, up to the first code that is not 0: the last code, the sum of the sizes and the
parser. `behind` is the memory behind the message, by the number of chunks still to come. -/
def appendAll (behind : Nat → List Byte) :
    List (List Byte) → RedisParser → Int × Nat × RedisParser
  | [], p => (0, 0, p)
  | chunk :: chunks, p =>
      let r := redisParserAppendMessage (behind chunks.length) chunk p
      if r.1 = 0 then
        let rest := appendAll behind chunks r.2.2
        (rest.1, addSize r.2.1 rest.2.1, rest.2.2)
      else r

end Workflow.Redis
