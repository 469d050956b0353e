/-
Module: Workflow.Protocol.HttpChunkCursor
Layer: Protocol
Purpose: `HttpChunkCursor` and `HttpUtil::decode_chunked_body` of `HttpUtil.cc`: the second reader of
  a chunked body, which walks over the raw bytes that the parser accepted. Positions are offsets into
  the message buffer.
Trusted boundary: human-reviewed spec
Main exports: HttpChunkCursor, HttpChunkCursor.next, HttpChunkCursor.all, decodeChunkedBody,
  ParsedChunk, delimitedChunks, parsedChunks
-/
import Workflow.Protocol.HttpParser
import Workflow.Util.StringUtil

namespace Workflow.Http

open Workflow.Lib Workflow.Util

/-- The bytes that the body pointer may be followed into: the message, and the NUL that
`http_parser_get_body` writes behind it. -/
def HttpParser.memory (p : HttpParser) : List Byte :=
  p.message ++ [0]

/-- The fields of `HttpChunkCursor`. `atEnd` is the source's `end`. -/
structure HttpChunkCursor where
  body : Nat
  bodyLen : Nat
  pos : Nat
  chunked : Bool
  atEnd : Bool
deriving Repr, DecidableEq

/-- The constructor. Without a parsed body `pos` and `chunked` stay uninitialised and are not read. -/
def HttpChunkCursor.ofMessage (p : HttpParser) : HttpChunkCursor :=
  if (httpParserGetBody p).isSome then
    { body := p.headerOffset
      bodyLen := subSize p.msgsize p.headerOffset
      pos := p.headerOffset
      chunked := p.chunked
      atEnd := false }
  else
    { body := 0, bodyLen := 0, pos := 0, chunked := false, atEnd := true }

/-- What a call of `next` gives: `false`, a chunk, or a pointer that is not into the message. -/
inductive NextChunk where
  | ended (cursor : HttpChunkCursor)
  | chunk (start size : Nat) (cursor : HttpChunkCursor)
  | fault
deriving Repr, DecidableEq

/-- `HttpChunkCursor::next`. `strchr` stops at a NUL; the source adds 2 to its NULL all the same. -/
def HttpChunkCursor.next (memory : List Byte) (c : HttpChunkCursor) : NextChunk :=
  if c.atEnd then .ended c
  else if !c.chunked then .chunk c.body c.bodyLen { c with atEnd := true }
  else if memory.length ≤ c.pos then .fault
  else
    let cur := memory.drop c.pos
    let rest := strtolRest 16 cur
    let size := toSize (strtol 16 cur).1
    if size = 0 then .ended { c with atEnd := true }
    else
      match strchr CR (cString rest) with
      | none => .fault
      | some (before, _) =>
          let line := cur.length - rest.length + before.length
          .chunk (c.pos + line + 2) size { c with pos := c.pos + line + size + 4 }

/-- A chunk moves the cursor forward inside the memory, or ends it. -/
theorem HttpChunkCursor.next_progress {memory : List Byte} {c c' : HttpChunkCursor}
    {start size : Nat} (h : c.next memory = .chunk start size c') :
    c.atEnd = false ∧
      (c'.atEnd = true ∨ c'.atEnd = false ∧ c.pos < c'.pos ∧ c.pos < memory.length) := by
  unfold next at h
  grind

/-- `while (cursor.next(&chunk, &size))`: the chunks in order, `none` for a pointer that is not into
the message. -/
def HttpChunkCursor.all (memory : List Byte) (c : HttpChunkCursor) : Option (List (Nat × Nat)) :=
  match _h : c.next memory with
  | .ended _ => some []
  | .chunk start size c' => (all memory c').map fun chunks => (start, size) :: chunks
  | .fault => none
termination_by if c.atEnd then 0 else memory.length - c.pos + 1
decreasing_by
  obtain ⟨hstart, hend | ⟨hgoing, hpos, hin⟩⟩ := next_progress ‹c.next memory = _›
  · simp [hstart, hend]
  · simp only [hstart, hgoing, Bool.false_eq_true, if_false]
    omega

/-- `HttpUtil::decode_chunked_body`. -/
def decodeChunkedBody (p : HttpParser) : Option (List Byte) :=
  if (httpParserGetBody p).isSome then
    ((HttpChunkCursor.ofMessage p).all p.memory).map fun chunks =>
      chunks.flatMap fun (start, size) => (p.memory.drop start).take size
  else some []

/-! ### The chunks of the parser -/

/-- A chunk as `__parse_chunk_data` delimits it: its chunk line and the extent of its data. -/
structure ParsedChunk where
  line : List Byte
  start : Nat
  size : Nat
deriving Repr, DecidableEq

/-- The chunk between two positions of the chunk offset. -/
def ParsedChunk.between (bytes : List Byte) (p q : HttpParser) : ParsedChunk :=
  let line := bytes.takeWhile (· ≠ CR)
  { line := line
    start := p.chunkOffset + line.length + 2
    size := q.chunkOffset - (p.chunkOffset + line.length + 2) - 2 }

/-- The chunks that the calls of `__parse_chunk_data` pass over, up to the zero chunk. -/
def delimitedChunks (message : List Byte) (p : HttpParser) : List ParsedChunk :=
  let bytes := message.drop p.chunkOffset
  let r := parseChunkData p bytes
  if 0 < r.1 ∧ r.2.chunkState = .chunkData then
    ParsedChunk.between bytes p r.2 :: delimitedChunks message r.2
  else []
termination_by message.length - p.chunkOffset
decreasing_by
  rename_i h
  obtain ⟨hne, hlt⟩ := parseChunkData_progress h.1
  have hin : p.chunkOffset < message.length := by
    by_contra hge
    exact hne (List.drop_eq_nil_of_le (by omega))
  simp only [bytes] at hlt ⊢
  omega

/-- The parser as it enters the chunks of its message. -/
def HttpParser.atChunks (p : HttpParser) : HttpParser :=
  { p with chunkOffset := p.headerOffset, chunkState := .chunkData }

/-- The chunks of a completed chunked message. A message whose status allows no body has none. -/
def parsedChunks (p : HttpParser) : List ParsedChunk :=
  if p.transferLength = sizeMax then delimitedChunks p.message p.atChunks else []

end Workflow.Http
