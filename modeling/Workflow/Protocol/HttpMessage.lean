/-
Module: Workflow.Protocol.HttpMessage
Layer: Protocol
Purpose: The sending side of `HttpMessage.cc`: the list of output body blocks, and `encode`, which
  points an array of vectors at the start line, the header lines and the blocks. `encode` reads none
  of these bytes: an entry for a header line is its buffer with the length that comes of the recorded
  ones, and gathering it fails if that is not in the buffer. A block is named by its address, so a
  vector that outlived its block would be seen. `none` is an access outside a buffer; allocation
  succeeds throughout, and the sizes of the blocks of a body do not reach 2^64.
Trusted boundary: human-reviewed spec
Main exports: MessageBlock, OutputBody, combineFrom, IoVec, gather, startLine, headerVec, encode
-/
import Workflow.Protocol.HttpHeaderStore

namespace Workflow.Http

open Workflow.Lib

/-! ### The output body -/

/-- `struct HttpMessageBlock` at its address, with the `size` bytes at `ptr`. -/
structure MessageBlock where
  addr : Nat
  bytes : List Byte
deriving Repr, DecidableEq

/-- `output_body` and `output_body_size`. -/
structure OutputBody where
  blocks : List MessageBlock
  size : Nat
deriving Repr, DecidableEq

/-- The address of a new block: no block of the list has it. -/
def freshAddr (blocks : List MessageBlock) : Nat :=
  (blocks.map MessageBlock.addr).foldr max 0 + 1

def OutputBody.empty : OutputBody :=
  { blocks := [], size := 0 }

/-- `append_output_body` and `append_output_body_nocopy`, which differ in who owns the bytes. -/
def OutputBody.append (bytes : List Byte) (body : OutputBody) : OutputBody where
  blocks := body.blocks ++ [{ addr := freshAddr body.blocks, bytes := bytes }]
  size := body.size + bytes.length

/-- `clear_output_body`. -/
def OutputBody.clear (_ : OutputBody) : OutputBody :=
  .empty

/-- The bytes of the body. -/
def OutputBody.content (body : OutputBody) : List Byte :=
  body.blocks.flatMap MessageBlock.bytes

/-- The copying loop of `combine_from`: every block goes behind the one before it. -/
def copyBlocks (buf : List Byte) : Nat → List MessageBlock → Option (List Byte)
  | _, [] => some buf
  | off, block :: rest => do
      let buf ← memcpy buf off block.bytes
      copyBlocks buf (off + block.bytes.length) rest

/-- `combine_from`: the blocks from `pos` on become one block of `size` bytes. `before` are the blocks
in front, which stay. -/
def combineFrom (before rest : List MessageBlock) (size : Nat) : Option MessageBlock := do
  let bytes ← copyBlocks (malloc size) 0 rest
  pure { addr := freshAddr (before ++ rest), bytes := bytes }

/-! ### The vectors -/

/-- An entry of the vector array: bytes that the message owns, the first bytes of the buffer of a
header line, or the bytes of a block. -/
inductive IoVec where
  | text (bytes : List Byte)
  | line (buf : List Byte) (len : Nat)
  | block (addr : Nat)
deriving Repr, DecidableEq

/-- The bytes that an entry points to, if they are in the buffer, or while the block is in the
list. -/
def IoVec.bytes (blocks : List MessageBlock) : IoVec → Option (List Byte)
  | .text bytes => some bytes
  | .line buf len => memread buf 0 len
  | .block addr => (blocks.find? fun block => block.addr == addr).map MessageBlock.bytes

/-- The bytes that `writev` sends for the entries. -/
def gather (blocks : List MessageBlock) : List IoVec → Option (List Byte)
  | [] => some []
  | v :: vectors => do
      let front ← v.bytes blocks
      let rest ← gather blocks vectors
      pure (front ++ rest)

/-! ### `encode` -/

inductive EncodeError where
  | badMessage
  | overflow
deriving Repr, DecidableEq

/-- What `encode` leaves behind: its result, `errno` when it set one, the entries written from
`vectors[0]` on, and the output body. -/
structure Encoded where
  ret : Int
  errno : Option EncodeError
  vectors : List IoVec
  body : OutputBody
deriving Repr, DecidableEq

/-- The three parts of the start line: of a request if there is a method, else of a response. -/
def startLine (p : HttpParser) : Option (List Byte × List Byte × List Byte) :=
  match p.method with
  | some method => do pure (method, ← p.uri, ← p.version)
  | none => do pure (← p.version, ← p.code, ← p.phrase)

/-- The entry of a header line; the lengths are added up as `size_t`. -/
def headerVec (line : BufferedLine) : IoVec :=
  .line line.buf ((toSize line.nameLen + 2 + toSize line.valueLen + 2) % 2 ^ 64)

/-- The loop over the header lines. The next entry is `vectors[vectors.length]`. -/
def encodeHeaders (max : Nat) : List BufferedLine → List IoVec → List IoVec
  | [], vectors => vectors
  | line :: rest, vectors =>
      if vectors.length = max then vectors
      else encodeHeaders max rest (vectors ++ [headerVec line])

/-- The loop over the blocks: `before` are the blocks already encoded. When one entry is left for more
than one block, the rest is combined, and the combined block is the last of the list. -/
def encodeBlocks (max : Nat) (before : List MessageBlock) :
    List MessageBlock → Nat → List IoVec → Option (List IoVec × List MessageBlock)
  | [], _, vectors => some (vectors, before)
  | block :: rest, size, vectors =>
      if vectors.length + 1 = max ∧ rest ≠ [] then do
        let combined ← combineFrom before (block :: rest) size
        pure (vectors ++ [.block combined.addr], before ++ [combined])
      else
        encodeBlocks max (before ++ [block]) rest (size - block.bytes.length)
          (vectors ++ [.block block.addr])

/-- `HttpMessage::encode` on the start line of `p`, the lines of its header store and the body. -/
def encode (p : HttpParser) (lines : List BufferedLine) (body : OutputBody) (max : Nat) :
    Option Encoded :=
  match startLine p with
  | none => some { ret := -1, errno := some .badMessage, vectors := [], body := body }
  | some (first, second, third) => do
      let vectors := encodeHeaders max lines
        [.text first, .text [SP], .text second, .text [SP], .text third, .text crlf]
      if vectors.length + 1 ≥ max then
        pure { ret := -1, errno := some .overflow, vectors := vectors, body := body }
      else
        let (vectors, blocks) ← encodeBlocks max [] body.blocks body.size (vectors ++ [.text crlf])
        pure {
          ret := vectors.length
          errno := none
          vectors := vectors
          body := { body with blocks := blocks } }

end Workflow.Http
