/-
Module: Workflow.Protocol.KafkaVarint
Layer: Protocol
Purpose: The variable-length integers of `KafkaMessage.cc`: the writers append bytes to a string, the
  parsers read through a pointer. The memory around that pointer is a function of the offset, so that
  a read outside the buffer sees whatever lies there; the parsing loop takes fuel and `none` means
  "still running".
Trusted boundary: human-reviewed model
Main exports: appendVarintU64, appendVarintI64, appendVarintI32, VarintState, varintRead,
  varintStep, parseVarintU64, parseVarintI64, parseVarintI32
-/
import Workflow.Lib.CString
import Workflow.Lib.Loop
import Mathlib.Data.BitVec

namespace Workflow.Kafka

open Workflow.Lib

/-! ### Writing -/

/-- `append_varint_u64`: the bytes that are appended. -/
def appendVarintU64 (num : Nat) : List Byte :=
  let v := (num &&& 0x7f) ||| (if num > 0x7f then 0x80 else 0)
  if num >>> 7 = 0 then [UInt8.ofNat v]
  else UInt8.ofNat v :: appendVarintU64 (num >>> 7)
termination_by num
decreasing_by
  rw [Nat.shiftRight_eq_div_pow] at *
  omega

/-- `append_varint_i64`. -/
def appendVarintI64 (num : Int64) : List Byte :=
  appendVarintU64 ((num <<< 1) ^^^ (num >>> 63)).toUInt64.toNat

/-- `append_varint_i32`. -/
def appendVarintI32 (num : Int32) : List Byte :=
  appendVarintI64 num.toInt64

/-! ### Parsing -/

/-- The variables of the loop in `parse_varint_u64`. -/
structure VarintState where
  off : Nat
  num : Nat
  shift : Nat

/-- What a parser leaves behind when it returns 0: the value, by how much `*buf` was advanced, and
`*size`. -/
structure Parsed (α : Type) where
  val : α
  off : Nat
  size : Nat

/-- `(int)of`. -/
def readIndex (off : Nat) : Int :=
  (Int32.ofNat off).toInt

/-- The index of the byte that a pass of the loop reads; `none` when it reads none. The test is on
`*size`, which the loop does not change. -/
def varintRead (size : Nat) (s : VarintState) : Option Int :=
  if subSize size 1 = 0 then none else some (readIndex s.off)

/-- The body of the loop on the byte at index `i`. Bits shifted past the 64th are lost. -/
def varintByte (mem : Int → Byte) (size : Nat) (s : VarintState) (i : Int) :
    Step VarintState (Option (Parsed Nat)) :=
  let num := s.num ||| (((mem i).toNat &&& 0x7f) <<< s.shift) % 2 ^ 64
  if mem i &&& 0x80 ≠ 0 then .next { off := s.off + 1, num := num, shift := s.shift + 7 }
  else .done (some { val := num, off := s.off + 1, size := subSize size (s.off + 1) })

/-- One pass of the loop; `none` is the return with `EBADMSG`. -/
def varintStep (mem : Int → Byte) (size : Nat) (s : VarintState) :
    Step VarintState (Option (Parsed Nat)) :=
  (varintRead size s).elim (.done none) (varintByte mem size s)

def varintStart : VarintState where
  off := 0
  num := 0
  shift := 0

/-- `parse_varint_u64`. -/
def parseVarintU64 (fuel : Nat) (mem : Int → Byte) (size : Nat) : Option (Option (Parsed Nat)) :=
  loop (varintStep mem size) fuel varintStart

/-- `(int64_t)(n >> 1) ^ -(int64_t)(n & 1)`. -/
def unzigzag (n : Nat) : Int64 :=
  (UInt64.ofNat n >>> 1).toInt64 ^^^ -(UInt64.ofNat n &&& 1).toInt64

/-- `parse_varint_i64`. -/
def parseVarintI64 (fuel : Nat) (mem : Int → Byte) (size : Nat) : Option (Option (Parsed Int64)) :=
  (parseVarintU64 fuel mem size).map fun r =>
    r.map fun p => { val := unzigzag p.val, off := p.off, size := p.size }

/-- `parse_varint_i32`. -/
def parseVarintI32 (fuel : Nat) (mem : Int → Byte) (size : Nat) : Option (Option (Parsed Int32)) :=
  (parseVarintI64 fuel mem size).map fun r =>
    r.map fun p => { val := p.val.toInt32, off := p.off, size := p.size }

end Workflow.Kafka
