/-
Module: Workflow.Protocol.MysqlByteorder
Layer: Protocol
Purpose: `decode_length_safe` and `decode_string` (mysql_byteorder.c) on the whole address space, with
  a record of the addresses they read. Pointers are 64-bit values, and `end` is called `last`.
Trusted boundary: human-reviewed model
Main exports: korrReading, decodeLengthReading, decodeStringReading
-/
import Workflow.Lib.Reading
import Workflow.Protocol.MysqlParser

namespace Workflow.Mysql

open Workflow.Lib Reading

/-- `uint2korr` and its relatives: `size` bytes from `p` on, the lowest first. -/
def korrReading (mem : Nat → Byte) : Nat → Nat → Reading Nat
  | 0, _ => pure 0
  | size + 1, p => do
      let c ← load mem p
      let rest ← korrReading mem size (addSize p 1)
      pure (c.toNat + 2 ^ 8 * rest)

/-- A length whose `size` bytes lie behind the prefix byte, if the test of the bound lets it pass. -/
def prefixedReading (mem : Nat → Byte) (last p test size : Nat) : Reading (Int × Nat × Nat) :=
  if addSize p test > last then pure (0, 0, p)
  else do
    let res ← korrReading mem size (addSize p 1)
    pure (1, res, addSize p (size + 1))

/-- `decode_length_safe`: the returned code, `*res` and `*pos`. With a code below 1 nothing is written
to `*res`. -/
def decodeLengthReading (mem : Nat → Byte) (last p : Nat) : Reading (Int × Nat × Nat) := do
  let c ← load mem p
  if c = 251 then pure (1, sizeMax, addSize p 1)
  else if c = 252 then prefixedReading mem last p 2 2
  else if c = 253 then prefixedReading mem last p 3 3
  else if c = 254 then prefixedReading mem last p 8 8
  else if c = 255 then pure (-1, 0, p)
  else pure (1, c.toNat, addSize p 1)

/-- What `decode_string` does with the length it has decoded. -/
def sliceAt (last : Nat) (decoded : Int × Nat × Nat) : Option Decoded :=
  let (ret, length, pos) := decoded
  if ret ≤ 0 then none
  else if length = 0 ∨ length = sizeMax then some { str := 0, len := 0, pos := pos }
  else if addSize pos length > last then none
  else some { str := pos, len := length, pos := addSize pos length }

/-- `decode_string`; `none` is the code 0. -/
def decodeStringReading (mem : Nat → Byte) (last p : Nat) : Reading (Option Decoded) := do
  let decoded ← decodeLengthReading mem last p
  pure (sliceAt last decoded)

end Workflow.Mysql
