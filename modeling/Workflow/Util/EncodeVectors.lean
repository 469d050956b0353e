/-
Module: Workflow.Util.EncodeVectors
Layer: Util
Purpose: `EncodeStream` with its memory: the array of vectors, the list of buffers, and the strings that
  buffers own. A vector points into memory of the caller, which stays as it is, or into the string of
  a buffer; the bytes of a string may move when the string changes, so a pointer to them is good for
  one edition of it. Allocation succeeds throughout.
Trusted boundary: human-reviewed model
Main exports: Base, Buff, VecStream, checkMerge, appendCopy, appendNocopy, EncodeCall, perform
-/
import Workflow.Util.EncodeStream
import Mathlib.Logic.Function.Basic

namespace Workflow.Util

open Workflow.Lib

/-- What a pointer points to. -/
inductive Base where
  | outside (addr : Nat)
  | inside (buff edition : Nat)
deriving DecidableEq

/-- `struct __buff`. `edition` counts the changes of `str`. -/
structure Buff where
  data : Base
  len : Nat
  str : List Byte
  edition : Nat

/-- `struct iovec`. -/
structure IoVec where
  base : Base
  len : Nat
deriving DecidableEq

/-- `EncodeStream`: `vec` is what the array and the memory around it hold, `heap` are the buffers that
are not deleted, `fresh` is the number of the next one, and `written` are the places of the array that
were written. -/
structure VecStream where
  vec : Nat → IoVec
  bytes : UInt64
  max : Nat
  size : Nat
  bufferList : List Nat
  heap : Nat → Option Buff
  fresh : Nat
  written : List Nat

/-- Read through a pointer; `none` if the string is gone or has changed. -/
def Base.read (mem : Nat → Byte) (heap : Nat → Option Buff) : Base → Nat → Option (List Byte)
  | .outside addr, len => some ((List.range' addr len).map mem)
  | .inside buff edition, len => do
      let b ← heap buff
      if b.edition = edition ∧ len ≤ b.str.length then some (b.str.take len) else none

/-- The string that `check_merge` appends to: `if (x->str.empty()) x->str.assign(x->data, x->len);`. -/
def Buff.own (mem : Nat → Byte) (heap : Nat → Option Buff) (b : Buff) : Option (List Byte) :=
  if b.str = [] then b.data.read mem heap b.len else some b.str

namespace VecStream

/-- `EncodeStream::reset` on an array of `max` vectors. -/
def reset (vec : Nat → IoVec) (max : Nat) : VecStream where
  vec := vec
  bytes := 0
  max := max
  size := 0
  bufferList := []
  heap := fun _ => none
  fresh := 0
  written := []

/-- `vec_[size_].iov_base = base; vec_[size_++].iov_len = len;` -/
def setVec (base : Base) (len : Nat) (s : VecStream) : VecStream :=
  { s with
    vec := Function.update s.vec s.size ⟨base, len⟩
    size := s.size + 1
    written := s.written ++ [s.size] }

/-- `new __buff()`, filled and added at the tail of the list. -/
def addBuff (b : Buff) (s : VecStream) : VecStream :=
  { s with
    heap := Function.update s.heap s.fresh (some b)
    bufferList := s.bufferList ++ [s.fresh]
    fresh := s.fresh + 1 }

/-- The string of `x` takes in the data of `y`, and `y` is deleted. -/
def mergeInto (mem : Nat → Byte) (x y : Nat) (s : VecStream) : Option VecStream := do
  let bx ← s.heap x
  let own ← bx.own mem s.heap
  let next ← s.heap y
  let more ← next.data.read mem s.heap next.len
  let merged : Buff :=
    { data := .inside x (bx.edition + 1)
      len := (own ++ more).length
      str := own ++ more
      edition := bx.edition + 1 }
  some { s with
    heap := Function.update (Function.update s.heap x (some merged)) y none
    bufferList := s.bufferList.erase y }

/-- The loop of `check_merge`, with `pos` at the first of the buffers that are given, and what follows
it. -/
def mergeLoop (mem : Nat → Byte) : List Nat → VecStream → Option VecStream
  | x :: y :: rest, s => do
      let s ← s.mergeInto mem x y
      let b ← s.heap x
      mergeLoop mem rest (s.setVec b.data b.len)
  | [x], s => do
      let b ← s.heap x
      some (s.setVec b.data b.len)
  | [], s => some s

/-- `EncodeStream::check_merge`. -/
def checkMerge (mem : Nat → Byte) (s : VecStream) : Option VecStream :=
  if s.size ≥ s.max then mergeLoop mem s.bufferList { s with size := 0 } else some s

/-- A new buffer, its vector, `check_merge`, and `bytes_ += len`. -/
def appendBuff (mem : Nat → Byte) (b : Buff) (s : VecStream) : Option VecStream := do
  let t ← ((s.addBuff b).setVec b.data b.len).checkMerge mem
  some { t with bytes := t.bytes + UInt64.ofNat b.len }

/-- `EncodeStream::append_copy(data, len)`. -/
def appendCopy (mem : Nat → Byte) (data : List Byte) (s : VecStream) : Option VecStream :=
  if data.length = 0 then some s
  else s.appendBuff mem ⟨.inside s.fresh 0, data.length, data, 0⟩

/-- `EncodeStream::append_nocopy(data, len)`. -/
def appendNocopy (mem : Nat → Byte) (addr len : Nat) (s : VecStream) : Option VecStream :=
  if len = 0 then some s
  else s.appendBuff mem ⟨.outside addr, len, [], 0⟩

/-- What `count` vectors from `k` on point at, one behind the other. -/
def readVecs (mem : Nat → Byte) (s : VecStream) (k : Nat) : Nat → Option (List Byte)
  | 0 => some []
  | count + 1 => do
      let part ← (s.vec k).base.read mem s.heap (s.vec k).len
      let more ← s.readVecs mem (k + 1) count
      some (part ++ more)

/-- What the first `size()` vectors point at. -/
def contents (mem : Nat → Byte) (s : VecStream) : Option (List Byte) :=
  s.readVecs mem 0 s.size

end VecStream

/-- The calls that append. `shiftText` stands for the three `operator<<` of texts. -/
inductive EncodeCall where
  | appendCopy (data : List Byte)
  | appendNocopy (addr len : Nat)
  | shiftText (addr len : Nat)
  | shiftInt (intv : Int64)

/-- What a call appends. -/
def EncodeCall.data (mem : Nat → Byte) : EncodeCall → List Byte
  | .appendCopy data => data
  | .appendNocopy addr len => (List.range' addr len).map mem
  | .shiftText addr len => (List.range' addr len).map mem
  | .shiftInt intv => toDecimal intv.toInt

namespace VecStream

/-- One call. -/
def perform (mem : Nat → Byte) (s : VecStream) : EncodeCall → Option VecStream
  | .appendCopy data => s.appendCopy mem data
  | .appendNocopy addr len => s.appendNocopy mem addr len
  | .shiftText addr len => s.appendNocopy mem addr len
  | .shiftInt intv => s.appendCopy mem (toDecimal intv.toInt)

end VecStream

end Workflow.Util
