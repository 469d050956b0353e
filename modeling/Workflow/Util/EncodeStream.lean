/-
Module: Workflow.Util.EncodeStream
Layer: Util
Purpose: `EncodeStream`, the list of buffers into which messages are encoded. When as many vectors are
  in use as there are, neighbouring buffers are merged.
Trusted boundary: human-reviewed model
Main exports: EncodeStream, EncodeStream.appendCopy, EncodeStream.appendNocopy,
  EncodeStream.append_spec
-/
import Workflow.Lib.CString

namespace Workflow.Util

open Workflow.Lib

/-- `EncodeStream`: `vec` is what the `size_` vectors in use point at, and `bufferList` holds the data
of the buffers. -/
structure EncodeStream where
  vec : List (List Byte)
  max : Nat
  bufferList : List (List Byte)

namespace EncodeStream

/-- `EncodeStream::reset`. -/
def reset (max : Nat) : EncodeStream where
  vec := []
  max := max
  bufferList := []

/-- The loop of `check_merge`: each buffer takes in the one behind it. -/
def mergePairs : List (List Byte) → List (List Byte)
  | x :: y :: rest => (x ++ y) :: mergePairs rest
  | rest => rest

/-- `EncodeStream::check_merge`. -/
def checkMerge (s : EncodeStream) : EncodeStream :=
  if s.vec.length ≥ s.max then
    { s with vec := mergePairs s.bufferList, bufferList := mergePairs s.bufferList }
  else s

/-- What `append_copy` and `append_nocopy` do apart from copying: nothing for empty data, else a new
buffer at the end. -/
def append (data : List Byte) (s : EncodeStream) : EncodeStream :=
  if data.length = 0 then s
  else checkMerge { s with vec := s.vec ++ [data], bufferList := s.bufferList ++ [data] }

/-- `EncodeStream::append_copy(data, len)`. -/
def appendCopy (data : List Byte) (s : EncodeStream) : EncodeStream :=
  s.append data

/-- `EncodeStream::append_nocopy(data, len)`. -/
def appendNocopy (data : List Byte) (s : EncodeStream) : EncodeStream :=
  s.append data

/-- `operator<< (int64_t)`. -/
def appendInt (v : Int) (s : EncodeStream) : EncodeStream :=
  s.appendCopy (toDecimal v)

/-- `operator<< (int64_t)` on a `size_t`. -/
def appendSize (n : Nat) (s : EncodeStream) : EncodeStream :=
  s.appendInt (Int.bmod n (2 ^ 64))

/-- The bytes that are sent. -/
def text (s : EncodeStream) : List Byte :=
  s.vec.flatten

/-- The vectors point at the buffers, in order. -/
def Consistent (s : EncodeStream) : Prop :=
  s.vec = s.bufferList

end EncodeStream

open EncodeStream

theorem flatten_mergePairs (buffers : List (List Byte)) :
    (mergePairs buffers).flatten = buffers.flatten := by
  induction buffers using mergePairs.induct with
  | case1 x y rest ih => simp only [mergePairs, List.flatten_cons, ih, List.append_assoc]
  | case2 rest hrest =>
      unfold mergePairs
      split
      · exact absurd rfl (hrest _ _ _)
      · rfl

theorem consistent_reset (max : Nat) : (reset max).Consistent := rfl

/-- Appending keeps the vectors in step with the buffers, and adds the data to the text, whether or
not buffers are merged. -/
theorem append_spec {s : EncodeStream} (h : s.Consistent) (data : List Byte) :
    (s.append data).Consistent ∧ (s.append data).text = s.text ++ data := by
  unfold EncodeStream.append
  split
  · rename_i hempty
    exact ⟨h, by rw [List.eq_nil_of_length_eq_zero hempty, List.append_nil]⟩
  · unfold checkMerge
    split
    · refine ⟨rfl, ?_⟩
      unfold EncodeStream.text
      rw [flatten_mergePairs, ← h]
      simp
    · refine ⟨?_, ?_⟩
      · unfold EncodeStream.Consistent at h ⊢
        rw [h]
      · unfold EncodeStream.text
        simp

end Workflow.Util
