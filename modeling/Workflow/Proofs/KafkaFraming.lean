/-
Module: Workflow.Proofs.KafkaFraming
Layer: Proofs
Purpose: What the framing of Kafka responses reports. A message is complete when its length and its
  body are there, and the body is right; but the last call reports all its bytes as consumed, since
  the size of the rest is taken after the counters were updated.
Trusted boundary: none
Main exports: Complete, Waiting, append_waiting, appendAll_spec, Framed, framed_iff
-/
import Workflow.Protocol.KafkaParser

namespace Workflow.Kafka

open Workflow.Lib

/-! ### Messages -/

/-- The declared size of the body. -/
def bodySize (bytes : List Byte) : Nat :=
  ntohl (bytes.take 4)

/-- The length and the whole body are there. -/
def Complete (bytes : List Byte) : Prop :=
  4 ≤ bytes.length ∧ 4 + bodySize bytes ≤ bytes.length

/-- The body of a complete message. -/
def bodyOf (bytes : List Byte) : List Byte :=
  (bytes.drop 4).take (bodySize bytes)

theorem bodySize_append {bytes : List Byte} (h : 4 ≤ bytes.length) (more : List Byte) :
    bodySize (bytes ++ more) = bodySize bytes := by
  unfold bodySize
  rw [List.take_append_of_le_length h]

theorem complete_append {bytes : List Byte} (h : Complete bytes) (more : List Byte) :
    Complete (bytes ++ more) := by
  obtain ⟨hhead, hbody⟩ := h
  refine ⟨?_, ?_⟩
  · rw [List.length_append]
    omega
  · rw [bodySize_append hhead, List.length_append]
    omega

theorem bodyOf_append {bytes : List Byte} (h : Complete bytes) (more : List Byte) :
    bodyOf (bytes ++ more) = bodyOf bytes := by
  obtain ⟨hhead, hbody⟩ := h
  unfold bodyOf
  rw [bodySize_append hhead, List.drop_append_of_le_length hhead,
    List.take_append_of_le_length (by rw [List.length_drop]; omega)]

/-! ### One call -/

/-- The parser after these bytes, which are not a complete message. -/
structure Waiting (bytes : List Byte) (p : KafkaParser) : Prop where
  complete : p.complete = false
  headbuf : p.headbuf = bytes.take 4
  msgbuf : p.msgbuf = if bytes.length < 4 then none else some (bytes.drop 4)
  messageSize : 4 ≤ bytes.length → p.messageSize = bodySize bytes
  unfinished : ¬ Complete bytes

theorem waiting_init : Waiting [] kafkaParserInit where
  complete := rfl
  headbuf := rfl
  msgbuf := rfl
  messageSize := fun h => absurd h (by decide)
  unfinished := fun h => absurd h.1 (by decide)

/-- The body takes what it needs. -/
theorem appendBody_spec {bytes buf rest body : List Byte} {p : KafkaParser} (size : Nat)
    (hlen : 4 ≤ (bytes ++ buf).length) (hcomplete : p.complete = false)
    (hhead : p.headbuf = (bytes ++ buf).take 4) (hsize : p.messageSize = bodySize (bytes ++ buf))
    (hle : body.length ≤ p.messageSize) (hall : (bytes ++ buf).drop 4 = body ++ rest)
    (hbytes : size < 2 ^ 64) :
    (Complete (bytes ++ buf) → ∃ q, appendBody size body rest p = (1, size, q) ∧
        q.msgbuf = some (bodyOf (bytes ++ buf))) ∧
      (¬ Complete (bytes ++ buf) → ∃ q, appendBody size body rest p = (0, size, q) ∧
        Waiting (bytes ++ buf) q) := by
  have htotal : (bytes ++ buf).length = 4 + body.length + rest.length := by
    have hdrop := congrArg List.length hall
    have hsum : (body ++ rest).length = body.length + rest.length := List.length_append
    rw [List.length_drop] at hdrop
    omega
  have hsub : ∀ k, k = 0 → subSize size k = size := by
    intro k hk
    rw [hk]
    exact subSize_of_le (Nat.zero_le _) hbytes
  constructor
  · rintro ⟨-, hfull⟩
    rw [← hsize] at hfull
    have hbody : (if rest.length > p.messageSize - body.length then
        body ++ rest.take (p.messageSize - body.length) else body ++ rest) =
        bodyOf (bytes ++ buf) := by
      unfold bodyOf
      rw [hall, ← hsize, List.take_append, List.take_of_length_le hle]
      split
      · rfl
      · rw [List.take_of_length_le (by omega)]
    have hlength : (bodyOf (bytes ++ buf)).length = p.messageSize := by
      unfold bodyOf
      rw [List.length_take, List.length_drop, ← hsize]
      omega
    refine ⟨{ p with msgbuf := some (bodyOf (bytes ++ buf)) }, ?_, rfl⟩
    unfold appendBody
    simp only [hbody, hlength, Nat.lt_irrefl, if_false, Nat.sub_self]
    rw [hsub 0 rfl]
  · intro hmore
    have hshort : 4 + body.length + rest.length < 4 + p.messageSize := by
      rw [← htotal, hsize]
      by_contra hge
      exact hmore ⟨hlen, by omega⟩
    have hbody : (if rest.length > p.messageSize - body.length then
        body ++ rest.take (p.messageSize - body.length) else body ++ rest) = body ++ rest :=
      if_neg (by omega)
    refine ⟨{ p with msgbuf := some (body ++ rest) }, ?_, hcomplete, hhead, ?_, fun _ => hsize, hmore⟩
    · unfold appendBody
      simp only [hbody]
      rw [if_pos (by rw [List.length_append]; omega)]
    · simp only
      rw [if_neg (by omega), hall]

/-- A call on a waiting parser waits on or completes the message, and reports all its bytes. -/
theorem append_waiting {bytes : List Byte} {p : KafkaParser} (h : Waiting bytes p) (buf : List Byte)
    (hbytes : buf.length < 2 ^ 64) :
    (Complete (bytes ++ buf) → ∃ q, kafkaParserAppendMessage buf p = (1, buf.length, q) ∧
        q.msgbuf = some (bodyOf (bytes ++ buf))) ∧
      (¬ Complete (bytes ++ buf) → ∃ q, kafkaParserAppendMessage buf p = (0, buf.length, q) ∧
        Waiting (bytes ++ buf) q) := by
  have hheadLen : p.headbuf.length = min 4 bytes.length := by rw [h.headbuf, List.length_take]
  have hcall := kafkaParserAppendMessage.eq_def buf p
  rw [h.complete, if_neg (by decide)] at hcall
  rw [hcall]
  by_cases hshort : p.headbuf.length + buf.length < 4
  · have hlen : (bytes ++ buf).length < 4 := by
      rw [List.length_append]
      omega
    rw [if_pos hshort]
    refine ⟨fun hc => absurd hc.1 (by omega), fun hmore => ⟨_, rfl, rfl, ?_, ?_, ?_, hmore⟩⟩
    · simp only [h.headbuf]
      rw [List.take_of_length_le (by omega), List.take_of_length_le (by omega)]
    · simp only [h.msgbuf]
      rw [if_pos (by omega), if_pos hlen]
    · intro hge
      omega
  · rw [if_neg hshort]
    have hlen : 4 ≤ (bytes ++ buf).length := by
      rw [List.length_append]
      omega
    rcases Nat.lt_or_ge bytes.length 4 with hfirst | hlater
    · have hnone : p.msgbuf = none := by rw [h.msgbuf, if_pos hfirst]
      have hhead : p.headbuf = bytes := by rw [h.headbuf, List.take_of_length_le (by omega)]
      have htake : (bytes ++ buf).take 4 = bytes ++ buf.take (4 - bytes.length) := by
        rw [List.take_append, List.take_of_length_le (by omega)]
      rw [hnone]
      simp only [hhead]
      refine appendBody_spec buf.length hlen rfl ?_ ?_ (Nat.zero_le _) ?_ hbytes
      · exact htake.symm
      · exact congrArg ntohl htake.symm
      · rw [List.drop_append, List.drop_eq_nil_of_le (by omega)]
    · have hsome : p.msgbuf = some (bytes.drop 4) := by rw [h.msgbuf, if_neg (by omega)]
      have hsize := h.messageSize hlater
      have hroom : (bytes.drop 4).length ≤ p.messageSize := by
        rw [List.length_drop, hsize]
        by_contra hover
        exact h.unfinished ⟨hlater, by omega⟩
      rw [hsome]
      refine appendBody_spec buf.length hlen h.complete ?_ ?_ hroom ?_ hbytes
      · rw [h.headbuf, List.take_append_of_le_length hlater]
      · rw [hsize, bodySize_append hlater]
      · rw [List.drop_append_of_le_length hlater]

/-! ### Calls -/

theorem flatten_eq_take_drop (chunks : List (List Byte)) (k : Nat) :
    chunks.flatten = (chunks.take k).flatten ++ (chunks.drop k).flatten := by
  rw [← List.flatten_append, List.take_append_drop]

theorem length_take_flatten_le (chunks : List (List Byte)) (k : Nat) :
    (chunks.take k).flatten.length ≤ chunks.flatten.length := by
  rw [flatten_eq_take_drop chunks k, List.length_append]
  exact Nat.le_add_right _ _

/-- What the calls report: completion comes with the first piece that completes the message, and all
pieces up to it count as consumed. -/
theorem appendAll_spec (chunks : List (List Byte)) {bytes : List Byte} {p : KafkaParser}
    (h : Waiting bytes p) (hlen : chunks.flatten.length < 2 ^ 64) :
    (¬ Complete (bytes ++ chunks.flatten) → (appendAll chunks p).1 = 0) ∧
      (Complete (bytes ++ chunks.flatten) → (appendAll chunks p).1 = 1 ∧
        (appendAll chunks p).2.2.msgbuf = some (bodyOf (bytes ++ chunks.flatten)) ∧
        ∃ k, (appendAll chunks p).2.1 = (chunks.take k).flatten.length ∧
          Complete (bytes ++ (chunks.take k).flatten) ∧
          ∀ j, j < k → ¬ Complete (bytes ++ (chunks.take j).flatten)) := by
  induction chunks generalizing bytes p with
  | nil =>
      rw [List.flatten_nil, List.append_nil]
      exact ⟨fun _ => rfl, fun hc => absurd hc h.unfinished⟩
  | cons chunk chunks ih =>
      rw [List.flatten_cons, List.length_append] at hlen
      obtain ⟨hdone, hwait⟩ := append_waiting h chunk (by omega)
      have hassoc : bytes ++ (chunk :: chunks).flatten = bytes ++ chunk ++ chunks.flatten := by
        rw [List.flatten_cons, List.append_assoc]
      rw [hassoc]
      by_cases hnow : Complete (bytes ++ chunk)
      · obtain ⟨q, hcall, hbody⟩ := hdone hnow
        have hrun : appendAll (chunk :: chunks) p = (1, chunk.length, q) := by
          rw [appendAll, hcall]
          rfl
        rw [hrun]
        refine ⟨fun hc => absurd (complete_append hnow _) hc, fun _ => ⟨rfl, ?_, 1, ?_, ?_, ?_⟩⟩
        · rw [bodyOf_append hnow]
          exact hbody
        · simp
        · simpa using hnow
        · intro j hj
          obtain rfl : j = 0 := by omega
          simpa using h.unfinished
      · obtain ⟨q, hcall, hq⟩ := hwait hnow
        have hrun : appendAll (chunk :: chunks) p =
            ((appendAll chunks q).1, addSize chunk.length (appendAll chunks q).2.1,
              (appendAll chunks q).2.2) := by
          rw [appendAll, hcall]
          rfl
        rw [hrun]
        obtain ⟨hmore, hend⟩ := ih hq (by omega)
        refine ⟨hmore, fun hc => ?_⟩
        obtain ⟨hcode, hbody, k, hsize, hcomplete, hfirst⟩ := hend hc
        refine ⟨hcode, hbody, k + 1, ?_, ?_, ?_⟩
        · have hle := length_take_flatten_le chunks k
          rw [List.take_succ_cons, List.flatten_cons, List.length_append, hsize]
          exact addSize_of_lt (by omega)
        · rw [List.take_succ_cons, List.flatten_cons, ← List.append_assoc]
          exact hcomplete
        · intro j hj
          cases j with
          | zero => simpa using h.unfinished
          | succ j =>
              rw [List.take_succ_cons, List.flatten_cons, ← List.append_assoc]
              exact hfirst j (by omega)

/-! ### Framing -/

/-- The calls on the pieces report completion exactly when the message is there, the body is its
body, and the bytes reported as consumed are those of the message. -/
structure Framed (chunks : List (List Byte)) : Prop where
  code : (appendAll chunks kafkaParserInit).1 = 0 ∨ (appendAll chunks kafkaParserInit).1 = 1
  complete : (appendAll chunks kafkaParserInit).1 = 1 ↔ Complete chunks.flatten
  body : Complete chunks.flatten →
    (appendAll chunks kafkaParserInit).2.2.msgbuf = some (bodyOf chunks.flatten)
  size : Complete chunks.flatten →
    (appendAll chunks kafkaParserInit).2.1 = 4 + bodySize chunks.flatten

/-- If a message is complete, some pieces at the front are that message and nothing else. -/
def EndsAtMessage (chunks : List (List Byte)) : Prop :=
  Complete chunks.flatten →
    ∃ k, (chunks.take k).flatten.length = 4 + bodySize chunks.flatten

/-- The framing is right exactly when the piece that completes a message ends with it. -/
theorem framed_iff (chunks : List (List Byte)) (hlen : chunks.flatten.length < 2 ^ 64) :
    Framed chunks ↔ EndsAtMessage chunks := by
  obtain ⟨hmore, hend⟩ := appendAll_spec chunks waiting_init hlen
  rw [List.nil_append] at hmore hend
  by_cases hcomplete : Complete chunks.flatten
  · obtain ⟨hcode, hbody, k, hsize, hnow, hfirst⟩ := hend hcomplete
    rw [List.nil_append] at hnow
    have hbodySize : bodySize chunks.flatten = bodySize (chunks.take k).flatten := by
      rw [flatten_eq_take_drop chunks k]
      exact bodySize_append hnow.1 _
    constructor
    · intro h _
      exact ⟨k, by rw [← hsize, h.size hcomplete]⟩
    · intro h
      obtain ⟨m, hm⟩ := h hcomplete
      refine ⟨.inr hcode, ⟨fun _ => hcomplete, fun _ => hcode⟩, fun _ => hbody, fun _ => ?_⟩
      -- the first complete pieces are not longer than the ones that end with the message
      have hle : (chunks.take k).flatten.length ≤ (chunks.take m).flatten.length := by
        have hkm : k ≤ m := by
          by_contra hlt
          have hnot := hfirst m (by omega)
          rw [List.nil_append] at hnot
          refine hnot ⟨by omega, ?_⟩
          rw [hm, flatten_eq_take_drop chunks m, bodySize_append (by omega)]
        have htake := length_take_flatten_le (chunks.take m) k
        rw [List.take_take, Nat.min_eq_left hkm] at htake
        exact htake
      have hge := hnow.2
      rw [hsize]
      omega
  · have hcode := hmore hcomplete
    constructor
    · exact fun _ hc => absurd hc hcomplete
    · intro _
      refine ⟨.inl hcode, ⟨fun hone => ?_, fun hc => absurd hc hcomplete⟩,
        fun hc => absurd hc hcomplete, fun hc => absurd hc hcomplete⟩
      rw [hcode] at hone
      exact absurd hone (by decide)

/-- A body of one byte, in two pieces that are the message. -/
theorem framed_two_pieces : Framed [[0, 0, 0], [1, 7]] :=
  (framed_iff _ (by decide)).mpr fun _ => ⟨2, by decide⟩

/-- A body of one byte and the first byte of the next message in one piece: all six bytes are reported
as consumed. -/
theorem surplus_swallowed :
    ¬ ∀ chunks : List (List Byte), chunks.flatten.length < 2 ^ 64 → Framed chunks := by
  intro h
  have hsize := (h [[0, 0, 0, 1, 7, 0]] (by decide)).size ⟨by decide, by decide⟩
  exact absurd hsize (by decide)

end Workflow.Kafka
