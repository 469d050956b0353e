/-
Module: Workflow.Proofs.SendMessage
Layer: Proofs
Purpose: What has been accepted and what the vectors still point at are the message, wherever the
  sending stands; and the message is reported complete when all of it has been accepted. Only a
  message without any byte may be complete before it is reported.
Trusted boundary: none
Main exports: syncAdvance_spec, pollAdvance_spec, Standing, sendMessageSync_spec, writeLoop_spec,
  gatherSend
-/
import Workflow.Kernel.SendMessage
import Mathlib.Data.List.Induction

namespace Workflow.Kernel

open Workflow.Lib

variable {mem : Nat → Byte} {iovMax : Nat}

/-! ### Vectors -/

theorem IoVec.length_bytes (mem : Nat → Byte) (v : IoVec) : (v.bytes mem).length = v.len := by
  rw [IoVec.bytes, List.length_map, List.length_range']

theorem bytesOf_cons (v : IoVec) (vectors : List IoVec) :
    bytesOf mem (v :: vectors) = v.bytes mem ++ bytesOf mem vectors :=
  rfl

theorem bytesOf_append (front rest : List IoVec) :
    bytesOf mem (front ++ rest) = bytesOf mem front ++ bytesOf mem rest := by
  simp [bytesOf]

/-- The front of a vector is cut off. -/
theorem IoVec.bytes_drop (v : IoVec) (n : Nat) :
    IoVec.bytes mem ⟨v.base + n, v.len - n⟩ = (v.bytes mem).drop n := by
  rw [IoVec.bytes, IoVec.bytes, ← List.map_drop, List.drop_range']
  simp

/-- The first of the vectors, if there is one, has a byte. -/
def Tight : List IoVec → Prop
  | [] => True
  | v :: _ => v.len ≠ 0

theorem Tight.eq_nil {vectors : List IoVec} (h : Tight vectors) (hnil : bytesOf mem vectors = []) :
    vectors = [] := by
  cases vectors with
  | nil => rfl
  | cons v vectors =>
      have hlen := v.length_bytes mem
      rw [bytesOf_cons, List.append_eq_nil_iff] at hnil
      rw [hnil.1] at hlen
      exact absurd hlen.symm h

/-- Behind a vector that has been accepted whole. -/
theorem drop_bytesOf_cons (v : IoVec) (vectors : List IoVec) {n : Nat} (h : v.len ≤ n) :
    (bytesOf mem (v :: vectors)).drop n = (bytesOf mem vectors).drop (n - v.len) := by
  rw [bytesOf_cons, List.drop_append, v.length_bytes mem,
    List.drop_eq_nil_of_le (by rwa [v.length_bytes mem]), List.nil_append]

/-- Inside a vector. -/
theorem drop_bytesOf_inside (v : IoVec) (vectors : List IoVec) {n : Nat} (h : n ≤ v.len) :
    (bytesOf mem (v :: vectors)).drop n = bytesOf mem (⟨v.base + n, v.len - n⟩ :: vectors) := by
  rw [bytesOf_cons, bytesOf_cons, List.drop_append_of_le_length (by rwa [v.length_bytes mem]),
    v.bytes_drop]

/-- What the loop of `send_message_sync` leaves ahead. -/
theorem syncAdvance_spec (mem : Nat → Byte) (n : Nat) (vectors : List IoVec) :
    bytesOf mem ((syncAdvance n vectors).2.drop (syncAdvance n vectors).1) =
        (bytesOf mem vectors).drop n ∧
      Tight ((syncAdvance n vectors).2.drop (syncAdvance n vectors).1) := by
  induction vectors generalizing n with
  | nil => exact ⟨by simp [syncAdvance, bytesOf], trivial⟩
  | cons v vectors ih =>
      rw [syncAdvance]
      by_cases h : n ≥ v.len
      · rw [if_pos h, drop_bytesOf_cons v vectors h]
        exact ih (n - v.len)
      · rw [if_neg h, drop_bytesOf_inside v vectors (by omega)]
        refine ⟨rfl, ?_⟩
        show v.len - n ≠ 0
        omega

/-- What the loop of `__poller_handle_write` leaves ahead. -/
theorem pollAdvance_spec (mem : Nat → Byte) (n : Nat) (iov : List IoVec) :
    bytesOf mem (pollAdvance n iov) = (bytesOf mem iov).drop n ∧ Tight (pollAdvance n iov) := by
  induction iov generalizing n with
  | nil => exact ⟨by simp [pollAdvance, bytesOf], trivial⟩
  | cons v iov ih =>
      rw [pollAdvance]
      by_cases h : n ≥ v.len
      · rw [if_pos h, drop_bytesOf_cons v iov h]
        exact ih (n - v.len)
      · rw [if_neg h, drop_bytesOf_inside v iov (by omega)]
        refine ⟨rfl, ?_⟩
        show v.len - n ≠ 0
        omega

theorem skipEmpty_spec (mem : Nat → Byte) (iov : List IoVec) :
    bytesOf mem (skipEmpty iov) = bytesOf mem iov ∧ Tight (skipEmpty iov) := by
  induction iov with
  | nil => exact ⟨rfl, trivial⟩
  | cons v iov ih =>
      rw [skipEmpty]
      by_cases h : v.len = 0
      · have hnil : v.bytes mem = [] := List.eq_nil_of_length_eq_zero (by rw [v.length_bytes mem, h])
        rw [if_pos h, bytesOf_cons, hnil, List.nil_append]
        exact ih
      · rw [if_neg h]
        exact ⟨rfl, h⟩

/-- What `writev` takes is the front of what is ahead. -/
theorem take_offered (vectors : List IoVec) (n : Nat) :
    ((offered mem iovMax vectors).take n) ++
        (bytesOf mem vectors).drop ((offered mem iovMax vectors).take n).length =
      bytesOf mem vectors := by
  have hsplit : bytesOf mem vectors =
      offered mem iovMax vectors ++ bytesOf mem (vectors.drop iovMax) := by
    rw [offered, ← bytesOf_append, List.take_append_drop]
  have htaken : bytesOf mem vectors = (offered mem iovMax vectors).take n ++
      ((offered mem iovMax vectors).drop n ++ bytesOf mem (vectors.drop iovMax)) := by
    rw [← List.append_assoc, List.take_append_drop, hsplit]
  have hdrop := congrArg (List.drop ((offered mem iovMax vectors).take n).length) htaken
  rw [List.drop_left] at hdrop
  rw [hdrop, ← htaken]

/-! ### The loops -/

/-- The loop of `send_message_sync`: accepted and ahead make up the message, and a vector without a
byte is ahead only as long as nothing has been accepted. -/
structure Standing (mem : Nat → Byte) (message : List Byte) (accepted : List Byte)
    (ahead : List IoVec) : Prop where
  split : accepted ++ bytesOf mem ahead = message
  tight : accepted = [] ∨ Tight ahead

theorem Standing.eq_nil {message accepted : List Byte} {ahead : List IoVec}
    (h : Standing mem message accepted ahead) (hmessage : message ≠ []) :
    accepted = message ↔ ahead = [] := by
  constructor
  · intro hall
    have hnil : bytesOf mem ahead = [] := by
      have hsplit := h.split
      rw [hall] at hsplit
      exact List.append_right_eq_self.mp hsplit
    rcases h.tight with hnone | htight
    · exact absurd (hall.symm.trans hnone) hmessage
    · exact htight.eq_nil hnil
  · rintro rfl
    have hsplit := h.split
    rwa [show bytesOf mem [] = [] from rfl, List.append_nil] at hsplit

theorem Sending.accept_standing {message : List Byte} {s : Sending} (n : Nat)
    (h : Standing mem message s.accepted s.ahead) :
    Standing mem message (s.accept mem iovMax n).accepted (s.accept mem iovMax n).ahead := by
  obtain ⟨hbytes, htight⟩ := syncAdvance_spec mem
    ((offered mem iovMax s.ahead).take n).length s.ahead
  refine ⟨?_, Or.inr htight⟩
  simp only [Sending.accept, hbytes, List.append_assoc, take_offered, h.split]

/-- What `send_message_sync` returns, and how the sending stands then. -/
theorem sendMessageSync_spec (mem : Nat → Byte) (iovMax : Nat) {message : List Byte}
    (results : List WriteResult) (s : Sending)
    (h : Standing mem message s.accepted s.ahead) :
    Standing mem message (sendMessageSync mem iovMax results s).2.accepted
        (sendMessageSync mem iovMax results s).2.ahead ∧
      ((sendMessageSync mem iovMax results s).1 = some 0 ↔
        (sendMessageSync mem iovMax results s).2.ahead = []) ∧
      ∀ cnt, (sendMessageSync mem iovMax results s).1 = some cnt → 0 < cnt →
        cnt = (sendMessageSync mem iovMax results s).2.ahead.length := by
  induction results generalizing s with
  | nil =>
      rw [sendMessageSync]
      by_cases hnil : s.ahead = []
      · rw [if_pos hnil]
        refine ⟨h, iff_of_true rfl hnil, ?_⟩
        rintro _ ⟨⟩ hpos
        exact absurd hpos (by decide)
      · rw [if_neg hnil]
        exact ⟨h, iff_of_false (by simp) hnil, fun _ hnone => by cases hnone⟩
  | cons r results ih =>
      rw [sendMessageSync.eq_def]
      simp only
      by_cases hnil : s.ahead = []
      · rw [if_pos hnil]
        refine ⟨h, iff_of_true rfl hnil, ?_⟩
        rintro _ ⟨⟩ hpos
        exact absurd hpos (by decide)
      · rw [if_neg hnil]
        cases r with
        | accepts n => exact ih _ (Sending.accept_standing n h)
        | again =>
            have hlen : s.ahead.length ≠ 0 := mt List.eq_nil_of_length_eq_zero hnil
            refine ⟨h, iff_of_false (by simpa using hnil) hnil, ?_⟩
            rintro _ ⟨⟩ _
            rfl
        | error =>
            refine ⟨h, iff_of_false (by simp) hnil, ?_⟩
            rintro _ ⟨⟩ hpos
            exact absurd hpos (by decide)

/-- How the sending stands behind the loop of `__poller_handle_write`. -/
theorem writeLoop_spec (iovMax : Nat) {message : List Byte} (results : List WriteResult) (count : Nat)
    (node : WriteNode) (hsplit : node.accepted ++ bytesOf mem node.iov = message)
    (htight : Tight node.iov) :
    Standing mem message (writeLoop mem iovMax results count node).2.accepted
        (writeLoop mem iovMax results count node).2.iov ∧
      ((writeLoop mem iovMax results count node).1 = .complete ↔
        (writeLoop mem iovMax results count node).2.iov = []) := by
  induction results generalizing count node with
  | nil =>
      rw [writeLoop]
      by_cases hnil : node.iov = []
      · rw [if_pos hnil]
        exact ⟨⟨hsplit, Or.inr htight⟩, iff_of_true rfl hnil⟩
      · rw [if_neg hnil]
        exact ⟨⟨hsplit, Or.inr htight⟩, iff_of_false (by simp) hnil⟩
  | cons r results ih =>
      rw [writeLoop.eq_def]
      simp only
      by_cases hnil : node.iov = []
      · rw [if_pos hnil]
        exact ⟨⟨hsplit, Or.inr htight⟩, iff_of_true rfl hnil⟩
      · rw [if_neg hnil]
        cases r with
        | accepts n =>
            obtain ⟨hbytes, htight'⟩ := pollAdvance_spec mem
              ((offered mem iovMax node.iov).take n).length node.iov
            apply ih _ _ _ htight'
            simp only [WriteNode.accept, hbytes, List.append_assoc, take_offered, hsplit]
        | again =>
            have hpending : (if count = 0 then Report.pending
                else if partialWritten count ≥ 0 then .pending else .failed) = .pending := by
              split
              · rfl
              · rw [if_pos (show partialWritten count ≥ 0 from Int.le_refl 0)]
            refine ⟨⟨hsplit, Or.inr htight⟩, iff_of_false ?_ hnil⟩
            simp only [hpending]
            simp
        | error => exact ⟨⟨hsplit, Or.inr htight⟩, iff_of_false (by simp) hnil⟩

/-! ### A message -/

/-- How a message stands: accepted and left make it up. A message with a byte is complete exactly when
all of it is accepted. -/
def Sound (mem : Nat → Byte) (message : List Byte) (state : Report × WriteNode) : Prop :=
  state.2.accepted ++ bytesOf mem state.2.iov = message ∧
    (state.1 = .complete → state.2.accepted = message) ∧
    (message ≠ [] → state.2.accepted = message → state.1 = .complete)

theorem Standing.sound {message accepted : List Byte} {ahead : List IoVec} {report : Report}
    (h : Standing mem message accepted ahead) (hreport : report = .complete ↔ ahead = []) :
    Sound mem message (report, ⟨ahead, accepted⟩) := by
  refine ⟨h.split, fun hcomplete => ?_, fun hmessage hall => hreport.mpr ((h.eq_nil hmessage).mp hall)⟩
  have hsplit := h.split
  rw [hreport.mp hcomplete] at hsplit
  rwa [show bytesOf mem [] = [] from rfl, List.append_nil] at hsplit

theorem sendMessage_sound (mem : Nat → Byte) (iovMax : Nat) (vectors : List IoVec)
    (results : List WriteResult) :
    Sound mem (bytesOf mem vectors) (sendMessage mem iovMax vectors results) := by
  have hspec := sendMessageSync_spec mem iovMax results ⟨[], vectors, []⟩
    ⟨rfl, Or.inl rfl⟩
  unfold sendMessage
  generalize sendMessageSync mem iovMax results ⟨[], vectors, []⟩ = r at hspec ⊢
  obtain ⟨ret, s⟩ := r
  obtain ⟨hstanding, hcomplete, hcnt⟩ := hspec
  simp only at hstanding hcomplete hcnt ⊢
  match ret, hcomplete, hcnt with
  | none, hcomplete, _ => exact hstanding.sound (iff_of_false (by simp) (mt hcomplete.mpr (by simp)))
  | some cnt, hcomplete, hcnt =>
      simp only
      by_cases hzero : cnt = 0
      · rw [if_pos hzero]
        exact hstanding.sound (iff_of_true rfl (hcomplete.mp (by rw [hzero])))
      · have hnot : s.ahead ≠ [] := mt hcomplete.mpr (by simpa using hzero)
        rw [if_neg hzero]
        by_cases hneg : cnt < 0
        · rw [if_pos hneg]
          exact hstanding.sound (iff_of_false (by simp) hnot)
        · have hlen := hcnt cnt rfl (by omega)
          have hrest : (s.passed ++ s.ahead).drop ((s.passed ++ s.ahead).length - cnt.toNat) =
              s.ahead := by
            rw [hlen, Int.toNat_natCast, List.length_append, Nat.add_sub_cancel, List.drop_left]
          rw [if_neg hneg, hrest]
          exact hstanding.sound (iff_of_false (by simp) hnot)

theorem handleWrite_sound {message : List Byte} (results : List WriteResult) {node : WriteNode}
    (h : node.accepted ++ bytesOf mem node.iov = message) :
    Sound mem message (handleWrite mem iovMax results node) := by
  obtain ⟨hbytes, htight⟩ := skipEmpty_spec mem node.iov
  obtain ⟨hstanding, hcomplete⟩ := writeLoop_spec iovMax results 0
    { node with iov := skipEmpty node.iov } (by rw [hbytes, h]) htight
  exact hstanding.sound hcomplete

theorem sendAll_sound (mem : Nat → Byte) (iovMax : Nat) (vectors : List IoVec) (results : List WriteResult)
    (calls : List (List WriteResult)) :
    Sound mem (bytesOf mem vectors) (sendAll mem iovMax vectors results calls) := by
  induction calls using List.reverseRecOn with
  | nil => exact sendMessage_sound mem iovMax vectors results
  | append_singleton calls call ih =>
      have hnext : sendAll mem iovMax vectors results (calls ++ [call]) =
          nextWrite mem iovMax (sendAll mem iovMax vectors results calls) call := by
        rw [sendAll, List.foldl_append]
        rfl
      rw [hnext, nextWrite]
      split
      · exact handleWrite_sound call ih.1
      · exact ih

/-- What becomes of a message without a byte. -/
def emptyReport (vectors : List IoVec) (results : List WriteResult) (calls : List (List WriteResult)) :
    Report :=
  if vectors = [] then .complete
  else
    match results with
    | [] => .running
    | .accepts _ :: _ => .complete
    | .again :: _ => if calls = [] then .pending else .complete
    | .error :: _ => .failed

/-- What is not in the poller any more stays as it is. -/
theorem foldl_nextWrite {state : Report × WriteNode} (h : state.1 ≠ .pending)
    (calls : List (List WriteResult)) : calls.foldl (nextWrite mem iovMax) state = state := by
  induction calls with
  | nil => rfl
  | cons call calls ih => rw [List.foldl_cons, nextWrite, if_neg h, ih]

theorem sendAll_of_report {vectors : List IoVec} {results : List WriteResult} {report : Report}
    (calls : List (List WriteResult)) (h : (sendMessage mem iovMax vectors results).1 = report)
    (hreport : report ≠ .pending) : (sendAll mem iovMax vectors results calls).1 = report := by
  rw [sendAll, foldl_nextWrite (by rwa [h]), h]

/-- With nothing ahead, the loop is left at once. -/
theorem sendMessageSync_nil (results : List WriteResult) {s : Sending} (h : s.ahead = []) :
    sendMessageSync mem iovMax results s = (some 0, s) := by
  cases results with
  | nil => rw [sendMessageSync, if_pos h]
  | cons r results =>
      rw [sendMessageSync.eq_def]
      simp only [if_pos h]

theorem handleWrite_empty (iovMax : Nat) (results : List WriteResult) {node : WriteNode}
    (h : bytesOf mem node.iov = []) : (handleWrite mem iovMax results node).1 = .complete := by
  obtain ⟨hbytes, htight⟩ := skipEmpty_spec mem node.iov
  have hnil : skipEmpty node.iov = [] := htight.eq_nil (hbytes.trans h)
  rw [handleWrite, hnil]
  cases results with
  | nil => rfl
  | cons r results =>
      rw [writeLoop.eq_def]
      rfl

theorem sendAll_empty (vectors : List IoVec) (results : List WriteResult)
    (calls : List (List WriteResult)) (h : bytesOf mem vectors = []) :
    (sendAll mem iovMax vectors results calls).1 = emptyReport vectors results calls := by
  unfold emptyReport
  by_cases hnil : vectors = []
  · rw [if_pos hnil]
    apply sendAll_of_report calls _ (by simp)
    rw [sendMessage, sendMessageSync_nil results hnil]
    rfl
  rw [if_neg hnil]
  match results with
  | [] =>
      apply sendAll_of_report calls _ (by simp)
      rw [sendMessage, sendMessageSync, if_neg hnil]
  | .accepts n :: results =>
      apply sendAll_of_report calls _ (by simp)
      have hahead : (Sending.accept mem iovMax n ⟨[], vectors, []⟩).ahead = [] := by
        obtain ⟨hbytes, htight⟩ := syncAdvance_spec mem
          ((offered mem iovMax vectors).take n).length vectors
        rw [h, List.drop_nil] at hbytes
        exact htight.eq_nil hbytes
      rw [sendMessage, sendMessageSync, if_neg hnil, sendMessageSync_nil results hahead]
      rfl
  | .again :: results =>
      have hsound := sendMessage_sound mem iovMax vectors (.again :: results)
      have hpending : (sendMessage mem iovMax vectors (.again :: results)).1 = .pending := by
        have hpos : (vectors.length : Int) ≠ 0 := by simpa using hnil
        rw [sendMessage, sendMessageSync, if_neg hnil]
        simp only [if_neg hpos]
        rw [if_neg (by omega)]
      cases calls with
      | nil => exact hpending
      | cons call calls =>
          have hleft : bytesOf mem (sendMessage mem iovMax vectors (.again :: results)).2.iov = [] := by
            have hsplit := hsound.1
            rw [h] at hsplit
            exact (List.append_eq_nil_iff.mp hsplit).2
          have hcomplete := handleWrite_empty iovMax call hleft
          rw [sendAll, List.foldl_cons, nextWrite, if_pos hpending,
            foldl_nextWrite (by rw [hcomplete]; simp), hcomplete]
          rfl
  | .error :: results =>
      apply sendAll_of_report calls _ (by simp)
      rw [sendMessage, sendMessageSync, if_neg hnil]
      rfl

/-- At every point of sending a message, what has been accepted and what the vectors still point at
make up the message, a message is reported complete only if all of it has been accepted, and a message
with a byte is reported complete as soon as it has. Without a byte, the message is complete when
`writev` accepts it, or in the first call of `__poller_handle_write`. -/
theorem gatherSend (mem : Nat → Byte) (iovMax : Nat) (vectors : List IoVec) (results : List WriteResult)
    (calls : List (List WriteResult)) :
    let (report, node) := sendAll mem iovMax vectors results calls
    node.accepted ++ bytesOf mem node.iov = bytesOf mem vectors ∧
      (report = .complete → node.accepted = bytesOf mem vectors) ∧
      (bytesOf mem vectors ≠ [] → node.accepted = bytesOf mem vectors → report = .complete) ∧
      (bytesOf mem vectors = [] → report = emptyReport vectors results calls) := by
  obtain ⟨hsplit, honly, hcomplete⟩ := sendAll_sound mem iovMax vectors results calls
  exact ⟨hsplit, honly, hcomplete, sendAll_empty vectors results calls⟩

/-- A single vector without a byte, and `EAGAIN`: everything has been accepted, and nothing reported. -/
theorem gatherSend_empty :
    ¬ ∀ (mem : Nat → Byte) (iovMax : Nat) (vectors : List IoVec) (results : List WriteResult)
      (calls : List (List WriteResult)), (∀ r ∈ results, r ≠ .error) →
      (sendAll mem iovMax vectors results calls).1 ≠ .running →
      ((sendAll mem iovMax vectors results calls).1 = .complete ↔
        (sendAll mem iovMax vectors results calls).2.accepted = bytesOf mem vectors) := by
  intro hevery
  have hreport := (hevery (fun _ => 0) 1024 [⟨0, 0⟩] [.again] [] (by simp) (by decide)).mpr rfl
  revert hreport
  decide

end Workflow.Kernel
