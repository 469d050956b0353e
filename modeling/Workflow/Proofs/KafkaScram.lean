/-
Module: Workflow.Proofs.KafkaScram
Layer: Proofs
Purpose: What the client accepts as the server's last message. An attribute is found at the beginning
  of a field, and its value lies in the field; but a signature that is absent, or of another length
  than the expected one, is not compared and passes.
Trusted boundary: none
Main exports: AttrAt, FirstAttr, scramGetAttr_inside, scramGetAttr_first, scramRecv_final_iff
-/
import Workflow.Protocol.KafkaScram

namespace Workflow.Kafka

open Workflow.Lib

/-- The field that begins at `i` is the attribute with this value. -/
structure AttrAt (msg : List Byte) (attr : Byte) (value : List Byte) (i : Nat) : Prop where
  start : i = 0 ∨ msg[i - 1]? = some 44
  name : msg[i]? = some attr
  equals : msg[i + 1]? = some 61
  value : value = (msg.drop (i + 2)).takeWhile (· ≠ 44)

/-- The message contains the attribute with this value. -/
def HasAttr (msg : List Byte) (attr : Byte) (value : List Byte) : Prop :=
  ∃ i, AttrAt msg attr value i

/-- Its first attribute of this name has this value. -/
def FirstAttr (msg : List Byte) (attr : Byte) (value : List Byte) : Prop :=
  ∃ i, AttrAt msg attr value i ∧ ∀ j < i, ∀ w, ¬ AttrAt msg attr w j

/-- The length of the field at `of`. -/
def fieldLength (msg : List Byte) (of : Nat) : Nat :=
  ((msg.drop of).takeWhile (· ≠ 44)).length

theorem idxOf?_comma (s : List Byte) :
    (s.idxOf? 44).getD s.length = (s.takeWhile (· ≠ 44)).length := by
  induction s with
  | nil => rfl
  | cons c s ih =>
      by_cases hc : c = 44
      · simp [hc, List.idxOf?_cons]
      · rw [List.idxOf?_cons, if_neg (by simpa using hc), List.takeWhile_cons_of_pos (by simpa using hc),
          List.length_cons, List.length_cons, ← ih]
        cases s.idxOf? 44 <;> rfl

/-- The message from a field on: the field, and then a comma or nothing. -/
theorem field_split (msg : List Byte) (of : Nat) :
    ∃ field rest, msg.drop of = field ++ rest ∧ field.length = fieldLength msg of ∧ 44 ∉ field ∧
      ∀ c ∈ rest.head?, c = 44 := by
  refine ⟨(msg.drop of).takeWhile (· ≠ 44), (msg.drop of).dropWhile (· ≠ 44),
    List.takeWhile_append_dropWhile.symm, rfl, fun hmem => ?_, fun c hc => ?_⟩
  · simpa using List.mem_takeWhile_imp hmem
  · have hnot := List.head?_dropWhile_not (· ≠ (44 : Byte)) (msg.drop of)
    rw [Option.mem_def.mp hc] at hnot
    simpa using hnot

theorem getElem?_from {msg : List Byte} {of j : Nat} (hle : of ≤ j) :
    msg[j]? = (msg.drop of)[j - of]? := by
  rw [List.getElem?_drop, Nat.add_sub_cancel' hle]

/-- There is no comma inside a field. -/
theorem no_comma {msg : List Byte} {of j : Nat} (hle : of ≤ j) (hlt : j < of + fieldLength msg of) :
    msg[j]? ≠ some 44 := by
  obtain ⟨field, rest, hsplit, hlen, hfree, -⟩ := field_split msg of
  rw [getElem?_from hle, hsplit, List.getElem?_append_left (by omega)]
  exact fun hget => hfree (List.mem_of_getElem? hget)

/-- Behind a field is a comma, or nothing. -/
theorem behind_field {msg : List Byte} {of : Nat} (hlt : of + fieldLength msg of < msg.length) :
    msg[of + fieldLength msg of]? = some 44 := by
  obtain ⟨field, rest, hsplit, hlen, -, hhead⟩ := field_split msg of
  have hget : msg[of + fieldLength msg of]? = rest.head? := by
    rw [getElem?_from (Nat.le_add_right of _), hsplit, List.getElem?_append_right (by omega),
      List.head?_eq_getElem?]
    congr 1
    omega
  have hsome := List.getElem?_eq_getElem hlt
  rw [hget] at hsome ⊢
  rw [hsome, hhead _ hsome]

theorem fieldLength_eq {msg : List Byte} {of : Nat} :
    ((msg.drop of).idxOf? 44).getD (msg.length - of) = fieldLength msg of := by
  rw [← List.length_drop, idxOf?_comma]
  rfl

theorem fieldLength_le {msg : List Byte} {of : Nat} : fieldLength msg of ≤ msg.length - of := by
  rw [← List.length_drop]
  exact (List.takeWhile_sublist _).length_le

/-- The value of the attribute at a field is what follows the first two bytes of the field. -/
theorem AttrAt.of_field {msg : List Byte} {attr : Byte} {of : Nat} (hattr : attr ≠ 44)
    (hlt : of < msg.length) (hstart : of = 0 ∨ msg[of - 1]? = some 44)
    (hname : msg[of]? = some attr) (hequals : msg[of + 1]? = some 61) :
    2 ≤ fieldLength msg of ∧
      AttrAt msg attr (slice msg (of + 2, fieldLength msg of - 2)) of := by
  have hnext : of + 1 < msg.length := (List.getElem?_eq_some_iff.mp hequals).1
  have hfirst : msg[of] = attr := (List.getElem?_eq_some_iff.mp hname).2
  have hsecond : msg[of + 1] = 61 := (List.getElem?_eq_some_iff.mp hequals).2
  have hdrop : msg.drop of = attr :: 61 :: msg.drop (of + 2) := by
    rw [List.drop_eq_getElem_cons hlt, hfirst, List.drop_eq_getElem_cons hnext, hsecond]
  have hlen : fieldLength msg of = ((msg.drop (of + 2)).takeWhile (· ≠ 44)).length + 2 := by
    rw [fieldLength, hdrop, List.takeWhile_cons_of_pos (by simpa using hattr),
      List.takeWhile_cons_of_pos (by decide)]
    rfl
  refine ⟨by omega, hstart, hname, hequals, ?_⟩
  rw [slice, hlen, Nat.add_sub_cancel]
  exact (List.prefix_iff_eq_take.mp (List.takeWhile_prefix _)).symm

/-- The loop finds the first field behind `of` that is the attribute. -/
theorem scramGetAttrFrom_spec {msg : List Byte} {attr : Byte} (hattr : attr ≠ 44)
    (hsize : msg.length < 2 ^ 64) (of : Nat)
    (hstart : of = 0 ∨ msg[of - 1]? = some 44 ∨ msg.length < of) :
    (∀ v, scramGetAttrFrom msg attr of = some v →
        v.1 + v.2 ≤ msg.length ∧ ∃ i, of ≤ i ∧ v.1 = i + 2 ∧ AttrAt msg attr (slice msg v) i ∧
          ∀ j, of ≤ j → j < i → ∀ w, ¬ AttrAt msg attr w j) ∧
      (scramGetAttrFrom msg attr of = none → ∀ j, of ≤ j → ∀ w, ¬ AttrAt msg attr w j) := by
  fun_induction scramGetAttrFrom msg attr of with
  | case1 of hlt len hfound =>
      have hlen : len = fieldLength msg of := fieldLength_eq
      have hfield : of = 0 ∨ msg[of - 1]? = some 44 := by
        rcases hstart with hzero | hcomma | hout
        · exact .inl hzero
        · exact .inr hcomma
        · omega
      obtain ⟨htwo, hat⟩ := AttrAt.of_field hattr hlt hfield hfound.1 hfound.2.2
      have hle : fieldLength msg of ≤ msg.length - of := fieldLength_le
      have hsub : subSize len 2 = fieldLength msg of - 2 := by
        rw [hlen]
        exact subSize_of_le htwo (by omega)
      refine ⟨fun v hv => ?_, nofun⟩
      rw [hsub, Option.some.injEq] at hv
      subst hv
      exact ⟨by simp only; omega, of, Nat.le_refl of, rfl, hat, fun j hj hlt' => by omega⟩
  | case2 of hlt len hnot ih =>
      have hlen : len = fieldLength msg of := fieldLength_eq
      have hskip : ∀ j, of ≤ j → j < of + (len + 1) → ∀ w, ¬ AttrAt msg attr w j := by
        intro j hle hj w hat
        rcases Nat.eq_or_lt_of_le hle with rfl | hinside
        · exact hnot ⟨hat.name, (List.getElem?_eq_some_iff.mp hat.equals).1, hat.equals⟩
        · have hfree : msg[j - 1]? ≠ some 44 := no_comma (show of ≤ j - 1 by omega) (by omega)
          exact hfree (hat.start.resolve_left (by omega))
      have hnext : of + (len + 1) = 0 ∨ msg[of + (len + 1) - 1]? = some 44 ∨
          msg.length < of + (len + 1) := by
        rcases Nat.lt_or_ge (of + len) msg.length with hin | hout
        · refine .inr (.inl ?_)
          rw [show of + (len + 1) - 1 = of + fieldLength msg of by omega]
          exact behind_field (by omega)
        · exact .inr (.inr (by omega))
      obtain ⟨hsome, hnone⟩ := ih hnext
      refine ⟨fun v hv => ?_, fun hv j hle w => ?_⟩
      · obtain ⟨hin, i, hi, hbase, hat, hfirst⟩ := hsome v hv
        refine ⟨hin, i, by omega, hbase, hat, fun j hle hj w => ?_⟩
        rcases Nat.lt_or_ge j (of + (len + 1)) with hfield | hlater
        · exact hskip j hle hfield w
        · exact hfirst j hlater hj w
      · rcases Nat.lt_or_ge j (of + (len + 1)) with hfield | hlater
        · exact hskip j hle hfield w
        · exact hnone hv j hlater w
  | case3 of hge =>
      refine ⟨nofun, fun _ j hle w hat => ?_⟩
      have hin := (List.getElem?_eq_some_iff.mp hat.name).1
      omega

section

variable {msg : List Byte} {attr : Byte} (hattr : attr ≠ 44) (hsize : msg.length < 2 ^ 64)
include hattr hsize

/-- The slice lies in the message. -/
theorem scramGetAttr_inside {v : Nat × Nat} (h : scramGetAttr msg attr = some v) :
    v.1 + v.2 ≤ msg.length :=
  ((scramGetAttrFrom_spec hattr hsize 0 (.inl rfl)).1 v h).1

/-- It is the value of the first attribute of this name. -/
theorem scramGetAttr_first {v : Nat × Nat} (h : scramGetAttr msg attr = some v) :
    FirstAttr msg attr (slice msg v) := by
  obtain ⟨-, i, -, -, hat, hfirst⟩ := (scramGetAttrFrom_spec hattr hsize 0 (.inl rfl)).1 v h
  exact ⟨i, hat, fun j hj => hfirst j (Nat.zero_le j) hj⟩

theorem scramGetAttr_none (h : scramGetAttr msg attr = none) (w : List Byte) :
    ¬ HasAttr msg attr w := by
  rintro ⟨i, hat⟩
  exact (scramGetAttrFrom_spec hattr hsize 0 (.inl rfl)).2 h i (Nat.zero_le i) w hat

end

theorem FirstAttr.unique {msg : List Byte} {attr : Byte} {v w : List Byte}
    (hv : FirstAttr msg attr v) (hw : FirstAttr msg attr w) : v = w := by
  obtain ⟨i, hi, hfirst⟩ := hv
  obtain ⟨j, hj, hfirst'⟩ := hw
  rcases Nat.lt_trichotomy i j with hlt | rfl | hgt
  · exact absurd hi (hfirst' i hlt v)
  · rw [hi.value, hj.value]
  · exact absurd hj (hfirst j hgt w)

theorem FirstAttr.hasAttr {msg : List Byte} {attr : Byte} {v : List Byte}
    (h : FirstAttr msg attr v) : HasAttr msg attr v :=
  h.elim fun i hi => ⟨i, hi.1⟩

/-- Without a NUL in the first string, `strncmp` compares the bytes. -/
theorem strncmpEq_iff {a b : List Byte} (ha : 0 ∉ a) (hle : a.length ≤ b.length) :
    strncmpEq a b a.length = true ↔ b.take a.length = a := by
  have hfree : a.takeWhile (· ≠ 0) = a := by
    rw [List.takeWhile_eq_self_iff]
    intro c hc
    exact decide_eq_true fun hzero => ha (hzero ▸ hc)
  rw [strncmpEq, List.take_length, hfree, beq_iff_eq]
  constructor
  · intro heq
    have hpre : (b.take a.length).takeWhile (· ≠ 0) <+: b.take a.length := List.takeWhile_prefix _
    rw [← heq] at hpre
    exact (hpre.eq_of_length (by rw [List.length_take]; omega)).symm
  · intro heq
    rw [heq, hfree]

/-- The server has shown that it knows the password: its message contains the expected signature, and
no extension that the client does not know. -/
def Authenticated (msg signature : List Byte) : Prop :=
  HasAttr msg 118 signature ∧ ∀ w, ¬ HasAttr msg 109 w

theorem scramHandleServerFinalMessage_eq_zero {msg : List Byte} (hsize : msg.length < 2 ^ 64)
    (scram : KafkaScram) :
    scramHandleServerFinalMessage msg scram = 0 ↔
      (∀ w, ¬ HasAttr msg 109 w) ∧
        ∀ v, FirstAttr msg 118 v → v.length = scram.serverSignatureB64.length →
          v = scram.serverSignatureB64 := by
  have h109 : (109 : Byte) ≠ 44 := by decide
  have h118 : (118 : Byte) ≠ 44 := by decide
  unfold scramHandleServerFinalMessage
  cases hm : scramGetAttr msg 109 with
  | some m =>
      simp only [Option.isSome_some, if_true]
      refine iff_of_false (by decide) fun hall => ?_
      exact hall.1 _ (scramGetAttr_first h109 hsize hm).hasAttr
  | none =>
      have hno := scramGetAttr_none h109 hsize hm
      simp only [Option.isSome_none, Bool.false_eq_true, if_false, hno, not_false_eq_true,
        implies_true, true_and]
      cases hv : scramGetAttr msg 118 with
      | none =>
          refine iff_of_true rfl fun v hfirst => ?_
          exact absurd hfirst.hasAttr (scramGetAttr_none h118 hsize hv v)
      | some v =>
          have hinside := scramGetAttr_inside h118 hsize hv
          have hfirst := scramGetAttr_first h118 hsize hv
          have hlen : (slice msg v).length = v.2 := by
            rw [slice, List.length_take, List.length_drop]
            omega
          simp only
          split
          · rename_i hbad
            refine iff_of_false (by decide) fun hall => ?_
            have heq := hall _ hfirst (hlen.trans hbad.1.symm)
            have htrue : strncmpEq scram.serverSignatureB64 (msg.drop v.1) v.2 = true := by
              rw [← hbad.1, strncmpEq_iff scram.signature_wf (by rw [List.length_drop]; omega),
                hbad.1]
              exact heq
            rw [htrue] at hbad
            exact absurd hbad.2 (by decide)
          · rename_i hgood
            refine iff_of_true rfl fun w hw hwlen => ?_
            obtain rfl := hw.unique hfirst
            have hsame : scram.serverSignatureB64.length = v.2 := by rw [← hwlen, hlen]
            have htrue : strncmpEq scram.serverSignatureB64 (msg.drop v.1) v.2 = true := by
              by_contra hfalse
              exact hgood ⟨hsame, by simpa using hfalse⟩
            rw [← hsame, strncmpEq_iff scram.signature_wf (by rw [List.length_drop]; omega)] at htrue
            rw [slice, ← hsame, htrue]

/-- In the last state, the message is accepted only with the right signature exactly if it has an
extension, or a signature that is right, or one of the right length in front. The slices that are
compared lie in the message. -/
theorem scramRecv_final_iff (handleFirst : List Byte → KafkaScram → Int × KafkaScram)
    (msg : List Byte) (scram : KafkaScram) (hsize : msg.length < 2 ^ 64)
    (hstate : scram.state = .clientFinalMessage) :
    (((kafkaSaslScramRecv handleFirst msg scram).1 = 0 →
        Authenticated msg scram.serverSignatureB64) ↔
      ((∃ w, HasAttr msg 109 w) ∨ HasAttr msg 118 scram.serverSignatureB64 ∨
        ∃ v, FirstAttr msg 118 v ∧ v.length = scram.serverSignatureB64.length)) ∧
      ∀ attr v, attr ≠ 44 → scramGetAttr msg attr = some v → v.1 + v.2 ≤ msg.length := by
  refine ⟨?_, fun attr v hattr hv => scramGetAttr_inside hattr hsize hv⟩
  have hret : (kafkaSaslScramRecv handleFirst msg scram).1 =
      scramHandleServerFinalMessage msg scram := by
    rw [kafkaSaslScramRecv, hstate]
  rw [hret, scramHandleServerFinalMessage_eq_zero hsize]
  constructor
  · intro hauth
    by_contra hnone
    rw [not_or, not_or, not_exists, not_exists] at hnone
    obtain ⟨hno, hmissing, hlength⟩ := hnone
    have hright := hauth ⟨hno, fun v hv hlen => absurd ⟨hv, hlen⟩ (hlength v)⟩
    exact hmissing hright.1
  · rintro (⟨w, hw⟩ | hright | ⟨v, hv, hlen⟩) ⟨hno, hfirst⟩
    · exact absurd hw (hno w)
    · exact ⟨hright, hno⟩
    · exact ⟨hfirst v hv hlen ▸ hv.hasAttr, hno⟩

/-- A client that expects the signature `rmF9`. -/
def waitingClient : KafkaScram where
  state := .clientFinalMessage
  serverSignatureB64 := ascii "rmF9"
  signature_wf := by decide +kernel

theorem scramRecv_final_signed :
    (kafkaSaslScramRecv (fun _ s => (-1, s)) (ascii "v=rmF9") waitingClient).1 = 0 ∧
      Authenticated (ascii "v=rmF9") (ascii "rmF9") := by
  have hzero : (kafkaSaslScramRecv (fun _ s => (-1, s)) (ascii "v=rmF9") waitingClient).1 = 0 := by
    decide +kernel
  exact ⟨hzero, (scramRecv_final_iff (fun _ s => (-1, s)) (ascii "v=rmF9") waitingClient (by decide)
    rfl).1.mpr (.inr (.inl ⟨0, .inl rfl, rfl, rfl, by decide⟩)) hzero⟩

/-- The server says that the proof is wrong, and is accepted. -/
theorem scram_error_accepted :
    (kafkaSaslScramRecv (fun _ s => (-1, s)) (ascii "e=invalid-proof") waitingClient).1 = 0 ∧
      ¬ Authenticated (ascii "e=invalid-proof") (ascii "rmF9") := by
  have hnone : scramGetAttr (ascii "e=invalid-proof") 118 = none := by decide +kernel
  exact ⟨by decide +kernel, fun hauth =>
    scramGetAttr_none (by decide) (by decide) hnone _ hauth.1⟩

end Workflow.Kafka
