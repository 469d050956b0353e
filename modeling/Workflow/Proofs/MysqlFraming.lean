/-
Module: Workflow.Proofs.MysqlFraming
Layer: Proofs
Purpose: The round trip of a payload through packets. `wire` says which bytes a payload becomes, and
  `Waiting` says of a stream which of these bytes it still waits for; a pass of the writer keeps that
  account. The stream reports the end when it leaves the payload of a last packet. A last packet
  without payload is not reported with its own bytes: after the head the loop has no bytes left.
Trusted boundary: none
Main exports: wire, encode_wire, Waiting, mysqlStreamWrite_waiting, packet_framing
-/
import Workflow.Protocol.MysqlStream

namespace Workflow.MysqlWire

open Workflow.Lib

theorem payloadMax_eq : payloadMax = 16777215 := by
  decide

/-! ### The bytes of a payload -/

/-- How many packets a payload needs. -/
def packets (p : List Byte) : Nat :=
  p.length / payloadMax + 1

theorem packets_pos (p : List Byte) : 0 < packets p :=
  Nat.succ_pos _

/-- A payload that is not full goes into one packet. -/
theorem packets_of_lt {p : List Byte} (h : p.length < payloadMax) : packets p = 1 := by
  rw [packets, Nat.div_eq_of_lt h]

/-- A full packet, and the packets of the rest. -/
theorem packets_of_ge {p : List Byte} (h : payloadMax ≤ p.length) :
    packets p = packets (p.drop payloadMax) + 1 := by
  rw [packets, packets, List.length_drop, Nat.div_eq_sub_div (by decide) h]

/-- The packets of a payload, one after the other. -/
def wire (seqid : UInt8) (p : List Byte) : List Byte :=
  packetHead (p.take payloadMax).length seqid ++
    (p.take payloadMax ++
      if p.length < payloadMax then [] else wire (seqid + 1) (p.drop payloadMax))
termination_by p.length
decreasing_by
  have : 0 < payloadMax := by decide
  simp only [List.length_drop]
  omega

/-- What follows the packet with which `p` begins. -/
def after (seqid : UInt8) (p : List Byte) : List Byte :=
  if p.length < payloadMax then [] else wire (seqid + 1) (p.drop payloadMax)

/-- The first packet, and what follows it. -/
theorem wire_eq (seqid : UInt8) (p : List Byte) :
    wire seqid p =
      packetHead (p.take payloadMax).length seqid ++ (p.take payloadMax ++ after seqid p) := by
  rw [wire, after]

/-! ### The encoder -/

/-- A row of `heads_` is not used twice by fewer than 256 packets. -/
theorem add_ofNat_ne {a : UInt8} {j : Nat} (hpos : 0 < j) (hlt : j < 256) :
    a + UInt8.ofNat j ≠ a := by
  intro h
  have hj : UInt8.ofNat j = 0 := by
    rwa [UInt8.add_eq_left] at h
  have hval := congrArg UInt8.toNat hj
  rw [UInt8.toNat_ofNat_of_lt' hlt] at hval
  exact absurd hval (Nat.ne_of_gt hpos)

theorem add_one_add_ofNat (a : UInt8) (j : Nat) :
    a + 1 + UInt8.ofNat j = a + UInt8.ofNat (j + 1) := by
  rw [UInt8.add_assoc, UInt8.ofNat_add, UInt8.add_comm 1]
  rfl

/-- The last pass of the loop. -/
theorem encodeLoop_last {max i : Nat} {start seqid : UInt8} {heads : UInt8 → List Byte}
    {p : List Byte} (hmax : i + 2 ≤ max) (hlt : p.length < payloadMax) :
    encodeLoop max start i heads seqid p =
      ⟨Function.update heads seqid (packetHead (p.take payloadMax).length seqid), seqid + 1,
        some [.head seqid, .data (p.take payloadMax)]⟩ := by
  have htake : p.take payloadMax = p := List.take_of_length_le (Nat.le_of_lt hlt)
  rw [encodeLoop]
  simp only [if_neg (show ¬ i + 2 > max by omega), if_pos hlt,
    if_neg (show ¬ p.length ≥ payloadMax by omega), htake, List.take_length]

/-- A pass with a full packet. -/
theorem encodeLoop_full {max i : Nat} {start seqid : UInt8} {heads : UInt8 → List Byte}
    {p : List Byte} (hmax : i + 2 ≤ max) (hge : payloadMax ≤ p.length) (hstart : seqid + 1 ≠ start)
    {e : Encoded}
    (he : encodeLoop max start (i + 2)
      (Function.update heads seqid (packetHead (p.take payloadMax).length seqid)) (seqid + 1)
      (p.drop payloadMax) = e) :
    encodeLoop max start i heads seqid p =
      { e with vectors := e.vectors.map ([.head seqid, .data (p.take payloadMax)] ++ ·) } := by
  rw [List.length_take, Nat.min_eq_left hge] at he
  rw [encodeLoop]
  simp only [if_neg (show ¬ i + 2 > max by omega), if_neg (show ¬ p.length < payloadMax by omega),
    if_neg hstart, ge_iff_le, if_pos hge, he]

/-- What the loop of `encode` produces: the bytes of the packets, the advanced sequence id, and no
change to the heads of other packets. -/
structure EncodesTo (heads : UInt8 → List Byte) (seqid : UInt8) (p : List Byte) (e : Encoded) :
    Prop where
  wireBytes_eq : e.wireBytes = some (wire seqid p)
  seqid_eq : e.seqid = seqid + UInt8.ofNat (packets p)
  heads_eq : ∀ row, (∀ j < packets p, row ≠ seqid + UInt8.ofNat j) → e.heads row = heads row

theorem encodeLoop_spec {max : Nat} {start : UInt8} (p : List Byte) (i : Nat)
    (heads : UInt8 → List Byte) (seqid : UInt8) (hmax : i + 2 * packets p ≤ max)
    (hstart : ∀ j, 0 < j → j < packets p → seqid + UInt8.ofNat j ≠ start)
    (hfew : packets p < 256) :
    EncodesTo heads seqid p (encodeLoop max start i heads seqid p) := by
  induction hn : packets p generalizing p i heads seqid with
  | zero => simp [packets] at hn
  | succ n ih =>
      rcases Nat.lt_or_ge p.length payloadMax with hlt | hge
      · rw [encodeLoop_last (by omega) hlt]
        refine ⟨?_, by rw [packets_of_lt hlt]; rfl, fun row hrow => ?_⟩
        · rw [wire_eq, after, if_pos hlt, List.append_nil]
          simp [Encoded.wireBytes, Iov.bytes]
        · have hne : row ≠ seqid := by simpa using hrow 0 (by omega)
          exact Function.update_of_ne hne _ _
      · have hcount := packets_of_ge hge
        have hpos := packets_pos (p.drop payloadMax)
        have hone : seqid + 1 ≠ start := hstart 1 (by omega) (by omega)
        have hrest := ih (p.drop payloadMax) (i + 2)
          (Function.update heads seqid (packetHead (p.take payloadMax).length seqid)) (seqid + 1)
          (by omega)
          (fun j _ hj => by
            rw [add_one_add_ofNat]
            exact hstart (j + 1) (by omega) (by omega))
          (by omega) (by omega)
        rw [encodeLoop_full (by omega) hge hone rfl]
        generalize encodeLoop max start (i + 2) _ (seqid + 1) (p.drop payloadMax) = e at hrest
        obtain ⟨hwire, hseqid, hframe⟩ := hrest
        -- the later packets use other rows, so the head of this one is still there
        have hhead : e.heads seqid = packetHead (p.take payloadMax).length seqid := by
          rw [hframe seqid fun j hj h => ?_, Function.update_self]
          rw [add_one_add_ofNat] at h
          exact add_ofNat_ne (by omega) (by omega) h.symm
        refine ⟨?_, ?_, fun row hrow => ?_⟩
        · obtain ⟨vectors, hvectors, hbytes⟩ := Option.map_eq_some_iff.mp hwire
          rw [wire_eq, after, if_neg (by omega), ← hbytes]
          simp [Encoded.wireBytes, hvectors, Iov.bytes, hhead]
        · rw [hseqid, add_one_add_ofNat, hcount]
        · have hne : row ≠ seqid := by simpa using hrow 0 (by omega)
          rw [hframe row fun j hj => ?_, Function.update_of_ne hne]
          rw [add_one_add_ofNat]
          exact hrow (j + 1) (by omega)

/-- A payload of less than 256 packets is encoded. -/
theorem encode_wire (heads : UInt8 → List Byte) (seqid : UInt8) {p : List Byte}
    (hfew : packets p < 256) : EncodesTo heads seqid p (encode encodeIovMax heads seqid p) := by
  refine encodeLoop_spec p 0 heads seqid ?_ (fun j hpos hj => add_ofNat_ne hpos (by omega)) hfew
  have : encodeIovMax = 8192 := rfl
  omega

/-! ### The reader -/

/-- `done` was put together, and the next packet has the number `seqid` and begins `p`; the last
packet has the number `last`. -/
structure AtPacket (payload : List Byte) (last : UInt8) (done : List Byte) (seqid : UInt8)
    (p : List Byte) : Prop where
  payload_eq : done ++ p = payload
  dvd : payloadMax ∣ done.length
  last_eq : seqid + UInt8.ofNat (p.length / payloadMax) = last

/-- The last packet is as long as the payload says. -/
theorem AtPacket.mod_eq {payload done p : List Byte} {last seqid : UInt8}
    (h : AtPacket payload last done seqid p) :
    payload.length % payloadMax = p.length % payloadMax := by
  rw [← h.payload_eq, List.length_append, Nat.add_mod, Nat.mod_eq_zero_of_dvd h.dvd, Nat.zero_add,
    Nat.mod_mod]

/-- A full packet is through. -/
theorem AtPacket.next {payload done p : List Byte} {last seqid : UInt8}
    (h : AtPacket payload last done seqid p) (hge : payloadMax ≤ p.length) :
    AtPacket payload last (done ++ p.take payloadMax) (seqid + 1) (p.drop payloadMax) where
  payload_eq := by rw [List.append_assoc, List.take_append_drop, h.payload_eq]
  dvd := by
    rw [List.length_append, List.length_take, Nat.min_eq_left hge]
    exact Nat.dvd_add h.dvd (Nat.dvd_refl _)
  last_eq := by
    have hdiv := Nat.div_eq_sub_div (by decide) hge
    rw [add_one_add_ofNat, List.length_drop, ← hdiv, h.last_eq]

/-- The stream has received a prefix of the packets of `payload` and waits for the bytes listed. -/
inductive Waiting (payload : List Byte) (last : UInt8) : MysqlStream → List Byte → Prop
  | head {s : MysqlStream} {done p pend : List Byte} {seqid : UInt8}
      (at_packet : AtPacket payload last done seqid p)
      (write_eq : s.write = .head) (buf_eq : s.buf = done)
      (length_eq : pend.length = s.headLeft)
      (head_eq : s.head.take (4 - s.headLeft) ++ pend =
        packetHead (p.take payloadMax).length seqid) :
      Waiting payload last s (pend ++ (p.take payloadMax ++ after seqid p))
  | payload {s : MysqlStream} {done p got pend : List Byte} {seqid : UInt8}
      (at_packet : AtPacket payload last done seqid p)
      (write_eq : s.write = .payload) (buf_eq : s.buf = done ++ got)
      (got_eq : got ++ pend = p.take payloadMax) (pend_ne : pend ≠ [] ∨ p = [])
      (length_eq : s.payloadLength = (p.take payloadMax).length)
      (left_eq : s.payloadLeft = pend.length) (seqid_eq : s.sequenceId = seqid) :
      Waiting payload last s (pend ++ after seqid p)

/-- The stream has put the payload together. -/
structure Complete (payload : List Byte) (last : UInt8) (s : MysqlStream) : Prop where
  buf_eq : s.buf = payload
  seqid_eq : s.sequenceId = last

/-- A new stream waits for the whole. -/
theorem waiting_init (s : MysqlStream) (payload : List Byte) (seqid : UInt8) :
    Waiting payload (seqid + UInt8.ofNat (payload.length / payloadMax)) (mysqlStreamInit s)
      (wire seqid payload) := by
  have hstart : AtPacket payload (seqid + UInt8.ofNat (payload.length / payloadMax)) [] seqid
      payload := ⟨rfl, by simp, rfl⟩
  rw [wire_eq]
  exact .head hstart rfl rfl rfl rfl

/-- Splitting the bytes that were taken off the front of the awaited ones. -/
theorem append_split {c rest pend more : List Byte} (h : c ++ rest = pend ++ more) :
    (c.length < pend.length → ∃ left, pend = c ++ left ∧ rest = left ++ more) ∧
      (pend.length ≤ c.length → ∃ d, c = pend ++ d ∧ more = d ++ rest) := by
  constructor
  · intro hlt
    obtain ⟨left, hpend⟩ := List.prefix_of_prefix_length_le ⟨rest, h⟩ ⟨more, rfl⟩ (Nat.le_of_lt hlt)
    refine ⟨left, hpend.symm, ?_⟩
    rwa [← hpend, List.append_assoc, List.append_cancel_left_eq] at h
  · intro hle
    obtain ⟨d, hc⟩ := List.prefix_of_prefix_length_le ⟨more, h.symm⟩ ⟨rest, rfl⟩ hle
    refine ⟨d, hc.symm, ?_⟩
    rw [← hc, List.append_assoc, List.append_cancel_left_eq] at h
    exact h.symm

/-- The length is read back from the head. -/
theorem headLength_packetHead {n : Nat} (h : n ≤ payloadMax) (seqid : UInt8) :
    headLength (packetHead n seqid) = n := by
  rw [payloadMax_eq] at h
  simp only [headLength, packetHead, List.getD_cons_zero, List.getD_cons_succ, UInt8.toNat_ofNat',
    Nat.shiftLeft_eq, Nat.shiftRight_eq_div_pow]
  omega

/-- What is stored lies in front of the position that it ends at. -/
theorem take_store (bytes : List Byte) {dst : List Byte} {pos : Nat} (h : pos ≤ dst.length) :
    (store dst pos bytes).take (pos + bytes.length) = dst.take pos ++ bytes := by
  have hlen : (dst.take pos ++ bytes).length = pos + bytes.length := by
    rw [List.length_append, List.length_take, Nat.min_eq_left h]
  rw [store, ← hlen, List.take_left]

/-- Less than the rest of the head. -/
theorem writeHead_short (realloc : Nat → Bool) {c : List Byte} {s : MysqlStream}
    (h : c.length < s.headLeft) :
    ∃ t, writeHead realloc c s = (0, c.length, t) ∧ t.write = s.write ∧ t.buf = s.buf ∧
      t.headLeft = s.headLeft - c.length ∧ t.head = store s.head (4 - s.headLeft) c := by
  rw [writeHead, dif_pos h]
  exact ⟨_, rfl, rfl, rfl, rfl, rfl⟩

/-- When the head is complete the stream turns to the payload. -/
theorem writeHead_full {realloc : Nat → Bool} (hrealloc : ∀ n, realloc n = true) {c : List Byte}
    {s : MysqlStream} (h : s.headLeft ≤ c.length) {head : List Byte}
    (hhead : store s.head (4 - s.headLeft) (c.take s.headLeft) = head) :
    ∃ t, writeHead realloc c s = (0, s.headLeft, t) ∧ t.write = .payload ∧ t.buf = s.buf ∧
      t.payloadLength = headLength head ∧ t.payloadLeft = headLength head ∧
      t.sequenceId = head.getD 3 0 := by
  obtain ⟨bufsize, hgrow⟩ :
      ∃ bufsize, growTo realloc s.bufsize (s.buf.length + headLength head) = some bufsize := by
    unfold growTo
    split
    · exact ⟨_, if_pos (hrealloc _)⟩
    · exact ⟨_, rfl⟩
  subst hhead
  rw [writeHead, dif_neg (by omega)]
  simp only [hgrow]
  exact ⟨_, rfl, rfl, rfl, rfl, rfl, rfl⟩

/-- What one pass of `mysql_stream_write` does on the bytes `c`, when `rest` is still to come. -/
inductive Outcome (payload : List Byte) (last : UInt8) (c rest : List Byte) :
    Int × Nat × MysqlStream → Prop
  | more {n : Nat} {t : MysqlStream} (n_le : n ≤ c.length)
      (waiting : Waiting payload last t (c.drop n ++ rest))
      (at_end : c.drop n ++ rest = [] → payload.length % payloadMax = 0) :
      Outcome payload last c rest (0, n, t)
  | last {t : MysqlStream} (rest_eq : rest = []) (mod_ne : payload.length % payloadMax ≠ 0)
      (complete : Complete payload last t) :
      Outcome payload last c rest (1, c.length, t)

section Pass

variable {realloc : Nat → Bool} {payload done p pend got c rest : List Byte} {last seqid : UInt8}
  {s : MysqlStream}

/-- A call while the head is read. -/
theorem outcome_head (hrealloc : ∀ n, realloc n = true)
    (hat : AtPacket payload last done seqid p) (hwrite : s.write = .head) (hbuf : s.buf = done)
    (hlen : pend.length = s.headLeft)
    (hhead : s.head.take (4 - s.headLeft) ++ pend = packetHead (p.take payloadMax).length seqid)
    (hrem : c ++ rest = pend ++ (p.take payloadMax ++ after seqid p)) :
    Outcome payload last c rest (writeHead realloc c s) := by
  have hfour := s.head_length
  have hle := s.headLeft_le
  obtain ⟨hshort, hfull⟩ := append_split hrem
  rcases Nat.lt_or_ge c.length s.headLeft with hlt | hge
  · obtain ⟨left, hpend, hrest⟩ := hshort (by omega)
    obtain ⟨t, ht, htwrite, htbuf, htleft, hthead⟩ := writeHead_short realloc hlt
    have hlens : pend.length = c.length + left.length := by rw [hpend, List.length_append]
    rw [ht]
    refine .more (Nat.le_refl _) ?_ fun hnil => ?_
    · rw [List.drop_length, List.nil_append, hrest]
      refine .head hat (htwrite.trans hwrite) (htbuf.trans hbuf) (by omega) ?_
      have htake := take_store c (show 4 - s.headLeft ≤ s.head.length by omega)
      rw [hthead, htleft, show 4 - (s.headLeft - c.length) = 4 - s.headLeft + c.length by omega,
        htake, List.append_assoc, ← hpend, hhead]
    · have hnone : left = [] := by
        rw [List.drop_length, List.nil_append, hrest, List.append_eq_nil_iff] at hnil
        exact hnil.1
      rw [hnone, List.length_nil] at hlens
      omega
  · obtain ⟨d, hc, hmore⟩ := hfull (by omega)
    have hstore : store s.head (4 - s.headLeft) (c.take s.headLeft) =
        packetHead (p.take payloadMax).length seqid := by
      rw [hc, ← hlen, List.take_left, store, List.drop_eq_nil_of_le (by omega), List.append_nil,
        hlen, hhead]
    obtain ⟨t, ht, htwrite, htbuf, htlength, htleft, htseqid⟩ := writeHead_full hrealloc hge hstore
    have hdrop : c.drop s.headLeft = d := by rw [hc, ← hlen, List.drop_left]
    rw [headLength_packetHead (List.length_take_le _ _)] at htlength htleft
    rw [ht]
    refine .more hge ?_ fun hnil => ?_
    · rw [hdrop, ← hmore]
      have hstart : t.buf = done ++ [] := by rw [htbuf, hbuf, List.append_nil]
      refine .payload hat htwrite hstart rfl ?_ htlength htleft htseqid
      rcases eq_or_ne p [] with hp | hp
      · exact .inr hp
      · exact .inl (by simp [hp, payloadMax_eq])
    · rw [hdrop, ← hmore, List.append_eq_nil_iff, List.take_eq_nil_iff] at hnil
      have hp : p = [] := hnil.1.resolve_left (by decide)
      rw [hat.mod_eq, hp, List.length_nil, Nat.zero_mod]

/-- A call while the payload is read. -/
theorem outcome_payload (hat : AtPacket payload last done seqid p) (hbuf : s.buf = done ++ got)
    (hgot : got ++ pend = p.take payloadMax) (hwrite : s.write = .payload)
    (hlength : s.payloadLength = (p.take payloadMax).length) (hleft : s.payloadLeft = pend.length)
    (hseqid : s.sequenceId = seqid) (hpend : pend ≠ [] ∨ p = [])
    (hrem : c ++ rest = pend ++ after seqid p) (hne : c ++ rest ≠ []) :
    Outcome payload last c rest (writePayload c s) := by
  obtain ⟨hshort, hfull⟩ := append_split hrem
  unfold writePayload
  rcases Nat.lt_or_ge c.length s.payloadLeft with hlt | hge
  · obtain ⟨left, hsplit, hrest⟩ := hshort (by omega)
    have hlens : pend.length = c.length + left.length := by rw [hsplit, List.length_append]
    have hsome : left ≠ [] := by
      rintro rfl
      rw [List.length_nil] at hlens
      omega
    rw [if_pos hlt]
    refine .more (Nat.le_refl _) ?_ fun hnil => ?_
    · rw [List.drop_length, List.nil_append, hrest]
      have hmore : s.buf ++ c = done ++ (got ++ c) := by rw [hbuf, List.append_assoc]
      refine .payload hat hwrite hmore ?_ (.inl hsome) hlength ?_ hseqid
      · rw [List.append_assoc, ← hsplit, hgot]
      · simp only [hleft]
        omega
    · rw [List.drop_length, List.nil_append, hrest, List.append_eq_nil_iff] at hnil
      exact absurd hnil.1 hsome
  · obtain ⟨d, hc, hmore⟩ := hfull (by omega)
    have htake : c.take s.payloadLeft = pend := by rw [hc, hleft, List.take_left]
    have hdrop : c.drop s.payloadLeft = d := by rw [hc, hleft, List.drop_left]
    rw [if_neg (by omega)]
    rcases Nat.lt_or_ge p.length payloadMax with hlast | hmid
    · have hall : p.take payloadMax = p := List.take_of_length_le (by omega)
      rw [after, if_pos hlast] at hmore
      obtain ⟨rfl, rfl⟩ := List.append_eq_nil_iff.mp hmore.symm
      rw [List.append_nil] at hc
      have hcode : s.payloadLength ≠ (1 <<< 24) - 1 := by
        rw [hlength, hall]
        exact Nat.ne_of_lt hlast
      have hsome : p ≠ [] := by
        refine fun hp => hpend.elim (fun h => h ?_) fun _ => hne ?_
        · rw [hp, List.take_nil, List.append_eq_nil_iff] at hgot
          exact hgot.2
        · rw [hp, List.take_nil, List.append_eq_nil_iff] at hgot
          rw [hc, hgot.2, List.append_nil]
      rw [if_pos hcode, hleft, ← hc]
      refine .last rfl ?_ ⟨?_, ?_⟩
      · rw [hat.mod_eq, Nat.mod_eq_of_lt hlast]
        exact fun h => hsome (List.length_eq_zero_iff.mp h)
      · simp only [hbuf, List.take_length, List.append_assoc]
        rw [hc, hgot, hall, hat.payload_eq]
      · have hid := hat.last_eq
        rw [Nat.div_eq_of_lt hlast] at hid
        simp only [hseqid, ← hid]
        exact (UInt8.add_zero seqid).symm
    · have hfullLength : (p.take payloadMax).length = payloadMax := by
        rw [List.length_take, Nat.min_eq_left hmid]
      have hcode : ¬ s.payloadLength ≠ (1 <<< 24) - 1 := by
        rw [hlength, hfullLength]
        exact fun h => h rfl
      rw [after, if_neg (by omega)] at hmore
      rw [if_neg hcode]
      refine .more hge ?_ fun hnil => ?_
      · rw [hdrop, ← hmore, wire_eq]
        refine .head (hat.next hmid) rfl ?_ rfl rfl
        simp only [htake, hbuf, List.append_assoc, hgot]
      · rw [hdrop, ← hmore, wire_eq, packetHead] at hnil
        simp at hnil

/-- One pass of the loop. -/
theorem callWrite_waiting (hrealloc : ∀ n, realloc n = true)
    (hwait : Waiting payload last s (c ++ rest)) (hne : c ++ rest ≠ []) :
    Outcome payload last c rest (callWrite realloc c s) := by
  unfold callWrite
  generalize hrem : c ++ rest = awaited at hwait
  cases hwait with
  | head hat hwrite hbuf hlen hhead =>
      rw [hwrite]
      exact outcome_head hrealloc hat hwrite hbuf hlen hhead hrem
  | payload hat hwrite hbuf hgot hpend hlength hleft hseqid =>
      rw [hwrite]
      exact outcome_payload hat hbuf hgot hwrite hlength hleft hseqid hpend hrem hne

/-- One call. It reports the end of the payload with the last byte, unless the last packet is
empty. -/
theorem mysqlStreamWrite_waiting (hrealloc : ∀ n, realloc n = true)
    (hwait : Waiting payload last s (c ++ rest)) (hne : c ++ rest ≠ []) :
    ((mysqlStreamWrite realloc c s).1 = 0 ∧
      Waiting payload last (mysqlStreamWrite realloc c s).2 rest ∧
        (rest = [] → payload.length % payloadMax = 0)) ∨
    ((mysqlStreamWrite realloc c s).1 = 1 ∧ rest = [] ∧ payload.length % payloadMax ≠ 0 ∧
      Complete payload last (mysqlStreamWrite realloc c s).2) := by
  induction c, s using mysqlStreamWrite.induct realloc with
  | case1 c s r hall =>
      have hpass := callWrite_waiting hrealloc hwait hne
      have hr : callWrite realloc c s = r := rfl
      rw [mysqlStreamWrite, if_pos hall, hr]
      rw [hr] at hpass
      clear_value r
      cases hpass with
      | more _ hwaiting hend =>
          dsimp only at hall
          rw [hall, List.drop_length, List.nil_append] at hwaiting hend
          exact .inl ⟨rfl, hwaiting, hend⟩
      | last hrest hmod hcomplete => exact .inr ⟨rfl, hrest, hmod, hcomplete⟩
  | case2 c s r hall ih =>
      have hpass := callWrite_waiting hrealloc hwait hne
      have hr : callWrite realloc c s = r := rfl
      rw [mysqlStreamWrite, if_neg hall, hr]
      rw [hr] at hpass
      clear_value r
      cases hpass with
      | more hle hwaiting hend =>
          refine ih hwaiting fun hnil => ?_
          rw [List.append_eq_nil_iff, List.drop_eq_nil_iff] at hnil
          exact hall (Nat.le_antisymm hle hnil.1)
      | last _ _ _ => exact absurd rfl hall

end Pass

/-! ### Whole runs -/

/-- However the bytes are cut, the last call completes the payload. -/
theorem feed_waiting {realloc : Nat → Bool} (hrealloc : ∀ n, realloc n = true)
    {payload : List Byte} {last : UInt8} (chunks : List (List Byte)) {final : List Byte}
    (hfinal : final ≠ []) (s : MysqlStream)
    (hwait : Waiting payload last s (chunks.flatten ++ final)) :
    (feed realloc (chunks ++ [final]) s).1 =
        List.replicate chunks.length 0 ++ [if payload.length % payloadMax = 0 then 0 else 1] ∧
      (payload.length % payloadMax ≠ 0 →
        Complete payload last (feed realloc (chunks ++ [final]) s).2) := by
  induction chunks generalizing s with
  | nil =>
      have hwait : Waiting payload last s (final ++ []) := by simpa using hwait
      have hcall := mysqlStreamWrite_waiting hrealloc hwait (by simpa using hfinal)
      rcases hcall with ⟨hcode, -, hmod⟩ | ⟨hcode, -, hmod, hcomplete⟩
      · simp [feed, hcode, hmod]
      · simp [feed, hcode, hmod, hcomplete]
  | cons chunk chunks ih =>
      rw [List.flatten_cons, List.append_assoc] at hwait
      have hmore : chunks.flatten ++ final ≠ [] := by simp [hfinal]
      have hcall := mysqlStreamWrite_waiting hrealloc hwait (by simp [hfinal])
      rcases hcall with ⟨hcode, hwaiting, -⟩ | ⟨-, hnil, -⟩
      · have hrest := ih _ hwaiting
        simp only [feed, List.cons_append, hcode, List.length_cons, List.replicate_succ]
        exact ⟨by rw [hrest.1], hrest.2⟩
      · exact absurd hnil hmore

/-- The reader puts the payload together from these chunks: code 0 for all but the last chunk, code 1
with it, the payload in the buffer and the sequence id of the last packet. -/
def Reassembles (realloc : Nat → Bool) (s : MysqlStream) (chunks : List (List Byte))
    (final payload : List Byte) (last : UInt8) : Prop :=
  (feed realloc (chunks ++ [final]) (mysqlStreamInit s)).1 = List.replicate chunks.length 0 ++ [1] ∧
    (feed realloc (chunks ++ [final]) (mysqlStreamInit s)).2.buf = payload ∧
    (feed realloc (chunks ++ [final]) (mysqlStreamInit s)).2.sequenceId = last

theorem reassembles_iff {realloc : Nat → Bool} (hrealloc : ∀ n, realloc n = true) (s : MysqlStream)
    {payload : List Byte} {seqid : UInt8} {chunks : List (List Byte)} {final : List Byte}
    (hfinal : final ≠ []) (hcut : chunks.flatten ++ final = wire seqid payload) :
    Reassembles realloc s chunks final payload
        (seqid + UInt8.ofNat (payload.length / payloadMax)) ↔
      payload.length % payloadMax ≠ 0 := by
  have hwait := waiting_init s payload seqid
  rw [← hcut] at hwait
  obtain ⟨hcodes, hcomplete⟩ := feed_waiting hrealloc chunks hfinal _ hwait
  constructor
  · rintro ⟨hgood, -⟩ hmod
    rw [hcodes, if_pos hmod] at hgood
    simp at hgood
  · intro hmod
    rw [if_neg hmod] at hcodes
    exact ⟨hcodes, (hcomplete hmod).buf_eq, (hcomplete hmod).seqid_eq⟩

/-- A payload of fewer than 256 packets is encoded, its sequence id is advanced by the number of
packets, and it is put together again from any cut of the bytes exactly when its last packet is not
empty. -/
theorem packet_framing (realloc : Nat → Bool) (hrealloc : ∀ n, realloc n = true)
    (heads : UInt8 → List Byte) (seqid : UInt8) (payload : List Byte)
    (hfew : packets payload < 256) :
    (encode encodeIovMax heads seqid payload).seqid = seqid + UInt8.ofNat (packets payload) ∧
      ∃ bytes, (encode encodeIovMax heads seqid payload).wireBytes = some bytes ∧
        ∀ (s : MysqlStream) (chunks : List (List Byte)) (final : List Byte), final ≠ [] →
          chunks.flatten ++ final = bytes →
          (Reassembles realloc s chunks final payload
              (seqid + UInt8.ofNat (packets payload) - 1) ↔
            payload.length % payloadMax ≠ 0) := by
  obtain ⟨hwire, hseqid, -⟩ := encode_wire heads seqid hfew
  refine ⟨hseqid, _, hwire, fun s chunks final hfinal hcut => ?_⟩
  have hlast : seqid + UInt8.ofNat (packets payload) - 1 =
      seqid + UInt8.ofNat (payload.length / payloadMax) := by
    rw [packets, ← add_one_add_ofNat, UInt8.add_assoc, UInt8.add_comm 1, ← UInt8.add_assoc,
      UInt8.add_sub_cancel]
  rw [hlast]
  exact reassembles_iff hrealloc s hfinal hcut

/-- A payload of two packets, of which the second one has one byte. -/
theorem packet_framing_two :
    packets (List.replicate 16777216 7) = 2 ∧
      (encode encodeIovMax (fun _ => []) 0 (List.replicate 16777216 7)).seqid = 2 ∧
      ∃ bytes, (encode encodeIovMax (fun _ => []) 0 (List.replicate 16777216 7)).wireBytes =
          some bytes ∧
        ∀ (s : MysqlStream) (chunks : List (List Byte)) (final : List Byte), final ≠ [] →
          chunks.flatten ++ final = bytes →
          Reassembles (fun _ => true) s chunks final (List.replicate 16777216 7) 1 := by
  have hpackets : packets (List.replicate 16777216 (7 : Byte)) = 2 := by
    rw [packets, List.length_replicate]
    rfl
  have hmod : (List.replicate 16777216 (7 : Byte)).length % payloadMax ≠ 0 := by
    rw [List.length_replicate]
    decide
  obtain ⟨hseqid, bytes, hbytes, hcuts⟩ := packet_framing (fun _ => true) (fun _ => rfl)
    (fun _ => []) 0 (List.replicate 16777216 7) (by rw [hpackets]; decide)
  rw [hpackets] at hseqid hcuts
  exact ⟨hpackets, hseqid, bytes, hbytes, fun s chunks final hfinal hcut =>
    (hcuts s chunks final hfinal hcut).mpr hmod⟩

/-- The empty payload is one packet without payload, and its last byte is answered with 0. -/
theorem empty_payload_not_reported :
    (encode encodeIovMax (fun _ => []) 0 []).wireBytes = some [0, 0, 0, 0] ∧
      ∀ s, (feed (fun _ => true) [[0, 0, 0, 0]] (mysqlStreamInit s)).1 = [0] ∧
        ¬ Reassembles (fun _ => true) s [] [0, 0, 0, 0] [] 0 := by
  have hbytes : (encode encodeIovMax (fun _ => []) 0 []).wireBytes = some [0, 0, 0, 0] := by
    rw [encode, encodeLoop_last (by decide) (by decide)]
    rfl
  have hwire : wire 0 [] = [0, 0, 0, 0] := by
    rw [wire_eq, after, if_pos (by decide)]
    rfl
  refine ⟨hbytes, fun s => ⟨?_, fun h => ?_⟩⟩
  · have hwait : Waiting [] 0 (mysqlStreamInit s) ([].flatten ++ [0, 0, 0, 0]) :=
      hwire ▸ waiting_init s [] 0
    exact (feed_waiting (fun _ => rfl) [] (List.cons_ne_nil _ _) _ hwait).1
  · have hcut : [].flatten ++ [0, 0, 0, 0] = wire 0 [] := hwire.symm
    exact (reassembles_iff (fun _ => rfl) s (List.cons_ne_nil _ _) hcut).mp h rfl

end Workflow.MysqlWire
