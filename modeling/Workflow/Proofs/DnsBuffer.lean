/-
Module: Workflow.Proofs.DnsBuffer
Layer: Proofs
Purpose: The buffer of the DNS parser: which bytes lie at which offset, and that a stream is stored
  there piece by piece while the buffer grows.
Trusted boundary: none
Main exports: HoldsAt, holdsAt_append, uint16_of_holdsAt, bytes_memcpy, Stored, copyIn_stored
-/
import Workflow.Protocol.DnsMessage

namespace Workflow.Dns

open Workflow.Lib

/-! ### Bytes in memory -/

/-- The memory holds these bytes at `pos`. -/
def HoldsAt (m : DnsMessage) (pos : Nat) (bytes : List Byte) : Prop :=
  m.bytes pos bytes.length = bytes

theorem bytes_add (m : DnsMessage) (pos a b : Nat) :
    m.bytes pos (a + b) = m.bytes pos a ++ m.bytes (pos + a) b := by
  simp only [DnsMessage.bytes, List.range_add, List.map_append, List.map_map, Function.comp_def,
    Nat.add_assoc]

theorem length_bytes (m : DnsMessage) (pos len : Nat) : (m.bytes pos len).length = len := by
  simp [DnsMessage.bytes]

/-- Two texts lie one behind the other. -/
theorem holdsAt_append {m : DnsMessage} {pos : Nat} {a b : List Byte} :
    HoldsAt m pos (a ++ b) ↔ HoldsAt m pos a ∧ HoldsAt m (pos + a.length) b := by
  unfold HoldsAt
  rw [List.length_append, bytes_add]
  constructor
  · exact fun h => List.append_inj h (length_bytes m pos a.length)
  · rintro ⟨ha, hb⟩
    rw [ha, hb]

theorem holdsAt_cons {m : DnsMessage} {pos : Nat} {x : Byte} {bytes : List Byte} :
    HoldsAt m pos (x :: bytes) ↔ m.msgbuf pos = x ∧ HoldsAt m (pos + 1) bytes := by
  have hsplit : HoldsAt m pos (x :: bytes) ↔ HoldsAt m pos [x] ∧ HoldsAt m (pos + 1) bytes :=
    holdsAt_append (a := [x])
  rw [hsplit]
  simp [HoldsAt, DnsMessage.bytes]

/-- Two bytes of a number are read back as the number. -/
theorem uint16_of_holdsAt {m : DnsMessage} {pos n : Nat} (h : HoldsAt m pos (appendUint16 n))
    (hn : n < 2 ^ 16) : m.uint16 pos = n := by
  obtain ⟨hhigh, htail⟩ := holdsAt_cons.mp h
  obtain ⟨hlow, -⟩ := holdsAt_cons.mp htail
  simp only [DnsMessage.uint16, hhigh, hlow, UInt8.toNat_ofNat']
  omega

/-! ### A stream in the buffer -/

/-- What is copied into the buffer lies there. -/
theorem bytes_memcpy {m : DnsMessage} {mem : Nat → Byte} {pos : Nat} {buf : List Byte}
    (h : m.msgbuf = memcpy mem pos buf) : HoldsAt m pos buf := by
  unfold HoldsAt DnsMessage.bytes
  refine List.ext_getElem (by simp) fun i hi hbuf => ?_
  simp [h, memcpy, hbuf]

/-- A range depends only on the bytes in it. -/
theorem bytes_congr {m m' : DnsMessage} {pos len : Nat}
    (h : ∀ i, pos ≤ i → i < pos + len → m'.msgbuf i = m.msgbuf i) :
    m'.bytes pos len = m.bytes pos len := by
  unfold DnsMessage.bytes
  refine List.map_congr_left fun i hi => ?_
  have hlt := List.mem_range.mp hi
  exact h (pos + i) (by omega) (by omega)

/-- The parser has stored the bytes `received` of a stream, and waits for more. -/
structure Stored (received : List Byte) (p : DnsParser) : Prop where
  complete : p.complete = false
  stream : p.singlePacket = false
  size : p.msgsize = received.length
  room : p.msgsize ≤ p.bufsize
  holds : HoldsAt p.toDnsMessage 0 received

/-- A TCP parser starts with nothing received. -/
theorem stored_init : Stored [] (dnsParserInit false) :=
  ⟨rfl, rfl, rfl, Nat.le_refl 0, rfl⟩

/-- A call puts its bytes behind those that were there, whether or not the buffer is grown and
moved. -/
theorem copyIn_stored {received : List Byte} {p : DnsParser} (h : Stored received p)
    (fresh : Nat → Byte) (buf : List Byte) : Stored (received ++ buf) (copyIn fresh buf p) := by
  have hsize := h.size
  have hroom := h.room
  -- what was stored lies in front of the new bytes, also when the buffer was moved
  have hkept : ∀ i, i < received.length → (copyIn fresh buf p).msgbuf i = p.msgbuf i := by
    intro i hi
    simp only [copyIn]
    split
    · simp only [memcpy]
      rw [if_neg (by omega), if_pos (by omega)]
    · simp only [memcpy]
      rw [if_neg (by omega)]
  have hfirst : HoldsAt (copyIn fresh buf p).toDnsMessage 0 received := by
    have hsame : (copyIn fresh buf p).bytes 0 received.length = p.bytes 0 received.length :=
      bytes_congr fun i _ hi => hkept i (by omega)
    rw [HoldsAt, hsame]
    exact h.holds
  have hsecond : HoldsAt (copyIn fresh buf p).toDnsMessage (0 + received.length) buf := by
    rw [Nat.zero_add, ← hsize]
    exact bytes_memcpy rfl
  refine ⟨?_, ?_, ?_, ?_, holdsAt_append.mpr ⟨hfirst, hsecond⟩⟩
  · simp only [copyIn]
    split <;> exact h.complete
  · simp only [copyIn]
    split <;> exact h.stream
  · simp [copyIn, hsize]
  · simp only [copyIn]
    split
    · exact le_growBuf (by have hinit : dnsMsgbaseInitSize = 514 := rfl; omega)
    · omega

end Workflow.Dns
