/-
Module: Workflow.Proofs.KafkaVarint
Layer: Proofs
Purpose: Which variable-length integers of `KafkaMessage.cc` survive a round trip, and on which
  buffers the parser stays inside. The end-of-buffer test of the parser looks at the size it was
  called with and not at the running offset, so both answers carry a condition.
Trusted boundary: none
Main exports: parseVarintU64_append, unzigzag_zigzag, varintSafe_iff, varint_codec
-/
import Workflow.Protocol.KafkaVarint
import Mathlib.Data.Nat.Bitwise
import Mathlib.Tactic.Ring

namespace Workflow.Kafka

open Workflow.Lib

/-! ### The bytes of a number -/

theorem appendVarintU64_of_lt {n : Nat} (h : n < 128) : appendVarintU64 n = [UInt8.ofNat n] := by
  have hshift : n >>> 7 = 0 := by
    rw [Nat.shiftRight_eq_div_pow]
    omega
  have hlow : n &&& 0x7f = n := by
    rw [show (0x7f : Nat) = 2 ^ 7 - 1 by decide, Nat.and_two_pow_sub_one_eq_mod]
    omega
  unfold appendVarintU64
  simp only [hshift, hlow, if_true, if_neg (show ¬ n > 0x7f by omega), Nat.or_zero]

theorem appendVarintU64_of_ge {n : Nat} (h : 128 ≤ n) :
    appendVarintU64 n = UInt8.ofNat (n % 128 + 128) :: appendVarintU64 (n / 128) := by
  have hshift : n >>> 7 = n / 128 := Nat.shiftRight_eq_div_pow n 7
  have hlow : (n &&& 0x7f) ||| 0x80 = n % 128 + 128 := by
    have hor := Nat.shiftLeft_add_eq_or_of_lt (b := n % 128) (i := 7) (by omega) 1
    rw [show 1 <<< 7 = 0x80 by decide] at hor
    rw [show (0x7f : Nat) = 2 ^ 7 - 1 by decide, Nat.and_two_pow_sub_one_eq_mod, Nat.or_comm,
      show 2 ^ 7 = 128 by decide, ← hor, Nat.add_comm]
  rw [appendVarintU64]
  simp only [hshift, if_neg (show ¬ n / 128 = 0 by omega), if_pos (show n > 0x7f by omega), hlow]

/-- A number of more than seven bits takes more than one byte. -/
theorem appendVarintU64_length (n : Nat) :
    0 < (appendVarintU64 n).length ∧ ((appendVarintU64 n).length = 1 ↔ n < 128) := by
  rcases Nat.lt_or_ge n 128 with h | h
  · simp [appendVarintU64_of_lt h, h]
  · have hpos : 0 < (appendVarintU64 (n / 128)).length := by
      rcases Nat.lt_or_ge (n / 128) 128 with h' | h'
      · simp [appendVarintU64_of_lt h']
      · simp [appendVarintU64_of_ge h']
    simp only [appendVarintU64_of_ge h, List.length_cons]
    omega

theorem toNat_byte {m : Nat} (h : m < 256) : (UInt8.ofNat m).toNat = m :=
  UInt8.toNat_ofNat_of_lt' h

/-- The low seven bits of a byte. -/
theorem byte_low {m : Nat} (h : m < 256) : (UInt8.ofNat m).toNat &&& 0x7f = m % 128 := by
  rw [toNat_byte h, show (0x7f : Nat) = 2 ^ 7 - 1 by decide, Nat.and_two_pow_sub_one_eq_mod]

/-- The top bit says that more follows. -/
theorem byte_continues_iff {m : Nat} (h : m < 256) : UInt8.ofNat m &&& 0x80 ≠ 0 ↔ 128 ≤ m := by
  have hall : ∀ m : Fin 256, UInt8.ofNat m &&& 0x80 ≠ 0 ↔ 128 ≤ m.val := by
    decide +kernel
  exact hall ⟨m, h⟩

/-! ### Reading them back -/

/-- The memory at the parser's pointer starts with these bytes. -/
def Holds (mem : Int → Byte) (bytes : List Byte) : Prop :=
  ∀ i (h : i < bytes.length), mem (i : Int) = bytes.get ⟨i, h⟩

/-- Any bytes lie somewhere in memory. -/
theorem exists_holds (bytes : List Byte) : ∃ mem, Holds mem bytes := by
  refine ⟨fun i => bytes.getD i.toNat 0, ?_⟩
  intro i hi
  simp only [Int.toNat_natCast, List.getD_eq_getElem _ 0 hi, List.get_eq_getElem]

theorem readIndex_of_lt {off : Nat} (h : off < 2 ^ 31) : readIndex off = off := by
  unfold readIndex
  rw [Int32.toInt_ofNat_of_lt h]

/-- Placing seven more bits above the ones that are already there. -/
theorem or_shiftLeft {num low shift : Nat} (hnum : num < 2 ^ shift)
    (hfit : low * 2 ^ shift < 2 ^ 64) :
    num ||| (low <<< shift) % 2 ^ 64 = num + low * 2 ^ shift := by
  rw [Nat.mod_eq_of_lt (by rwa [Nat.shiftLeft_eq]), Nat.or_comm,
    ← Nat.shiftLeft_add_eq_or_of_lt hnum, Nat.shiftLeft_eq, Nat.add_comm]

/-- With one byte in the buffer nothing is read. -/
theorem varintRead_one (s : VarintState) : varintRead 1 s = none :=
  rfl

/-- Otherwise the byte at the offset is. -/
theorem varintRead_of_ne {size : Nat} (hsize : size < 2 ^ 64) (hone : size ≠ 1) (s : VarintState) :
    varintRead size s = some (readIndex s.off) := by
  unfold varintRead subSize
  rw [if_neg (by omega)]

theorem Holds.head {mem : Int → Byte} {b : Byte} {bytes : List Byte} (h : Holds mem (b :: bytes)) :
    mem 0 = b :=
  h 0 (Nat.zero_lt_succ _)

theorem Holds.tail {mem : Int → Byte} {b : Byte} {bytes : List Byte} (h : Holds mem (b :: bytes)) :
    Holds (fun i => mem (1 + i)) bytes := by
  intro i hi
  have hnext := h (i + 1) (Nat.succ_lt_succ hi)
  simpa [Int.add_comm] using hnext

/-- Nothing is left to read. -/
theorem varintStep_eof {mem : Int → Byte} {size : Nat} {s : VarintState}
    (h : varintRead size s = none) : varintStep mem size s = .done none := by
  rw [varintStep, h]
  rfl

/-- The last byte of a varint. -/
theorem varintStep_stop {mem : Int → Byte} {size : Nat} {s : VarintState} {i : Int}
    (h : varintRead size s = some i) (hstop : ¬ mem i &&& 0x80 ≠ 0) :
    varintStep mem size s =
      .done (some ⟨s.num ||| (((mem i).toNat &&& 0x7f) <<< s.shift) % 2 ^ 64, s.off + 1,
        subSize size (s.off + 1)⟩) := by
  rw [varintStep, h]
  exact if_neg hstop

/-- A byte before others. -/
theorem varintStep_more {mem : Int → Byte} {size : Nat} {s : VarintState} {i : Int}
    (h : varintRead size s = some i) (hmore : mem i &&& 0x80 ≠ 0) :
    varintStep mem size s =
      .next ⟨s.off + 1, s.num ||| (((mem i).toNat &&& 0x7f) <<< s.shift) % 2 ^ 64,
        s.shift + 7⟩ := by
  rw [varintStep, h]
  exact if_pos hmore

/-- The loop on the bytes of `k`, `off` bytes into the buffer: it adds `k` above the bits read so
far and stops after them. -/
theorem loop_append {mem : Int → Byte} {size : Nat} (hsize : size < 2 ^ 64) (hone : size ≠ 1)
    {rest : List Byte} (k off num : Nat)
    (hmem : Holds (fun i => mem (off + i)) (appendVarintU64 k ++ rest))
    (hnum : num < 2 ^ (7 * off)) (hk : k * 2 ^ (7 * off) < 2 ^ 64) (hoff : off < 2 ^ 31) :
    loop (varintStep mem size) (appendVarintU64 k).length ⟨off, num, 7 * off⟩ =
      some (some ⟨num + k * 2 ^ (7 * off), off + (appendVarintU64 k).length,
        subSize size (off + (appendVarintU64 k).length)⟩) := by
  have hgo : ∀ off num, off < 2 ^ 31 →
      varintRead size ⟨off, num, 7 * off⟩ = some (off : Int) := by
    intro off num hoff
    rw [varintRead_of_ne hsize hone, readIndex_of_lt hoff]
  induction k using Nat.strongRecOn generalizing off num with
  | ind k ih =>
      rcases Nat.lt_or_ge k 128 with hlt | hge
      · rw [appendVarintU64_of_lt hlt] at hmem ⊢
        have hread : mem off = UInt8.ofNat k := by simpa using hmem.head
        have hstop : ¬ mem off &&& 0x80 ≠ 0 := by
          rw [hread, byte_continues_iff (by omega)]
          omega
        have hdone := varintStep_stop (hgo off num hoff) hstop
        rw [hread, byte_low (by omega), Nat.mod_eq_of_lt hlt, or_shiftLeft hnum hk] at hdone
        exact loop_done hdone 0
      · rw [appendVarintU64_of_ge hge] at hmem ⊢
        have hread : mem off = UInt8.ofNat (k % 128 + 128) := by simpa using hmem.head
        have hmore : mem off &&& 0x80 ≠ 0 := by
          rw [hread, byte_continues_iff (by omega)]
          omega
        have hpow : 2 ^ (7 * (off + 1)) = 2 ^ (7 * off) * 128 := by
          rw [Nat.mul_add, Nat.pow_add]
        have hlow : k % 128 * 2 ^ (7 * off) < 2 ^ 64 :=
          Nat.lt_of_le_of_lt (Nat.mul_le_mul_right _ (Nat.mod_le k 128)) hk
        have hsplit : k % 128 * 2 ^ (7 * off) + k / 128 * 2 ^ (7 * (off + 1)) =
            k * 2 ^ (7 * off) := by
          have hdiv := Nat.mod_add_div k 128
          calc k % 128 * 2 ^ (7 * off) + k / 128 * 2 ^ (7 * (off + 1))
              = (k % 128 + 128 * (k / 128)) * 2 ^ (7 * off) := by rw [hpow]; ring
            _ = k * 2 ^ (7 * off) := by rw [hdiv]
        have hbig : 2 ^ (7 * off) < 2 ^ 57 := by
          have := Nat.mul_le_mul_right (2 ^ (7 * off)) hge
          omega
        have hshort : 7 * off < 57 := (Nat.pow_lt_pow_iff_right (by decide)).mp hbig
        have hbits : num + k % 128 * 2 ^ (7 * off) < 2 ^ (7 * (off + 1)) := by
          have := Nat.mul_le_mul_right (2 ^ (7 * off)) (show k % 128 ≤ 127 by omega)
          rw [hpow]
          omega
        have hnext : varintStep mem size ⟨off, num, 7 * off⟩ =
            .next ⟨off + 1, num + k % 128 * 2 ^ (7 * off), 7 * (off + 1)⟩ := by
          rw [varintStep_more (hgo off num hoff) hmore, hread, byte_low (by omega),
            show (k % 128 + 128) % 128 = k % 128 by omega, or_shiftLeft hnum hlow, Nat.mul_add]
        have htail := hmem.tail
        simp only [← Int.add_assoc] at htail
        have hrest := ih (k / 128) (by omega) (off + 1) _ (by simpa using htail) hbits (by omega)
          (by omega)
        rw [List.length_cons, loop_next hnext, hrest, Nat.add_assoc num, hsplit, Nat.add_assoc off,
          Nat.add_comm 1]

/-- A varint is read back, whatever follows, unless it stands alone in one byte. -/
theorem parseVarintU64_append {n : Nat} (hn : n < 2 ^ 64) {rest : List Byte} {mem : Int → Byte}
    (hmem : Holds mem (appendVarintU64 n ++ rest))
    (hsize : (appendVarintU64 n ++ rest).length < 2 ^ 64)
    (hone : (appendVarintU64 n ++ rest).length ≠ 1) :
    parseVarintU64 (appendVarintU64 n).length mem (appendVarintU64 n ++ rest).length =
      some (some ⟨n, (appendVarintU64 n).length, rest.length⟩) := by
  have hloop := loop_append hsize hone n 0 0 (by simpa using hmem) (by decide) (by simpa using hn)
    (by decide)
  have hleft : subSize (appendVarintU64 n ++ rest).length (appendVarintU64 n).length =
      rest.length := by
    rw [subSize_of_le (by simp) hsize, List.length_append, Nat.add_sub_cancel_left]
  rw [Nat.zero_add, Nat.zero_add, hleft, Nat.mul_zero, Nat.pow_zero, Nat.mul_one] at hloop
  exact hloop

/-- A varint alone in one byte is never read. -/
theorem parseVarintU64_one (fuel : Nat) (mem : Int → Byte) (p : Parsed Nat) :
    parseVarintU64 fuel mem 1 ≠ some (some p) := by
  cases fuel with
  | zero => simp [parseVarintU64, loop]
  | succ fuel =>
      rw [parseVarintU64, loop_done (varintStep_eof (varintRead_one varintStart))]
      simp

/-- Parsing `enc` followed by `rest` yields `val` and leaves exactly `rest`, whatever lies beyond. -/
def RoundTrip {α : Type} (parse : Nat → (Int → Byte) → Nat → Option (Option (Parsed α)))
    (enc : List Byte) (val : α) (rest : List Byte) : Prop :=
  ∀ mem, Holds mem (enc ++ rest) →
    ∃ fuel, parse fuel mem (enc ++ rest).length = some (some ⟨val, enc.length, rest.length⟩)

/-- The three parsers at once: `f` is what is done with the unsigned number. -/
theorem roundTrip_iff {α : Type} (f : Nat → α) {n : Nat} (hn : n < 2 ^ 64) {rest : List Byte}
    (hsize : (appendVarintU64 n ++ rest).length < 2 ^ 64) :
    RoundTrip (fun fuel mem size => (parseVarintU64 fuel mem size).map fun r =>
      r.map fun p => { val := f p.val, off := p.off, size := p.size })
      (appendVarintU64 n) (f n) rest ↔ ¬ (rest = [] ∧ n < 128) := by
  obtain ⟨hpos, hlen⟩ := appendVarintU64_length n
  have hone : (appendVarintU64 n ++ rest).length = 1 ↔ rest = [] ∧ n < 128 := by
    rw [← hlen, List.length_append, ← List.length_eq_zero_iff]
    omega
  rw [← hone]
  constructor
  · intro htrip hsingle
    -- any memory that starts with these bytes will do
    obtain ⟨mem, hholds⟩ := exists_holds (appendVarintU64 n ++ rest)
    obtain ⟨fuel, hparse⟩ := htrip mem hholds
    rw [hsingle] at hparse
    simp only [Option.map_eq_some_iff] at hparse
    obtain ⟨r, hr, p, rfl, -⟩ := hparse
    exact parseVarintU64_one _ _ _ hr
  · intro hne mem hmem
    refine ⟨(appendVarintU64 n).length, ?_⟩
    dsimp only
    rw [parseVarintU64_append hn hmem hsize hne]
    rfl

/-! ### Zig-zag coding -/

/-- The arithmetic shift leaves only the sign. -/
theorem sshiftRight_63 (x : BitVec 64) :
    x.sshiftRight 63 = if x.msb then BitVec.allOnes 64 else 0#64 := by
  ext i hi
  rw [BitVec.getElem_sshiftRight]
  split
  · rename_i h
    have h0 : i = 0 := by omega
    subst h0
    rw [BitVec.msb_eq_getLsbD_last]
    simp only [Nat.add_zero]
    rw [← BitVec.getLsbD_eq_getElem]
    cases x.getLsbD 63 <;> simp
  · cases x.msb
    · simp only [Bool.false_eq_true, if_false, BitVec.getElem_zero]
    · simp only [if_true, BitVec.getElem_allOnes]

/-- Zig-zag coding on bit vectors. -/
def zigzagBits (x : BitVec 64) : BitVec 64 :=
  if x.msb then ~~~(x <<< 1) else x <<< 1

/-- The zigzag code, as bits. -/
theorem zigzag_eq (x : BitVec 64) : x <<< 1 ^^^ x.sshiftRight 63 = zigzagBits x := by
  rw [sshiftRight_63, zigzagBits]
  cases x.msb
  · simp
  · exact BitVec.xor_allOnes

/-- Numbers of either sign become natural numbers by turns. -/
theorem toNat_zigzagBits (x : BitVec 64) :
    ((zigzagBits x).toNat : Int) = if 0 ≤ x.toInt then 2 * x.toInt else -2 * x.toInt - 1 := by
  unfold zigzagBits
  have hlt := x.isLt
  rw [BitVec.msb_eq_decide, BitVec.toInt_eq_toNat_cond]
  by_cases h : 2 * x.toNat < 2 ^ 64
  · have hm : ¬ 2 ^ (64 - 1) ≤ x.toNat := by omega
    simp only [hm, decide_false, Bool.false_eq_true, if_false, BitVec.toNat_shiftLeft,
      Nat.shiftLeft_eq, h, if_true]
    omega
  · have hm : 2 ^ (64 - 1) ≤ x.toNat := by omega
    simp only [hm, decide_true, if_true, BitVec.toNat_not, BitVec.toNat_shiftLeft,
      Nat.shiftLeft_eq, h, if_false]
    omega

/-- Decoding is the inverse of the code. -/
theorem unzigzagBits (x : BitVec 64) :
    zigzagBits x >>> 1 ^^^ -(zigzagBits x &&& 1#64) = x := by
  have hlow : (x <<< 1) &&& 1#64 = 0#64 := by
    ext i hi
    by_cases h0 : i = 0
    · subst h0; simp
    · simp [h0]
  have hlowNot : ~~~(x <<< 1) &&& 1#64 = 1#64 := by
    ext i hi
    by_cases h0 : i = 0
    · subst h0; simp
    · simp [h0]
  have hneg : -(1#64) = BitVec.allOnes 64 := by decide
  have hlast : x.msb = x.getLsbD 63 := BitVec.msb_eq_getLsbD_last x
  unfold zigzagBits
  cases hm : x.msb
  · rw [hm] at hlast
    simp only [Bool.false_eq_true, if_false, hlow, BitVec.neg_zero, BitVec.xor_zero]
    ext i hi
    by_cases h : 1 + i < 64
    · simp [h]
    · have : i = 63 := by omega
      subst this
      simp [← hlast, ← BitVec.getLsbD_eq_getElem]
  · rw [hm] at hlast
    simp only [if_true, hlowNot, hneg, BitVec.xor_allOnes]
    ext i hi
    by_cases h : 1 + i < 64
    · simp [h]
    · have : i = 63 := by omega
      subst this
      simp [← hlast, ← BitVec.getLsbD_eq_getElem]

/-- The code of the source is that of the bits. -/
theorem toNat_zigzag (n : Int64) :
    ((n <<< 1) ^^^ (n >>> 63)).toUInt64.toNat = (zigzagBits n.toBitVec).toNat := by
  rw [← zigzag_eq]
  have hbits : ((n <<< 1) ^^^ (n >>> 63)).toBitVec =
      n.toBitVec <<< 1 ^^^ n.toBitVec.sshiftRight 63 := by
    simp [Int64.toBitVec_shiftRight]
  rw [← hbits]
  rfl

theorem unzigzag_zigzag (n : Int64) : unzigzag (zigzagBits n.toBitVec).toNat = n := by
  apply Int64.toBitVec_inj.mp
  conv => rhs; rw [← unzigzagBits n.toBitVec]
  simp [unzigzag]
/-! ### Staying inside the buffer -/

/-- No pass reads outside of the buffer, and the size that is left is not below zero. -/
def VarintSafe (mem : Int → Byte) (size : Nat) : Prop :=
  (∀ s i, Reaches (varintStep mem size) varintStart s → varintRead size s = some i →
    0 ≤ i ∧ i < size) ∧
  ∀ fuel p, parseVarintU64 fuel mem size = some (some p) → p.off ≤ size

/-- A pass that goes on has read a byte with the top bit. -/
theorem varintStep_next {mem : Int → Byte} {size : Nat} {s t : VarintState}
    (h : varintStep mem size s = .next t) :
    ∃ i, varintRead size s = some i ∧ mem i &&& 0x80 ≠ 0 ∧ t.off = s.off + 1 := by
  cases hread : varintRead size s with
  | none =>
      rw [varintStep_eof hread] at h
      cases h
  | some i =>
      by_cases hmore : mem i &&& 0x80 ≠ 0
      · rw [varintStep_more hread hmore] at h
        cases h
        exact ⟨i, rfl, hmore, rfl⟩
      · rw [varintStep_stop hread hmore] at h
        cases h

/-- A pass that ends stands behind the byte it read. -/
theorem varintStep_done {mem : Int → Byte} {size : Nat} {s : VarintState} {p : Parsed Nat}
    (h : varintStep mem size s = .done (some p)) : p.off = s.off + 1 := by
  cases hread : varintRead size s with
  | none =>
      rw [varintStep_eof hread] at h
      cases h
  | some i =>
      by_cases hmore : mem i &&& 0x80 ≠ 0
      · rw [varintStep_more hread hmore] at h
        cases h
      · rw [varintStep_stop hread hmore] at h
        cases h
        rfl

/-- A byte without the continuation bit inside the buffer stops the loop there at the latest. -/
theorem varintSafe_of_stop {mem : Int → Byte} {size i : Nat} (hi : i < size) (hint : i < 2 ^ 31)
    (hstop : mem i &&& 0x80 = 0) : VarintSafe mem size := by
  have hbefore : ∀ s t, s.off ≤ i → varintStep mem size s = .next t → t.off ≤ i := by
    intro s t hs hnext
    obtain ⟨j, hread, hmore, hoff⟩ := varintStep_next hnext
    have hj : j = s.off := by
      rw [varintRead] at hread
      split at hread
      · cases hread
      · rw [← Option.some.inj hread, readIndex_of_lt (by omega)]
    have hne : s.off ≠ i := by
      rintro rfl
      exact hmore (hj ▸ hstop)
    omega
  constructor
  · intro s j hreach hread
    have hoff : s.off ≤ i := hreach.invariant hbefore (Nat.zero_le i)
    rw [varintRead] at hread
    split at hread
    · cases hread
    · rw [← Option.some.inj hread, readIndex_of_lt (by omega)]
      omega
  · intro fuel p hparse
    refine loop_invariant (Q := fun r => ∀ p, r = some p → p.off ≤ size) hbefore ?_
      (Nat.zero_le i) hparse p rfl
    rintro s r hs hdone p rfl
    have := varintStep_done hdone
    omega

/-- While every byte has the continuation bit, the loop goes on. -/
theorem reaches_of_continues {mem : Int → Byte} {size : Nat} (hsize : size < 2 ^ 64)
    (hone : size ≠ 1) (n : Nat) (hint : n ≤ 2 ^ 31) (hmore : ∀ i < n, mem i &&& 0x80 ≠ 0) :
    ∃ s, Reaches (varintStep mem size) varintStart s ∧ s.off = n := by
  induction n with
  | zero => exact ⟨varintStart, .refl, rfl⟩
  | succ n ih =>
      obtain ⟨s, hreach, hoff⟩ := ih (by omega) fun i hi => hmore i (by omega)
      have hread : varintRead size s = some (n : Int) := by
        rw [varintRead_of_ne hsize hone, hoff, readIndex_of_lt (by omega)]
      exact ⟨_, hreach.tail (varintStep_more hread (hmore n (by omega))), by rw [hoff]⟩

theorem varintSafe_iff {mem : Int → Byte} {size : Nat} (hsize : size < 2 ^ 64) :
    VarintSafe mem size ↔
      size = 1 ∨ ∃ i, i < size ∧ i < 2 ^ 31 ∧ mem (i : Int) &&& 0x80 = 0 := by
  constructor
  · rintro ⟨hreads, -⟩
    by_contra hcond
    push Not at hcond
    obtain ⟨hone, hmore⟩ := hcond
    obtain ⟨s, hreach, hoff⟩ := reaches_of_continues hsize hone (min size (2 ^ 31))
      (Nat.min_le_right _ _) fun i hi => hmore i (by omega) (by omega)
    have hread := hreads s _ hreach (varintRead_of_ne hsize hone s)
    rw [hoff] at hread
    rcases Nat.lt_or_ge size (2 ^ 31) with hlt | hge
    · rw [Nat.min_eq_left (by omega), readIndex_of_lt hlt] at hread
      omega
    · rw [Nat.min_eq_right hge] at hread
      exact absurd hread.1 (by decide)
  · rintro (rfl | ⟨i, hi, hint, hstop⟩)
    · refine ⟨fun s i _ hread => ?_, fun fuel p hparse => absurd hparse (parseVarintU64_one _ _ _)⟩
      rw [varintRead_one] at hread
      cases hread
    · exact varintSafe_of_stop hi hint hstop

/-! ### The three parsers -/

theorem roundTrip_u64_iff (n : UInt64) {rest : List Byte}
    (hsize : (appendVarintU64 n.toNat ++ rest).length < 2 ^ 64) :
    RoundTrip parseVarintU64 (appendVarintU64 n.toNat) n.toNat rest ↔
      ¬ (rest = [] ∧ n.toNat < 128) := by
  rw [← roundTrip_iff id n.toNat_lt hsize]
  simp only [id, Option.map_id']

/-- One byte holds the zig-zag code of the numbers from -64 to 63. -/
theorem zigzag_lt_iff (n : Int64) :
    (zigzagBits n.toBitVec).toNat < 128 ↔ -64 ≤ n.toInt ∧ n.toInt ≤ 63 := by
  have hvalue := toNat_zigzagBits n.toBitVec
  rw [show n.toBitVec.toInt = n.toInt from rfl] at hvalue
  split at hvalue <;> omega

theorem roundTrip_i64_iff (n : Int64) {rest : List Byte}
    (hsize : (appendVarintI64 n ++ rest).length < 2 ^ 64) :
    RoundTrip parseVarintI64 (appendVarintI64 n) n rest ↔
      ¬ (rest = [] ∧ -64 ≤ n.toInt ∧ n.toInt ≤ 63) := by
  rw [appendVarintI64, toNat_zigzag] at hsize ⊢
  rw [← zigzag_lt_iff, ← roundTrip_iff unzigzag (zigzagBits n.toBitVec).isLt hsize,
    unzigzag_zigzag]
  rfl

theorem roundTrip_i32_iff (n : Int32) {rest : List Byte}
    (hsize : (appendVarintI32 n ++ rest).length < 2 ^ 64) :
    RoundTrip parseVarintI32 (appendVarintI32 n) n rest ↔
      ¬ (rest = [] ∧ -64 ≤ n.toInt ∧ n.toInt ≤ 63) := by
  have hparse : parseVarintI32 = fun fuel mem size => (parseVarintU64 fuel mem size).map fun r =>
      r.map fun p => { val := (unzigzag p.val).toInt32, off := p.off, size := p.size } := by
    funext fuel mem size
    simp only [parseVarintI32, parseVarintI64, Option.map_map, Function.comp_def]
  rw [appendVarintI32, appendVarintI64, toNat_zigzag] at hsize ⊢
  rw [hparse, ← Int32.toInt_toInt64, ← zigzag_lt_iff,
    ← roundTrip_iff (fun num => (unzigzag num).toInt32) (zigzagBits _).isLt hsize,
    unzigzag_zigzag, Int32.toInt32_toInt64]

/-- The round trips that succeed, and the buffers on which the parser stays inside. A number of one
byte that ends the buffer is refused, and nothing stops the parser before it finds a byte without the
continuation bit. -/
theorem varint_codec (u : UInt64) (i : Int64) (j : Int32) (rest : List Byte) (mem : Int → Byte)
    (size : Nat) :
    ((appendVarintU64 u.toNat ++ rest).length < 2 ^ 64 →
      (RoundTrip parseVarintU64 (appendVarintU64 u.toNat) u.toNat rest ↔
        ¬ (rest = [] ∧ u.toNat < 128))) ∧
    ((appendVarintI64 i ++ rest).length < 2 ^ 64 →
      (RoundTrip parseVarintI64 (appendVarintI64 i) i rest ↔
        ¬ (rest = [] ∧ -64 ≤ i.toInt ∧ i.toInt ≤ 63))) ∧
    ((appendVarintI32 j ++ rest).length < 2 ^ 64 →
      (RoundTrip parseVarintI32 (appendVarintI32 j) j rest ↔
        ¬ (rest = [] ∧ -64 ≤ j.toInt ∧ j.toInt ≤ 63))) ∧
    (size < 2 ^ 64 →
      (VarintSafe mem size ↔
        size = 1 ∨ ∃ i, i < size ∧ i < 2 ^ 31 ∧ mem (i : Int) &&& 0x80 = 0)) :=
  ⟨roundTrip_u64_iff u, roundTrip_i64_iff i, roundTrip_i32_iff j, varintSafe_iff⟩

theorem appendVarintU64_zero : appendVarintU64 0 = [0] :=
  appendVarintU64_of_lt (by decide)

/-- Two bytes that end the buffer, one byte that does not, and a buffer of one byte. -/
theorem varint_codec_at_end :
    RoundTrip parseVarintU64 (appendVarintU64 (200 : UInt64).toNat) (200 : UInt64).toNat [] ∧
      RoundTrip parseVarintI64 (appendVarintI64 0) 0 [9] ∧
      RoundTrip parseVarintI32 (appendVarintI32 0) 0 [9] ∧ VarintSafe (fun _ => 0xff) 1 := by
  have hzero : appendVarintI64 0 = [0] := appendVarintU64_zero
  have hzero32 : appendVarintI32 0 = [0] := appendVarintU64_zero
  have hlen : appendVarintU64 (200 : UInt64).toNat = [200, 1] := by
    rw [show (200 : UInt64).toNat = 200 from rfl, appendVarintU64_of_ge (by decide),
      appendVarintU64_of_lt (by decide)]
    rfl
  have hend := varint_codec 200 0 0 [] (fun _ => 0xff) 1
  have hmore := varint_codec 200 0 0 [9] (fun _ => 0xff) 1
  refine ⟨(hend.1 ?_).mpr (by decide), (hmore.2.1 ?_).mpr (by decide),
    (hmore.2.2.1 ?_).mpr (by decide), (hend.2.2.2 (by decide)).mpr (.inl rfl)⟩
  · rw [hlen]; decide
  · rw [hzero]; decide
  · rw [hzero32]; decide

/-- The number 0 does not survive at the end of a buffer, and an empty buffer is read. -/
theorem varint_zero_at_end_refused :
    ¬ RoundTrip parseVarintI64 (appendVarintI64 0) 0 [] ∧ ¬ VarintSafe (fun _ => 0) 0 := by
  have hzero : appendVarintI64 0 = [0] := appendVarintU64_zero
  constructor
  · rw [roundTrip_i64_iff 0 (by rw [hzero]; decide)]
    decide
  · rw [varintSafe_iff (by decide)]
    simp

end Workflow.Kafka
