/-
Module: Workflow.Proofs.MysqlByteorder
Layer: Proofs
Purpose: When the two helpers of mysql_byteorder.c stay inside their buffer. Each test of the bound
  lets one length pass that ends a byte behind the buffer, the prefix byte is read before any test,
  and the length of a string is added to a pointer that may wrap around.
Trusted boundary: none
Main exports: LengthBounded, StringBounded, PrefixFits, SliceFits, decodeReads_bounded,
  decodeLengthReading_value, decodeStringReading_value
-/
import Workflow.Protocol.MysqlByteorder
import Workflow.Proofs.MysqlTermination

namespace Workflow.Mysql

open Workflow.Lib Reading

variable {mem : Nat → Byte} {last pos : Nat}

/-! ### What is said about the two functions -/

/-- An address of the buffer. -/
def Inside (pos last a : Nat) : Prop :=
  pos ≤ a ∧ a < last

/-- `decode_length_safe` reads inside the buffer only, and moves forward inside it. -/
structure LengthBounded (mem : Nat → Byte) (last pos : Nat) : Prop where
  reads : Within (Inside pos last) (decodeLengthReading mem last pos)
  moves : 0 < (decodeLengthReading mem last pos).value.1 →
    pos < (decodeLengthReading mem last pos).value.2.2 ∧
      (decodeLengthReading mem last pos).value.2.2 ≤ last

/-- So does `decode_string`, and the bytes that it returns lie inside the buffer. -/
structure StringBounded (mem : Nat → Byte) (last pos : Nat) : Prop where
  reads : Within (Inside pos last) (decodeStringReading mem last pos)
  moves : ∀ d, (decodeStringReading mem last pos).value = some d → pos < d.pos ∧ d.pos ≤ last
  slice : ∀ d, (decodeStringReading mem last pos).value = some d → d.len ≠ 0 →
    pos ≤ d.str ∧ d.str + d.len ≤ last

instance (pos last a : Nat) : Decidable (Inside pos last a) :=
  inferInstanceAs (Decidable (_ ∧ _))

/-- There is a byte to read, and a length behind it neither ends one byte behind the buffer nor wraps
around. -/
def PrefixFits (mem : Nat → Byte) (last pos : Nat) : Prop :=
  pos < last ∧ (1 < headerSize (mem pos) →
    pos + headerSize (mem pos) ≤ 2 ^ 64 ∧ pos + headerSize (mem pos) ≠ last + 1)

instance (mem : Nat → Byte) (last pos : Nat) : Decidable (PrefixFits mem last pos) :=
  inferInstanceAs (Decidable (_ ∧ _))

/-- `size` bytes as a number, the lowest first. -/
def littleEndian (mem : Nat → Byte) : Nat → Nat → Nat
  | 0, _ => 0
  | size + 1, p => (mem p).toNat + 2 ^ 8 * littleEndian mem size (p + 1)

/-- The length that the bytes at `pos` stand for. -/
def encodedLength (mem : Nat → Byte) (pos : Nat) : Nat :=
  if 1 < headerSize (mem pos) then littleEndian mem (headerSize (mem pos) - 1) (pos + 1)
  else (mem pos).toNat

/-- A length that lies inside the buffer does not take the pointer around the address space. -/
def SliceFits (mem : Nat → Byte) (last pos : Nat) : Prop :=
  mem pos ≠ 251 → mem pos ≠ 255 → pos + headerSize (mem pos) ≤ last →
    encodedLength mem pos ≠ sizeMax →
    pos + headerSize (mem pos) + encodedLength mem pos < 2 ^ 64

/-! ### Numbers -/

/-- The bytes that are read are those of the number. -/
theorem mem_reads_korrReading {size p a : Nat} (hp : p < 2 ^ 64) :
    a ∈ (korrReading mem size p).reads ↔ ∃ k < size, a = addSize p k := by
  induction size generalizing p with
  | zero => simp [korrReading, pure]
  | succ size ih =>
      have hnext : addSize p 1 < 2 ^ 64 := Nat.mod_lt _ (by decide)
      have hreads : (korrReading mem (size + 1) p).reads =
          p :: ((korrReading mem size (addSize p 1)).reads ++ []) := rfl
      have hshift : ∀ k, addSize (addSize p 1) k = addSize p (k + 1) := by
        intro k
        unfold addSize
        omega
      have hhead : addSize p 0 = p := addSize_of_lt hp
      rw [hreads, List.append_nil, List.mem_cons, ih hnext]
      constructor
      · rintro (rfl | ⟨k, hk, rfl⟩)
        · exact ⟨0, Nat.succ_pos size, hhead.symm⟩
        · exact ⟨k + 1, Nat.succ_lt_succ hk, hshift k⟩
      · rintro ⟨k, hk, rfl⟩
        cases k with
        | zero => exact Or.inl hhead
        | succ k => exact Or.inr ⟨k, Nat.lt_of_succ_lt_succ hk, (hshift k).symm⟩

/-- The number is little-endian. -/
theorem value_korrReading {size p : Nat} (hp : p + size ≤ 2 ^ 64) :
    (korrReading mem size p).value = littleEndian mem size p := by
  induction size generalizing p with
  | zero => rfl
  | succ size ih =>
      have hvalue : (korrReading mem (size + 1) p).value =
          (mem p).toNat + 2 ^ 8 * (korrReading mem size (addSize p 1)).value := rfl
      rw [hvalue, littleEndian]
      cases size with
      | zero => rfl
      | succ size => rw [addSize_of_lt (by omega), ih (by omega)]

theorem littleEndian_lt (size p : Nat) : littleEndian mem size p < 2 ^ (8 * size) := by
  induction size generalizing p with
  | zero => exact Nat.one_pos
  | succ size ih =>
      have hbyte := (mem p).toNat_lt
      have hrest := ih (p + 1)
      rw [littleEndian, Nat.mul_succ, Nat.pow_add, Nat.mul_comm (2 ^ (8 * size))]
      omega

/-- Adding goes on across the wrap of 64 bits. -/
theorem addSize_addSize_one (p k : Nat) : addSize (addSize p 1) k = addSize p (k + 1) := by
  unfold addSize
  omega

/-! ### A length behind a prefix byte -/

/-- The address of the last byte decides: it lies inside the buffer unless the length ends one byte
behind it or wraps around. -/
theorem prefixedReading_within {size : Nat} (hpos : pos < last) (hlast : last < 2 ^ 64)
    (hsize : 0 < size) (hsmall : size < 2 ^ 8) :
    Within (Inside pos last) (prefixedReading mem last pos size size) ↔
      (pos + (size + 1) ≤ 2 ^ 64 ∧ pos + (size + 1) ≠ last + 1) := by
  have hnext : addSize pos 1 < 2 ^ 64 := Nat.mod_lt _ (by decide)
  unfold prefixedReading
  split
  · rename_i htest
    have hwrap : pos + (size + 1) ≤ 2 ^ 64 := by
      unfold addSize at htest
      omega
    have hlt : last < pos + size := by
      rwa [addSize_of_lt (by omega)] at htest
    exact ⟨fun _ => ⟨hwrap, by omega⟩, fun _ => within_pure _⟩
  · rename_i htest
    rw [within_bind]
    constructor
    · intro h
      have hread : addSize pos size ∈ (korrReading mem size (addSize pos 1)).reads :=
        (mem_reads_korrReading hnext).2
          ⟨size - 1, by omega, by rw [addSize_addSize_one, Nat.sub_add_cancel hsize]⟩
      have hinside := h.1 (addSize pos size) hread
      unfold Inside addSize at hinside
      exact ⟨by omega, by omega⟩
    · rintro ⟨hwrap, hne⟩
      rw [addSize_of_lt (by omega)] at htest
      refine ⟨fun a ha => ?_, within_pure _⟩
      obtain ⟨k, hk, rfl⟩ := (mem_reads_korrReading hnext).1 ha
      rw [addSize_addSize_one, addSize_of_lt (by omega)]
      exact ⟨by omega, by omega⟩

/-- A length behind its first byte. -/
theorem prefixedReading_value {size : Nat} (hlast : last < 2 ^ 64)
    (hwrap : pos + (size + 1) ≤ 2 ^ 64) (hne : pos + (size + 1) ≠ last + 1) :
    (prefixedReading mem last pos size size).value =
      if last < pos + (size + 1) then (0, 0, pos)
      else (1, littleEndian mem size (pos + 1), pos + (size + 1)) := by
  unfold prefixedReading
  rw [addSize_of_lt (by omega)]
  by_cases htest : last < pos + (size + 1)
  · rw [if_pos htest, if_pos (by omega)]
    rfl
  · have hone : addSize pos 1 = pos + 1 := addSize_of_lt (by omega)
    rw [if_neg htest, if_neg (by omega), value_bind, value_pure, hone,
      value_korrReading (by omega), addSize_of_lt (by omega)]

/-- The prefix byte is the whole length, or a length follows it. -/
theorem decodeLengthReading_cases (mem : Nat → Byte) (last pos : Nat) :
    (headerSize (mem pos) = 1 ∧ (decodeLengthReading mem last pos).reads = [pos] ∧
      (decodeLengthReading mem last pos).value =
        if mem pos = 255 then (-1, 0, pos)
        else (1, if mem pos = 251 then sizeMax else (mem pos).toNat, addSize pos 1)) ∨
    ∃ size, headerSize (mem pos) = size + 1 ∧ 0 < size ∧ size < 9 ∧ mem pos ≠ 251 ∧
      mem pos ≠ 255 ∧ decodeLengthReading mem last pos =
        ⟨(prefixedReading mem last pos size size).value,
          pos :: (prefixedReading mem last pos size size).reads⟩ := by
  have hbind : ∀ f : Byte → Reading (Int × Nat × Nat), (load mem pos >>= f) =
      ⟨(f (mem pos)).value, pos :: (f (mem pos)).reads⟩ := fun _ => rfl
  unfold decodeLengthReading headerSize
  rw [hbind]
  by_cases h252 : mem pos = 252
  · exact Or.inr ⟨2, by simp [h252]⟩
  by_cases h253 : mem pos = 253
  · exact Or.inr ⟨3, by simp [h253]⟩
  by_cases h254 : mem pos = 254
  · exact Or.inr ⟨8, by simp [h254]⟩
  refine Or.inl ⟨by simp [h252, h253, h254], ?_⟩
  by_cases h251 : mem pos = 251
  · simp [h251, pure]
  by_cases h255 : mem pos = 255
  · simp [h255, pure]
  · simp [h251, h252, h253, h254, h255, pure]

/-! ### The two functions -/

/-- The length is read inside exactly if its prefix fits. -/
theorem decodeLengthReading_within (hlast : last < 2 ^ 64) :
    Within (Inside pos last) (decodeLengthReading mem last pos) ↔ PrefixFits mem last pos := by
  unfold PrefixFits
  rcases decodeLengthReading_cases mem last pos with ⟨hsize, hreads, -⟩ |
    ⟨size, hsize, hpositive, hsmall, -, -, heq⟩
  · have hone : Within (Inside pos last) (decodeLengthReading mem last pos) ↔ Inside pos last pos := by
      unfold Within
      rw [hreads]
      exact List.forall_mem_singleton
    rw [hone, hsize]
    exact ⟨fun h => ⟨h.2, fun hlt => absurd hlt (Nat.lt_irrefl 1)⟩, fun h => ⟨Nat.le_refl pos, h.1⟩⟩
  · have hcons : Within (Inside pos last) (decodeLengthReading mem last pos) ↔
        Inside pos last pos ∧ Within (Inside pos last) (prefixedReading mem last pos size size) := by
      rw [heq]
      exact List.forall_mem_cons
    rw [hcons, hsize]
    constructor
    · rintro ⟨hfirst, hrest⟩
      exact ⟨hfirst.2, fun _ =>
        (prefixedReading_within hfirst.2 hlast hpositive (by omega)).1 hrest⟩
    · rintro ⟨hfirst, hrest⟩
      exact ⟨⟨Nat.le_refl pos, hfirst⟩,
        (prefixedReading_within hfirst hlast hpositive (by omega)).2 (hrest (by omega))⟩

/-- What `decode_length_safe` returns where it stays inside the buffer. -/
theorem decodeLengthReading_of_fits (hlast : last < 2 ^ 64) (h : PrefixFits mem last pos) :
    (decodeLengthReading mem last pos).value =
      if mem pos = 255 then (-1, 0, pos)
      else if last < pos + headerSize (mem pos) then (0, 0, pos)
      else (1, if mem pos = 251 then sizeMax else encodedLength mem pos,
        pos + headerSize (mem pos)) := by
  obtain ⟨hpos, hfits⟩ := h
  unfold encodedLength
  rcases decodeLengthReading_cases mem last pos with ⟨hsize, -, hvalue⟩ |
    ⟨size, hsize, hpositive, -, h251, h255, heq⟩
  · rw [hvalue, hsize, if_neg (Nat.not_lt.mpr hpos), if_neg (Nat.lt_irrefl 1),
      addSize_of_lt (by omega)]
  · obtain ⟨hwrap, hne⟩ := hfits (by omega)
    rw [hsize] at hwrap hne ⊢
    have hlong : 1 < size + 1 := Nat.succ_lt_succ hpositive
    rw [heq, if_neg h255, if_neg h251, if_pos hlong, Nat.add_sub_cancel]
    exact prefixedReading_value hlast hwrap hne

theorem lengthBounded_iff (hlast : last < 2 ^ 64) :
    LengthBounded mem last pos ↔ PrefixFits mem last pos := by
  refine ⟨fun h => (decodeLengthReading_within hlast).1 h.reads, fun h => ?_⟩
  refine ⟨(decodeLengthReading_within hlast).2 h, ?_⟩
  have hsize := headerSize_pos (mem pos)
  rw [decodeLengthReading_of_fits hlast h]
  split
  · intro hret
    have hneg : (0 : Int) < -1 := hret
    omega
  · split
    · exact fun hret => absurd hret (Int.lt_irrefl 0)
    · rename_i hle
      exact fun _ => ⟨Nat.lt_add_of_pos_right hsize, Nat.not_lt.mp hle⟩

/-- A length is a number of 64 bits. -/
theorem encodedLength_lt (mem : Nat → Byte) (pos : Nat) : encodedLength mem pos < 2 ^ 64 := by
  unfold encodedLength
  split
  · have hle := headerSize_le (mem pos)
    exact Nat.lt_of_lt_of_le (littleEndian_lt _ _) (Nat.pow_le_pow_right (by decide) (by omega))
  · exact Nat.lt_trans (mem pos).toNat_lt (by decide)

/-- Reading a string reads no more than its length. -/
theorem decodeStringReading_within :
    Within (Inside pos last) (decodeStringReading mem last pos) ↔
      Within (Inside pos last) (decodeLengthReading mem last pos) := by
  unfold decodeStringReading
  rw [within_bind]
  exact and_iff_left (within_pure _)

/-- What `decode_string` returns where the prefix stays inside the buffer. -/
theorem decodeStringReading_of_fits (hlast : last < 2 ^ 64) (h : PrefixFits mem last pos) :
    (decodeStringReading mem last pos).value =
      if mem pos = 255 ∨ last < pos + headerSize (mem pos) then none
      else if mem pos = 251 ∨ encodedLength mem pos = 0 ∨ encodedLength mem pos = sizeMax then
        some { str := 0, len := 0, pos := pos + headerSize (mem pos) }
      else if last < addSize (pos + headerSize (mem pos)) (encodedLength mem pos) then none
      else some
        { str := pos + headerSize (mem pos), len := encodedLength mem pos,
          pos := addSize (pos + headerSize (mem pos)) (encodedLength mem pos) } := by
  have hvalue : (decodeStringReading mem last pos).value =
      sliceAt last (decodeLengthReading mem last pos).value := rfl
  rw [hvalue, decodeLengthReading_of_fits hlast h]
  by_cases h255 : mem pos = 255
  · simp [sliceAt, h255]
  by_cases hend : last < pos + headerSize (mem pos)
  · simp [sliceAt, h255, hend]
  rw [if_neg h255, if_neg hend, if_neg (not_or.mpr ⟨h255, hend⟩)]
  by_cases h251 : mem pos = 251
  · rw [if_pos h251, if_pos (Or.inl h251)]
    simp [sliceAt]
  · rw [if_neg h251]
    simp [sliceAt, h251]

theorem stringBounded_iff (hlast : last < 2 ^ 64) :
    StringBounded mem last pos ↔ PrefixFits mem last pos ∧ SliceFits mem last pos := by
  have hsize := headerSize_pos (mem pos)
  have hlen := encodedLength_lt mem pos
  constructor
  · intro h
    have hfits := (decodeLengthReading_within hlast).1 (decodeStringReading_within.1 h.reads)
    refine ⟨hfits, fun h251 h255 hend hmax => ?_⟩
    by_contra hwrap
    -- the sum wraps around to a pointer in front of the bytes, which passes the test
    have hback : addSize (pos + headerSize (mem pos)) (encodedLength mem pos) ≤ last := by
      unfold addSize
      omega
    have hvalue := decodeStringReading_of_fits hlast hfits
    rw [if_neg (not_or.mpr ⟨h255, Nat.not_lt.mpr hend⟩),
      if_neg (not_or.mpr ⟨h251, not_or.mpr ⟨by omega, hmax⟩⟩),
      if_neg (Nat.not_lt.mpr hback)] at hvalue
    have hslice := h.slice _ hvalue
    simp only at hslice
    omega
  · rintro ⟨hfits, hslice⟩
    have hvalue := decodeStringReading_of_fits hlast hfits
    have hresult : ∀ d, (decodeStringReading mem last pos).value = some d →
        (pos < d.pos ∧ d.pos ≤ last) ∧ (d.len ≠ 0 → pos ≤ d.str ∧ d.str + d.len ≤ last) := by
      intro d hd
      rw [hd] at hvalue
      split at hvalue
      · cases hvalue
      · rename_i hok
        obtain ⟨h255, hend⟩ := not_or.mp hok
        split at hvalue
        · cases hvalue
          exact ⟨⟨by simp only; omega, by simp only; omega⟩, fun h => absurd rfl h⟩
        · rename_i hempty
          obtain ⟨h251, -, hmax⟩ := by simpa only [not_or] using hempty
          have hsum := hslice h251 h255 (Nat.not_lt.mp hend) hmax
          rw [addSize_of_lt hsum] at hvalue
          split at hvalue
          · cases hvalue
          · cases hvalue
            exact ⟨⟨by simp only; omega, by simp only; omega⟩,
              fun _ => ⟨by simp only; omega, by simp only; omega⟩⟩
    exact ⟨decodeStringReading_within.2 ((decodeLengthReading_within hlast).2 hfits),
      fun d hd => (hresult d hd).1, fun d hd => (hresult d hd).2⟩

/-- A length is read inside the buffer just when its bytes are there or are missed by more than one, and
a string if besides its length does not wrap around. -/
theorem decodeReads_bounded (mem : Nat → Byte) (pos last : Nat) (hlast : last < 2 ^ 64) :
    (LengthBounded mem last pos ↔ PrefixFits mem last pos) ∧
      (StringBounded mem last pos ↔ PrefixFits mem last pos ∧ SliceFits mem last pos) :=
  ⟨lengthBounded_iff hlast, stringBounded_iff hlast⟩

/-- Two bytes of which the first announces a length of two. -/
theorem decodeReads_bounded_short :
    ((LengthBounded (fun _ => 252) 4098 4096 ↔ PrefixFits (fun _ => 252) 4098 4096) ∧
      (StringBounded (fun _ => 252) 4098 4096 ↔
        PrefixFits (fun _ => 252) 4098 4096 ∧ SliceFits (fun _ => 252) 4098 4096)) ∧
    ¬ PrefixFits (fun _ => 252) 4098 4096 :=
  ⟨decodeReads_bounded (fun _ => 252) 4096 4098 (by decide), by decide⟩

/-- The byte behind these two is read, and the new position is two bytes behind it. A string with
eight bytes of length lies in front of its buffer when the length is 2 ^ 64 - 6. -/
theorem decodeReads_not_bounded :
    ¬ LengthBounded (fun _ => 252) 4098 4096 ∧
    ¬ StringBounded (fun a => if a = 4096 then 254 else if a = 4097 then 250 else 255) 4105 4096 := by
  constructor
  · intro h
    have hread : Inside 4096 4098 4098 := h.reads 4098 (by decide)
    exact absurd hread.2 (Nat.lt_irrefl 4098)
  · intro h
    have hslice := h.slice { str := 4105, len := 2 ^ 64 - 6, pos := 4099 } (by decide) (by decide)
    exact absurd hslice.2 (by decide)

/-! ### The parser's functions -/

/-- The numbers are those of the parser of replies. -/
theorem littleEndian_eq (b : Reply) (size p : Nat) : littleEndian b.mem size p = b.korr size p := by
  induction size generalizing p with
  | zero => rfl
  | succ size ih => rw [littleEndian, Reply.korr, ih]

theorem prefixedReading_eq (b : Reply) {p test size : Nat} (hp : p + size < 2 ^ 64) :
    (prefixedReading b.mem b.bufEnd p test size).value =
      if addSize p test > b.bufEnd then (0, 0, p) else (1, b.korr size (p + 1), addSize p (size + 1)) := by
  unfold prefixedReading
  split
  · rfl
  · have hvalue : (korrReading b.mem size (addSize p 1)).value = b.korr size (p + 1) := by
      cases size with
      | zero => rfl
      | succ size =>
          rw [addSize_of_lt (by omega), value_korrReading (by omega), littleEndian_eq]
    rw [value_bind, value_pure, hvalue]

/-- The parser calls the functions with the end of its buffer. -/
theorem decodeLengthReading_value (b : Reply) {p : Nat} (hp : p + 8 < 2 ^ 64) :
    (decodeLengthReading b.mem b.bufEnd p).value = decodeLengthSafe b p := by
  unfold decodeLengthReading decodeLengthSafe
  rw [value_bind, value_load]
  simp only [value_ite, value_pure,
    prefixedReading_eq b (show p + 2 < 2 ^ 64 by omega),
    prefixedReading_eq b (show p + 3 < 2 ^ 64 by omega), prefixedReading_eq b hp]

/-- Strings are read as by the parser of replies. -/
theorem decodeStringReading_value (b : Reply) {p : Nat} (hp : p + 8 < 2 ^ 64) :
    (decodeStringReading b.mem b.bufEnd p).value = decodeString b p := by
  unfold decodeStringReading decodeString sliceAt
  rw [value_bind, value_pure, decodeLengthReading_value b hp]

end Workflow.Mysql
