/-
Module: Workflow.Proofs.UrlCoding
Layer: Proofs
Purpose: Decoding what an encoder wrote gives the text back, and decoding in place never writes past
  what it still has to read.
Trusted boundary: none
Main exports: urlDecode_urlEncodeWith, DecodeCursor.ahead, urlDecodeStep_next, urlDecodeString_eq,
  urlCoding
-/
import Workflow.Util.UrlCoding

namespace Workflow.Util

open Workflow.Lib

/-! ### Encoding and decoding -/

/-- Two hexadecimal digits are read as they were written. -/
theorem htoi_itoh (c : Byte) :
    isXdigit (itoh (c >>> 4)) = true ∧ isXdigit (itoh (c % 16)) = true ∧
      htoi (itoh (c >>> 4)) (itoh (c % 16)) = c := by
  have hall : ∀ n < 256, isXdigit (itoh (UInt8.ofNat n >>> 4)) = true ∧
      isXdigit (itoh (UInt8.ofNat n % 16)) = true ∧
      htoi (itoh (UInt8.ofNat n >>> 4)) (itoh (UInt8.ofNat n % 16)) = UInt8.ofNat n := by
    decide +kernel
  have hc := hall c.toNat c.toNat_lt
  rwa [UInt8.ofNat_toNat] at hc

theorem urlDecode_escape {hi lo : Byte} (rest : List Byte) (hhi : isXdigit hi = true)
    (hlo : isXdigit lo = true) :
    urlDecode (37 :: hi :: lo :: rest) = htoi hi lo :: urlDecode rest := by
  rw [urlDecode, hhi, hlo]
  rfl

/-- Where no escape begins, one character is decoded. -/
theorem urlDecode_cons {c : Byte} {rest : List Byte}
    (h : ∀ hi lo more, c = 37 → rest = hi :: lo :: more → isXdigit hi = true → isXdigit lo = false) :
    urlDecode (c :: rest) = (if c = 43 then SP else c) :: urlDecode rest := by
  match rest, h with
  | [], _ => simp [urlDecode]
  | [d], _ => simp [urlDecode]
  | hi :: lo :: more, h =>
      have hnot : ¬ (c == 37 && isXdigit hi && isXdigit lo) = true := by
        intro hescape
        simp only [Bool.and_eq_true, beq_iff_eq] at hescape
        obtain ⟨⟨hc, hhi⟩, hlo⟩ := hescape
        have hfalse := h hi lo more hc rfl hhi
        rw [hlo] at hfalse
        cases hfalse
      rw [urlDecode, if_neg hnot]
      simp

theorem urlDecode_cons_of_ne {c : Byte} (rest : List Byte) (h : c ≠ 37) :
    urlDecode (c :: rest) = (if c = 43 then SP else c) :: urlDecode rest :=
  urlDecode_cons fun _ _ _ hc => absurd hc h

/-- Whatever is copied, as long as `%` and `+` are not, decoding restores the text. -/
theorem urlDecode_urlEncodeWith {plain : Byte → Bool} (hpercent : plain 37 = false)
    (hplus : plain 43 = false) (str : List Byte) : urlDecode (urlEncodeWith plain str) = str := by
  induction str with
  | nil => rfl
  | cons c rest ih =>
      rw [urlEncodeWith]
      by_cases hspace : c = SP
      · rw [if_pos hspace, List.singleton_append, urlDecode_cons_of_ne _ (by decide), ih, hspace]
        rfl
      rw [if_neg hspace]
      by_cases hplain : plain c = true
      · have hne : c ≠ 37 := by
          rintro rfl
          rw [hpercent] at hplain
          cases hplain
        have hne' : c ≠ 43 := by
          rintro rfl
          rw [hplus] at hplain
          cases hplain
        rw [if_pos hplain, List.singleton_append, urlDecode_cons_of_ne _ hne, if_neg hne', ih]
      · obtain ⟨hhi, hlo, hc⟩ := htoi_itoh c
        rw [if_neg hplain]
        simp only [List.cons_append, List.nil_append]
        rw [urlDecode_escape _ hhi hlo, hc, ih]

/-! ### In place -/

namespace DecodeCursor

/-- The bytes that are still to be read. -/
def ahead (s : DecodeCursor) : List Byte :=
  (List.range' s.data s.len).map s.str

/-- The bytes that are decoded. -/
def written (s : DecodeCursor) : List Byte :=
  (List.range s.dest).map s.str

end DecodeCursor

/-- One pass writes the next byte of the decoded text. -/
theorem urlDecodeStep_next {s : DecodeCursor} (hlen : s.len ≠ 0) :
    ∃ c t, urlDecodeStep s = .next t ∧ t.str = Function.update s.str s.dest c ∧
      t.dest = s.dest + 1 ∧ s.data < t.data ∧ t.data + t.len = s.data + s.len ∧
      urlDecode s.ahead = c :: urlDecode ((List.range' t.data t.len).map s.str) := by
  obtain ⟨len, hsucc⟩ := Nat.exists_eq_succ_of_ne_zero hlen
  have hahead : s.ahead = s.str s.data :: (List.range' (s.data + 1) len).map s.str := by
    rw [DecodeCursor.ahead, hsucc, Nat.succ_eq_add_one, List.range'_succ, List.map_cons]
  rw [urlDecodeStep, if_neg hlen]
  simp only [hsucc, Nat.succ_eq_add_one, Nat.add_sub_cancel]
  by_cases hescape : s.str s.data = 37 ∧ len ≥ 2 ∧ isXdigit (s.str (s.data + 1)) = true ∧
      isXdigit (s.str (s.data + 2)) = true
  · obtain ⟨hpercent, htwo, hhi, hlo⟩ := hescape
    rw [if_pos ⟨hpercent, htwo, hhi, hlo⟩]
    obtain ⟨more, rfl⟩ : ∃ more, len = more + 2 := ⟨len - 2, by omega⟩
    refine ⟨_, _, rfl, rfl, rfl, ?_, ?_, ?_⟩
    · simp only [DecodeCursor.advance, DecodeCursor.put]
      omega
    · simp only [DecodeCursor.advance, DecodeCursor.put]
      omega
    · rw [hahead, hpercent, List.range'_succ, List.range'_succ, List.map_cons, List.map_cons]
      exact urlDecode_escape _ hhi hlo
  · have hone : urlDecode s.ahead = (if s.str s.data = 43 then SP else s.str s.data) ::
        urlDecode ((List.range' (s.data + 1) len).map s.str) := by
      rw [hahead]
      apply urlDecode_cons
      intro hi lo more hpercent hrest hhi
      match len, hescape, hrest with
      | 0, _, hrest => cases hrest
      | 1, _, hrest => cases hrest
      | more + 2, hescape, hrest =>
          rw [List.range'_succ, List.range'_succ, List.map_cons, List.map_cons] at hrest
          injection hrest with hfirst hrest
          injection hrest with hsecond
          rw [← hfirst] at hhi
          rw [← hsecond]
          cases hlo : isXdigit (s.str (s.data + 1 + 1)) with
          | false => rfl
          | true => exact absurd ⟨hpercent, by omega, hhi, hlo⟩ hescape
    rw [if_neg hescape]
    by_cases hplus : s.str s.data = 43
    · rw [if_pos hplus]
      rw [if_pos hplus] at hone
      exact ⟨_, _, rfl, rfl, rfl, Nat.lt_succ_self _, by
        simp only [DecodeCursor.advance, DecodeCursor.put]
        omega, hone⟩
    · rw [if_neg hplus]
      rw [if_neg hplus] at hone
      exact ⟨_, _, rfl, rfl, rfl, Nat.lt_succ_self _, by
        simp only [DecodeCursor.advance, DecodeCursor.put]
        omega, hone⟩

/-- The loop writes the decoded text behind what is written, and a NUL behind that. -/
theorem loop_urlDecodeStep (fuel : Nat) (s : DecodeCursor) (hle : s.dest ≤ s.data)
    (hfuel : s.len < fuel) :
    ∃ t, loop urlDecodeStep fuel s = some t ∧ t.written = s.written ++ urlDecode s.ahead := by
  induction fuel generalizing s with
  | zero => omega
  | succ fuel ih =>
      by_cases hlen : s.len = 0
      · refine ⟨s.put 0, loop_done (by rw [urlDecodeStep, if_pos hlen]) fuel, ?_⟩
        have hahead : s.ahead = [] := by rw [DecodeCursor.ahead, hlen, List.range'_zero, List.map_nil]
        rw [hahead, urlDecode, List.append_nil]
        apply List.map_congr_left
        intro i hi
        exact Function.update_of_ne (Nat.ne_of_lt (List.mem_range.mp hi)) _ _
      · obtain ⟨c, t, hstep, hstr, hdest, hdata, hsum, hdecode⟩ := urlDecodeStep_next hlen
        obtain ⟨u, hloop, hwritten⟩ := ih t (by omega) (by omega)
        refine ⟨u, by rw [loop_next hstep, hloop], ?_⟩
        have hahead : t.ahead = (List.range' t.data t.len).map s.str := by
          apply List.map_congr_left
          intro i hi
          have hlow := (List.mem_range'_1.mp hi).1
          rw [hstr]
          exact Function.update_of_ne (by omega) _ _
        have hfront : t.written = s.written ++ [c] := by
          rw [DecodeCursor.written, hdest, List.range_succ, List.map_append, List.map_singleton, hstr,
            Function.update_self]
          congr 1
          apply List.map_congr_left
          intro i hi
          exact Function.update_of_ne (Nat.ne_of_lt (List.mem_range.mp hi)) _ _
        rw [hwritten, hfront, hahead, hdecode, List.append_assoc, List.singleton_append]

/-- The position that is written never passes the one that is read. -/
theorem dest_le_data {s t : DecodeCursor} (h : Reaches urlDecodeStep s t) (hs : s.dest ≤ s.data) :
    t.dest ≤ t.data := by
  apply h.invariant (P := fun s => s.dest ≤ s.data) _ hs
  intro s t hle hstep
  by_cases hlen : s.len = 0
  · rw [urlDecodeStep, if_pos hlen] at hstep
    cases hstep
  · obtain ⟨c, u, hnext, -, hdest, hdata, -⟩ := urlDecodeStep_next hlen
    cases hnext.symm.trans hstep
    omega

/-- Decoding in place is decoding. -/
theorem urlDecodeString_eq (str : List Byte) : urlDecodeString str = some (urlDecode str) := by
  unfold urlDecodeString
  split
  · rename_i hempty
    rw [hempty]
    rfl
  · obtain ⟨t, hloop, hwritten⟩ := loop_urlDecodeStep (str.length + 1)
      (.start (fun i => str.getD i 0) str.length) (Nat.le_refl 0) (Nat.lt_succ_self _)
    have hahead : (DecodeCursor.start (fun i => str.getD i 0) str.length).ahead = str := by
      apply List.ext_getElem
      · simp [DecodeCursor.ahead, DecodeCursor.start]
      · intro i hi hi'
        simp [DecodeCursor.ahead, DecodeCursor.start, hi']
    rw [hahead] at hwritten
    rw [urlDecodeBuffer, hloop]
    exact congrArg some hwritten

/-- Both encoders are undone by decoding in place, and in every buffer decoding writes no further
than it has read. -/
theorem urlCoding (str : List Byte) (buf : Nat → Byte) (len : Nat) :
    urlDecodeString (urlEncode str) = some str ∧
      urlDecodeString (urlEncodeComponent str) = some str ∧
      (∃ result, urlDecodeBuffer buf len = some result) ∧
      ∀ s, Reaches urlDecodeStep (.start buf len) s → s.dest ≤ s.data := by
  refine ⟨?_, ?_, ?_, fun s h => dest_le_data h (Nat.le_refl 0)⟩
  · rw [urlDecodeString_eq, urlEncode, urlDecode_urlEncodeWith rfl rfl]
  · rw [urlDecodeString_eq, urlEncodeComponent, urlDecode_urlEncodeWith rfl rfl]
  · obtain ⟨t, hloop, -⟩ := loop_urlDecodeStep (len + 1) (.start buf len) (Nat.le_refl 0)
      (Nat.lt_succ_self len)
    exact ⟨_, by rw [urlDecodeBuffer, hloop, Option.map_some]⟩

end Workflow.Util
