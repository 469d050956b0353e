/-
Module: Workflow.Proofs.URIAccepted
Layer: Proofs
Purpose: What `URIParser::parse` leaves behind when it accepts a text: a scheme, a host that is valid or
  a decoded path, and a port that is valid. A text whose authority is empty has no host.
Trusted boundary: none
Main exports: stored_foldl_scanStep, stored_some, Accepted, parse_accepted, parse_slash_host
-/
import Workflow.Proofs.URIParser

namespace Workflow.Uri

open Workflow.Lib
open Workflow.Util

variable {str : List Byte} {s : Scan}

/-! ### Components that are not set again -/

theorem sepIndex_le {idx i : Nat} {c : Byte} (h : sepIndex idx c = some i) : idx ≤ i := by
  have hfound := List.find?_some h
  simp only [Bool.and_eq_true, decide_eq_true_eq] at hfound
  exact hfound.1

variable (str) in
/-- A step of the main loop sets the open component only. -/
theorem stored_scanStep {k : Nat} (c : Byte) (hk : k < s.idx + 2) :
    stored str (scanStep s c) k = stored str s k ∧ s.idx ≤ (scanStep s c).idx := by
  unfold scanStep
  cases hsep : sepIndex s.idx c with
  | none => exact ⟨rfl, Nat.le_refl _⟩
  | some i =>
      have hle := sepIndex_le hsep
      refine ⟨?_, Nat.le_succ_of_le hle⟩
      cases s.isIpv6 with
      | true => rfl
      | false => exact stored_setSpan_of_ne _ _ (Nat.ne_of_lt hk)

theorem stored_foldl_scanStep {k : Nat} (w : List Byte) (hk : k < s.idx + 2) :
    stored str (finishScan (w.foldl scanStep s)) k = stored str s k := by
  induction w generalizing s with
  | nil =>
      unfold finishScan
      rw [List.foldl_nil]
      split
      · exact stored_setSpan_of_ne _ _ (Nat.ne_of_lt hk)
      · rfl
  | cons c w ih =>
      obtain ⟨hsame, hidx⟩ := stored_scanStep str c hk
      rw [List.foldl_cons, ih (by omega), hsame]

theorem stored_scanUserinfo {k : Nat} (hk : k ≠ 1) (w : List Byte) (i : Nat) :
    stored str (scanUserinfo s w i) k = stored str s k := by
  induction w generalizing i with
  | nil => rfl
  | cons c w ih =>
      rw [scanUserinfo]
      split
      · exact stored_setSpan_of_ne _ _ hk
      · split
        · exact stored_setSpan_of_ne _ _ hk
        · exact ih _

theorem stored_scanBracket {t : Scan} {k : Nat} (hk : k ≠ 2) (h : scanBracket str s = some t) :
    stored str t k = stored str s k := by
  unfold scanBracket at h
  split at h
  · dsimp only at h
    split at h
    · cases h
    · split at h
      · cases h
      · cases h
        exact stored_setSpan_of_ne _ _ hk
  · cases h
    rfl

/-! ### Components lie in the text -/

/-- A component that is kept is its span, and is not empty. -/
theorem stored_some {k : Nat} {w : List Byte} (hwithin : s.Within str.length)
    (h : stored str s k = some w) :
    w = s.span str k ∧ w ≠ [] := by
  unfold stored at h
  split at h
  · rename_i hlt
    cases h
    refine ⟨rfl, fun hnil => ?_⟩
    have hed := (hwithin.spans k).2
    have hlen := congrArg List.length hnil
    rw [Scan.span, List.length_take, List.length_drop, List.length_nil] at hlen
    omega
  · cases h

/-! ### What is accepted -/

/-- A scheme as the parser accepts it. -/
def SchemeWf (scheme : List Byte) : Prop :=
  ∃ c rest, scheme = c :: rest ∧ isAlpha c ∧ ∀ d ∈ rest, validChar 0 d

/-- What is left behind by a text that is accepted. -/
structure Accepted (uri : ParsedURI) : Prop where
  scheme : ∃ scheme, uri.scheme = some scheme ∧ SchemeWf scheme
  host : ∀ h ∈ uri.host, h.head? = some 47 ∨
    (escapedSlash h = false ∧ h ≠ [] ∧ ∀ c ∈ h, validChar 2 c)
  port : ∀ p ∈ uri.port, p ≠ [] ∧ ∀ c ∈ p, validChar 3 c

/-- A host that begins with an escaped slash is decoded to a path. -/
theorem escapedSlash_head {w : List Byte} (h : escapedSlash w = true) :
    (cString (urlDecode w)).head? = some 47 := by
  unfold escapedSlash at h
  split at h
  · rename_i a b c rest
    simp only [Bool.and_eq_true, Bool.or_eq_true, beq_iff_eq] at h
    obtain ⟨⟨rfl, rfl⟩, rfl | rfl⟩ := h
    · rw [urlDecode, if_pos (by decide)]
      rfl
    · rw [urlDecode, if_pos (by decide)]
      rfl
  · cases h

theorem schemeWf_take (halpha : isAlpha (charAt str 0) = true) :
    SchemeWf (str.take (skipWhile (validChar 0) str 1)) := by
  cases str with
  | nil => exact absurd halpha (by decide)
  | cons c rest =>
      refine ⟨c, rest.takeWhile (validChar 0), ?_, halpha, fun d hd =>
        (List.mem_takeWhile_imp hd)⟩
      have hprefix := List.prefix_iff_eq_take.mp (List.takeWhile_prefix (p := validChar 0) (l := rest))
      rw [skipWhile, Nat.add_comm, List.take_succ_cons]
      exact congrArg _ hprefix.symm

theorem parse_accepted {text : List Byte} {uri : ParsedURI} :
    (parse text uri).1 = 0 → Accepted (parse text uri).2 := by
  have hfail : ∀ {p : Prop}, (-1 : Int) = 0 → p := fun h => absurd h (by decide)
  unfold parse
  generalize cString text = str
  unfold parseText
  dsimp only
  split
  · exact hfail
  rename_i halpha
  split
  · exact hfail
  rename_i hslashes
  split
  · exact hfail
  rename_i t hbracket
  split
  · exact hfail
  rename_i hvalid
  intro _
  simp only [Bool.not_eq_true', Bool.not_eq_false, Bool.and_eq_true, beq_iff_eq] at halpha hslashes
  simp only [Bool.not_eq_true', Bool.not_eq_false, List.all_cons, List.all_nil, Bool.and_true,
    Bool.and_eq_true, List.all_eq_true] at hvalid
  obtain ⟨-, hvalid2, hvalid3, -⟩ := hvalid
  generalize hn : skipWhile (validChar 0) str 1 = n at *
  have hstart : Scan.Passes str (schemeScan n) := .scheme hslashes.2
  have ht : Scan.Passes str t := .bracket hstart.userinfo hbracket
  have hfinish := ((ht.foldl (str.drop t.cur) rfl).finish).within
  refine ⟨⟨str.take n, ?_, hn ▸ schemeWf_take halpha⟩, fun h hh => ?_, fun p hp => ?_⟩
  · have hpos : 0 < n := by
      rw [← hn, skipWhile]
      omega
    refine (stored_foldl_scanStep _ (Nat.zero_lt_succ _)).trans ?_
    refine (stored_scanBracket (by decide) hbracket).trans ?_
    refine (stored_scanUserinfo (by decide) _ _).trans ?_
    exact if_pos hpos
  · obtain ⟨w, hw, rfl⟩ := Option.map_eq_some_iff.mp hh
    split
    · rename_i hescaped
      exact .inl (escapedSlash_head hescaped)
    · rename_i hplain
      obtain ⟨heq, hne⟩ := stored_some hfinish hw
      exact .inr ⟨Bool.not_eq_true _ ▸ hplain, hne, heq ▸ hvalid2⟩
  · obtain ⟨heq, hne⟩ := stored_some hfinish hp
    exact ⟨hne, heq ▸ hvalid3⟩

/-- A text with nothing between `://` and the first slash is invalid, or has no host. -/
theorem parse_slash_host {scheme w : List Byte} (uri : ParsedURI) (hscheme : SchemeWf scheme) :
    (parse (scheme ++ (ascii "://" ++ 47 :: w)) uri).2.state = .success →
      (parse (scheme ++ (ascii "://" ++ 47 :: w)) uri).2.host = none := by
  have hnul : ∀ c ∈ scheme ++ ascii "://", c ≠ 0 := by
    obtain ⟨c, rest, rfl, halpha, hrest⟩ := hscheme
    simp only [List.cons_append, List.forall_mem_cons, List.forall_mem_append]
    refine ⟨?_, fun d hd => validChar_ne (hrest d hd) (by decide), by simp [ascii]⟩
    rintro rfl
    exact absurd halpha (by decide)
  have htext : cString (scheme ++ (ascii "://" ++ 47 :: w)) =
      scheme ++ (ascii "://" ++ 47 :: cString w) := by
    rw [← List.append_assoc, cString, List.takeWhile_append_of_pos fun c hc =>
      decide_eq_true (hnul c hc), List.append_assoc]
    rfl
  rw [parse, htext]
  generalize hstr : scheme ++ (ascii "://" ++ 47 :: cString w) = str
  obtain ⟨hafter, -, hparse⟩ := parseText_scheme uri hscheme hstr.symm
  generalize scheme.length = n at hafter hparse
  let t := (schemeScan n).setSpan 1 (n + 3) (n + 3)
  have hbracket : scanBracket str (scanUserinfo (schemeScan n) (47 :: cString w) (n + 3)) =
      some t := by
    have huser : scanUserinfo (schemeScan n) (47 :: cString w) (n + 3) = t := rfl
    have hchar : charAt str t.cur = 47 := charAt_eq hafter
    rw [huser, scanBracket, hchar]
    rfl
  let u : Scan := { t.setSpan 2 (n + 3) (n + 3) with idx := 2, cur := n + 4 }
  have hfold : (str.drop t.cur).foldl scanStep t = (cString w).foldl scanStep u := by
    have hdrop : str.drop t.cur = 47 :: cString w := hafter
    rw [hdrop]
    rfl
  have hhost : stored str (finishScan ((str.drop t.cur).foldl scanStep t)) 2 = none := by
    have hidx : 2 < u.idx + 2 := show 2 < 2 + 2 by decide
    rw [hfold, stored_foldl_scanStep _ hidx]
    exact (stored_setSpan str t 2 (n + 3) (n + 3)).trans (if_neg (Nat.lt_irrefl _))
  rw [hparse, hbracket]
  dsimp only
  unfold copied
  split
  · intro hstate
    cases hstate
  · intro _
    show storedHost _ _ = none
    rw [storedHost, hhost]
    rfl

end Workflow.Uri
