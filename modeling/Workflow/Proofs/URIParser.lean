/-
Module: Workflow.Proofs.URIParser
Layer: Proofs
Purpose: `URIParser::parse` inverts rendering. After the host the text is a list of parts, each a
  separator and a body in which no later separator stands; what the main loop does with one part is
  said once, and an induction over the parts gives the whole text, whichever of them are present.
  A `SplitText` is what the scan takes apart, with parts that may be empty or not valid; a `UriText`
  is one that is accepted as it stands. No offset passes the end of the text, so that those of a
  text shorter than `2 ^ 31` bytes are `int`s as in the source.
Trusted boundary: none
Main exports: HostText, UriText, UriText.render, kept, foldl_part, foldl_parts, SplitText,
  parseText_scheme, parse_split, Scan.Passes, Scan.Passes.fits, parse_render, parse_literal_decoded
-/
import Workflow.Util.URIParser
import Mathlib.Data.List.Basic

namespace Workflow.Uri

open Workflow.Lib
open Workflow.Util

/-! ### Texts of URIs -/

/-- A host as it is written. -/
inductive HostText where
  | regName (name : List Byte)
  | literal (name : List Byte)
deriving Repr, DecidableEq

namespace HostText

def name : HostText → List Byte
  | regName name => name
  | literal name => name

def bytes : HostText → List Byte
  | regName name => name
  | literal name => 91 :: name ++ [93]

end HostText

/-- The components of a URI, over the parser's own character tables. -/
structure UriText where
  scheme : List Byte
  userinfo : Option (List Byte)
  host : HostText
  port : Option (List Byte)
  path : Option (List Byte)
  query : Option (List Byte)
  fragment : Option (List Byte)
  scheme_wf : ∃ c rest, scheme = c :: rest ∧ isAlpha c ∧ ∀ d ∈ rest, validChar 0 d
  userinfo_wf : ∀ u ∈ userinfo, u ≠ [] ∧ ∀ c ∈ u, validChar 1 c
  host_wf : host.name ≠ [] ∧ ∀ c ∈ host.name, validChar 2 c
  regName_wf : ∀ n, host = .regName n → 58 ∉ n
  port_wf : ∀ p ∈ port, p ≠ [] ∧ ∀ c ∈ p, validChar 3 c
  path_wf : ∀ p ∈ path, p.head? = some 47 ∧ ∀ c ∈ p, validChar 4 c
  query_wf : ∀ q ∈ query, q ≠ [] ∧ ∀ c ∈ q, validChar 5 c
  fragment_wf : ∀ f ∈ fragment, f ≠ [] ∧ ∀ c ∈ f, validChar 6 c

/-- `scheme://[userinfo@]host[:port][path][?query][#fragment]`. -/
def UriText.render (u : UriText) : List Byte :=
  u.scheme ++ ascii "://" ++ u.userinfo.elim [] (· ++ [64]) ++ u.host.bytes ++
    u.port.elim [] (58 :: ·) ++ u.path.getD [] ++ u.query.elim [] (63 :: ·) ++
    u.fragment.elim [] (35 :: ·)

/-! ### Characters -/

/-- A byte of a table is none of the bytes outside it. -/
theorem validChar_ne {i : Nat} {c d : Byte} (h : validChar i c = true)
    (hd : validChar i d = false) : c ≠ d := by
  rintro rfl
  rw [h] at hd
  cases hd

/-- A separator is found at its place. -/
theorem sepIndex_sep {i idx : Nat} (hi : i < 4) (hidx : idx ≤ i) :
    sepIndex idx (sep.getD i 0) = some i := by
  have hall : ∀ i < 4, ∀ idx < i + 1, sepIndex idx (sep.getD i 0) = some i := by decide
  exact hall i hi idx (by omega)

/-- A byte that is none of the separators from `idx` on. -/
theorem sepIndex_eq_none {idx : Nat} {c : Byte} (h : ∀ i < 4, idx ≤ i → c ≠ sep.getD i 0) :
    sepIndex idx c = none := by
  rw [sepIndex, List.find?_eq_none]
  intro i hi hfound
  simp only [Bool.and_eq_true, decide_eq_true_eq, beq_iff_eq] at hfound
  exact h i (List.mem_range.mp hi) hfound.1 hfound.2.symm

/-! ### The main loop -/

/-- A separator, by its index in `sep`, and what follows it. -/
structure Part where
  sepAt : Nat
  body : List Byte

namespace Part

def bytes (p : Part) : List Byte :=
  sep.getD p.sepAt 0 :: p.body

/-- The component that the part holds: the path keeps its slash. -/
def text (p : Part) : List Byte :=
  if p.sepAt = 1 then p.bytes else p.body

/-- The part ends where the scan says it does. -/
structure Wf (p : Part) : Prop where
  lt : p.sepAt < 4
  free : ∀ c ∈ p.body, sepIndex (p.sepAt + 1) c = none

end Part

/-- What is kept of a component: nothing of an empty one. -/
def kept (w : List Byte) : Option (List Byte) :=
  if w = [] then none else some w

theorem kept_of_ne {w : List Byte} (h : w ≠ []) : kept w = some w :=
  if_neg h

/-- What a separator or the end of the text does to the open component. -/
def closeSpan (s : Scan) : Scan :=
  if s.isIpv6 then s else s.setSpan (s.idx + 2) s.last s.cur

/-- Characters that separate nothing are passed over. -/
theorem foldl_free {w : List Byte} {s : Scan} (h : ∀ c ∈ w, sepIndex s.idx c = none) :
    w.foldl scanStep s = { s with cur := s.cur + w.length } := by
  induction w generalizing s with
  | nil => rfl
  | cons c w ih =>
      have hstep : scanStep s c = { s with cur := s.cur + 1 } := by
        rw [scanStep, h c List.mem_cons_self]
      have hrest := ih (s := { s with cur := s.cur + 1 })
        fun d hd => h d (List.mem_cons_of_mem c hd)
      rw [List.foldl_cons, hstep, hrest]
      simp only [List.length_cons, Scan.mk.injEq, true_and, and_true]
      omega

/-- A part is passed over from its separator to its end. -/
theorem foldl_part {p : Part} {s : Scan} (hp : p.Wf) (hidx : s.idx ≤ p.sepAt) :
    p.bytes.foldl scanStep s =
      { closeSpan s with
        idx := p.sepAt + 1
        last := if p.sepAt = 1 then s.cur else s.cur + 1
        cur := s.cur + p.bytes.length
        isIpv6 := false } := by
  have hslash : (sep.getD p.sepAt 0 == 47) = decide (p.sepAt = 1) := by
    have hall : ∀ i < 4, (sep.getD i 0 == 47) = decide (i = 1) := by decide
    exact hall _ hp.lt
  have hstep : scanStep s (sep.getD p.sepAt 0) =
      { closeSpan s with
        idx := p.sepAt + 1
        last := if p.sepAt = 1 then s.cur else s.cur + 1
        cur := s.cur + 1
        isIpv6 := false } := by
    simp only [scanStep, sepIndex_sep hp.lt hidx, hslash, decide_eq_true_eq, closeSpan]
    cases hv6 : s.isIpv6 <;> simp [Scan.setSpan, hv6]
  rw [Part.bytes, List.foldl_cons, hstep, foldl_free hp.free]
  simp only [List.length_cons, Scan.mk.injEq, true_and, and_true]
  omega

theorem closeSpan_of_not_ipv6 (st ed : Nat → Nat) (cur last idx : Nat) :
    closeSpan ⟨st, ed, cur, last, idx, false⟩ =
      (Scan.mk st ed cur last idx false).setSpan (idx + 2) last cur := rfl

/-- What is stored is the text of the span. -/
theorem stored_setSpan (str : List Byte) (s : Scan) (i first beyond : Nat) :
    stored str (s.setSpan i first beyond) i =
      if first < beyond then some ((str.drop first).take (beyond - first)) else none := by
  simp only [stored, Scan.span, Scan.setSpan, Function.update_self]

/-- The other spans stay as they are. -/
theorem stored_setSpan_of_ne {str : List Byte} {s : Scan} {i k : Nat} (first beyond : Nat)
    (h : k ≠ i) : stored str (s.setSpan i first beyond) k = stored str s k := by
  simp only [stored, Scan.span, Scan.setSpan, Function.update_of_ne h]

/-- A span over a text stores it, unless it is empty. -/
theorem stored_setSpan_text {str w rest : List Byte} (s : Scan) (i : Nat) {first : Nat}
    (h : str.drop first = w ++ rest) :
    stored str (s.setSpan i first (first + w.length)) i = kept w := by
  rw [stored_setSpan, h, Nat.add_sub_cancel_left, List.take_left, kept]
  cases w with
  | nil => simp
  | cons c w => simp

/-- The scan after a part, with the part's component closed. -/
theorem stored_part {str : List Byte} {p : Part} {s : Scan} {rest : List Byte} (hp : p.Wf)
    (hidx : s.idx ≤ p.sepAt) (hstr : str.drop s.cur = p.bytes ++ rest) :
    let t := p.bytes.foldl scanStep s
    str.drop t.cur = rest ∧ t.last ≤ t.cur ∧ t.idx = p.sepAt + 1 ∧
      (∀ k, stored str t k = stored str (closeSpan s) k) ∧
      stored str (closeSpan t) (p.sepAt + 3) = kept p.text ∧
      ∀ k, k ≠ p.sepAt + 3 → stored str (closeSpan t) k = stored str (closeSpan s) k := by
  have hlen : p.bytes.length = p.body.length + 1 := rfl
  simp only [foldl_part hp hidx, closeSpan_of_not_ipv6]
  refine ⟨?_, ?_, trivial, fun _ => rfl, ?_, ?_⟩
  · rw [← List.drop_drop, hstr, List.drop_left]
  · split_ifs <;> omega
  · by_cases hslash : p.sepAt = 1
    · rw [if_pos hslash, stored_setSpan_text _ _ hstr, Part.text, if_pos hslash]
    · have hbody : str.drop (s.cur + 1) = p.body ++ rest := by
        rw [← List.drop_drop, hstr]
        rfl
      have hend : s.cur + p.bytes.length = s.cur + 1 + p.body.length := by omega
      rw [if_neg hslash, hend, stored_setSpan_text _ _ hbody, Part.text, if_neg hslash]
  · intro k hk
    exact stored_setSpan_of_ne _ _ hk

/-- The open component lies behind what was scanned, and neither it nor a later one is stored yet. -/
structure Scan.Open (str : List Byte) (s : Scan) : Prop where
  le : s.last ≤ s.cur
  unset : s.isIpv6 = false → stored str s (s.idx + 2) = none
  later : ∀ k, s.idx + 3 ≤ k → stored str (closeSpan s) k = none

/-- At the end of the text an empty component is not closed, which makes no difference. -/
theorem Scan.Open.finishScan {str : List Byte} {s : Scan} (h : s.Open str) (k : Nat) :
    stored str (Uri.finishScan s) k = stored str (closeSpan s) k := by
  unfold Uri.finishScan closeSpan
  cases hv6 : s.isIpv6 with
  | true => simp
  | false =>
      by_cases hlt : s.last < s.cur
      · simp [hlt]
      · have hunset := h.unset hv6
        simp only [hlt, decide_false, Bool.false_and, Bool.false_eq_true, ↓reduceIte]
        by_cases hk : k = s.idx + 2
        · rw [hk, stored_setSpan, if_neg hlt, hunset]
        · rw [stored_setSpan_of_ne _ _ hk]

/-- A part is stored when the next one begins. -/
theorem Scan.Open.part {str : List Byte} {p : Part} {s : Scan} {rest : List Byte}
    (h : s.Open str) (hp : p.Wf) (hidx : s.idx ≤ p.sepAt)
    (hstr : str.drop s.cur = p.bytes ++ rest) : (p.bytes.foldl scanStep s).Open str := by
  obtain ⟨-, hle, htidx, hsame, -, hother⟩ := stored_part hp hidx hstr
  refine ⟨hle, fun _ => ?_, fun k hk => ?_⟩
  · rw [htidx, hsame]
    exact h.later _ (by omega)
  · rw [htidx] at hk
    rw [hother k (by omega)]
    exact h.later k (by omega)

/-- The main loop over the parts that follow the host. -/
theorem foldl_parts {str : List Byte} {parts : List Part} {s : Scan}
    (hwf : ∀ p ∈ parts, p.Wf) (horder : parts.Pairwise fun p q => p.sepAt < q.sepAt)
    (hidx : ∀ p ∈ parts, s.idx ≤ p.sepAt) (hopen : s.Open str)
    (hstr : str.drop s.cur = parts.flatMap Part.bytes) :
    let t := finishScan ((parts.flatMap Part.bytes).foldl scanStep s)
    (∀ p ∈ parts, stored str t (p.sepAt + 3) = kept p.text) ∧
      ∀ k, (∀ p ∈ parts, k ≠ p.sepAt + 3) → stored str t k = stored str (closeSpan s) k := by
  induction parts generalizing s with
  | nil => simp [hopen.finishScan]
  | cons p parts ih =>
      rw [List.flatMap_cons] at hstr
      rw [List.pairwise_cons] at horder
      have hp : p.Wf := hwf p List.mem_cons_self
      have hfirst : s.idx ≤ p.sepAt := hidx p List.mem_cons_self
      obtain ⟨hdrop, -, htidx, -, hself, hother⟩ := stored_part hp hfirst hstr
      obtain ⟨hparts, hrest⟩ := ih (s := p.bytes.foldl scanStep s)
        (fun q hq => hwf q (List.mem_cons_of_mem p hq)) horder.2
        (fun q hq => by rw [htidx]; exact horder.1 q hq) (hopen.part hp hfirst hstr) hdrop
      simp only [List.flatMap_cons, List.foldl_append]
      refine ⟨?_, ?_⟩
      · intro q hq
        rcases List.mem_cons.mp hq with rfl | hq
        · rw [hrest _ fun r hr => by have := horder.1 r hr; omega]
          exact hself
        · exact hparts q hq
      · intro k hk
        rw [hrest k fun r hr => hk r (List.mem_cons_of_mem p hr)]
        exact hother k (hk p List.mem_cons_self)

/-! ### The userinfo and the host -/

/-- The bytes at which the search for `@` stops. -/
def endsHost (c : Byte) : Bool :=
  c == 47 || c == 63 || c == 35

theorem endsHost_of_sepIndex {c : Byte} (h : sepIndex 1 c = none) : endsHost c = false := by
  rw [sepIndex, List.find?_eq_none] at h
  have hne : ∀ i < 4, 1 ≤ i → c ≠ sep.getD i 0 := fun i hi hidx heq =>
    h i (List.mem_range.mpr hi) (by simp [hidx, heq])
  have h47 : c ≠ 47 := hne 1 (by decide) (by decide)
  have h63 : c ≠ 63 := hne 2 (by decide) (by decide)
  have h35 : c ≠ 35 := hne 3 (by decide) (by decide)
  simp [endsHost, h47, h63, h35]

/-- The user information ends at the `@`. -/
theorem scanUserinfo_at {s : Scan} {u rest : List Byte} {i : Nat}
    (h : ∀ c ∈ u, endsHost c = false ∧ c ≠ 64) :
    scanUserinfo s (u ++ 64 :: rest) i =
      { s.setSpan 1 s.cur (i + u.length) with cur := i + u.length + 1 } := by
  induction u generalizing i with
  | nil => rfl
  | cons c u ih =>
      have hc := h c List.mem_cons_self
      have hends : (c == 47 || c == 63 || c == 35) = false := hc.1
      have hat : (c == 64) = false := beq_eq_false_iff_ne.mpr hc.2
      rw [List.cons_append, scanUserinfo, hends, hat]
      simp only [Bool.false_eq_true, ↓reduceIte]
      rw [ih fun d hd => h d (List.mem_cons_of_mem c hd), List.length_cons, Nat.add_right_comm,
        Nat.add_assoc]

/-- Without an `@` before the end of the host the search changes no span that is not empty. -/
theorem scanUserinfo_none {s : Scan} {w rest : List Byte} {i : Nat}
    (h : ∀ c ∈ w, endsHost c = false ∧ c ≠ 64) (hrest : ∀ c ∈ rest.head?, endsHost c = true) :
    scanUserinfo s (w ++ rest) i = s ∨ scanUserinfo s (w ++ rest) i = s.setSpan 1 s.cur s.cur := by
  induction w generalizing i with
  | nil =>
      cases rest with
      | nil => exact .inl rfl
      | cons c rest =>
          have hends : (c == 47 || c == 63 || c == 35) = true := hrest c rfl
          right
          rw [List.nil_append, scanUserinfo, if_pos hends]
  | cons c w ih =>
      have hc := h c List.mem_cons_self
      have hends : (c == 47 || c == 63 || c == 35) = false := hc.1
      have hat : (c == 64) = false := beq_eq_false_iff_ne.mpr hc.2
      rw [List.cons_append, scanUserinfo, hends, hat]
      exact ih fun d hd => h d (List.mem_cons_of_mem c hd)

theorem takeWhile_append_of_head {p : Byte → Bool} {w rest : List Byte} (h : ∀ c ∈ w, p c = true)
    (hrest : ∀ c ∈ rest.head?, p c = false) : (w ++ rest).takeWhile p = w := by
  rw [List.takeWhile_append_of_pos h]
  cases rest with
  | nil => simp
  | cons c rest => simp [hrest c rfl]

theorem charAt_eq {str rest : List Byte} {c : Byte} {i : Nat} (h : str.drop i = c :: rest) :
    charAt str i = c := by
  rw [charAt, List.getD_eq_getElem?_getD, ← List.head?_drop, h]
  rfl

/-- Behind the text stands its NUL. -/
theorem charAt_end {str : List Byte} {i : Nat} (h : str.drop i = []) : charAt str i = 0 := by
  rw [charAt, List.getD_eq_getElem?_getD, ← List.head?_drop, h]
  rfl

theorem drop_add_of_append {str w rest : List Byte} {i : Nat} (h : str.drop i = w ++ rest) :
    str.drop (i + w.length) = rest := by
  rw [← List.drop_drop, h, List.drop_left]

/-- The scan of a host in brackets. -/
theorem scanBracket_literal {str name rest : List Byte} {s : Scan}
    (hstr : str.drop s.cur = 91 :: name ++ 93 :: rest) (hname : 93 ∉ name)
    (hrest : ∀ c ∈ rest.head?, c ∈ sep) :
    scanBracket str s =
      some { s.setSpan 2 (s.cur + 1) (s.cur + 1 + name.length) with
        cur := s.cur + 1 + name.length + 1
        isIpv6 := true } := by
  have hbody : str.drop (s.cur + 1) = name ++ 93 :: rest := by
    rw [← List.drop_drop, hstr]
    rfl
  have hclose : skipWhile (· ≠ 93) str (s.cur + 1) = s.cur + 1 + name.length := by
    rw [skipWhile, hbody, takeWhile_append_of_head]
    · intro c hc
      exact decide_eq_true fun heq => hname (heq ▸ hc)
    · rintro c hc
      cases hc
      rfl
  have hbracket : charAt str (s.cur + 1 + name.length) = 93 :=
    charAt_eq (drop_add_of_append hbody)
  have hafter : str.drop (s.cur + 1 + name.length + 1) = rest := by
    rw [← List.drop_drop, drop_add_of_append hbody]
    rfl
  have hsep : (charAt str (s.cur + 1 + name.length + 1) != 0 &&
      !sep.contains (charAt str (s.cur + 1 + name.length + 1))) = false := by
    cases hcase : rest with
    | nil =>
        rw [charAt_end (by rw [hafter, hcase])]
        rfl
    | cons c rest' =>
        have hmem : c ∈ sep := hrest c (by rw [hcase]; rfl)
        rw [charAt_eq (by rw [hafter, hcase])]
        simp [hmem]
  simp only [scanBracket, charAt_eq hstr, beq_self_eq_true, ↓reduceIte, hclose, hbracket,
    bne_self_eq_false, Bool.false_eq_true, hsep]

/-! ### The whole text -/

/-- The components as the scan takes them apart. Port and path are not checked against their tables,
and what follows the host may be empty. -/
structure SplitText where
  scheme : List Byte
  userinfo : Option (List Byte)
  host : HostText
  port : Option (List Byte)
  path : Option (List Byte)
  query : Option (List Byte)
  fragment : Option (List Byte)
  scheme_wf : ∃ c rest, scheme = c :: rest ∧ isAlpha c ∧ ∀ d ∈ rest, validChar 0 d
  userinfo_wf : ∀ u ∈ userinfo, u ≠ [] ∧ ∀ c ∈ u, validChar 1 c
  host_wf : ∀ c ∈ host.name, validChar 2 c
  regName_wf : ∀ n, host = .regName n → 58 ∉ n
  port_wf : ∀ p ∈ port, ∀ c ∈ p, sepIndex 1 c = none ∧ c ≠ 64 ∧ c ≠ 0
  path_wf : ∀ p ∈ path, p.head? = some 47 ∧ ∀ c ∈ p, sepIndex 2 c = none ∧ c ≠ 0
  query_wf : ∀ q ∈ query, ∀ c ∈ q, sepIndex 3 c = none ∧ c ≠ 0
  fragment_wf : ∀ f ∈ fragment, 0 ∉ f

namespace SplitText

variable (u : SplitText)

/-- `scheme://[userinfo@]host[:port][path][?query][#fragment]`. -/
def render : List Byte :=
  u.scheme ++ ascii "://" ++ u.userinfo.elim [] (· ++ [64]) ++ u.host.bytes ++
    u.port.elim [] (58 :: ·) ++ u.path.getD [] ++ u.query.elim [] (63 :: ·) ++
    u.fragment.elim [] (35 :: ·)

/-- The parts that are present, in order. -/
def parts : List Part :=
  (u.port.map (Part.mk 0)).toList ++ (u.path.map fun p => Part.mk 1 p.tail).toList ++
    (u.query.map (Part.mk 2)).toList ++ (u.fragment.map (Part.mk 3)).toList

/-- The parts behind the host. -/
theorem mem_parts {u : SplitText} {p : Part} :
    p ∈ u.parts ↔
      (∃ w ∈ u.port, p = ⟨0, w⟩) ∨ (∃ w ∈ u.path, p = ⟨1, w.tail⟩) ∨
        (∃ w ∈ u.query, p = ⟨2, w⟩) ∨ (∃ w ∈ u.fragment, p = ⟨3, w⟩) := by
  simp only [parts, List.mem_append, Option.mem_toList, Option.map_eq_some_iff, Option.mem_def,
    or_assoc, eq_comm (a := p)]

theorem path_eq {w : List Byte} (h : w ∈ u.path) : w = 47 :: w.tail := by
  have hhead := (u.path_wf w h).1
  cases w with
  | nil => cases hhead
  | cons c rest =>
      cases hhead
      rfl

/-- The text behind the host is that of the parts. -/
theorem parts_bytes :
    u.parts.flatMap Part.bytes =
      u.port.elim [] (58 :: ·) ++ u.path.getD [] ++ u.query.elim [] (63 :: ·) ++
        u.fragment.elim [] (35 :: ·) := by
  have hpath : ((u.path.map fun p => Part.mk 1 p.tail).toList).flatMap Part.bytes =
      u.path.getD [] := by
    cases hp : u.path with
    | none => rfl
    | some w =>
        have hw := u.path_eq hp
        rw [hw]
        simp [Part.bytes, sep]
  rw [parts, List.flatMap_append, List.flatMap_append, List.flatMap_append, hpath]
  cases u.port <;> cases u.query <;> cases u.fragment <;> simp [Part.bytes, sep]

/-- The parts stand in the order of their separators. -/
theorem parts_order : u.parts.Pairwise fun p q => p.sepAt < q.sepAt := by
  rw [parts]
  cases u.port <;> cases u.path <;> cases u.query <;> cases u.fragment <;> simp

/-- No part holds a separator of a later one. -/
theorem parts_wf {p : Part} (hp : p ∈ u.parts) : p.Wf := by
  rcases mem_parts.mp hp with ⟨w, hw, rfl⟩ | ⟨w, hw, rfl⟩ | ⟨w, hw, rfl⟩ | ⟨w, hw, rfl⟩
  · exact ⟨Nat.lt_of_sub_eq_succ rfl, fun c hc => (u.port_wf w hw c hc).1⟩
  · exact ⟨Nat.lt_of_sub_eq_succ rfl,
      fun c hc => ((u.path_wf w hw).2 c (List.mem_of_mem_tail hc)).1⟩
  · exact ⟨Nat.lt_of_sub_eq_succ rfl, fun c hc => (u.query_wf w hw c hc).1⟩
  · refine ⟨Nat.lt_of_sub_eq_succ rfl, fun c _ => sepIndex_eq_none ?_⟩
    intro i hi hidx
    simp only at hidx
    omega

/-- The host holds none of the characters that end it. -/
theorem host_free {c : Byte} (hc : c ∈ u.host.name) :
    endsHost c = false ∧ c ≠ 64 ∧ c ≠ 91 ∧ c ≠ 93 ∧ c ≠ 0 := by
  have hvalid := u.host_wf c hc
  refine ⟨?_, validChar_ne hvalid (by decide), validChar_ne hvalid (by decide),
    validChar_ne hvalid (by decide), validChar_ne hvalid (by decide)⟩
  have h47 : c ≠ 47 := validChar_ne hvalid (by decide)
  have h63 : c ≠ 63 := validChar_ne hvalid (by decide)
  have h35 : c ≠ 35 := validChar_ne hvalid (by decide)
  simp [endsHost, h47, h63, h35]

/-- The host as it is written, and the port, hold neither `@` nor the end of the host. -/
theorem authority_free {c : Byte} (hc : c ∈ u.host.bytes ++ u.port.elim [] (58 :: ·)) :
    endsHost c = false ∧ c ≠ 64 := by
  have hname : c ∈ u.host.name → endsHost c = false ∧ c ≠ 64 := fun h =>
    ⟨(u.host_free h).1, (u.host_free h).2.1⟩
  rcases List.mem_append.mp hc with hhost | hport
  · cases hh : u.host with
    | regName name =>
        rw [hh] at hhost hname
        exact hname hhost
    | literal name =>
        rw [hh] at hhost hname
        have hcases : c = 91 ∨ c ∈ name ∨ c = 93 := by simpa [HostText.bytes] using hhost
        rcases hcases with rfl | hin | rfl
        · decide
        · exact hname hin
        · decide
  · cases hp : u.port with
    | none => simp [hp] at hport
    | some w =>
        have hcases : c = 58 ∨ c ∈ w := by simpa [hp] using hport
        rcases hcases with rfl | hin
        · decide
        · obtain ⟨hsep, hat, -⟩ := u.port_wf w hp c hin
          exact ⟨endsHost_of_sepIndex hsep, hat⟩

/-- What follows the port. -/
def tailBytes : List Byte :=
  u.path.getD [] ++ u.query.elim [] (63 :: ·) ++ u.fragment.elim [] (35 :: ·)

/-- What follows the host and the port begins with a separator. -/
theorem tailBytes_head : ∀ c ∈ u.tailBytes.head?, endsHost c = true := by
  intro c hc
  rw [tailBytes] at hc
  cases hp : u.path with
  | some w =>
      rw [hp, Option.getD_some, u.path_eq hp] at hc
      cases hc
      rfl
  | none =>
      rw [hp] at hc
      cases hq : u.query with
      | some w =>
          rw [hq] at hc
          cases hc
          rfl
      | none =>
          rw [hq] at hc
          cases hf : u.fragment with
          | some w =>
              rw [hf] at hc
              cases hc
              rfl
          | none =>
              rw [hf] at hc
              cases hc

theorem parts_bytes_tail :
    u.parts.flatMap Part.bytes = u.port.elim [] (58 :: ·) ++ u.tailBytes := by
  rw [parts_bytes, tailBytes, List.append_assoc, List.append_assoc, List.append_assoc]

theorem parts_head : ∀ c ∈ (u.parts.flatMap Part.bytes).head?, c ∈ sep := by
  intro c hc
  cases hparts : u.parts with
  | nil =>
      rw [hparts] at hc
      cases hc
  | cons p rest =>
      have hlt : p.sepAt < 4 := (u.parts_wf (by rw [hparts]; exact List.mem_cons_self)).lt
      have hall : ∀ i < 4, sep.getD i 0 ∈ sep := by decide
      rw [hparts] at hc
      cases hc
      exact hall _ hlt

/-- The scan when the userinfo has been found or found missing. -/
structure AtHost (str : List Byte) (s : Scan) : Prop where
  text : str.drop s.cur = u.host.bytes ++ u.parts.flatMap Part.bytes
  scheme : stored str s 0 = some u.scheme
  userinfo : stored str s 1 = u.userinfo
  rest : ∀ k, 2 ≤ k → stored str s k = none
  le : s.last ≤ s.cur
  idx : s.idx = 0
  isIpv6 : s.isIpv6 = false

/-- The scan at the first part, with the host still to be closed. -/
structure AtParts (str : List Byte) (s : Scan) : Prop where
  text : str.drop s.cur = u.parts.flatMap Part.bytes
  scheme : stored str (closeSpan s) 0 = some u.scheme
  userinfo : stored str (closeSpan s) 1 = u.userinfo
  host : stored str (closeSpan s) 2 = kept u.host.name
  idx : s.idx = 0
  pending : s.Open str

variable {u}

/-- The user information is passed over. -/
theorem AtHost.of_start {str : List Byte} {s : Scan}
    (hstr : str.drop s.cur = u.userinfo.elim [] (· ++ [64]) ++ u.host.bytes ++
      u.parts.flatMap Part.bytes)
    (hscheme : stored str s 0 = some u.scheme) (hrest : ∀ k, 1 ≤ k → stored str s k = none)
    (hle : s.last ≤ s.cur) (hidx : s.idx = 0) (hv6 : s.isIpv6 = false) :
    u.AtHost str (scanUserinfo s (str.drop s.cur) s.cur) := by
  cases hu : u.userinfo with
  | none =>
      have hsame : ∀ k, stored str (s.setSpan 1 s.cur s.cur) k = stored str s k := by
        intro k
        by_cases hk : k = 1
        · rw [hk, stored_setSpan, if_neg (Nat.lt_irrefl _), hrest 1 le_rfl]
        · exact stored_setSpan_of_ne _ _ hk
      have htext : str.drop s.cur = u.host.bytes ++ u.parts.flatMap Part.bytes := by
        rw [hstr, hu]
        rfl
      have hsplit : str.drop s.cur =
          (u.host.bytes ++ u.port.elim [] (58 :: ·)) ++ u.tailBytes := by
        rw [htext, parts_bytes_tail, List.append_assoc]
      have hscan := scanUserinfo_none (s := s) (i := s.cur) (fun c hc => u.authority_free hc)
        u.tailBytes_head
      rw [← hsplit] at hscan
      rcases hscan with heq | heq
      · rw [heq]
        exact ⟨htext, hscheme, by rw [hrest 1 le_rfl, hu], fun k hk => hrest k (by omega), hle,
          hidx, hv6⟩
      · rw [heq]
        exact ⟨htext, by rw [hsame, hscheme], by rw [hsame, hrest 1 le_rfl, hu],
          fun k hk => by rw [hsame, hrest k (by omega)], hle, hidx, hv6⟩
  | some w =>
      obtain ⟨hne, hvalid⟩ := u.userinfo_wf w hu
      have hfree : ∀ c ∈ w, endsHost c = false ∧ c ≠ 64 := by
        intro c hc
        have h47 : c ≠ 47 := validChar_ne (hvalid c hc) (by decide)
        have h63 : c ≠ 63 := validChar_ne (hvalid c hc) (by decide)
        have h35 : c ≠ 35 := validChar_ne (hvalid c hc) (by decide)
        exact ⟨by simp [endsHost, h47, h63, h35], validChar_ne (hvalid c hc) (by decide)⟩
      have hsplit : str.drop s.cur = w ++ 64 :: (u.host.bytes ++ u.parts.flatMap Part.bytes) := by
        rw [hstr, hu]
        simp
      have hscan : scanUserinfo s (str.drop s.cur) s.cur =
          { s.setSpan 1 s.cur (s.cur + w.length) with cur := s.cur + w.length + 1 } := by
        rw [hsplit, scanUserinfo_at hfree]
      have hafter : str.drop (s.cur + w.length + 1) =
          u.host.bytes ++ u.parts.flatMap Part.bytes := by
        rw [← List.drop_drop, drop_add_of_append hsplit]
        rfl
      rw [hscan]
      refine ⟨hafter, ?_, ?_, ?_, ?_, hidx, hv6⟩
      · exact (stored_setSpan_of_ne s.cur (s.cur + w.length) (Nat.zero_ne_one)).trans hscheme
      · refine (stored_setSpan_text s 1 hsplit).trans ?_
        rw [kept_of_ne hne, hu]
      · intro k hk
        exact (stored_setSpan_of_ne s.cur (s.cur + w.length) (by omega)).trans (hrest k (by omega))
      · show s.last ≤ s.cur + w.length + 1
        omega

/-- A host in brackets is passed over. -/
theorem AtHost.scanBracket {str : List Byte} {s : Scan} (h : u.AtHost str s) :
    ∃ t v, Uri.scanBracket str s = some t ∧
      (str.drop t.cur).foldl scanStep t = (u.parts.flatMap Part.bytes).foldl scanStep v ∧
      u.AtParts str v := by
  have hunset : ∀ {k : Nat} (first beyond : Nat), 3 ≤ k →
      stored str (s.setSpan 2 first beyond) k = none := fun first beyond hk =>
    (stored_setSpan_of_ne first beyond (by omega)).trans (h.rest _ (by omega))
  cases hhost : u.host with
  | literal name =>
      have htext : str.drop s.cur = 91 :: name ++ 93 :: u.parts.flatMap Part.bytes := by
        rw [h.text, hhost]
        simp [HostText.bytes]
      have hname : 93 ∉ name := by
        intro hmem
        exact (u.host_free (c := 93) (by rw [hhost]; exact hmem)).2.2.2.1 rfl
      have hbody : str.drop (s.cur + 1) = name ++ 93 :: u.parts.flatMap Part.bytes := by
        rw [← List.drop_drop, htext]
        rfl
      have hafter : str.drop (s.cur + 1 + name.length + 1) = u.parts.flatMap Part.bytes := by
        rw [← List.drop_drop, drop_add_of_append hbody]
        rfl
      refine ⟨_, { s.setSpan 2 (s.cur + 1) (s.cur + 1 + name.length) with
          cur := s.cur + 1 + name.length + 1
          isIpv6 := true }, scanBracket_literal htext hname u.parts_head, ?_, ?_⟩
      · show (str.drop (s.cur + 1 + name.length + 1)).foldl scanStep _ = _
        rw [hafter]
      · have hle := h.le
        have hidx := h.idx
        refine ⟨hafter, ?_, ?_, ?_, hidx, ?_, nofun, fun k hk => hunset _ _ ?_⟩
        · exact (stored_setSpan_of_ne (i := 2) (s.cur + 1) (s.cur + 1 + name.length)
            (by decide)).trans h.scheme
        · exact (stored_setSpan_of_ne (i := 2) (s.cur + 1) (s.cur + 1 + name.length)
            (by decide)).trans h.userinfo
        · refine (stored_setSpan_text s 2 hbody).trans ?_
          rw [hhost]
          rfl
        · show s.last ≤ s.cur + 1 + name.length + 1
          omega
        · exact Nat.le_trans (Nat.le_add_left 3 s.idx) hk
  | regName name =>
      have htext : str.drop s.cur = name ++ u.parts.flatMap Part.bytes := by
        rw [h.text, hhost]
        rfl
      have hplain : Uri.scanBracket str s = some { s with last := s.cur } := by
        have hchar : charAt str s.cur ≠ 91 := by
          cases hcase : name with
          | nil =>
              cases hparts : u.parts.flatMap Part.bytes with
              | nil =>
                  rw [charAt_end (by rw [htext, hcase, hparts]; rfl)]
                  decide
              | cons c rest =>
                  have hsep : c ∈ sep := u.parts_head c (by rw [hparts]; rfl)
                  have hall : ∀ d ∈ sep, d ≠ 91 := by decide +kernel
                  rw [charAt_eq (by rw [htext, hcase, hparts]; rfl)]
                  exact hall c hsep
          | cons c rest =>
              rw [charAt_eq (by rw [htext, hcase]; rfl)]
              exact (u.host_free (by rw [hhost, hcase]; exact List.mem_cons_self)).2.2.1
        rw [Uri.scanBracket, if_neg (by simpa using hchar)]
      have hfree : ∀ c ∈ name, sepIndex 0 c = none := by
        intro c hc
        have hends := (u.host_free (c := c) (by rw [hhost]; exact hc)).1
        have hcolon : c ≠ 58 := fun heq => u.regName_wf name hhost (heq ▸ hc)
        simp only [endsHost, Bool.or_eq_false_iff, beq_eq_false_iff_ne] at hends
        refine sepIndex_eq_none fun i hi _ => ?_
        match i, hi with
        | 0, _ => exact hcolon
        | 1, _ => exact hends.1.1
        | 2, _ => exact hends.1.2
        | 3, _ => exact hends.2
      have hloop : name.foldl scanStep { s with last := s.cur } =
          { s with last := s.cur, cur := s.cur + name.length } :=
        foldl_free (s := { s with last := s.cur }) (by simpa [h.idx] using hfree)
      refine ⟨_, { s with last := s.cur, cur := s.cur + name.length }, hplain, ?_, ?_⟩
      · show (str.drop s.cur).foldl scanStep _ = _
        rw [htext, List.foldl_append, hloop]
      · have hclose : closeSpan { s with last := s.cur, cur := s.cur + name.length } =
            { s with last := s.cur, cur := s.cur + name.length }.setSpan 2 s.cur
              (s.cur + name.length) := by
          simp [closeSpan, h.isIpv6, h.idx]
        refine ⟨drop_add_of_append htext, ?_, ?_, ?_, h.idx, Nat.le_add_right _ _, fun _ => ?_,
          fun k hk => ?_⟩
        · rw [hclose]
          exact (stored_setSpan_of_ne _ _ (by decide)).trans h.scheme
        · rw [hclose]
          exact (stored_setSpan_of_ne _ _ (by decide)).trans h.userinfo
        · rw [hclose, stored_setSpan_text _ _ htext, hhost]
          rfl
        · exact h.rest _ (Nat.le_add_left 2 s.idx)
        · rw [hclose]
          exact hunset _ _ (Nat.le_trans (Nat.le_add_left 3 s.idx) hk)

/-- What the scan has stored when it is through. -/
theorem AtParts.finish {str : List Byte} {s : Scan} (h : u.AtParts str s) :
    let t := finishScan ((u.parts.flatMap Part.bytes).foldl scanStep s)
    stored str t 0 = some u.scheme ∧ stored str t 1 = u.userinfo ∧
      stored str t 2 = kept u.host.name ∧ stored str t 3 = u.port.bind kept ∧
      stored str t 4 = u.path ∧ stored str t 5 = u.query.bind kept ∧
      stored str t 6 = u.fragment.bind kept := by
  obtain ⟨hparts, hothers⟩ := foldl_parts (fun p hp => u.parts_wf hp) u.parts_order
    (fun p _ => by rw [h.idx]; exact Nat.zero_le _) h.pending h.text
  have hlater : ∀ k, 3 ≤ k → stored str (closeSpan s) k = none := fun k hk =>
    h.pending.later k (by rw [h.idx]; exact hk)
  refine ⟨?_, ?_, ?_, ?_, ?_, ?_, ?_⟩
  · rw [hothers 0 fun p _ => by omega, h.scheme]
  · rw [hothers 1 fun p _ => by omega, h.userinfo]
  · rw [hothers 2 fun p _ => by omega, h.host]
  · cases hw : u.port with
    | some w => exact hparts ⟨0, w⟩ (mem_parts.mpr (.inl ⟨w, hw, rfl⟩))
    | none =>
        rw [hothers 3 ?_, hlater 3 le_rfl]
        · rfl
        · intro p hp
          rcases mem_parts.mp hp with ⟨w, hw', rfl⟩ | ⟨w, -, rfl⟩ | ⟨w, -, rfl⟩ | ⟨w, -, rfl⟩
          · rw [hw] at hw'
            cases hw'
          all_goals simp
  · cases hw : u.path with
    | some w =>
        refine (hparts ⟨1, w.tail⟩ (mem_parts.mpr (.inr (.inl ⟨w, hw, rfl⟩)))).trans ?_
        have hpath : w = 47 :: w.tail := u.path_eq hw
        rw [hpath]
        rfl
    | none =>
        rw [hothers 4 ?_, hlater 4 (by omega)]
        intro p hp
        rcases mem_parts.mp hp with ⟨w, -, rfl⟩ | ⟨w, hw', rfl⟩ | ⟨w, -, rfl⟩ | ⟨w, -, rfl⟩
        rotate_left
        · rw [hw] at hw'
          cases hw'
        all_goals simp
  · cases hw : u.query with
    | some w => exact hparts ⟨2, w⟩ (mem_parts.mpr (.inr (.inr (.inl ⟨w, hw, rfl⟩))))
    | none =>
        rw [hothers 5 ?_, hlater 5 (by omega)]
        · rfl
        · intro p hp
          rcases mem_parts.mp hp with ⟨w, -, rfl⟩ | ⟨w, -, rfl⟩ | ⟨w, hw', rfl⟩ | ⟨w, -, rfl⟩
          rotate_left 2
          · rw [hw] at hw'
            cases hw'
          all_goals simp
  · cases hw : u.fragment with
    | some w => exact hparts ⟨3, w⟩ (mem_parts.mpr (.inr (.inr (.inr ⟨w, hw, rfl⟩))))
    | none =>
        rw [hothers 6 ?_, hlater 6 (by omega)]
        · rfl
        · intro p hp
          rcases mem_parts.mp hp with ⟨w, -, rfl⟩ | ⟨w, -, rfl⟩ | ⟨w, -, rfl⟩ | ⟨w, hw', rfl⟩
          rotate_left 3
          · rw [hw] at hw'
            cases hw'
          all_goals simp

/-- The text of the URI, cut at the host. -/
theorem render_eq (u : SplitText) :
    u.render = u.scheme ++ (ascii "://" ++ (u.userinfo.elim [] (· ++ [64]) ++ u.host.bytes ++
      u.parts.flatMap Part.bytes)) := by
  simp only [render, parts_bytes, List.append_assoc]

/-- No component holds NUL. -/
theorem cString_render (u : SplitText) : cString u.render = u.render := by
  have hnul : ∀ {i : Nat} {w : List Byte}, validChar i 0 = false → (∀ c ∈ w, validChar i c = true) →
      ∀ c ∈ w, c ≠ 0 := fun h0 h c hc => validChar_ne (h c hc) h0
  have hscheme : ∀ c ∈ u.scheme, c ≠ 0 := by
    obtain ⟨c, rest, heq, halpha, hrest⟩ := u.scheme_wf
    rw [heq, List.forall_mem_cons]
    exact ⟨by rintro rfl; exact absurd halpha (by decide), hnul (by decide) hrest⟩
  have huser : ∀ c ∈ u.userinfo.elim [] (· ++ [64]), c ≠ 0 := by
    cases hw : u.userinfo with
    | none => simp
    | some w =>
        simp only [Option.elim_some, List.forall_mem_append, List.forall_mem_singleton]
        exact ⟨hnul (by decide) (u.userinfo_wf w hw).2, by decide⟩
  have hhost : ∀ c ∈ u.host.bytes, c ≠ 0 := by
    have hname : ∀ c ∈ u.host.name, c ≠ 0 := hnul (by decide) u.host_wf
    cases hh : u.host with
    | regName name =>
        rw [hh] at hname
        exact hname
    | literal name =>
        rw [hh] at hname
        simp only [HostText.bytes, List.forall_mem_append, List.forall_mem_cons]
        exact ⟨⟨by decide, hname⟩, by simp⟩
  have hport : ∀ c ∈ u.port.elim [] (58 :: ·), c ≠ 0 := by
    cases hw : u.port with
    | none => simp
    | some w =>
        simp only [Option.elim_some, List.forall_mem_cons]
        exact ⟨by decide, fun c hc => (u.port_wf w hw c hc).2.2⟩
  have hpath : ∀ c ∈ u.path.getD [], c ≠ 0 := by
    cases hw : u.path with
    | none => simp
    | some w => exact fun c hc => ((u.path_wf w hw).2 c hc).2
  have hquery : ∀ c ∈ u.query.elim [] (63 :: ·), c ≠ 0 := by
    cases hw : u.query with
    | none => simp
    | some w =>
        simp only [Option.elim_some, List.forall_mem_cons]
        exact ⟨by decide, fun c hc => (u.query_wf w hw c hc).2⟩
  have hfragment : ∀ c ∈ u.fragment.elim [] (35 :: ·), c ≠ 0 := by
    cases hw : u.fragment with
    | none => simp
    | some w =>
        simp only [Option.elim_some, List.forall_mem_cons]
        exact ⟨by decide, fun c hc heq => u.fragment_wf w hw (heq ▸ hc)⟩
  rw [cString, List.takeWhile_eq_self_iff]
  intro c hc
  refine decide_eq_true ?_
  revert c
  simp only [render, List.forall_mem_append]
  exact ⟨⟨⟨⟨⟨⟨⟨hscheme, by simp [ascii]⟩, huser⟩, hhost⟩, hport⟩, hpath⟩, hquery⟩, hfragment⟩

end SplitText

/-- The bytes that are checked against the tables. -/
theorem span_eq_stored (str : List Byte) (s : Scan) (i : Nat) :
    s.span str i = (stored str s i).getD [] := by
  rw [stored]
  split
  · rfl
  · rw [Scan.span, Nat.sub_eq_zero_of_le (by omega)]
    rfl

/-- The scan behind `scheme://`. -/
def schemeScan (n : Nat) : Scan :=
  ⟨fun _ => 0, Function.update (fun _ => 0) 0 n, n + 3, n + 3, 0, false⟩

/-- The checks and the copies at the end of `parse`. -/
def copied (str : List Byte) (s : Scan) (uri : ParsedURI) : Int × ParsedURI :=
  if !([1, 2, 3, 4].all fun i => (s.span str i).all (validChar i)) then
    (-1, { uri with state := .invalid })
  else
    (0,
      { scheme := stored str s 0
        userinfo := stored str s 1
        host := storedHost str s
        port := stored str s 3
        path := stored str s 4
        query := stored str s 5
        fragment := stored str s 6
        state := .success
        error := uri.error })

/-- `parse` behind a scheme. -/
theorem parseText_scheme {str scheme w : List Byte} (uri : ParsedURI)
    (hscheme : ∃ c rest, scheme = c :: rest ∧ isAlpha c ∧ ∀ d ∈ rest, validChar 0 d)
    (hstr : str = scheme ++ (ascii "://" ++ w)) :
    str.drop (scheme.length + 3) = w ∧ stored str (schemeScan scheme.length) 0 = some scheme ∧
      parseText str uri =
        match scanBracket str (scanUserinfo (schemeScan scheme.length) w (scheme.length + 3)) with
        | none => (-1, { uri with state := .invalid })
        | some s => copied str (finishScan ((str.drop s.cur).foldl scanStep s)) uri := by
  obtain ⟨c, letters, hcons, halpha, hletters⟩ := hscheme
  have hskip : skipWhile (validChar 0) str 1 = scheme.length := by
    have hdrop : str.drop 1 = letters ++ (ascii "://" ++ w) := by
      rw [hstr, hcons]
      rfl
    rw [skipWhile, hdrop, takeWhile_append_of_head hletters, hcons, List.length_cons, Nat.add_comm]
    rintro d hd
    cases hd
    decide
  have hcolon : str.drop scheme.length = 58 :: 47 :: 47 :: w := by
    rw [hstr, List.drop_left]
    rfl
  have hslash : str.drop (scheme.length + 1) = 47 :: 47 :: w := by
    rw [← List.drop_drop, hcolon]
    rfl
  have hslash' : str.drop (scheme.length + 2) = 47 :: w := by
    rw [← List.drop_drop, hcolon]
    rfl
  have hafter : str.drop (scheme.length + 3) = w := by
    rw [← List.drop_drop, hcolon]
    rfl
  have hfirst : isAlpha (charAt str 0) = true := by
    rw [charAt_eq (c := c) (by rw [List.drop_zero, hstr, hcons]; rfl)]
    exact halpha
  have hpos : 0 < scheme.length := by simp [hcons]
  refine ⟨hafter, ?_, ?_⟩
  · rw [stored]
    simp only [schemeScan, Function.update_self, Scan.span, if_pos hpos, List.drop_zero,
      Nat.sub_zero, hstr, List.take_left]
  · simp only [parseText, hfirst, hskip, charAt_eq hcolon, charAt_eq hslash, charAt_eq hslash',
      beq_self_eq_true, Bool.and_self, Bool.not_true, Bool.false_eq_true, ↓reduceIte, hafter]
    rfl

/-- A text is taken apart into its components, and accepted if port and path are valid. -/
theorem parse_split (u : SplitText) (uri : ParsedURI) :
    parse u.render uri =
      if ((u.port.getD []).all (validChar 3) && (u.path.getD []).all (validChar 4)) = true then
        (0,
          { scheme := some u.scheme
            userinfo := u.userinfo
            host := (kept u.host.name).map fun host =>
              if escapedSlash host then cString (urlDecode host) else host
            port := u.port.bind kept
            path := u.path
            query := u.query.bind kept
            fragment := u.fragment.bind kept
            state := .success
            error := uri.error })
      else (-1, { uri with state := .invalid }) := by
  rw [parse, u.cString_render]
  generalize hstr : u.render = str
  have htext := u.render_eq
  rw [hstr] at htext
  obtain ⟨hafter, hscheme, hparse⟩ := parseText_scheme uri u.scheme_wf htext
  have hstart := SplitText.AtHost.of_start (u := u) (s := schemeScan u.scheme.length) hafter hscheme
    (by
      intro k hk
      rw [stored, if_neg]
      simp only [schemeScan, Function.update_of_ne (show k ≠ 0 by omega)]
      omega)
    le_rfl rfl rfl
  obtain ⟨t, v, hbracket, hloop, hparts⟩ := hstart.scanBracket
  obtain ⟨h0, h1, h2, h3, h4, h5, h6⟩ := hparts.finish
  have hbracket' : scanBracket str (scanUserinfo (schemeScan u.scheme.length)
      (u.userinfo.elim [] (· ++ [64]) ++ u.host.bytes ++ u.parts.flatMap Part.bytes)
      (u.scheme.length + 3)) = some t := by
    rw [← hafter]
    exact hbracket
  have hopt : ∀ {i : Nat} {w : Option (List Byte)}, (∀ x ∈ w, ∀ c ∈ x, validChar i c = true) →
      (w.getD []).all (validChar i) = true := by
    intro i w h
    cases w with
    | none => rfl
    | some x => exact List.all_eq_true.mpr (h x rfl)
  have huser : (u.userinfo.getD []).all (validChar 1) = true :=
    hopt fun x hx => (u.userinfo_wf x hx).2
  have hkept : ∀ w : List Byte, (kept w).getD [] = w := by
    intro w
    cases w <;> rfl
  have hhost : u.host.name.all (validChar 2) = true := List.all_eq_true.mpr u.host_wf
  have hport : (u.port.bind kept).getD [] = u.port.getD [] := by
    cases u.port with
    | none => rfl
    | some w => exact hkept w
  rw [hparse, hbracket']
  simp only [hloop, copied, span_eq_stored, List.all_cons, List.all_nil, h1, h2, h3, h4, hkept,
    huser, hhost, hport, Bool.true_and, Bool.and_true, storedHost, h0, h5, h6]
  cases (u.port.getD []).all (validChar 3) && (u.path.getD []).all (validChar 4) <;> rfl

/-- A valid text. -/
def UriText.split (u : UriText) : SplitText where
  scheme := u.scheme
  userinfo := u.userinfo
  host := u.host
  port := u.port
  path := u.path
  query := u.query
  fragment := u.fragment
  scheme_wf := u.scheme_wf
  userinfo_wf := u.userinfo_wf
  host_wf := u.host_wf.2
  regName_wf := u.regName_wf
  port_wf := fun p hp c hc => by
    have hvalid := (u.port_wf p hp).2 c hc
    have hall : ∀ i < 4, validChar 3 (sep.getD i 0) = false := by decide
    exact ⟨sepIndex_eq_none fun i hi _ => validChar_ne hvalid (hall i hi),
      validChar_ne hvalid (by decide), validChar_ne hvalid (by decide)⟩
  path_wf := fun p hp => by
    obtain ⟨hhead, hvalid⟩ := u.path_wf p hp
    have hall : ∀ i < 4, 2 ≤ i → validChar 4 (sep.getD i 0) = false := by decide
    exact ⟨hhead, fun c hc =>
      ⟨sepIndex_eq_none fun i hi hidx => validChar_ne (hvalid c hc) (hall i hi hidx),
        validChar_ne (hvalid c hc) (by decide)⟩⟩
  query_wf := fun q hq c hc => by
    have hvalid := (u.query_wf q hq).2 c hc
    have hall : ∀ i < 4, 3 ≤ i → validChar 5 (sep.getD i 0) = false := by decide
    exact ⟨sepIndex_eq_none fun i hi hidx => validChar_ne hvalid (hall i hi hidx),
      validChar_ne hvalid (by decide)⟩
  fragment_wf := fun f hf hnul => validChar_ne ((u.fragment_wf f hf).2 0 hnul) (by decide) rfl

/-! ### Offsets -/

/-- The states of the scan of a text: behind `scheme://`, at the host, after any number of passes of
the main loop, and at the end. -/
inductive Scan.Passes (str : List Byte) : Scan → Prop where
  | scheme {n : Nat} (h : charAt str (n + 2) = 47) : Passes str (schemeScan n)
  | userinfo {s : Scan} (h : Passes str s) : Passes str (scanUserinfo s (str.drop s.cur) s.cur)
  | bracket {s t : Scan} (h : Passes str s) (hbracket : scanBracket str s = some t) : Passes str t
  | step {s : Scan} (h : Passes str s) (hmore : s.cur < str.length) :
      Passes str (scanStep s (charAt str s.cur))
  | finish {s : Scan} (h : Passes str s) : Passes str (finishScan s)

/-- The offsets are `int`s. -/
structure Scan.Fits (s : Scan) : Prop where
  cur : s.cur < 2 ^ 31
  last : s.last < 2 ^ 31
  spans : ∀ i, s.st i < 2 ^ 31 ∧ s.ed i < 2 ^ 31

/-- No offset passes the end of the text. -/
structure Scan.Within (s : Scan) (n : Nat) : Prop where
  cur : s.cur ≤ n
  last : s.last ≤ n
  spans : ∀ i, s.st i ≤ n ∧ s.ed i ≤ n

/-- A span inside the text. -/
theorem Scan.Within.setSpan {s : Scan} {n : Nat} (h : s.Within n) (i : Nat) {first beyond : Nat}
    (hfirst : first ≤ n) (hbeyond : beyond ≤ n) : (s.setSpan i first beyond).Within n := by
  refine ⟨h.cur, h.last, fun j => ?_⟩
  simp only [Scan.setSpan]
  rcases eq_or_ne j i with rfl | hne
  · simpa using ⟨hfirst, hbeyond⟩
  · simpa [hne] using h.spans j

theorem charAt_lt {str : List Byte} {i : Nat} (h : charAt str i ≠ 0) : i < str.length := by
  by_contra hge
  exact h (charAt_end (List.drop_eq_nil_of_le (by omega)))

/-- The user information lies in the text. -/
theorem scanUserinfo_within {n : Nat} {s : Scan} (h : s.Within n) (rest : List Byte) (i : Nat)
    (hi : i + rest.length ≤ n) : (scanUserinfo s rest i).Within n := by
  induction rest generalizing i with
  | nil => exact h
  | cons c rest ih =>
      rw [List.length_cons] at hi
      unfold scanUserinfo
      split
      · exact h.setSpan 1 h.cur h.cur
      · split
        · have hspan := h.setSpan 1 h.cur (show i ≤ n by omega)
          exact ⟨(by omega : i + 1 ≤ n), hspan.last, hspan.spans⟩
        · exact ih (i + 1) (by omega)

/-- So does a host in brackets. -/
theorem scanBracket_within {str : List Byte} {s t : Scan} (h : s.Within str.length)
    (hbracket : scanBracket str s = some t) : t.Within str.length := by
  unfold scanBracket at hbracket
  split at hbracket
  · rename_i hopen
    have hcur : s.cur < str.length := charAt_lt (by rw [beq_iff_eq.mp hopen]; decide)
    simp only at hbracket
    split at hbracket
    · cases hbracket
    · rename_i hclose
      have hlt : skipWhile (· ≠ 93) str (s.cur + 1) < str.length := charAt_lt (by
        have heq : charAt str (skipWhile (· ≠ 93) str (s.cur + 1)) = 93 := by simpa using hclose
        rw [heq]
        decide)
      split at hbracket
      · cases hbracket
      · cases hbracket
        have hspan := h.setSpan 2 (show s.cur + 1 ≤ str.length by omega) hlt.le
        exact ⟨hlt, hspan.last, hspan.spans⟩
  · cases hbracket
    exact ⟨h.cur, h.cur, h.spans⟩

/-- So does what one more character closes. -/
theorem scanStep_within {n : Nat} {s : Scan} (h : s.Within n) (hmore : s.cur < n) (c : Byte) :
    (scanStep s c).Within n := by
  unfold scanStep
  split
  · exact ⟨hmore, h.last, h.spans⟩
  · have hclosed : ∀ t : Scan, t.Within n → ∀ last ≤ n, ∀ idx,
        ({ t with idx := idx, last := last, cur := s.cur + 1 } : Scan).Within n :=
      fun t ht last hlast idx => ⟨hmore, hlast, ht.spans⟩
    refine hclosed _ ?_ _ ?_ _
    · split
      · exact ⟨h.cur, h.last, h.spans⟩
      · exact h.setSpan _ h.last h.cur
    · split <;> omega

theorem scanStep_cur (s : Scan) (c : Byte) : (scanStep s c).cur = s.cur + 1 := by
  unfold scanStep
  split <;> rfl

/-- The main loop, over the rest of the text. -/
theorem Scan.Passes.foldl {str : List Byte} {s : Scan} (h : Passes str s) (w : List Byte)
    (hw : str.drop s.cur = w) : Passes str (w.foldl scanStep s) := by
  induction w generalizing s with
  | nil => exact h
  | cons c w ih =>
      have hmore : s.cur < str.length := by
        by_contra hge
        rw [List.drop_eq_nil_of_le (by omega)] at hw
        cases hw
      have hstep := h.step hmore
      rw [charAt_eq hw] at hstep
      refine ih hstep ?_
      rw [scanStep_cur, ← List.drop_drop, hw]
      rfl

/-- The scan stays within the text. -/
theorem Scan.Passes.within {str : List Byte} {s : Scan} (h : Passes str s) :
    s.Within str.length := by
  induction h with
  | scheme h =>
      rename_i n
      have hlt : n + 2 < str.length := charAt_lt (by rw [h]; decide)
      refine ⟨hlt, hlt, fun i => ⟨Nat.zero_le _, ?_⟩⟩
      simp only [schemeScan, Function.update_apply]
      split <;> omega
  | userinfo h ih =>
      refine scanUserinfo_within ih _ _ ?_
      rw [List.length_drop]
      have := ih.cur
      omega
  | bracket h hbracket ih => exact scanBracket_within ih hbracket
  | step h hmore ih => exact scanStep_within ih hmore _
  | finish h ih =>
      unfold finishScan
      split
      · exact ih.setSpan _ ih.last ih.cur
      · exact ih

/-- In a text shorter than `2 ^ 31` bytes no offset overflows. -/
theorem Scan.Passes.fits {str : List Byte} {s : Scan} (h : Passes str s)
    (hlength : str.length < 2 ^ 31) : s.Fits := by
  obtain ⟨hcur, hlast, hspans⟩ := h.within
  exact ⟨by omega, by omega, fun i => ⟨(hspans i).1.trans_lt hlength, (hspans i).2.trans_lt hlength⟩⟩

/-- A rendered URI shorter than `2 ^ 31` bytes is parsed into its own components, whatever the
`ParsedURI` held before, and no offset overflows on the way. A host that begins with an escaped
slash, in brackets or not, is stored decoded. -/
theorem parse_render (u : UriText) (uri : ParsedURI) (hlength : u.render.length < 2 ^ 31) :
    parse u.render uri =
      (0,
        { scheme := some u.scheme
          userinfo := u.userinfo
          host := some (if escapedSlash u.host.name then cString (urlDecode u.host.name)
            else u.host.name)
          port := u.port
          path := u.path
          query := u.query
          fragment := u.fragment
          state := .success
          error := uri.error }) ∧
      ∀ s, Scan.Passes u.render s → s.Fits := by
  refine ⟨?_, fun s hs => hs.fits hlength⟩
  have hvalid : ((u.port.getD []).all (validChar 3) && (u.path.getD []).all (validChar 4)) = true := by
    rw [Bool.and_eq_true, List.all_eq_true, List.all_eq_true]
    constructor
    · cases hp : u.port with
      | none => simp
      | some p => exact (u.port_wf p hp).2
    · cases hp : u.path with
      | none => simp
      | some p => exact (u.path_wf p hp).2
  have hkept : ∀ w : Option (List Byte), (∀ x ∈ w, x ≠ []) → w.bind kept = w := by
    intro w hw
    cases w with
    | none => rfl
    | some x => exact kept_of_ne (hw x rfl)
  have hparse := parse_split u.split uri
  simp only [UriText.split, hvalid, ↓reduceIte, kept_of_ne u.host_wf.1, Option.map_some,
    hkept u.port fun x hx => (u.port_wf x hx).1, hkept u.query fun x hx => (u.query_wf x hx).1,
    hkept u.fragment fun x hx => (u.fragment_wf x hx).1] at hparse
  exact hparse

/-- `s://u@[::1]:80/p?q#f`. -/
def fullText : UriText where
  scheme := ascii "s"
  userinfo := some (ascii "u")
  host := .literal (ascii "::1")
  port := some (ascii "80")
  path := some (ascii "/p")
  query := some (ascii "q")
  fragment := some (ascii "f")
  scheme_wf := ⟨115, [], rfl, by decide, by simp⟩
  userinfo_wf := by decide +kernel
  host_wf := by decide +kernel
  regName_wf := by simp
  port_wf := by decide +kernel
  path_wf := by decide +kernel
  query_wf := by decide +kernel
  fragment_wf := by decide +kernel

/-- Every part is there, the host is in brackets, and the `ParsedURI` was used before. -/
theorem parse_render_full :
    (parse fullText.render ⟨none, none, some (ascii "h"), none, none, none, none, .invalid, 0⟩ =
      (0, ⟨some (ascii "s"), some (ascii "u"), some (ascii "::1"), some (ascii "80"),
        some (ascii "/p"), some (ascii "q"), some (ascii "f"), .success, 0⟩)) ∧
      ∀ s, Scan.Passes fullText.render s → s.Fits := by
  obtain ⟨hparse, hfits⟩ := parse_render fullText
    ⟨none, none, some (ascii "h"), none, none, none, none, .invalid, 0⟩ (by decide +kernel)
  refine ⟨hparse.trans ?_, hfits⟩
  decide +kernel

/-- `s://[%2Fa]`: the host in brackets is stored as `/a`. -/
def literalText : UriText where
  scheme := ascii "s"
  userinfo := none
  host := .literal (ascii "%2Fa")
  port := none
  path := none
  query := none
  fragment := none
  scheme_wf := ⟨115, [], rfl, by decide, by simp⟩
  userinfo_wf := by simp
  host_wf := by decide +kernel
  regName_wf := by simp
  port_wf := by simp
  path_wf := by simp
  query_wf := by simp
  fragment_wf := by simp

/-- A host in brackets is not always stored as it is written. -/
theorem parse_literal_decoded :
    ¬∀ (u : UriText) (uri : ParsedURI),
      (∀ n, u.host = .regName n → escapedSlash n = false) →
        (parse u.render uri).2.host = some u.host.name := by
  intro h
  have hhost := h literalText ⟨none, none, none, none, none, none, none, .init, 0⟩ (by
    intro n hn
    cases hn)
  exact absurd hhost (by decide)

end Workflow.Uri
