/-
Module: Workflow.Proofs.HttpHeaderValue
Layer: Proofs
Purpose: Header values that are folded over several lines. `stored` is what the loop of
  `__parse_header_value` keeps of them, line by line; `joined` is the value without the folding. The
  two agree unless blank lines come first: the space that joins a continuation line is then put in
  front of the value.
Trusted boundary: none
Main exports: FoldedValue, joined, stored, headerValueLoop_folded, folded_value, folded_length_lost
-/
import Workflow.Protocol.HttpParser
import Mathlib.Algebra.BigOperators.Group.List.Basic
import Mathlib.Algebra.GroupWithZero.Nat
import Mathlib.Data.List.Induction

namespace Workflow.Http

open Workflow.Lib

/-! ### Folded values -/

/-- The lines of a header value without their CR LF. -/
structure FoldedValue where
  first : List Byte
  more : List (List Byte)
  folded : ∀ line ∈ more, ∃ b t, line = b :: t ∧ isBlank b = true
  chars : ∀ line ∈ first :: more, ∀ c ∈ line, c ≠ CR ∧ isPositive c = true
  total : ((first :: more).map List.length).sum < httpHeaderValueMax

def FoldedValue.bytes (v : FoldedValue) : List Byte :=
  (v.first :: v.more).flatMap (· ++ [CR, LF])

/-- A line without the blanks at both ends. -/
def trimmed (line : List Byte) : List Byte :=
  trimEnd (line.dropWhile isBlank)

/-- The non-empty trimmed lines, joined by single spaces. -/
def joined (lines : List (List Byte)) : List Byte :=
  List.intercalate [SP] ((lines.map trimmed).filter (· ≠ []))

/-! ### Trimming -/

/-- A blank at the end is cut off. -/
theorem trimEnd_append_blank (value : List Byte) {c : Byte} (h : isBlank c = true) :
    trimEnd (value ++ [c]) = trimEnd value := by
  simp only [trimEnd, List.reverse_append, List.reverse_singleton, List.singleton_append,
    List.dropWhile_cons_of_pos h]

/-- Any other character stays. -/
theorem trimEnd_append_char (value : List Byte) {c : Byte} (h : isBlank c = false) :
    trimEnd (value ++ [c]) = value ++ [c] := by
  have hneg : ¬isBlank c = true := by simp [h]
  rw [trimEnd, List.reverse_append, List.reverse_singleton, List.singleton_append,
    List.dropWhile_cons_of_neg hneg, List.reverse_cons, List.reverse_reverse]

/-- Either all of a value is blank, or it has a last byte that is not. -/
theorem trimEnd_cases (value : List Byte) :
    (trimEnd value = [] ∧ ∀ c ∈ value, isBlank c = true) ∨
      ∃ w c, trimEnd value = w ++ [c] ∧ isBlank c = false := by
  induction value using List.reverseRecOn with
  | nil => exact .inl ⟨rfl, by simp⟩
  | append_singleton value c ih =>
      cases hc : isBlank c with
      | false => exact .inr ⟨value, c, trimEnd_append_char value hc, hc⟩
      | true =>
          rw [trimEnd_append_blank value hc]
          rcases ih with ⟨hnil, hall⟩ | hlast
          · refine .inl ⟨hnil, fun d hd => ?_⟩
            rcases List.mem_append.mp hd with hin | hin
            · exact hall d hin
            · rw [List.mem_singleton.mp hin]
              exact hc
          · exact .inr hlast

theorem trimEnd_trimEnd (value : List Byte) : trimEnd (trimEnd value) = trimEnd value := by
  rcases trimEnd_cases value with ⟨hnil, -⟩ | ⟨w, c, heq, hc⟩
  · rw [hnil]
    rfl
  · rw [heq, trimEnd_append_char w hc]

/-- Blanks are only taken from behind the last byte that is none. -/
theorem trimEnd_append (a b : List Byte) :
    trimEnd (a ++ b) = if trimEnd b = [] then trimEnd a else a ++ trimEnd b := by
  induction b using List.reverseRecOn with
  | nil => simp [trimEnd]
  | append_singleton b c ih =>
      rw [← List.append_assoc]
      cases hc : isBlank c with
      | true => rw [trimEnd_append_blank _ hc, trimEnd_append_blank _ hc, ih]
      | false =>
          rw [trimEnd_append_char _ hc, trimEnd_append_char _ hc, if_neg (by simp),
            List.append_assoc]

theorem length_trimEnd_le (value : List Byte) : (trimEnd value).length ≤ value.length := by
  rw [trimEnd, List.length_reverse]
  exact (List.length_dropWhile_le _ _).trans (List.length_reverse).le

/-- Nothing is left of a blank line. -/
theorem trimmed_eq_nil {line : List Byte} : trimmed line = [] ↔ ∀ c ∈ line, isBlank c = true := by
  rw [trimmed]
  constructor
  · intro h
    rcases trimEnd_cases (line.dropWhile isBlank) with ⟨-, hall⟩ | ⟨w, c, heq, -⟩
    · cases hd : line.dropWhile isBlank with
      | nil => exact List.dropWhile_eq_nil_iff.mp hd
      | cons c rest =>
          have hc := hall c (by rw [hd]; exact List.mem_cons_self)
          have hne := List.head_dropWhile_not isBlank (l := line) (by rw [hd]; simp)
          simp only [hd, List.head_cons] at hne
          rw [hne] at hc
          cases hc
    · rw [h] at heq
      simp at heq
  · intro h
    rw [List.dropWhile_eq_nil_iff.mpr h]
    rfl

/-- A trimmed line neither begins nor ends with a blank. -/
theorem trimmed_ends (line : List Byte) :
    (∀ c ∈ (trimmed line).head?, isBlank c = false) ∧
      ∀ c ∈ (trimmed line).getLast?, isBlank c = false := by
  rcases trimEnd_cases (line.dropWhile isBlank) with ⟨hnil, -⟩ | ⟨w, c, heq, hc⟩
  · simp [trimmed, hnil]
  · have hpre : w ++ [c] <+: line.dropWhile isBlank := by
      rw [← heq, trimEnd]
      have hsuffix := List.dropWhile_suffix isBlank (l := (line.dropWhile isBlank).reverse)
      exact List.reverse_suffix.mp (by rwa [List.reverse_reverse])
    refine ⟨fun d hd => ?_, fun d hd => ?_⟩
    · rw [trimmed, heq] at hd
      obtain ⟨t, ht⟩ := hpre
      have hhead : (line.dropWhile isBlank).head? = some d := by
        rw [← ht, List.head?_append, hd]
        rfl
      cases hcase : line.dropWhile isBlank with
      | nil =>
          rw [hcase] at hhead
          cases hhead
      | cons e rest =>
          rw [hcase] at hhead
          cases hhead
          have hne := List.head_dropWhile_not isBlank (l := line) (by rw [hcase]; simp)
          simpa only [hcase, List.head_cons] using hne
    · rw [trimmed, heq] at hd
      simp only [List.getLast?_append, List.getLast?_singleton, Option.some_or, Option.mem_def,
        Option.some.injEq] at hd
      rw [← hd]
      exact hc

/-! ### The loop over one line -/

/-- Blanks at the start of a line are passed over. -/
theorem headerValueLoop_blanks {blanks rest value : List Byte} (h : ∀ c ∈ blanks, isBlank c = true) :
    headerValueLoop true value (blanks ++ rest) = headerValueLoop true value rest := by
  induction blanks with
  | nil => rfl
  | cons c blanks ih =>
      have hc : isBlank c = true := h c List.mem_cons_self
      rw [List.cons_append, headerValueLoop.eq_def]
      simp only [hc, Bool.and_self, ↓reduceIte]
      exact ih fun d hd => h d (List.mem_cons_of_mem c hd)

/-- A value begins with a character that is not blank. -/
theorem headerValueLoop_start {c : Byte} {rest value : List Byte} (h : isBlank c = false) :
    headerValueLoop true value (c :: rest) = headerValueLoop false value (c :: rest) := by
  rw [headerValueLoop.eq_def, headerValueLoop.eq_def false]
  simp only [h, Bool.and_false]

/-- What follows a line decides whether its value goes on. -/
def afterLine (value : List Byte) (e : Byte) (rest : List Byte) : ValueScan :=
  if isBlank e then headerValueLoop true (trimEnd value ++ [SP]) rest
  else .value (trimEnd value) (e :: rest)

/-- The end of a line. -/
theorem headerValueLoop_crlf {value rest : List Byte} {e : Byte}
    (hlen : value.length < httpHeaderValueMax) :
    headerValueLoop false value (CR :: LF :: e :: rest) = afterLine value e rest := by
  rw [headerValueLoop.eq_def]
  simp only [Bool.false_and, Bool.false_eq_true, ↓reduceIte, Nat.ne_of_lt hlen]
  rfl

/-- The characters of a line up to its end. -/
theorem headerValueLoop_chars {w : List Byte} (value rest : List Byte) {e : Byte}
    (hw : ∀ c ∈ w, c ≠ CR ∧ isPositive c = true)
    (hlen : value.length + w.length < httpHeaderValueMax) :
    headerValueLoop false value (w ++ CR :: LF :: e :: rest) = afterLine (value ++ w) e rest := by
  induction w generalizing value with
  | nil =>
      rw [List.append_nil]
      exact headerValueLoop_crlf (by simpa using hlen)
  | cons c w ih =>
      obtain ⟨hcr, hpos⟩ := hw c List.mem_cons_self
      obtain ⟨d, tail, hd⟩ : ∃ d tail, w ++ CR :: LF :: e :: rest = d :: tail := by
        cases w <;> exact ⟨_, _, rfl⟩
      rw [List.length_cons] at hlen
      have hnext := ih (value ++ [c]) (fun d hd => hw d (List.mem_cons_of_mem c hd))
        (by rw [List.length_append, List.length_singleton]; omega)
      rw [List.append_assoc, List.singleton_append] at hnext
      rw [List.cons_append, headerValueLoop.eq_def]
      simp only [Bool.false_and, Bool.false_eq_true, ↓reduceIte, Nat.ne_of_lt (by omega :
        value.length < httpHeaderValueMax), hd, hcr, hpos]
      rw [← hd]
      exact hnext

/-- A whole line: leading blanks are skipped. -/
theorem headerValueLoop_line {line value rest : List Byte} {e : Byte}
    (hline : ∀ c ∈ line, c ≠ CR ∧ isPositive c = true)
    (hlen : value.length + line.length < httpHeaderValueMax) :
    headerValueLoop true value (line ++ CR :: LF :: e :: rest) =
      afterLine (value ++ line.dropWhile isBlank) e rest := by
  have hsplit := List.takeWhile_append_dropWhile (p := isBlank) (l := line)
  have hblanks : ∀ c ∈ line.takeWhile isBlank, isBlank c = true :=
    fun c hc => List.mem_takeWhile_imp hc
  have hchars : ∀ c ∈ line.dropWhile isBlank, c ≠ CR ∧ isPositive c = true :=
    fun c hc => hline c ((List.dropWhile_sublist isBlank).subset hc)
  have hshort := List.length_dropWhile_le isBlank line
  rw [← hsplit, List.append_assoc, headerValueLoop_blanks hblanks, hsplit]
  cases hd : line.dropWhile isBlank with
  | nil =>
      rw [List.append_nil, List.nil_append, headerValueLoop_start (by decide)]
      exact headerValueLoop_crlf (by omega)
  | cons c w =>
      have hc : isBlank c = false := by
        have hne := List.head_dropWhile_not isBlank (l := line) (by rw [hd]; simp)
        simpa only [hd, List.head_cons] using hne
      rw [hd] at hchars hshort
      rw [List.cons_append, headerValueLoop_start hc, ← List.cons_append]
      exact headerValueLoop_chars _ _ hchars (by omega)

/-! ### All lines -/

/-- What the loop keeps of the lines behind those that left `acc`. -/
def stored (acc : List Byte) : List (List Byte) → List Byte
  | [] => acc
  | line :: rest =>
      stored (if trimmed line = [] then acc else acc ++ SP :: trimmed line) rest

/-- A line is joined to those before it with one space, unless it is blank. -/
theorem trimEnd_next {acc : List Byte} (line : List Byte) (hacc : trimEnd acc = acc) :
    trimEnd (acc ++ [SP] ++ line.dropWhile isBlank) =
      if trimmed line = [] then acc else acc ++ SP :: trimmed line := by
  rw [trimEnd_append, ← trimmed, trimEnd_append_blank acc (by decide), hacc, List.append_assoc]
  rfl

/-- The lines of a value, one after the other. -/
theorem headerValueLoop_stored {more : List (List Byte)} (value rest : List Byte) {e : Byte}
    (hfolded : ∀ line ∈ more, ∃ b t, line = b :: t ∧ isBlank b = true)
    (hchars : ∀ line ∈ more, ∀ c ∈ line, c ≠ CR ∧ isPositive c = true)
    (hlen : (trimEnd value).length + (more.map List.length).sum < httpHeaderValueMax)
    (he : isBlank e = false) :
    ∃ e' rest', more.flatMap (· ++ [CR, LF]) ++ e :: rest = e' :: rest' ∧
      afterLine value e' rest' = .value (stored (trimEnd value) more) (e :: rest) := by
  induction more generalizing value with
  | nil => exact ⟨e, rest, rfl, by rw [afterLine, if_neg (by simp [he])]; rfl⟩
  | cons line more ih =>
      obtain ⟨b, t, rfl, hb⟩ := hfolded line List.mem_cons_self
      have hchars' := hchars (b :: t) List.mem_cons_self
      simp only [List.map_cons, List.sum_cons, List.length_cons] at hlen
      have hkept : trimEnd (trimEnd value ++ [SP] ++ t.dropWhile isBlank) =
          if trimmed (b :: t) = [] then trimEnd value
            else trimEnd value ++ SP :: trimmed (b :: t) := by
        have hnext := trimEnd_next (b :: t) (trimEnd_trimEnd value)
        rwa [List.dropWhile_cons_of_pos hb] at hnext
      have hgrown : (trimEnd (trimEnd value ++ [SP] ++ t.dropWhile isBlank)).length ≤
          (trimEnd value).length + 1 + t.length := by
        refine (length_trimEnd_le _).trans ?_
        have hshort := List.length_dropWhile_le isBlank t
        simp only [List.length_append, List.length_singleton]
        omega
      obtain ⟨e', rest', heq, hafter⟩ := ih
        (trimEnd value ++ [SP] ++ t.dropWhile isBlank)
        (fun l hl => hfolded l (List.mem_cons_of_mem _ hl))
        (fun l hl => hchars l (List.mem_cons_of_mem _ hl)) (by omega)
      refine ⟨b, t ++ CR :: LF :: e' :: rest', ?_, ?_⟩
      · rw [List.flatMap_cons, List.append_assoc, heq]
        simp
      · rw [afterLine, if_pos hb, headerValueLoop_line
          (fun c hc => hchars' c (List.mem_cons_of_mem b hc))
          (by rw [List.length_append, List.length_singleton]; omega), hafter, stored, hkept]

/-- The loop on a folded value. -/
theorem headerValueLoop_folded (v : FoldedValue) {rest : List Byte} {e : Byte}
    (he : isBlank e = false) :
    headerValueLoop true [] (v.bytes ++ e :: rest) =
      .value (stored (trimmed v.first) v.more) (e :: rest) := by
  have hfirst := v.chars v.first List.mem_cons_self
  have htotal := v.total
  simp only [List.map_cons, List.sum_cons] at htotal
  have hshort : (trimmed v.first).length ≤ v.first.length :=
    (length_trimEnd_le _).trans (List.length_dropWhile_le isBlank v.first)
  obtain ⟨e', rest', heq, hafter⟩ := headerValueLoop_stored (v.first.dropWhile isBlank) rest
    v.folded (fun l hl => v.chars l (List.mem_cons_of_mem _ hl))
    (by rw [← trimmed]; omega) he
  have hbytes : v.bytes ++ e :: rest = v.first ++ CR :: LF :: e' :: rest' := by
    rw [FoldedValue.bytes, List.flatMap_cons, List.append_assoc, heq]
    simp
  rw [hbytes, headerValueLoop_line hfirst (by simp only [List.length_nil]; omega),
    List.nil_append, hafter, trimmed]

/-! ### The joined value -/

/-- The trimmed lines that are not empty. -/
def pieces (lines : List (List Byte)) : List (List Byte) :=
  (lines.map trimmed).filter (· ≠ [])

theorem pieces_cons (line : List Byte) (lines : List (List Byte)) :
    pieces (line :: lines) =
      if trimmed line = [] then pieces lines else trimmed line :: pieces lines := by
  unfold pieces
  by_cases h : trimmed line = [] <;> simp [h]

/-- Each line that is not blank is put behind a space. -/
theorem stored_eq (acc : List Byte) (lines : List (List Byte)) :
    stored acc lines = acc ++ (pieces lines).flatMap (SP :: ·) := by
  induction lines generalizing acc with
  | nil => simp [stored, pieces]
  | cons line lines ih =>
      rw [stored, ih, pieces_cons]
      split <;> simp

theorem intercalate_cons (piece : List Byte) (rest : List (List Byte)) :
    List.intercalate [SP] (piece :: rest) = piece ++ rest.flatMap (SP :: ·) := by
  induction rest generalizing piece with
  | nil => simp [List.intercalate]
  | cons next rest ih =>
      have hnext := ih next
      simp only [List.intercalate, List.intersperse_cons_cons, List.flatten_cons] at hnext ⊢
      rw [hnext, List.flatMap_cons]
      simp

/-- The first line is not put behind a space. -/
theorem joined_cons (line : List Byte) (lines : List (List Byte)) :
    joined (line :: lines) =
      if trimmed line = [] then joined lines
      else trimmed line ++ (pieces lines).flatMap (SP :: ·) := by
  rw [joined, ← pieces, pieces_cons]
  split
  · rfl
  · rw [intercalate_cons]

/-- What is stored is the joined value, unless blank lines come before the first line that is not. -/
theorem stored_joined (first : List Byte) (more : List (List Byte)) :
    stored (trimmed first) more =
      if trimmed first = [] ∧ pieces more ≠ [] then SP :: joined (first :: more)
      else joined (first :: more) := by
  rw [stored_eq, joined_cons]
  by_cases hfirst : trimmed first = []
  · rw [if_pos hfirst, hfirst, joined, ← pieces]
    cases hpieces : pieces more with
    | nil => rfl
    | cons piece rest =>
        rw [intercalate_cons]
        simp
  · rw [if_neg hfirst, if_neg fun h => hfirst h.1]

/-- No piece is left of blank lines. -/
theorem pieces_eq_nil {lines : List (List Byte)} :
    pieces lines = [] ↔ ∀ line ∈ lines, ∀ c ∈ line, isBlank c = true := by
  simp [pieces, List.filter_eq_nil_iff, trimmed_eq_nil]

/-- Neither end of a joined value is blank. -/
theorem joined_ends (lines : List (List Byte)) :
    (∀ c ∈ (joined lines).head?, isBlank c = false) ∧
      ∀ c ∈ (joined lines).getLast?, isBlank c = false := by
  induction lines with
  | nil => simp [joined, List.intercalate]
  | cons line lines ih =>
      rw [joined_cons]
      split
      · exact ih
      · next hne =>
          obtain ⟨hhead, hlast⟩ := trimmed_ends line
          have hends : ∀ pieces' : List (List Byte),
              (∀ piece ∈ pieces', ∀ c ∈ piece.getLast?, isBlank c = false) →
              (∀ piece ∈ pieces', piece ≠ []) →
              ∀ c ∈ (trimmed line ++ pieces'.flatMap (SP :: ·)).getLast?, isBlank c = false := by
            intro pieces'
            induction pieces' using List.reverseRecOn with
            | nil => simpa using hlast
            | append_singleton before piece _ =>
                intro hall hnonempty c hc
                have hpiece : piece ≠ [] := hnonempty piece (by simp)
                have hcons : (SP :: piece).getLast? = piece.getLast? := by
                  cases piece with
                  | nil => exact absurd rfl hpiece
                  | cons a b => exact List.getLast?_cons_cons
                rw [List.flatMap_append, ← List.append_assoc, List.flatMap_singleton,
                  List.getLast?_append_of_ne_nil _ (by simp), hcons] at hc
                exact hall piece (by simp) c hc
          refine ⟨fun c hc => ?_, hends (pieces lines) ?_ ?_⟩
          · rw [List.head?_append_of_ne_nil _ hne] at hc
            exact hhead c hc
          · intro piece hpiece c hc
            obtain ⟨l, -, rfl⟩ := List.mem_map.mp (List.mem_filter.mp hpiece).1
            exact (trimmed_ends _).2 c hc
          · intro piece hpiece
            simpa using (List.mem_filter.mp hpiece).2

/-- The value of a folded header is its trimmed lines that are not empty, joined by single spaces, and
the header acts with this value, exactly if its first line is not blank or all its lines are. -/
theorem folded_value (v : FoldedValue) (p : HttpParser) (rest : List Byte) (e : Byte)
    (he : isBlank e = false) :
    (∃ value, value = joined (v.first :: v.more) ∧
      (∀ c ∈ value.head?, isBlank c = false) ∧ (∀ c ∈ value.getLast?, isBlank c = false) ∧
      parseHeaderValue p (v.bytes ++ e :: rest) =
        (1, { matchMessageHeader p.name value p with
          headerOffset := p.headerOffset + v.bytes.length
          headerState := .headerName })) ↔
    ((∃ c ∈ v.first, isBlank c = false) ∨ ∀ line ∈ v.more, ∀ c ∈ line, isBlank c = true) := by
  have hparse : parseHeaderValue p (v.bytes ++ e :: rest) =
      (1, { matchMessageHeader p.name (stored (trimmed v.first) v.more) p with
        headerOffset := p.headerOffset + v.bytes.length
        headerState := .headerName }) := by
    have hlength : (v.bytes ++ e :: rest).length - (e :: rest).length = v.bytes.length := by
      rw [List.length_append]
      omega
    simp only [parseHeaderValue, headerValueLoop_folded v he, hlength]
  have hcond : ((∃ c ∈ v.first, isBlank c = false) ∨
      ∀ line ∈ v.more, ∀ c ∈ line, isBlank c = true) ↔
        ¬(trimmed v.first = [] ∧ pieces v.more ≠ []) := by
    rw [trimmed_eq_nil, not_and_or, not_not, pieces_eq_nil]
    simp
  rw [hcond, hparse, stored_joined]
  obtain ⟨hhead, hlast⟩ := joined_ends (v.first :: v.more)
  constructor
  · rintro ⟨value, rfl, -, -, heq⟩ hbad
    rw [if_pos hbad] at heq
    have hlist := congrArg (fun r => r.2.headerList) heq
    simp only [matchMessageHeader, httpParserAddHeader] at hlist
    have hframe : ∀ w, (applyHeader p.name w p).headerList = p.headerList := by
      intro w
      unfold applyHeader
      split_ifs <;> rfl
    rw [hframe, hframe] at hlist
    simp at hlist
  · intro hgood
    rw [if_neg hgood]
    exact ⟨_, rfl, hhead, hlast, rfl⟩

/-- `Content-Length:` with the number on the next line. -/
def foldedLength : FoldedValue where
  first := []
  more := [ascii " 5"]
  folded := fun line hline => by
    rw [List.mem_singleton.mp hline]
    exact ⟨SP, ascii "5", rfl, rfl⟩
  chars := by decide +kernel
  total := by decide

theorem folded_value_length :
    ∃ value, value = joined [ascii "a ", ascii " ", ascii "\tb"] ∧
      (∀ c ∈ value.head?, isBlank c = false) ∧ (∀ c ∈ value.getLast?, isBlank c = false) ∧
      parseHeaderValue default (ascii "a \r\n \r\n\tb\r\n\r\n") =
        (1, { matchMessageHeader (default : HttpParser).name value default with
          headerOffset := (default : HttpParser).headerOffset + 11
          headerState := .headerName }) :=
  (folded_value
    { first := ascii "a "
      more := [ascii " ", ascii "\tb"]
      folded := by
        intro line hline
        rcases List.mem_cons.mp hline with rfl | hline
        · exact ⟨SP, [], rfl, rfl⟩
        · rw [List.mem_singleton.mp hline]
          exact ⟨HT, ascii "b", rfl, rfl⟩
      chars := by decide +kernel
      total := by decide } default (ascii "\n") CR (by decide)).mpr (.inl ⟨97, by decide, by decide⟩)

/-- The number is stored behind a space, and the length of the message is lost. -/
theorem folded_length_lost :
    ¬∀ (v : FoldedValue) (p : HttpParser) (rest : List Byte) (e : Byte), isBlank e = false →
      ∃ value, value = joined (v.first :: v.more) ∧
        (∀ c ∈ value.head?, isBlank c = false) ∧ (∀ c ∈ value.getLast?, isBlank c = false) ∧
        parseHeaderValue p (v.bytes ++ e :: rest) =
          (1, { matchMessageHeader p.name value p with
            headerOffset := p.headerOffset + v.bytes.length
            headerState := .headerName }) := by
  intro h
  obtain ⟨value, hvalue, -, -, heq⟩ := h foldedLength default (ascii "\n") CR (by decide)
  have hlist := congrArg (fun r => r.2.headerList) heq
  rw [hvalue] at hlist
  exact absurd hlist (by decide)

end Workflow.Http
