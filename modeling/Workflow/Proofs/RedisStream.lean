/-
Module: Workflow.Proofs.RedisStream
Layer: Proofs
Purpose: The Redis parser on a message that arrives in pieces. A pass of the loop that does not wait
  gives the same on a longer message, and a pass that waited can be repeated; the exception is a
  length line of blanks, where `atoi` runs on into what follows in memory.
Trusted boundary: none
Main exports: RedisParser.ext, RedisParser.AtBlank, atoi_line, forward_ext, forward_resume, MeetsBlank,
  parseLoop_decided, parseLoop_resume, appendAll_report
-/
import Workflow.Protocol.RedisParser
import Mathlib.Data.List.GetD
import Mathlib.Data.List.TakeWhile

namespace Workflow.Redis

open Workflow.Lib

/-! ### Conversion of a line -/

theorem dropWhile_append_of_exists {l t : List Byte} {p : Byte → Bool} (h : ∃ c ∈ l, p c = false) :
    (l ++ t).dropWhile p = l.dropWhile p ++ t := by
  rw [List.dropWhile_append, if_neg]
  obtain ⟨c, hc, hp⟩ := h
  simp only [List.isEmpty_iff, List.dropWhile_eq_nil_iff, not_forall]
  exact ⟨c, hc, by simp [hp]⟩

theorem digits_append_cr (l t : List Byte) : digits 10 (l ++ CR :: t) = digits 10 l := by
  unfold digits
  induction l with
  | nil =>
      rw [List.nil_append, List.takeWhile_cons_of_neg (by decide), List.takeWhile_nil]
  | cons c l ih =>
      rw [List.cons_append, List.takeWhile_cons, List.takeWhile_cons, ih]

/-- In a line with a character that is not blank `atoi` does not get past the end. -/
theorem atoi_line {line : List Byte} (h : ∃ c ∈ line, isSpace c = false) (t : List Byte) :
    atoi (line ++ CR :: t) = atoi line := by
  obtain ⟨c, u, hu⟩ : ∃ c u, line.dropWhile isSpace = c :: u := by
    cases hdrop : line.dropWhile isSpace with
    | nil =>
        obtain ⟨c, hc, hspace⟩ := h
        rw [List.dropWhile_eq_nil_iff] at hdrop
        exact absurd (hdrop c hc) (by simp [hspace])
    | cons c u => exact ⟨c, u, rfl⟩
  unfold atoi strtol
  dsimp only
  rw [dropWhile_append_of_exists h, hu]
  -- with or without a sign the digits end before the line does
  have hdigits : ∀ signed : Bool, digits 10 (if signed then (c :: u ++ CR :: t).tail
      else c :: u ++ CR :: t) = digits 10 (if signed then (c :: u).tail else c :: u) := by
    intro signed
    cases signed
    · exact digits_append_cr (c :: u) t
    · exact digits_append_cr u t
  have hhead : (c :: u ++ CR :: t).head? = (c :: u).head? := rfl
  rw [hhead, skipPrefix_ten, skipPrefix_ten, hdigits]

/-- On a line of blanks `atoi` reads what follows. -/
theorem atoi_blank {line : List Byte} (h : ∀ c ∈ line, isSpace c = true) (t : List Byte) :
    atoi (line ++ t) = atoi t := by
  have hdrop : (line ++ t).dropWhile isSpace = t.dropWhile isSpace :=
    List.dropWhile_append_of_pos h
  unfold atoi strtol
  rw [hdrop]

/-! ### The search -/

theorem searchCrlf_ext {m : List Byte} {f : Nat} (h : (searchCrlf m f).2 = true) (more : List Byte) :
    searchCrlf (m ++ more) f = searchCrlf m f := by
  fun_induction searchCrlf m f with
  | case1 f hin hfound =>
      rw [searchCrlf, if_pos (by rw [List.length_append]; omega)]
      rw [List.getD_append _ _ _ _ (by omega), List.getD_append _ _ _ _ (by omega), if_pos hfound]
  | case2 f hin hnot r ih =>
      rw [searchCrlf, if_pos (by rw [List.length_append]; omega)]
      rw [List.getD_append _ _ _ _ (by omega), List.getD_append _ _ _ _ (by omega), if_neg hnot]
      simp only [ih h]
      rfl
  | case3 f hout => simp at h

theorem searchCrlf_found {m : List Byte} {f : Nat} (h : (searchCrlf m f).2 = true) :
    f + (searchCrlf m f).1 + 1 < m.length ∧
      m.getD (f + (searchCrlf m f).1) 0 = CR ∧ m.getD (f + (searchCrlf m f).1 + 1) 0 = LF := by
  fun_induction searchCrlf m f with
  | case1 f hin hfound => exact ⟨hin, hfound⟩
  | case2 f hin hnot r ih =>
      rw [show f + (r.1 + 1) = f + 1 + r.1 by omega]
      exact ih h
  | case3 f hout => simp at h

/-- A search that failed goes on where it stopped. -/
theorem searchCrlf_resume {m : List Byte} {f : Nat} (h : (searchCrlf m f).2 = false)
    (more : List Byte) :
    searchCrlf (m ++ more) f =
      ((searchCrlf (m ++ more) (f + (searchCrlf m f).1)).1 + (searchCrlf m f).1,
        (searchCrlf (m ++ more) (f + (searchCrlf m f).1)).2) := by
  fun_induction searchCrlf m f with
  | case1 f hin hfound => simp at h
  | case2 f hin hnot r ih =>
      rw [searchCrlf, if_pos (by rw [List.length_append]; omega),
        List.getD_append _ _ _ _ (by omega), List.getD_append _ _ _ _ (by omega), if_neg hnot]
      simp only
      rw [ih h, show f + (r.1 + 1) = f + 1 + r.1 by omega]
      simp only [r, Nat.add_assoc]
  | case3 f hout => simp

/-- A search that failed does not find a line end inside. -/
theorem searchCrlf_beyond {m : List Byte} {f : Nat} (h : (searchCrlf m f).2 = false)
    (more : List Byte) (hfound : (searchCrlf (m ++ more) f).2 = true) :
    m.length ≤ f + (searchCrlf (m ++ more) f).1 + 1 := by
  fun_induction searchCrlf m f with
  | case1 f hin hyes => simp at h
  | case2 f hin hnot r ih =>
      have hstep : searchCrlf (m ++ more) f =
          ((searchCrlf (m ++ more) (f + 1)).1 + 1, (searchCrlf (m ++ more) (f + 1)).2) := by
        rw [searchCrlf, if_pos (by rw [List.length_append]; omega),
          List.getD_append _ _ _ _ (by omega), List.getD_append _ _ _ _ (by omega), if_neg hnot]
      rw [hstep] at hfound ⊢
      have := ih h hfound
      simp only
      omega
  | case3 f hout => omega

/-! ### One pass on a longer message -/

namespace RedisParser

/-- The parser with more bytes received, in a buffer of this size. -/
def ext (p : RedisParser) (more : List Byte) (size : Nat) : RedisParser :=
  { p with msgbuf := p.msgbuf ++ more, bufsize := size }

/-- Where the search for the end of the line gets to. -/
def search (p : RedisParser) : Nat × Bool :=
  searchCrlf p.msgbuf (p.msgidx + p.scanned)

/-- The line that is read. -/
def line (p : RedisParser) : List Byte :=
  (p.msgbuf.drop p.msgidx).take (p.scanned + p.search.1)

/-- The next pass converts a length line that consists of blanks. -/
structure AtBlank (p : RedisParser) : Prop where
  status : p.status = .untilCrlf
  cmd : p.cmd = 36 ∨ p.cmd = 42
  found : p.search.2 = true
  blank : ∀ c ∈ p.line, isSpace c = true

end RedisParser

/-- The length counts only for strings and arrays. -/
theorem parseLineAs_congr {n n' : Int} {p : RedisParser} (h : p.cmd = 36 ∨ p.cmd = 42 → n = n') :
    parseLineAs n p = parseLineAs n' p := by
  by_cases hcmd : p.cmd = 36 ∨ p.cmd = 42
  · rw [h hcmd]
  · unfold parseLineAs
    dsimp only
    rw [if_neg (fun h => hcmd (.inl h)), if_neg (fun h => hcmd (.inr h)),
      if_neg (fun h => hcmd (.inl h)), if_neg (fun h => hcmd (.inr h))]

/-- A line is never waited for. -/
theorem parseLineAs_code (n : Int) (p : RedisParser) : (parseLineAs n p).1 ≠ 2 := by
  unfold parseLineAs
  dsimp only
  repeat' split
  all_goals simp

theorem parseLineAs_ext {n : Int} {p : RedisParser} (hline : p.msgidx + p.scanned ≤ p.msgbuf.length)
    (more : List Byte) (size : Nat) :
    parseLineAs n (p.ext more size) = ((parseLineAs n p).1, (parseLineAs n p).2.ext more size) := by
  have htext : ((p.msgbuf ++ more).drop p.msgidx).take p.scanned =
      (p.msgbuf.drop p.msgidx).take p.scanned := by
    rw [List.drop_append_of_le_length (by omega), List.take_append_of_le_length (by simp; omega)]
  unfold parseLineAs RedisParser.ext
  dsimp only
  rw [htext]
  repeat' split
  all_goals rfl

/-- The bytes from the line on, when its end has been found. -/
theorem drop_eq_line {p : RedisParser} (h : p.search.2 = true) (behind : List Byte) :
    (p.msgbuf ++ behind).drop p.msgidx = p.line ++ CR :: LF ::
      (p.msgbuf.drop (p.msgidx + p.scanned + p.search.1 + 2) ++ behind) := by
  obtain ⟨hin, hcr, hlf⟩ := searchCrlf_found h
  change p.msgidx + p.scanned + p.search.1 + 1 < p.msgbuf.length at hin
  change p.msgbuf.getD (p.msgidx + p.scanned + p.search.1) 0 = CR at hcr
  change p.msgbuf.getD (p.msgidx + p.scanned + p.search.1 + 1) 0 = LF at hlf
  rw [List.getD_eq_getElem _ _ (by omega)] at hcr hlf
  have htail : p.msgbuf.drop (p.msgidx + p.scanned + p.search.1) =
      CR :: LF :: p.msgbuf.drop (p.msgidx + p.scanned + p.search.1 + 2) := by
    rw [List.drop_eq_getElem_cons (by omega), hcr, List.drop_eq_getElem_cons (by omega), hlf]
  rw [List.drop_append_of_le_length (by omega), RedisParser.line, ← List.cons_append,
    ← List.cons_append, ← htail, ← List.append_assoc, Nat.add_assoc, ← List.drop_drop,
    List.take_append_drop]

/-- The conversion of a line that is not blank does not look behind the line. -/
theorem atoi_eq_line {p : RedisParser} (hfound : p.search.2 = true)
    (hne : ∃ c ∈ p.line, isSpace c = false) (behind : List Byte) :
    atoi ((p.msgbuf ++ behind).drop p.msgidx) = atoi p.line := by
  rw [drop_eq_line hfound behind, atoi_line hne]

theorem search_ext {p : RedisParser} (h : p.search.2 = true) (more : List Byte) (size : Nat) :
    (p.ext more size).search = p.search :=
  searchCrlf_ext h more

theorem line_ext {p : RedisParser} (h : p.search.2 = true) (more : List Byte) (size : Nat) :
    (p.ext more size).line = p.line := by
  obtain ⟨hin, -⟩ := searchCrlf_found h
  change p.msgidx + p.scanned + p.search.1 + 1 < p.msgbuf.length at hin
  rw [RedisParser.line, search_ext h, RedisParser.line]
  simp only [RedisParser.ext]
  rw [List.drop_append_of_le_length (by omega), List.take_append_of_le_length (by simp; omega)]

theorem AtBlank.ext {p : RedisParser} (h : p.AtBlank) (more : List Byte) (size : Nat) :
    (p.ext more size).AtBlank where
  status := h.status
  cmd := h.cmd
  found := by rw [search_ext h.found]; exact h.found
  blank := by rw [line_ext h.found]; exact h.blank

/-! The branches of `forward` and of `parseCrlf`. -/

theorem forward_out {behind : List Byte} {p : RedisParser} (h : p.msgidx ≥ p.msgbuf.length) :
    forward behind p = (2, p) := by
  rw [forward, if_pos h]

theorem forward_crlf {behind : List Byte} {p : RedisParser} (hin : p.msgidx < p.msgbuf.length)
    (hstatus : p.status = .untilCrlf) : forward behind p = parseCrlf behind p := by
  rw [forward, if_neg (by omega)]
  simp only [hstatus]

theorem forward_nchar {behind : List Byte} {p : RedisParser} (hin : p.msgidx < p.msgbuf.length)
    (hstatus : p.status = .getNchar) : forward behind p = parseNchar p := by
  rw [forward, if_neg (by omega)]
  simp only [hstatus]

theorem parseCrlf_found {behind : List Byte} {p : RedisParser} (h : p.search.2 = true) :
    parseCrlf behind p = parseLineAs (atoi ((p.msgbuf ++ behind).drop p.msgidx))
      { p with scanned := p.scanned + p.search.1 } :=
  if_pos h

theorem parseCrlf_wait {behind : List Byte} {p : RedisParser} (h : p.search.2 = false) :
    parseCrlf behind p = (2, { p with scanned := p.scanned + p.search.1 }) :=
  if_neg (by rw [RedisParser.search] at h; rw [h]; decide)

/-- A pass that reads one character does not wait. -/
theorem forward_char {behind : List Byte} {p : RedisParser} (hin : p.msgidx < p.msgbuf.length)
    (hcrlf : p.status ≠ .untilCrlf) (hnchar : p.status ≠ .getNchar) :
    (forward behind p).1 ≠ 2 := by
  rw [forward, if_neg (by omega)]
  cases hstatus : p.status with
  | getCmd =>
      simp only [parseCmd]
      split <;> simp
  | getCr =>
      simp only [parseCr]
      split <;> simp
  | getLf =>
      simp only [parseLf]
      split <;> simp
  | untilCrlf => exact absurd hstatus hcrlf
  | getNchar => exact absurd hstatus hnchar
  | parseEnd => simp

/-- What a pass that waits finds, and what it changes: only how far the search for the line end has
got. -/
theorem forward_wait {behind : List Byte} {p : RedisParser} (h : (forward behind p).1 = 2) :
    p.msgidx ≥ p.msgbuf.length ∨
      (p.msgidx < p.msgbuf.length ∧ p.status = .untilCrlf ∧ p.search.2 = false) ∨
      (p.msgidx < p.msgbuf.length ∧ p.status = .getNchar ∧
        p.msgbuf.length < p.msgidx + p.nchar) := by
  rcases Nat.lt_or_ge p.msgidx p.msgbuf.length with hin | hout
  · by_cases hcrlf : p.status = .untilCrlf
    · refine .inr (.inl ⟨hin, hcrlf, ?_⟩)
      cases hfound : p.search.2 with
      | false => rfl
      | true =>
          rw [forward_crlf hin hcrlf, parseCrlf_found hfound] at h
          exact absurd h (parseLineAs_code _ _)
    · by_cases hnchar : p.status = .getNchar
      · refine .inr (.inr ⟨hin, hnchar, ?_⟩)
        by_contra hshort
        rw [forward_nchar hin hnchar, parseNchar, if_pos (by omega)] at h
        simp at h
      · exact absurd h (forward_char hin hcrlf hnchar)
  · exact .inl hout

/-- A pass that does not wait gives the same on a longer message. -/
theorem forward_ext {behind : List Byte} {p : RedisParser} (hwait : (forward behind p).1 ≠ 2)
    (hblank : ¬ p.AtBlank) (behind' more : List Byte) (size : Nat) :
    forward behind' (p.ext more size) = ((forward behind p).1, (forward behind p).2.ext more size) := by
  have hin : ¬ p.msgidx ≥ p.msgbuf.length := by
    intro hout
    rw [forward, if_pos hout] at hwait
    exact hwait rfl
  have hin' : ¬ (p.ext more size).msgidx ≥ (p.ext more size).msgbuf.length := by
    simp only [RedisParser.ext, List.length_append]
    omega
  have hch : (p.ext more size).msgbuf.getD (p.ext more size).msgidx 0 = p.msgbuf.getD p.msgidx 0 :=
    List.getD_append _ _ _ _ (show p.msgidx < p.msgbuf.length by omega)
  unfold forward at hwait ⊢
  rw [if_neg hin] at hwait
  rw [if_neg hin, if_neg hin', hch]
  dsimp only at hwait ⊢
  have hstatus' : (p.ext more size).status = p.status := rfl
  rw [hstatus']
  cases hstatus : p.status with
  | getCmd =>
      simp only [parseCmd]
      split <;> rfl
  | getCr =>
      simp only [parseCr]
      split <;> rfl
  | getLf =>
      simp only [parseLf]
      split <;> rfl
  | untilCrlf =>
      rw [hstatus] at hwait
      have hfound : p.search.2 = true := by
        by_contra hnot
        rw [parseCrlf_wait (by simpa using hnot)] at hwait
        exact hwait rfl
      obtain ⟨hend, -⟩ := searchCrlf_found hfound
      change p.msgidx + p.scanned + p.search.1 + 1 < p.msgbuf.length at hend
      have hfound' : (p.ext more size).search.2 = true := by rwa [search_ext hfound]
      have hline := parseLineAs_ext (n := atoi ((p.msgbuf ++ behind).drop p.msgidx))
        (p := { p with scanned := p.scanned + p.search.1 }) (by simp only; omega) more size
      simp only
      rw [parseCrlf_found hfound, parseCrlf_found hfound', search_ext hfound]
      refine Eq.trans (parseLineAs_congr fun hcmd => ?_) hline
      have hne : ∃ c ∈ p.line, isSpace c = false := by
        by_contra hall
        push Not at hall
        exact hblank ⟨hstatus, hcmd, hfound, fun c hc => by simpa using hall c hc⟩
      rw [atoi_eq_line hfound hne, ← line_ext hfound more size]
      exact atoi_eq_line hfound' (by rwa [line_ext hfound]) behind'
  | getNchar =>
      rw [hstatus] at hwait
      simp only [parseNchar] at hwait ⊢
      have henough : p.nchar ≤ p.msgbuf.length - p.msgidx := by
        by_contra hshort
        rw [if_neg hshort] at hwait
        exact hwait rfl
      rw [if_pos henough, if_pos (by simp only [RedisParser.ext, List.length_append]; omega)]
      rfl
  | parseEnd => rfl

/-- Where the search has started does not matter, only where it ends. -/
theorem parseCrlf_scanned {behind : List Byte} {p : RedisParser} {k : Nat}
    (hfound : ({ p with scanned := k } : RedisParser).search.2 = p.search.2)
    (hend : k + ({ p with scanned := k } : RedisParser).search.1 = p.scanned + p.search.1) :
    parseCrlf behind { p with scanned := k } = parseCrlf behind p := by
  have heq : ∀ q : RedisParser, parseCrlf behind q =
      if q.search.2 then parseLine behind { q with scanned := q.scanned + q.search.1 }
      else (2, { q with scanned := q.scanned + q.search.1 }) := fun _ => rfl
  rw [heq, heq p, hfound]
  simp only [hend]

/-- A pass that waited can be repeated when more bytes are there, and the line it comes to is the
same. -/
theorem forward_resume {behind : List Byte} {p : RedisParser} (h : (forward behind p).1 = 2)
    (more : List Byte) (size : Nat) :
    (∀ behind', forward behind' ((forward behind p).2.ext more size) = forward behind' (p.ext more size)) ∧
      (((forward behind p).2.ext more size).AtBlank → (p.ext more size).AtBlank) := by
  rcases forward_wait h with hout | ⟨hin, hstatus, hnot⟩ | ⟨hin, hstatus, hshort⟩
  · rw [forward_out hout]
    exact ⟨fun _ => rfl, id⟩
  · rw [forward_crlf hin hstatus, parseCrlf_wait hnot]
    have hgo : (p.ext more size).search =
        (({ p.ext more size with scanned := p.scanned + p.search.1 } : RedisParser).search.1 +
          p.search.1,
        ({ p.ext more size with scanned := p.scanned + p.search.1 } : RedisParser).search.2) := by
      have hresume := searchCrlf_resume hnot more
      rw [Nat.add_assoc] at hresume
      exact hresume
    have hscan : ∀ k, p.scanned + (k + p.search.1) = p.scanned + p.search.1 + k := by
      intro k
      omega
    have hin' : p.msgidx < (p.msgbuf ++ more).length := by
      rw [List.length_append]
      omega
    constructor
    · intro behind'
      have hsame : parseCrlf behind' { p.ext more size with scanned := p.scanned + p.search.1 } =
          parseCrlf behind' (p.ext more size) :=
        parseCrlf_scanned (by rw [hgo]) (by rw [hgo]; exact (hscan _).symm)
      have hcall : ∀ k, forward behind' { p.ext more size with scanned := k } =
          parseCrlf behind' { p.ext more size with scanned := k } :=
        fun k => forward_crlf hin' hstatus
      exact (hcall _).trans (hsame.trans (hcall p.scanned).symm)
    · rintro ⟨-, hcmd, hfound, hblank⟩
      refine ⟨hstatus, hcmd, by rw [hgo]; exact hfound, ?_⟩
      rw [RedisParser.line, hgo]
      simp only [RedisParser.line, RedisParser.ext] at hblank ⊢
      rw [hscan]
      exact hblank
  · rw [forward_nchar hin hstatus, parseNchar, if_neg (by omega)]
    exact ⟨fun _ => rfl, id⟩

/-! ### The loop on a longer message -/

/-- The loop comes to a length line of blanks. -/
inductive MeetsBlank (behind : List Byte) : RedisParser → Prop
  | here {p : RedisParser} (blank : p.AtBlank) : MeetsBlank behind p
  | later {p : RedisParser} (go : (forward behind p).1 = 0 ∨ (forward behind p).1 = 1)
      (status_ne : (afterForward (forward behind p)).status ≠ .parseEnd)
      (meets : MeetsBlank behind (afterForward (forward behind p))) : MeetsBlank behind p

theorem meetsBlank_congr {behind : List Byte} {p q : RedisParser}
    (hforward : forward behind p = forward behind q) (hblank : p.AtBlank → q.AtBlank)
    (h : MeetsBlank behind p) : MeetsBlank behind q := by
  cases h with
  | here hp => exact .here (hblank hp)
  | later hgo hstatus hmeets =>
      rw [hforward] at hgo hstatus hmeets
      exact .later hgo hstatus hmeets

theorem afterForward_ext (ret : Int) (p : RedisParser) (more : List Byte) (size : Nat) :
    afterForward (ret, p.ext more size) = (afterForward (ret, p)).ext more size := by
  unfold afterForward finishOne RedisParser.ext
  dsimp only
  repeat' split
  all_goals rfl

theorem parseLoop_next {behind : List Byte} {p : RedisParser}
    (hgo : (forward behind p).1 = 0 ∨ (forward behind p).1 = 1)
    (hstatus : (afterForward (forward behind p)).status ≠ .parseEnd) :
    parseLoop behind p = parseLoop behind (afterForward (forward behind p)) := by
  rw [parseLoop, if_pos hgo, if_pos hstatus]

section Longer

variable {behind trace more : List Byte} {size : Nat}

/-- A pass that goes on, seen on the longer message. -/
theorem pass_ext {p : RedisParser} (hgo : (forward behind p).1 = 0 ∨ (forward behind p).1 = 1)
    (hblank : ¬ MeetsBlank trace (p.ext more size)) (behind' : List Byte) :
    ((forward behind' (p.ext more size)).1 = 0 ∨ (forward behind' (p.ext more size)).1 = 1) ∧
      afterForward (forward behind' (p.ext more size)) =
        (afterForward (forward behind p)).ext more size := by
  have hnot : ¬ p.AtBlank := fun h => hblank (.here (AtBlank.ext h more size))
  have hwait : (forward behind p).1 ≠ 2 := by omega
  rw [forward_ext hwait hnot behind' more size]
  exact ⟨hgo, afterForward_ext _ _ _ _⟩

theorem meetsBlank_pass {p : RedisParser}
    (hgo : (forward behind p).1 = 0 ∨ (forward behind p).1 = 1)
    (hstatus : (afterForward (forward behind p)).status ≠ .parseEnd)
    (hblank : ¬ MeetsBlank trace (p.ext more size)) :
    ¬ MeetsBlank trace ((afterForward (forward behind p)).ext more size) := by
  obtain ⟨hgo', hafter⟩ := pass_ext hgo hblank trace
  intro h
  rw [← hafter] at h
  exact hblank (.later hgo' (by rw [hafter]; exact hstatus) h)

/-- A verdict does not change when bytes are appended. -/
theorem parseLoop_decided (p : RedisParser) (h : (parseLoop behind p).1 ≠ 0)
    (hblank : ¬ MeetsBlank trace (p.ext more size)) (behind' : List Byte) :
    parseLoop behind' (p.ext more size) =
      ((parseLoop behind p).1, (parseLoop behind p).2.ext more size) := by
  induction p using parseLoop.induct behind with
  | case1 p hgo hstatus ih =>
      obtain ⟨hgo', hafter⟩ := pass_ext hgo hblank behind'
      have hnext : parseLoop behind' (p.ext more size) =
          parseLoop behind' ((afterForward (forward behind p)).ext more size) := by
        rw [parseLoop_next hgo' (by rw [hafter]; exact hstatus), hafter]
      rw [parseLoop_next hgo hstatus] at h ⊢
      rw [hnext]
      exact ih h (meetsBlank_pass hgo hstatus hblank)
  | case2 p hgo hstatus =>
      obtain ⟨hgo', hafter⟩ := pass_ext hgo hblank behind'
      have hend : ¬ ((afterForward (forward behind p)).ext more size).status ≠ .parseEnd := hstatus
      rw [parseLoop, if_pos hgo', hafter, if_neg hend, parseLoop, if_pos hgo, if_neg hstatus]
  | case3 p hgo htwo =>
      rw [parseLoop, if_neg hgo, if_pos htwo] at h
      exact absurd rfl h
  | case4 p hgo htwo =>
      have hnot : ¬ p.AtBlank := fun hp => hblank (.here (AtBlank.ext hp more size))
      have hsame := forward_ext htwo hnot behind' more size
      rw [parseLoop, hsame, if_neg hgo, if_neg htwo, parseLoop, if_neg hgo, if_neg htwo]

/-- A loop that waited goes on as if it had seen all bytes from the start. -/
theorem parseLoop_resume (p : RedisParser) (h : (parseLoop behind p).1 = 0)
    (hblank : ¬ MeetsBlank trace (p.ext more size)) :
    (∀ behind', parseLoop behind' ((parseLoop behind p).2.ext more size) =
        parseLoop behind' (p.ext more size)) ∧
      ¬ MeetsBlank trace ((parseLoop behind p).2.ext more size) := by
  induction p using parseLoop.induct behind with
  | case1 p hgo hstatus ih =>
      have hnext : ∀ behind', parseLoop behind' (p.ext more size) =
          parseLoop behind' ((afterForward (forward behind p)).ext more size) := by
        intro behind'
        obtain ⟨hgo', hafter⟩ := pass_ext hgo hblank behind'
        rw [parseLoop_next hgo' (by rw [hafter]; exact hstatus), hafter]
      rw [parseLoop_next hgo hstatus] at h ⊢
      obtain ⟨hsame, hnone⟩ := ih h (meetsBlank_pass hgo hstatus hblank)
      exact ⟨fun behind' => (hsame behind').trans (hnext behind').symm, hnone⟩
  | case2 p hgo hstatus =>
      rw [parseLoop, if_pos hgo, if_neg hstatus] at h
      simp at h
  | case3 p hgo htwo =>
      obtain ⟨hsame, hline⟩ := forward_resume htwo more size
      have hloop : (parseLoop behind p).2 = (forward behind p).2 := by
        rw [parseLoop, if_neg hgo, if_pos htwo]
      rw [hloop]
      refine ⟨fun behind' => ?_, fun hmeets => hblank (meetsBlank_congr (hsame trace) hline hmeets)⟩
      rw [parseLoop, hsame behind', ← parseLoop]
  | case4 p hgo htwo =>
      rw [parseLoop, if_neg hgo, if_neg htwo] at h
      exact absurd (.inl h) hgo

/-- Without a blank length line the memory behind the message does not matter, and neither does the
size of the buffer. -/
theorem forward_refresh {p : RedisParser} (hblank : ¬ p.AtBlank) (behind behind' : List Byte) :
    forward behind' (p.ext [] size) = ((forward behind p).1, (forward behind p).2.ext [] size) := by
  by_cases htwo : (forward behind p).1 = 2
  · have hlen : (p.ext [] size).msgbuf.length = p.msgbuf.length := by
      simp only [RedisParser.ext, List.append_nil]
    have hstatus' : (p.ext [] size).status = p.status := rfl
    rcases forward_wait htwo with hout | ⟨hin, hstatus, hnot⟩ | ⟨hin, hstatus, hshort⟩
    · rw [forward_out hout, forward_out (by rw [hlen]; exact hout)]
    · have hsearch : (p.ext [] size).search = p.search := by
        simp only [RedisParser.search, RedisParser.ext, List.append_nil]
      rw [forward_crlf hin hstatus, parseCrlf_wait hnot,
        forward_crlf (hlen ▸ hin) (hstatus'.trans hstatus),
        parseCrlf_wait (by rw [hsearch]; exact hnot), hsearch]
      rfl
    · have hshort' : ¬ (p.ext [] size).nchar ≤
          (p.ext [] size).msgbuf.length - (p.ext [] size).msgidx := by
        rw [hlen]
        simp only [RedisParser.ext]
        omega
      rw [forward_nchar hin hstatus, parseNchar, if_neg (by omega),
        forward_nchar (hlen ▸ hin) (hstatus'.trans hstatus), parseNchar, if_neg hshort']
  · exact forward_ext htwo hblank behind' [] size

theorem parseLoop_refresh (p : RedisParser) (hblank : ¬ MeetsBlank trace (p.ext [] size))
    (behind behind' : List Byte) :
    parseLoop behind' (p.ext [] size) =
      ((parseLoop behind p).1, (parseLoop behind p).2.ext [] size) := by
  by_cases hcode : (parseLoop behind p).1 = 0
  · induction p using parseLoop.induct behind with
    | case1 p hgo hstatus ih =>
        obtain ⟨hgo', hafter⟩ := pass_ext hgo hblank behind'
        rw [parseLoop_next hgo hstatus] at hcode ⊢
        rw [parseLoop_next hgo' (by rw [hafter]; exact hstatus), hafter]
        exact ih (meetsBlank_pass hgo hstatus hblank) hcode
    | case2 p hgo hstatus =>
        rw [parseLoop, if_pos hgo, if_neg hstatus] at hcode
        simp at hcode
    | case3 p hgo htwo =>
        have hnot : ¬ p.AtBlank := fun hp => hblank (.here (AtBlank.ext hp [] size))
        have hsame : forward behind' (p.ext [] size) = _ := forward_refresh hnot behind behind'
        rw [parseLoop, hsame, if_neg hgo, if_pos htwo, parseLoop, if_neg hgo, if_pos htwo]
    | case4 p hgo htwo =>
        rw [parseLoop, if_neg hgo, if_neg htwo] at hcode
        exact absurd (.inl hcode) hgo
  · exact parseLoop_decided p hcode hblank behind'

end Longer

/-! ### Calls -/

theorem ext_ext (p : RedisParser) (a b : List Byte) (k size : Nat) :
    (p.ext a k).ext b size = p.ext (a ++ b) size := by
  simp only [RedisParser.ext, List.append_assoc]

/-- A call is a run of the loop on the longer message. -/
theorem append_eq (behind buf : List Byte) {p : RedisParser} (h : p.status ≠ .parseEnd) :
    ∃ size, redisParserAppendMessage behind buf p =
      ((parseLoop behind (p.ext buf size)).1,
        if (parseLoop behind (p.ext buf size)).1 = 1 then
          subSize (parseLoop behind (p.ext buf size)).2.msgidx p.msgbuf.length
        else buf.length,
        (parseLoop behind (p.ext buf size)).2) := by
  rw [redisParserAppendMessage, if_neg h]
  exact ⟨_, rfl⟩

/-- The codes of `forward`, which leaves the end of the reply to the loop. -/
theorem forward_code (behind : List Byte) {p : RedisParser} (h : p.status ≠ .parseEnd) :
    (forward behind p).1 ≤ 2 ∧ (forward behind p).2.status ≠ .parseEnd := by
  have hline : ∀ n q, q.status ≠ .parseEnd →
      (parseLineAs n q).1 ≤ 2 ∧ (parseLineAs n q).2.status ≠ .parseEnd := by
    intro n q hq
    unfold parseLineAs
    dsimp only
    repeat' split
    all_goals first | exact ⟨by simp, hq⟩ | simp [enterArray]
  unfold forward
  split
  · exact ⟨by simp, h⟩
  · cases hstatus : p.status with
    | getCmd =>
        simp only [parseCmd]
        split <;> simp
    | getCr =>
        simp only [parseCr]
        split <;> simp
    | getLf =>
        simp only [parseLf]
        split <;> simp
    | untilCrlf =>
        simp only [parseCrlf]
        split
        · exact hline _ _ (by simp [hstatus])
        · simp [hstatus]
    | getNchar =>
        simp only [parseNchar]
        split <;> simp [hstatus]
    | parseEnd => exact absurd hstatus h

/-- The codes of the loop. A loop that waits has not come to the end of the reply. -/
theorem parseLoop_code (behind : List Byte) (p : RedisParser) (hp : p.status ≠ .parseEnd) :
    (parseLoop behind p).1 ≤ 1 ∧
      ((parseLoop behind p).1 = 0 → (parseLoop behind p).2.status ≠ .parseEnd) := by
  induction p using parseLoop.induct behind with
  | case1 p hgo hstatus ih =>
      rw [parseLoop_next hgo hstatus]
      exact ih hstatus
  | case2 p hgo hstatus =>
      rw [parseLoop, if_pos hgo, if_neg hstatus]
      exact ⟨Int.le_refl 1, fun h => absurd h Int.one_ne_zero⟩
  | case3 p hgo htwo =>
      rw [parseLoop, if_neg hgo, if_pos htwo]
      exact ⟨Int.zero_le_ofNat 1, fun _ => (forward_code behind hp).2⟩
  | case4 p hgo htwo =>
      rw [parseLoop, if_neg hgo, if_neg htwo]
      have hcode := (forward_code behind hp).1
      exact ⟨by omega, fun h => absurd (.inl h) hgo⟩

theorem afterForward_msgbuf (r : Int × RedisParser) : (afterForward r).msgbuf = r.2.msgbuf := by
  unfold afterForward
  split
  · exact (finishOne_frame r.2).1
  · rfl

theorem parseLoop_msgbuf (behind : List Byte) (p : RedisParser) :
    (parseLoop behind p).2.msgbuf = p.msgbuf := by
  induction p using parseLoop.induct behind with
  | case1 p hgo hstatus ih =>
      rw [parseLoop_next hgo hstatus, ih, afterForward_msgbuf]
      exact (forward_moves behind p).1
  | case2 p hgo hstatus =>
      rw [parseLoop, if_pos hgo, if_neg hstatus, afterForward_msgbuf]
      exact (forward_moves behind p).1
  | case3 p hgo htwo =>
      rw [parseLoop, if_neg hgo, if_pos htwo]
      exact (forward_moves behind p).1
  | case4 p hgo htwo =>
      rw [parseLoop, if_neg hgo, if_neg htwo]
      exact (forward_moves behind p).1

/-- What a caller sees of a run: the code, the position behind the reply, the reply, and, unless
there was an error, the bytes taken by all calls together. -/
structure SameOutcome (x y : Int × Nat × RedisParser) : Prop where
  code : x.1 = y.1
  msgidx : x.2.2.msgidx = y.2.2.msgidx
  reply : x.2.2.reply = y.2.2.reply
  size : 0 ≤ x.1 → x.2.1 = y.2.1

/-- What a call on the bytes `buf` reports when the loop ends in `r`. -/
def report (p : RedisParser) (buf : List Byte) (r : Int × RedisParser) : Int × Nat × RedisParser :=
  (r.1, if r.1 = 1 then subSize r.2.msgidx p.msgbuf.length else buf.length, r.2)

theorem append_report (behind buf : List Byte) {p : RedisParser} (h : p.status ≠ .parseEnd) :
    ∃ size, redisParserAppendMessage behind buf p =
      report p buf (parseLoop behind (p.ext buf size)) :=
  append_eq behind buf h

theorem appendAll_wait {behind : Nat → List Byte} {chunk : List Byte} {chunks : List (List Byte)}
    {p : RedisParser} {r : Int × Nat × RedisParser}
    (hcall : redisParserAppendMessage (behind chunks.length) chunk p = r) (h : r.1 = 0) :
    appendAll behind (chunk :: chunks) p =
      ((appendAll behind chunks r.2.2).1, addSize r.2.1 (appendAll behind chunks r.2.2).2.1,
        (appendAll behind chunks r.2.2).2.2) := by
  rw [appendAll, hcall]
  exact if_pos h

theorem appendAll_stop {behind : Nat → List Byte} {chunk : List Byte} {chunks : List (List Byte)}
    {p : RedisParser} {r : Int × Nat × RedisParser}
    (hcall : redisParserAppendMessage (behind chunks.length) chunk p = r) (h : r.1 ≠ 0) :
    appendAll behind (chunk :: chunks) p = r := by
  rw [appendAll, hcall]
  exact if_neg h

/-- Without a blank length line, the calls on the pieces report together what one call on all the
bytes reports. -/
theorem appendAll_report {trace : List Byte} {size : Nat} (behind : Nat → List Byte)
    (chunks : List (List Byte)) (chunk : List Byte) (p : RedisParser) (hp : p.status ≠ .parseEnd)
    (hblank : ¬ MeetsBlank trace (p.ext (chunk :: chunks).flatten size))
    (hlen : p.msgbuf.length + (chunk :: chunks).flatten.length < 2 ^ 64) (behind' : List Byte) :
    SameOutcome (appendAll behind (chunk :: chunks) p)
      (report p (chunk :: chunks).flatten
        (parseLoop behind' (p.ext (chunk :: chunks).flatten size))) := by
  induction chunks generalizing p chunk with
  | nil =>
      obtain ⟨k, hcall⟩ := append_report (behind 0) chunk hp
      rw [List.flatten_cons, List.flatten_nil] at hblank hlen ⊢
      rw [← ext_ext p chunk [] k size] at hblank ⊢
      rw [parseLoop_refresh _ hblank (behind 0) behind']
      generalize parseLoop (behind 0) (p.ext chunk k) = r at hcall
      simp only [List.append_nil] at hlen ⊢
      by_cases hzero : r.1 = 0
      · rw [appendAll_wait hcall hzero]
        refine ⟨hzero.symm, rfl, rfl, fun _ => ?_⟩
        simp only [appendAll, report, hzero, Int.reduceEq, if_false]
        exact addSize_of_lt (by omega)
      · rw [appendAll_stop hcall hzero]
        exact ⟨rfl, rfl, rfl, fun _ => rfl⟩
  | cons next chunks ih =>
      obtain ⟨k, hcall⟩ := append_report (behind (next :: chunks).length) chunk hp
      have hflat : (chunk :: next :: chunks).flatten = chunk ++ (next :: chunks).flatten := rfl
      rw [hflat] at hblank hlen ⊢
      rw [← ext_ext p chunk (next :: chunks).flatten k size] at hblank ⊢
      obtain ⟨hle, hwaiting⟩ := parseLoop_code (behind (next :: chunks).length) (p.ext chunk k) hp
      by_cases hzero : (parseLoop (behind (next :: chunks).length) (p.ext chunk k)).1 = 0
      · rw [appendAll_wait hcall hzero]
        obtain ⟨hsame, hnone⟩ := parseLoop_resume _ hzero hblank
        have hstatus := hwaiting hzero
        have hbuf := parseLoop_msgbuf (behind (next :: chunks).length) (p.ext chunk k)
        generalize parseLoop (behind (next :: chunks).length) (p.ext chunk k) = r
          at hzero hsame hnone hstatus hbuf
        have hbuf : r.2.msgbuf = p.msgbuf ++ chunk := hbuf
        have hrest := ih next r.2 hstatus hnone
          (by rw [hbuf, List.length_append]; rw [List.length_append] at hlen; omega)
        rw [hsame behind'] at hrest
        generalize parseLoop behind' ((p.ext chunk k).ext (next :: chunks).flatten size) = w
          at hrest
        obtain ⟨hcode, hidx, hreply, hsize⟩ := hrest
        dsimp only [report] at hcode hidx hreply hsize ⊢
        refine ⟨hcode, hidx, hreply, fun hnonneg => ?_⟩
        simp only [hzero, Int.reduceEq, if_false]
        rw [hsize hnonneg, hbuf]
        rw [List.length_append] at hlen ⊢
        split
        · unfold addSize subSize
          omega
        · rw [List.length_append]
          exact addSize_of_lt (by omega)
      · rw [appendAll_stop hcall hzero, parseLoop_decided _ hzero hblank behind']
        refine ⟨rfl, rfl, rfl, fun hnonneg => ?_⟩
        have hone : (parseLoop (behind (next :: chunks).length) (p.ext chunk k)).1 = 1 := by
          dsimp only [report] at hnonneg
          omega
        simp only [report, hone, if_true]
        rfl

end Workflow.Redis
