/-
Module: Workflow.Lib.Rescan
Layer: Lib
Purpose: Parsers that rescan a growing buffer. A scanner looks at the bytes from its own offset on,
  answers with a C-style code (negative: rejected, zero: more bytes needed, positive: one item read)
  and is called again as long as the code is positive. `Scanner.run_decided` and
  `Scanner.run_resume` are the two facts a caller needs about the whole loop: an answer other than
  "more" does not change when bytes are appended, and a run that stopped for more bytes can be
  continued on the longer buffer as if it had started there.
Trusted boundary: none
Main exports: SameResult, Scanner, Scanner.run, Scanner.Stable, Scanner.run_decided,
  Scanner.run_resume, Scanner.run_congr, Scanner.run_preserves, Scanner.run_offset_le,
  Scanner.run_beyond, Scanner.run_take, Scanner.run_map, Resumable, feed, feed_flatten
-/
import Mathlib.Data.List.Basic

namespace Workflow.Lib

universe u v

variable {σ : Type u} {β : Type v}

/-- Two results agree: the codes are equal, and the states are related unless the input was
rejected. -/
def SameResult (r : σ → σ → Prop) (x y : Int × σ) : Prop :=
  x.1 = y.1 ∧ (0 ≤ x.1 → r x.2 y.2)

namespace SameResult

variable {r : σ → σ → Prop} {x y z : Int × σ}

theorem refl (hr : Equivalence r) (x : Int × σ) : SameResult r x x :=
  ⟨rfl, fun _ => hr.refl x.2⟩

theorem symm (hr : Equivalence r) (h : SameResult r x y) : SameResult r y x :=
  ⟨h.1.symm, fun hy => hr.symm (h.2 (h.1 ▸ hy))⟩

theorem trans (hr : Equivalence r) (hxy : SameResult r x y) (hyz : SameResult r y z) :
    SameResult r x z :=
  ⟨hxy.1.trans hyz.1, fun hx => hr.trans (hxy.2 hx) (hyz.2 (hxy.1 ▸ hx))⟩

end SameResult

/-! ### Scanners -/

/-- One step of a rescanning loop: the step sees the bytes from the state's offset to the end of the
buffer. A positive code means that it read at least one byte. -/
structure Scanner (σ : Type u) (β : Type v) where
  step : σ → List β → Int × σ
  offset : σ → Nat
  stop : σ → Bool
  progress : ∀ s bytes, 0 < (step s bytes).1 →
    bytes ≠ [] ∧ offset s < offset (step s bytes).2

namespace Scanner

/-- The loop `do { ... } while (ret > 0)` with its early exit: the step is called again from the new
offset as long as its code is positive and the state has not reached the end of the item. -/
def run (S : Scanner σ β) (message : List β) (s : σ) : Int × σ :=
  if S.stop (S.step s (message.drop (S.offset s))).2 then
    (1, (S.step s (message.drop (S.offset s))).2)
  else if 0 < (S.step s (message.drop (S.offset s))).1 then
    S.run message (S.step s (message.drop (S.offset s))).2
  else
    S.step s (message.drop (S.offset s))
termination_by message.length - S.offset s
decreasing_by
  rename_i _ hpos
  obtain ⟨hne, hlt⟩ := S.progress s _ hpos
  have hin : S.offset s < message.length := by
    by_contra hge
    exact hne (List.drop_eq_nil_of_le (by omega))
  omega

/-- The three ways a pass of the loop goes. -/
alias run_induction := Scanner.run.induct

/-- What makes a scanner restartable, up to a relation `r` that forgets scratch data: the step
respects `r`, an answer other than "more" is final, and "more" leaves the state unchanged up to
`r`. -/
structure Stable (S : Scanner σ β) (r : σ → σ → Prop) : Prop where
  equiv : Equivalence r
  offset_eq : ∀ {s t}, r s t → S.offset s = S.offset t
  stop_eq : ∀ {s t}, r s t → S.stop s = S.stop t
  step_congr : ∀ {s t} bytes, S.stop s = false → r s t →
    SameResult r (S.step s bytes) (S.step t bytes)
  step_decided : ∀ s bytes more, (S.step s bytes).1 ≠ 0 →
    S.step s (bytes ++ more) = S.step s bytes
  step_more : ∀ s bytes, (S.step s bytes).1 = 0 → r (S.step s bytes).2 s
  step_stop : ∀ s bytes, S.stop s = false → S.stop (S.step s bytes).2 = true →
    0 < (S.step s bytes).1

variable {S : Scanner σ β} {r : σ → σ → Prop}

/-- The bytes seen from an offset only grow when bytes are appended. -/
theorem drop_append_more (message more : List β) (k : Nat) :
    ∃ rest, (message ++ more).drop k = message.drop k ++ rest :=
  ⟨more.drop (k - message.length), by rw [List.drop_append]⟩

theorem run_stop {message : List β} {s : σ}
    (hstop : S.stop (S.step s (message.drop (S.offset s))).2 = true) :
    S.run message s = (1, (S.step s (message.drop (S.offset s))).2) := by
  rw [run, if_pos hstop]

theorem run_next {message : List β} {s : σ}
    (hstop : S.stop (S.step s (message.drop (S.offset s))).2 = false)
    (hpos : 0 < (S.step s (message.drop (S.offset s))).1) :
    S.run message s = S.run message (S.step s (message.drop (S.offset s))).2 := by
  rw [run, if_neg (by simp [hstop]), if_pos hpos]

theorem run_last {message : List β} {s : σ}
    (hstop : S.stop (S.step s (message.drop (S.offset s))).2 = false)
    (hpos : ¬ 0 < (S.step s (message.drop (S.offset s))).1) :
    S.run message s = S.step s (message.drop (S.offset s)) := by
  rw [run, if_neg (by simp [hstop]), if_neg hpos]

/-- A property that every step keeps holds of the state the loop ends in. -/
theorem run_preserves {P : σ → Prop} (hstep : ∀ s bytes, P s → P (S.step s bytes).2)
    (message : List β) (s : σ) (hs : P s) : P (S.run message s).2 := by
  induction s using run_induction S message with
  | case1 s hstop =>
      rw [run_stop hstop]
      exact hstep _ _ hs
  | case2 s hstop hpos ih =>
      rw [run_next (by simpa using hstop) hpos]
      exact ih (hstep _ _ hs)
  | case3 s hstop hpos =>
      rw [run_last (by simpa using hstop) hpos]
      exact hstep _ _ hs

/-- An answer other than "more" does not depend on the bytes that follow. -/
theorem run_decided (hS : S.Stable r) (message more : List β) (s : σ) (hs : S.stop s = false)
    (h : (S.run message s).1 ≠ 0) : S.run (message ++ more) s = S.run message s := by
  induction s using run_induction S message with
  | case1 s hstop =>
      obtain ⟨rest, hrest⟩ := drop_append_more message more (S.offset s)
      have hpos := hS.step_stop _ _ hs hstop
      have hsame := hS.step_decided s _ rest (Int.ne_of_gt hpos)
      rw [← hrest] at hsame
      rw [run_stop hstop, run_stop (by rw [hsame]; exact hstop), hsame]
  | case2 s hstop hpos ih =>
      obtain ⟨rest, hrest⟩ := drop_append_more message more (S.offset s)
      have hsame := hS.step_decided s _ rest (Int.ne_of_gt hpos)
      rw [← hrest] at hsame
      have hstop' : S.stop (S.step s (message.drop (S.offset s))).2 = false := by
        simpa using hstop
      rw [run_next hstop' hpos] at h ⊢
      rw [run_next (by rw [hsame]; exact hstop') (by rw [hsame]; exact hpos), hsame]
      exact ih hstop' h
  | case3 s hstop hpos =>
      obtain ⟨rest, hrest⟩ := drop_append_more message more (S.offset s)
      have hstop' : S.stop (S.step s (message.drop (S.offset s))).2 = false := by
        simpa using hstop
      rw [run_last hstop' hpos] at h ⊢
      have hsame := hS.step_decided s _ rest h
      rw [← hrest] at hsame
      rw [run_last (by rw [hsame]; exact hstop') (by rw [hsame]; exact hpos), hsame]

/-- Related states give related runs. -/
theorem run_congr (hS : S.Stable r) (message : List β) {s t : σ} (hs : S.stop s = false)
    (hst : r s t) : SameResult r (S.run message s) (S.run message t) := by
  induction s using run_induction S message generalizing t with
  | case1 s hstop =>
      obtain ⟨hcode, hrel⟩ := hS.step_congr (message.drop (S.offset s)) hs hst
      have hpos := hS.step_stop _ _ hs hstop
      have hrel := hrel (by omega)
      have hstopt : S.stop (S.step t (message.drop (S.offset t))).2 = true := by
        rw [← hS.offset_eq hst, ← hS.stop_eq hrel]
        exact hstop
      rw [run_stop hstop, run_stop hstopt, ← hS.offset_eq hst]
      exact ⟨rfl, fun _ => hrel⟩
  | case2 s hstop hpos ih =>
      obtain ⟨hcode, hrel⟩ := hS.step_congr (message.drop (S.offset s)) hs hst
      have hrel := hrel (by omega)
      have hstop' : S.stop (S.step s (message.drop (S.offset s))).2 = false := by
        simpa using hstop
      rw [run_next hstop' hpos]
      have hstopt : S.stop (S.step t (message.drop (S.offset t))).2 = false := by
        rw [← hS.offset_eq hst, ← hS.stop_eq hrel]
        exact hstop'
      have hpost : 0 < (S.step t (message.drop (S.offset t))).1 := by
        rw [← hS.offset_eq hst, ← hcode]
        exact hpos
      rw [run_next hstopt hpost, ← hS.offset_eq hst]
      exact ih hstop' hrel
  | case3 s hstop hpos =>
      have hsame := hS.step_congr (message.drop (S.offset s)) hs hst
      have hstop' : S.stop (S.step s (message.drop (S.offset s))).2 = false := by
        simpa using hstop
      rw [run_last hstop' hpos]
      have hpost : ¬ 0 < (S.step t (message.drop (S.offset t))).1 := by
        rw [← hS.offset_eq hst, ← hsame.1]
        exact hpos
      have hstopt : S.stop (S.step t (message.drop (S.offset t))).2 = false := by
        by_contra hbad
        exact hpost (hS.step_stop _ _ (by rw [← hS.stop_eq hst]; exact hs) (by simpa using hbad))
      rw [run_last hstopt hpost, ← hS.offset_eq hst]
      exact hsame

/-- A run that stopped for more bytes continues on the longer buffer as if it had started there. -/
theorem run_resume (hS : S.Stable r) (message more : List β) (s : σ) (hs : S.stop s = false)
    (h : (S.run message s).1 = 0) :
    SameResult r (S.run (message ++ more) (S.run message s).2) (S.run (message ++ more) s) := by
  induction s using run_induction S message with
  | case1 s hstop =>
      rw [run_stop hstop] at h
      simp at h
  | case2 s hstop hpos ih =>
      obtain ⟨rest, hrest⟩ := drop_append_more message more (S.offset s)
      have hsame := hS.step_decided s _ rest (Int.ne_of_gt hpos)
      rw [← hrest] at hsame
      have hstop' : S.stop (S.step s (message.drop (S.offset s))).2 = false := by
        simpa using hstop
      have hlong : S.run (message ++ more) s =
          S.run (message ++ more) (S.step s (message.drop (S.offset s))).2 := by
        rw [run_next (by rw [hsame]; exact hstop') (by rw [hsame]; exact hpos), hsame]
      rw [run_next hstop' hpos] at h ⊢
      rw [hlong]
      exact ih hstop' h
  | case3 s hstop hpos =>
      have hstop' : S.stop (S.step s (message.drop (S.offset s))).2 = false := by
        simpa using hstop
      rw [run_last hstop' hpos] at h ⊢
      exact run_congr hS _ hstop' (hS.step_more _ _ h)

/-- "More" leaves the loop before the end of the item. -/
theorem run_more_stop (message : List β) (s : σ) (h : (S.run message s).1 = 0) :
    S.stop (S.run message s).2 = false := by
  induction s using run_induction S message with
  | case1 s hstop =>
      rw [run_stop hstop] at h
      simp at h
  | case2 s hstop hpos ih =>
      have hstop' : S.stop (S.step s (message.drop (S.offset s))).2 = false := by
        simpa using hstop
      rw [run_next hstop' hpos] at h ⊢
      exact ih h
  | case3 s hstop hpos =>
      rw [run_last (by simpa using hstop) hpos]
      simpa using hstop

/-- A positive answer of the loop means that the item ended. -/
theorem run_pos_stop (message : List β) (s : σ) (h : 0 < (S.run message s).1) :
    S.stop (S.run message s).2 = true := by
  induction s using run_induction S message with
  | case1 s hstop =>
      rw [run_stop hstop]
      exact hstop
  | case2 s hstop hpos ih =>
      rw [run_next (by simpa using hstop) hpos] at h ⊢
      exact ih h
  | case3 s hstop hpos =>
      rw [run_last (by simpa using hstop) hpos] at h
      exact absurd h hpos

/-- If no step moves the offset past the bytes it was given, neither does the loop. -/
theorem run_offset_le (hS : S.Stable r)
    (hstep : ∀ s bytes, 0 < (S.step s bytes).1 →
      S.offset (S.step s bytes).2 ≤ S.offset s + bytes.length)
    (message : List β) (s : σ) (hs : S.stop s = false) (h : 0 < (S.run message s).1) :
    S.offset (S.run message s).2 ≤ message.length := by
  have hmove : ∀ s, 0 < (S.step s (message.drop (S.offset s))).1 →
      S.offset (S.step s (message.drop (S.offset s))).2 ≤ message.length := by
    intro s hpos
    have hle := hstep s _ hpos
    have hne := (S.progress s _ hpos).1
    have hin : S.offset s < message.length := by
      by_contra hge
      exact hne (List.drop_eq_nil_of_le (by omega))
    rw [List.length_drop] at hle
    omega
  induction s using run_induction S message with
  | case1 s hstop =>
      rw [run_stop hstop]
      exact hmove s (hS.step_stop _ _ hs hstop)
  | case2 s hstop hpos ih =>
      have hstop' : S.stop (S.step s (message.drop (S.offset s))).2 = false := by
        simpa using hstop
      rw [run_next hstop' hpos] at h ⊢
      exact ih hstop' h
  | case3 s hstop hpos =>
      rw [run_last (by simpa using hstop) hpos] at h
      exact absurd h hpos

/-- A loop that ends moves the offset forward. -/
theorem run_offset_lt (hS : S.Stable r) (message : List β) (s : σ) (hs : S.stop s = false)
    (h : 0 < (S.run message s).1) : S.offset s < S.offset (S.run message s).2 := by
  induction s using run_induction S message with
  | case1 s hstop =>
      rw [run_stop hstop]
      exact (S.progress _ _ (hS.step_stop _ _ hs hstop)).2
  | case2 s hstop hpos ih =>
      have hstop' : S.stop (S.step s (message.drop (S.offset s))).2 = false := by
        simpa using hstop
      rw [run_next hstop' hpos] at h ⊢
      exact Nat.lt_trans (S.progress _ _ hpos).2 (ih hstop' h)
  | case3 s hstop hpos =>
      rw [run_last (by simpa using hstop) hpos] at h
      exact absurd h hpos

/-- A change of the state that commutes with every step commutes with the loop. -/
theorem run_map {f : σ → σ}
    (hstep : ∀ s bytes, S.step (f s) bytes = ((S.step s bytes).1, f (S.step s bytes).2))
    (hoff : ∀ s, S.offset (f s) = S.offset s) (hstop : ∀ s, S.stop (f s) = S.stop s)
    (message : List β) (s : σ) :
    S.run message (f s) = ((S.run message s).1, f (S.run message s).2) := by
  have hstep' : ∀ s, S.step (f s) (message.drop (S.offset (f s))) =
      ((S.step s (message.drop (S.offset s))).1, f (S.step s (message.drop (S.offset s))).2) := by
    intro s
    rw [hoff, hstep]
  induction s using run_induction S message with
  | case1 s hend =>
      rw [run_stop hend, run_stop (by rw [hstep', hstop]; exact hend), hstep']
  | case2 s hend hpos ih =>
      have hend' : S.stop (S.step s (message.drop (S.offset s))).2 = false := by
        simpa using hend
      rw [run_next hend' hpos, run_next (by rw [hstep', hstop]; exact hend')
        (by rw [hstep']; exact hpos), hstep']
      exact ih
  | case3 s hend hpos =>
      have hend' : S.stop (S.step s (message.drop (S.offset s))).2 = false := by
        simpa using hend
      rw [run_last hend' hpos, run_last (by rw [hstep', hstop]; exact hend')
        (by rw [hstep']; exact hpos), hstep']

/-- If a step that succeeds looks at no byte behind its new offset, a loop that ends gives the same
result on any prefix that holds the item. -/
theorem run_take (hS : S.Stable r)
    (hstep : ∀ s bytes n, 0 < (S.step s bytes).1 → S.offset (S.step s bytes).2 ≤ S.offset s + n →
      S.step s (bytes.take n) = S.step s bytes)
    (message : List β) (n : Nat) (s : σ) (hs : S.stop s = false) (h : 0 < (S.run message s).1)
    (hn : S.offset (S.run message s).2 ≤ n) :
    S.run (message.take n) s = S.run message s := by
  have hsame : ∀ s, 0 < (S.step s (message.drop (S.offset s))).1 →
      S.offset (S.step s (message.drop (S.offset s))).2 ≤ n →
      S.step s ((message.take n).drop (S.offset s)) = S.step s (message.drop (S.offset s)) := by
    intro s hpos hle
    rw [List.drop_take]
    exact hstep s _ _ hpos (by omega)
  induction s using run_induction S message with
  | case1 s hstop =>
      rw [run_stop hstop] at hn ⊢
      have heq := hsame s (hS.step_stop _ _ hs hstop) hn
      rw [run_stop (by rw [heq]; exact hstop), heq]
  | case2 s hstop hpos ih =>
      have hstop' : S.stop (S.step s (message.drop (S.offset s))).2 = false := by
        simpa using hstop
      rw [run_next hstop' hpos] at h hn ⊢
      have heq := hsame s hpos (Nat.le_trans (Nat.le_of_lt (run_offset_lt hS _ _ hstop' h)) hn)
      rw [run_next (by rw [heq]; exact hstop') (by rw [heq]; exact hpos), heq]
      exact ih hstop' h hn
  | case3 s hstop hpos =>
      rw [run_last (by simpa using hstop) hpos] at h
      exact absurd h hpos

/-- If a step that had to wait reads all the bytes it waited with, and more than these when it ends
the item, then a loop that had to wait ends beyond the bytes it waited with. -/
theorem run_beyond (hS : S.Stable r)
    (hstep : ∀ s bytes more, (S.step s bytes).1 = 0 → 0 < (S.step s (bytes ++ more)).1 →
      S.offset s + bytes.length ≤ S.offset (S.step s (bytes ++ more)).2 ∧
        (S.stop (S.step s (bytes ++ more)).2 = true →
          S.offset s + bytes.length < S.offset (S.step s (bytes ++ more)).2))
    (message more : List β) (s : σ) (hs : S.stop s = false) (h : (S.run message s).1 = 0)
    (hmore : 0 < (S.run (message ++ more) s).1) :
    message.length < S.offset (S.run (message ++ more) s).2 := by
  induction s using run_induction S message with
  | case1 s hstop =>
      rw [run_stop hstop] at h
      simp at h
  | case2 s hstop hpos ih =>
      obtain ⟨rest, hrest⟩ := drop_append_more message more (S.offset s)
      have hsame := hS.step_decided s _ rest (Int.ne_of_gt hpos)
      rw [← hrest] at hsame
      have hstop' : S.stop (S.step s (message.drop (S.offset s))).2 = false := by
        simpa using hstop
      rw [run_next hstop' hpos] at h
      rw [run_next (by rw [hsame]; exact hstop') (by rw [hsame]; exact hpos), hsame] at hmore ⊢
      exact ih hstop' h hmore
  | case3 s hstop hpos =>
      rw [run_last (by simpa using hstop) hpos] at h
      obtain ⟨rest, hrest⟩ := drop_append_more message more (S.offset s)
      have hlen : message.length ≤ S.offset s + (message.drop (S.offset s)).length := by
        rw [List.length_drop]
        omega
      have hread := hstep s (message.drop (S.offset s)) rest h
      rw [← hrest] at hread
      by_cases hend : S.stop (S.step s ((message ++ more).drop (S.offset s))).2 = true
      · have hgt := (hread (hS.step_stop _ _ hs hend)).2 hend
        rw [run_stop hend]
        exact Nat.lt_of_le_of_lt hlen hgt
      · have hend' : S.stop (S.step s ((message ++ more).drop (S.offset s))).2 = false := by
          simpa using hend
        by_cases hgo : 0 < (S.step s ((message ++ more).drop (S.offset s))).1
        · have hge := (hread hgo).1
          rw [run_next hend' hgo] at hmore ⊢
          have hlt := run_offset_lt hS _ _ hend' hmore
          exact Nat.lt_of_le_of_lt (Nat.le_trans hlen hge) hlt
        · rw [run_last hend' hgo] at hmore
          exact absurd hmore hgo

end Scanner

/-! ### Feeding a parser chunk by chunk -/

/-- A parser over the bytes received so far that does not depend on how they arrived, up to `r`. -/
structure Resumable (ok : σ → Prop) (r : σ → σ → Prop) (parse : σ → List β → Int × σ) : Prop where
  equiv : Equivalence r
  congr : ∀ {s t} buffer, ok s → ok t → r s t → SameResult r (parse s buffer) (parse t buffer)
  decided : ∀ {s} buffer more, ok s → (parse s buffer).1 ≠ 0 →
    SameResult r (parse s (buffer ++ more)) (parse s buffer)
  resume : ∀ {s} buffer more, ok s → (parse s buffer).1 = 0 →
    SameResult r (parse (parse s buffer).2 (buffer ++ more)) (parse s (buffer ++ more))
  keep : ∀ {s} buffer, ok s → (parse s buffer).1 = 0 → ok (parse s buffer).2

/-- Call the parser once per chunk, each time on all bytes so far, and stop at the first answer other
than "more". -/
def feed (parse : σ → List β → Int × σ) : σ → List β → List (List β) → Int × σ
  | s, _, [] => (0, s)
  | s, buffer, chunk :: chunks =>
      if (parse s (buffer ++ chunk)).1 = 0 then
        feed parse (parse s (buffer ++ chunk)).2 (buffer ++ chunk) chunks
      else
        parse s (buffer ++ chunk)

/-- Feeding any non-empty list of chunks gives what one call on all the bytes gives. -/
theorem feed_flatten {ok : σ → Prop} {r : σ → σ → Prop} {parse : σ → List β → Int × σ}
    (hp : Resumable ok r parse) (s : σ) (buffer chunk : List β) (chunks : List (List β))
    (hs : ok s) :
    SameResult r (feed parse s buffer (chunk :: chunks))
      (parse s (buffer ++ (chunk :: chunks).flatten)) := by
  induction chunks generalizing s buffer chunk with
  | nil =>
      simp only [feed, List.flatten_cons, List.flatten_nil, List.append_nil]
      split
      · rename_i hmore
        exact ⟨hmore.symm, fun _ => hp.equiv.refl _⟩
      · exact .refl hp.equiv _
  | cons next chunks ih =>
      have hflat : buffer ++ (chunk :: next :: chunks).flatten =
          (buffer ++ chunk) ++ (next :: chunks).flatten := by simp
      rw [feed, hflat]
      split
      · rename_i hmore
        have hcont := ih (parse s (buffer ++ chunk)).2 (buffer ++ chunk) next (hp.keep _ hs hmore)
        exact hcont.trans hp.equiv (hp.resume _ _ hs hmore)
      · rename_i hdone
        exact (hp.decided _ _ hs hdone).symm hp.equiv

end Workflow.Lib
