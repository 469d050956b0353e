/-
Module: Workflow.Proofs.MysqlIteration
Layer: Proofs
Purpose: The documented loop over a parsed reply, `while (fetch_row)` inside of `next_result_set`. It
  shows every set with all its rows as long as no row set is empty: in front of the EOF packet
  `fetch_row` tries to decode a row, and the status `MYSQL_STATUS_ERROR` hides the sets behind. The
  parser leaves every row set filled unless an error packet cuts it off.
Trusted boundary: none
Main exports: VisitRight, Iterates, result_iteration, result_iteration_fails, parsed_filled,
  parsed_iteration
-/
import Workflow.Proofs.MysqlResult

namespace Workflow.Mysql

open Workflow.Lib Reading

variable {b : Reply} {rs : ResultSet} {c : ResultCursor}

/-! ### What is said about the loop -/

/-- What the user sees of a result set is what it holds. The rows are those that fill the set, and only
addresses between its two offsets were read for them. -/
inductive VisitRight (b : Reply) (rs : ResultSet) : Visit → Prop where
  | rows (f : Fetched) (htype : rs.type = .getResult) (hfilled : Filled b rs)
      (hrows : f.rows = rowsOf b (fun _ => mysqlTypeNull) rs)
      (hreads : ∀ a ∈ f.reads, Inside (b.base + rs.rowsBeginOffset) (b.base + rs.rowsEndOffset) a) :
      VisitRight b rs (.rows rs.fields f)
  | ok (htype : rs.type = .ok) : VisitRight b rs
      (.ok rs.affectedRows rs.insertId rs.warningCount (addSize b.base rs.infoOffset) rs.infoLen)

/-- The loop ends, and it has visited every result set in order. -/
def Iterates (b : Reply) (p : MysqlParser) : Prop :=
  ∃ fuel visits, mysqlCallback b p fuel = some visits ∧
    List.Forall₂ (VisitRight b) p.resultSetList visits

/-- An OK result, or rows that fill the set, and at least one. -/
def Shown (b : Reply) (rs : ResultSet) : Prop :=
  rs.type = .ok ∨ rs.type = .getResult ∧ rs.rowCount ≠ 0 ∧ Filled b rs

/-! ### A set at a time -/

/-- The cursor when it comes to a set, with the sets behind it. -/
def cursorAt (b : Reply) (old : ResultCursor) (rs : ResultSet) (rest : List ResultSet) :
    ResultCursor :=
  ResultCursor.fetchResultSet b rs { old with rest := rest, currentRow := 0 }

theorem cursorAt_rest (old : ResultCursor) (rest : List ResultSet) :
    (cursorAt b old rs rest).rest = rest := by
  unfold cursorAt ResultCursor.fetchResultSet
  cases rs.type <;> rfl

/-- A new cursor stands at the first result set. -/
theorem init_cons {p : MysqlParser} {rest : List ResultSet} (h : p.resultSetList = rs :: rest) :
    ∃ old, ResultCursor.init b p = cursorAt b old rs rest := by
  refine ⟨{ ResultCursor.init b default with sets := p.resultSetList }, ?_⟩
  unfold ResultCursor.init cursorAt
  rw [h]
  rfl

/-- The next result set is gone to, unless the cursor is in an error. -/
theorem nextResultSet_cons {rest : List ResultSet}
    (hstatus : ¬ (c.status = .notInit ∨ c.status = .error)) (hrest : c.rest = rs :: rest) :
    c.nextResultSet b = (true, cursorAt b c rs rest) := by
  unfold ResultCursor.nextResultSet cursorAt
  rw [if_neg hstatus, hrest]

/-- Behind the last result set there is none. -/
theorem nextResultSet_nil (hrest : c.rest = []) : (c.nextResultSet b).1 = false := by
  unfold ResultCursor.nextResultSet
  split
  · rfl
  · rw [hrest]

/-- When there is a next one, the cursor stands at it. -/
theorem nextResultSet_true {c' : ResultCursor} (h : c.nextResultSet b = (true, c')) :
    ∃ rs rest, c.rest = rs :: rest ∧ c' = cursorAt b c rs rest := by
  unfold ResultCursor.nextResultSet at h
  split at h
  · cases h
  · split at h
    · rename_i rs rest hrest
      exact ⟨rs, rest, hrest, (Prod.mk.inj h).2.symm⟩
    · cases h

/-- At an OK packet its numbers are shown. -/
theorem cursorAt_ok (old : ResultCursor) (rest : List ResultSet) (h : rs.type = .ok) :
    (cursorAt b old rs rest).status = .ok ∧ ∀ fuel,
      visitSet b.mem fuel (cursorAt b old rs rest) = some
        (.ok rs.affectedRows rs.insertId rs.warningCount (addSize b.base rs.infoOffset) rs.infoLen,
          cursorAt b old rs rest) := by
  unfold cursorAt ResultCursor.fetchResultSet
  rw [h]
  exact ⟨rfl, fun _ => rfl⟩

/-- At a row set the cursor stands before the first row. -/
theorem cursorAt_rows (old : ResultCursor) (rest : List ResultSet) (htype : rs.type = .getResult)
    (h : Filled b rs) : AtRow b rs (cursorAt b old rs rest) ∧
      (cursorAt b old rs rest).status = .getResult ∧ (cursorAt b old rs rest).currentRow = 0 :=
  atRow_fetchResultSet { old with rest := rest } htype h

/-- A row set is shown by fetching all its rows. -/
theorem visitSet_rows {fuel : Nat} (hstatus : c.status = .getResult) :
    visitSet b.mem fuel c = (fetchRows (fun _ => mysqlTypeNull) b.mem fuel c).map fun f =>
      (.rows c.fields f, f.cursor) :=
  if_pos hstatus

/-- With enough fuel a set is visited as it should be. -/
theorem visitSet_shown (old : ResultCursor) (rest : List ResultSet) (h : Shown b rs) :
    ∃ need visit c, VisitRight b rs visit ∧
      ¬ (c.status = .notInit ∨ c.status = .error) ∧ c.rest = rest ∧
      ((cursorAt b old rs rest).status = .getResult ∨ (cursorAt b old rs rest).status = .ok) ∧
      ∀ fuel, need ≤ fuel → visitSet b.mem fuel (cursorAt b old rs rest) = some (visit, c) := by
  rcases h with hok | ⟨htype, hcount, hfilled⟩
  · obtain ⟨hstatus, hvisit⟩ := cursorAt_ok (b := b) old rest hok
    refine ⟨0, _, _, .ok hok, ?_, cursorAt_rest old rest, .inr hstatus, fun fuel _ => hvisit fuel⟩
    rw [hstatus]
    decide
  · obtain ⟨hat, hstatus, hrow⟩ := cursorAt_rows old rest htype hfilled
    obtain ⟨need, f, hf, hrows, hreads, hclosed, hrest⟩ :=
      fetchRows_spec (fun _ => mysqlTypeNull) hfilled hat hstatus (by omega)
    have hpos := hat.pos
    rw [hrow] at hpos hrows
    rw [hpos, Nat.sub_zero] at hrows
    refine ⟨need, .rows rs.fields f, f.cursor, .rows f htype hfilled hrows fun a ha => ?_, ?_,
      hrest.trans (cursorAt_rest old rest), .inl hstatus, fun fuel hfuel => ?_⟩
    · have hinside := hreads a ha
      rw [hpos, hat.last] at hinside
      exact hinside
    · rw [hclosed]
      decide
    · rw [visitSet_rows hstatus, fetchRows, loop_mono hfuel hf, Option.map_some, hat.fields]

/-! ### The whole loop -/

/-- What a pass of the loop does with a result set that can be shown. -/
theorem visitStep_of_visit {fuel : Nat} (acc : List Visit) {visit : Visit} {c' : ResultCursor}
    (hopen : c.status = .getResult ∨ c.status = .ok)
    (hvisit : visitSet b.mem fuel c = some (visit, c')) :
    visitStep b fuel (acc, c) =
      if (c'.nextResultSet b).1 then .next (acc ++ [visit], (c'.nextResultSet b).2)
      else .done (some (acc ++ [visit])) := by
  have hnot : ¬ (c.status ≠ .getResult ∧ c.status ≠ .ok) := by
    rintro ⟨hrows, hok⟩
    exact hopen.elim hrows hok
  unfold visitStep
  rw [if_neg hnot]
  dsimp only
  rw [hvisit]
  dsimp only
  rcases hnext : c'.nextResultSet b with ⟨more, c''⟩
  cases more <;> rfl

/-- From a set on, all sets are visited. -/
theorem loop_visitStep {rest : List ResultSet} (old : ResultCursor)
    (h : ∀ r ∈ rs :: rest, Shown b r) :
    ∃ need, ∀ fuel, need ≤ fuel → ∀ acc, ∃ visits,
      loop (visitStep b fuel) (rest.length + 1) (acc, cursorAt b old rs rest) =
          some (some (acc ++ visits)) ∧
        List.Forall₂ (VisitRight b) (rs :: rest) visits := by
  induction rest generalizing rs old with
  | nil =>
      obtain ⟨need, visit, c, hright, -, hrest, hopen, hvisit⟩ :=
        visitSet_shown old [] (h rs List.mem_cons_self)
      refine ⟨need, fun fuel hfuel acc => ⟨[visit], ?_, .cons hright .nil⟩⟩
      have hstep := visitStep_of_visit acc hopen (hvisit fuel hfuel)
      rw [nextResultSet_nil hrest] at hstep
      exact loop_done hstep 0
  | cons next rest ih =>
      obtain ⟨need, visit, c, hright, hstatus, hrest, hopen, hvisit⟩ :=
        visitSet_shown old (next :: rest) (h rs List.mem_cons_self)
      obtain ⟨later, hlater⟩ := @ih next c fun r hr => h r (List.mem_cons_of_mem rs hr)
      refine ⟨max need later, fun fuel hfuel acc => ?_⟩
      have hstep := visitStep_of_visit acc hopen (hvisit fuel (by omega))
      rw [nextResultSet_cons hstatus hrest] at hstep
      obtain ⟨visits, hloop, hall⟩ := hlater fuel (by omega) (acc ++ [visit])
      refine ⟨visit :: visits, ?_, .cons hright hall⟩
      rw [List.length_cons, loop_next hstep, hloop, List.append_assoc]
      rfl

theorem iterates_of_shown {p : MysqlParser} (h : ∀ r ∈ p.resultSetList, Shown b r) :
    Iterates b p := by
  cases hsets : p.resultSetList with
  | nil =>
      have hinit : (ResultCursor.init b p).status = .notInit := by
        unfold ResultCursor.init
        rw [hsets]
      refine ⟨1, [], ?_, by rw [hsets]; exact .nil⟩
      have hstep : visitStep b 1 ([], ResultCursor.init b p) = .done (some []) := by
        unfold visitStep
        dsimp only
        rw [hinit, if_pos (by decide)]
      rw [mysqlCallback, loop_done hstep]
      rfl
  | cons rs rest =>
      obtain ⟨old, hinit⟩ := init_cons (b := b) hsets
      rw [hsets] at h
      obtain ⟨need, hloop⟩ := loop_visitStep old h
      obtain ⟨visits, hrun, hall⟩ := hloop (max need (rest.length + 1)) (by omega) []
      refine ⟨max need (rest.length + 1), visits, ?_, by rw [hsets]; exact hall⟩
      rw [mysqlCallback, hinit, loop_mono (Nat.le_max_right need (rest.length + 1)) hrun]
      rfl

/-! ### What a visit has read -/

/-- The loop over the rows has read the byte that the cursor stands at. -/
theorem pos_mem_reads {nullType : Nat → Nat} {mem : Nat → Byte} {fuel : Nat} {f : Fetched}
    (hstatus : c.status = .getResult) (hcolumn : c.dataTypes ≠ [])
    (h : fetchRows nullType mem fuel c = some f) : c.pos ∈ f.reads := by
  have hfirst : c.pos ∈ (c.fetchRowWith nullType mem).reads := by
    obtain ⟨dataType, types, htypes⟩ := List.exists_cons_of_ne_nil hcolumn
    have hcells : c.pos ∈ (readCells mem c.last nullType c.dataTypes c.pos).reads := by
      rw [htypes, readCells]
      exact List.mem_append_left _ List.mem_cons_self
    unfold ResultCursor.fetchRowWith
    rw [if_neg (not_not_intro hstatus)]
    exact List.mem_append_left _ hcells
  cases fuel with
  | zero => exact absurd h (by simp [fetchRows, loop_zero])
  | succ fuel =>
      rcases hvalue : (c.fetchRowWith nullType mem).value with ⟨row, c'⟩
      rw [fetchRows] at h
      cases row with
      | none =>
          rw [loop_done (fetchStep_none hvalue), Option.some.injEq] at h
          rw [← h]
          exact List.mem_append_right _ hfirst
      | some row =>
          rw [loop_next (fetchStep_row hvalue)] at h
          refine loop_invariant (P := fun g : Fetched => c.pos ∈ g.reads)
            (Q := fun g : Fetched => c.pos ∈ g.reads) (fun s t hs hstep => ?_) (fun s r hs hstep => ?_) ?_ h
          · unfold fetchStep at hstep
            dsimp only at hstep
            split at hstep
            · rw [← Step.next.inj hstep]
              exact List.mem_append_left _ hs
            · cases hstep
          · unfold fetchStep at hstep
            dsimp only at hstep
            split at hstep
            · cases hstep
            · rw [← Step.done.inj hstep]
              exact List.mem_append_left _ hs
          · exact List.mem_append_right _ hfirst

theorem fetchRowWith_rest (nullType : Nat → Nat) (mem : Nat → Byte) (c : ResultCursor) :
    (c.fetchRowWith nullType mem).value.2.rest = c.rest := by
  unfold ResultCursor.fetchRowWith
  split
  · rfl
  · rw [value_bind]
    split <;> rfl

/-- Showing a result set does not move on to the next one. -/
theorem visitSet_rest {mem : Nat → Byte} {fuel : Nat} {visit : Visit} {c' : ResultCursor}
    (h : visitSet mem fuel c = some (visit, c')) : c'.rest = c.rest := by
  unfold visitSet at h
  split at h
  · obtain ⟨f, hf, hpair⟩ := Option.map_eq_some_iff.mp h
    rw [← (Prod.mk.inj hpair).2]
    refine loop_invariant (P := fun g : Fetched => g.cursor.rest = c.rest)
      (Q := fun g : Fetched => g.cursor.rest = c.rest) (fun s t hs hstep => ?_)
      (fun s r hs hstep => ?_) rfl hf
    · unfold fetchStep at hstep
      dsimp only at hstep
      split at hstep
      · rw [← Step.next.inj hstep]
        exact (fetchRowWith_rest _ mem s.cursor).trans hs
      · cases hstep
    · unfold fetchStep at hstep
      dsimp only at hstep
      split at hstep
      · cases hstep
      · rw [← Step.done.inj hstep]
        exact (fetchRowWith_rest _ mem s.cursor).trans hs
  · obtain ⟨-, rfl⟩ := Prod.mk.inj (Option.some.inj h)
    rfl

/-- If a set is visited as it should be, it has rows. -/
theorem shown_of_visit {old : ResultCursor} {rest : List ResultSet} {fuel : Nat} {visit : Visit}
    {c' : ResultCursor} (hright : VisitRight b rs visit)
    (hvisit : visitSet b.mem fuel (cursorAt b old rs rest) = some (visit, c')) : Shown b rs := by
  cases hright with
  | ok htype => exact .inl htype
  | rows f htype hfilled hrows hreads =>
      refine .inr ⟨htype, fun hzero => ?_, hfilled⟩
      obtain ⟨hat, hstatus, hrow⟩ := cursorAt_rows old rest htype hfilled
      rw [visitSet_rows hstatus] at hvisit
      obtain ⟨g, hg, hpair⟩ := Option.map_eq_some_iff.mp hvisit
      obtain ⟨-, rfl⟩ := Visit.rows.inj (Prod.mk.inj hpair).1
      have hcolumn : (cursorAt b old rs rest).dataTypes ≠ [] := by
        rw [hat.dataTypes]
        exact fun hnil => hfilled.someColumn (List.map_eq_nil_iff.mp hnil)
      have hread := hreads _ (pos_mem_reads hstatus hcolumn hg)
      have hend := hfilled.filled
      have hpos := hat.pos
      rw [hzero] at hend
      rw [hrow] at hpos
      rw [hpos] at hread
      unfold rowAt rowsEnd at hread
      unfold rowsEnd at hend
      have hlt := hread.2
      omega

/-- What has been shown stays in front. -/
theorem visits_prefix {fuel n : Nat} {acc visits : List Visit}
    (h : loop (visitStep b fuel) n (acc, c) = some (some visits)) :
    ∃ tail, visits = acc ++ tail := by
  refine loop_invariant (P := fun s : List Visit × ResultCursor => ∃ tail, s.1 = acc ++ tail)
    (Q := fun r : Option (List Visit) => ∀ v, r = some v → ∃ tail, v = acc ++ tail)
    (fun s t hs hstep => ?_) (fun s r hs hstep => ?_) ⟨[], (List.append_nil acc).symm⟩ h visits rfl
  · obtain ⟨tail, htail⟩ := hs
    unfold visitStep at hstep
    split at hstep
    · cases hstep
    · split at hstep
      · cases hstep
      · rename_i visit c' hvisit
        split at hstep
        · rw [← Step.next.inj hstep]
          exact ⟨tail ++ [visit], by dsimp only; rw [htail, List.append_assoc]⟩
        · cases hstep
  · obtain ⟨tail, htail⟩ := hs
    unfold visitStep at hstep
    split at hstep
    · rw [← Step.done.inj hstep]
      rintro v hv
      exact ⟨tail, by rw [← Option.some.inj hv, htail]⟩
    · split at hstep
      · rw [← Step.done.inj hstep]
        rintro v hv
        cases hv
      · rename_i visit c' hvisit
        split at hstep
        · cases hstep
        · rw [← Step.done.inj hstep]
          rintro v hv
          exact ⟨tail ++ [visit], by rw [← Option.some.inj hv, htail, List.append_assoc]⟩

/-- The first set of a loop that has visited all sets as it should, and the loop behind it. -/
theorem first_visit {fuel n : Nat} {rest : List ResultSet} {old : ResultCursor}
    {acc tail : List Visit}
    (h : loop (visitStep b fuel) n (acc, cursorAt b old rs rest) = some (some (acc ++ tail)))
    (hall : List.Forall₂ (VisitRight b) (rs :: rest) tail) :
    Shown b rs ∧ ∀ next later, rest = next :: later → ∃ old' n' acc' tail',
      loop (visitStep b fuel) n' (acc', cursorAt b old' next later) = some (some (acc' ++ tail')) ∧
        List.Forall₂ (VisitRight b) (next :: later) tail' := by
  obtain ⟨v, tail, hright, hrest, rfl⟩ := List.forall₂_cons_left_iff.mp hall
  have hopen : (cursorAt b old rs rest).status = .getResult ∨
      (cursorAt b old rs rest).status = .ok := by
    cases hright with
    | rows f htype hfilled hrows hreads => exact .inl (cursorAt_rows old rest htype hfilled).2.1
    | ok htype => exact .inr (cursorAt_ok old rest htype).1
  cases n with
  | zero => cases h
  | succ n =>
      cases hvisit : visitSet b.mem fuel (cursorAt b old rs rest) with
      | none =>
          have hstep : visitStep b fuel (acc, cursorAt b old rs rest) = .done none := by
            unfold visitStep
            rw [if_neg (fun hnot => hopen.elim hnot.1 hnot.2)]
            dsimp only
            rw [hvisit]
          rw [loop_done hstep] at h
          cases h
      | some result =>
          obtain ⟨visit, c'⟩ := result
          have hstep := visitStep_of_visit acc hopen hvisit
          have hsame : c'.rest = rest := (visitSet_rest hvisit).trans (cursorAt_rest old rest)
          rcases hnext : c'.nextResultSet b with ⟨more, c''⟩
          rw [hnext] at hstep
          cases more with
          | false =>
              rw [loop_done hstep, Option.some.injEq, Option.some.injEq] at h
              obtain ⟨rfl, rfl⟩ := List.cons.inj (List.append_cancel_left h)
              refine ⟨shown_of_visit hright hvisit, fun next later hcons => ?_⟩
              rw [hcons] at hrest
              cases hrest
          | true =>
              rw [loop_next hstep] at h
              obtain ⟨behind, hbehind⟩ := visits_prefix h
              rw [List.append_assoc, List.singleton_append] at hbehind
              obtain ⟨rfl, rfl⟩ := List.cons.inj (List.append_cancel_left hbehind)
              refine ⟨shown_of_visit hright hvisit, fun next later hcons => ?_⟩
              obtain ⟨rs', rest', hrest', rfl⟩ := nextResultSet_true hnext
              rw [hsame, hcons] at hrest'
              obtain ⟨rfl, rfl⟩ := List.cons.inj hrest'
              refine ⟨c', n, acc ++ [v], tail, ?_, by rw [← hcons]; exact hrest⟩
              rw [h, List.append_assoc]
              rfl

/-- A loop that ends well has shown all of the result sets. -/
theorem shown_of_loop {fuel n : Nat} {rest : List ResultSet} {old : ResultCursor}
    {acc tail : List Visit}
    (h : loop (visitStep b fuel) n (acc, cursorAt b old rs rest) = some (some (acc ++ tail)))
    (hall : List.Forall₂ (VisitRight b) (rs :: rest) tail) : ∀ r ∈ rs :: rest, Shown b r := by
  induction rest generalizing rs old n acc tail with
  | nil =>
      intro r hr
      rw [List.mem_singleton.mp hr]
      exact (first_visit h hall).1
  | cons next rest ih =>
      obtain ⟨hshown, hbehind⟩ := first_visit h hall
      obtain ⟨old', n', acc', tail', hloop, hrest⟩ := hbehind next rest rfl
      intro r hr
      rcases List.mem_cons.mp hr with rfl | hlater
      · exact hshown
      · exact ih hloop hrest r hlater

/-- So it is with the whole reply. -/
theorem shown_of_iterates {p : MysqlParser} (h : Iterates b p) :
    ∀ rs ∈ p.resultSetList, Shown b rs := by
  obtain ⟨fuel, visits, hrun, hall⟩ := h
  cases hsets : p.resultSetList with
  | nil => exact fun rs hmem => absurd hmem List.not_mem_nil
  | cons rs rest =>
      obtain ⟨old, hinit⟩ := init_cons (b := b) hsets
      rw [mysqlCallback, hinit, Option.join_eq_some_iff] at hrun
      rw [hsets] at hall
      exact @shown_of_loop b rs _ _ rest old [] visits hrun hall

/-- The documented loop visits every result set of a reply with all its rows, and reads nothing else,
if and only if each is an OK result or a row set whose rows fill it and that has at least one. -/
theorem result_iteration (b : Reply) (p : MysqlParser) :
    Iterates b p ↔ ∀ rs ∈ p.resultSetList,
      rs.type = .ok ∨ rs.type = .getResult ∧ rs.rowCount ≠ 0 ∧ Filled b rs :=
  ⟨shown_of_iterates, iterates_of_shown⟩

/-- A row set with one column and no rows, and an OK result behind it. -/
def emptyRowsReply : Reply :=
  replyOf ([1] ++ ([0, 0, 0, 0, 0, 0] ++ [12, 33, 0, 0, 0, 0, 0, 253, 0, 0, 0, 0, 0]) ++
    [254, 0, 0, 0, 0] ++ [254, 0, 0, 10, 0] ++ [0, 0, 0, 2, 0, 0, 0]) (by decide)

def emptyRowsParser : MysqlParser :=
  ((mysqlParserParse 9 emptyRowsReply
    (mysqlParserSetCommand comQuery (mysqlParserInit default))).getD default).2

/-- The reply is accepted. -/
theorem parse_emptyRows : mysqlParserParse 9 emptyRowsReply
    (mysqlParserSetCommand comQuery (mysqlParserInit default)) = some (1, emptyRowsParser) :=
  rfl

theorem result_iteration_fails : ¬ ∀ (b : Reply) (p : MysqlParser),
    (∃ fuel, mysqlParserParse fuel b
      (mysqlParserSetCommand comQuery (mysqlParserInit default)) = some (1, p)) → Iterates b p := by
  intro h
  have hshown := shown_of_iterates (h emptyRowsReply emptyRowsParser ⟨9, parse_emptyRows⟩)
  have hfirst : ∃ rs ∈ emptyRowsParser.resultSetList, rs.type = .getResult ∧ rs.rowCount = 0 :=
    ⟨emptyRowsParser.resultSetList.headD { type := .other }, .head _, by decide +kernel,
      by decide +kernel⟩
  obtain ⟨rs, hmem, htype, hzero⟩ := hfirst
  rcases hshown rs hmem with hok | ⟨-, hcount, -⟩
  · rw [htype] at hok
    cases hok
  · exact hcount hzero

/-! ### What the parser leaves -/

/-- A cell that the parser accepts inside the buffer is the cell that lies there. -/
theorem rowCell_cell {p q : Nat} (hin : StringInside b p) (h : rowCell b p = some q) :
    q = cellEnd b.mem p ∧ b.mem p ≠ 255 := by
  rw [rowCell_eq, Option.map_eq_some_iff] at h
  obtain ⟨d, hd, rfl⟩ := h
  have hle := hin d hd
  have hpos := headerSize_pos (b.mem p)
  have huser := bufEnd_lt b
  have hfits : PrefixFits b.mem b.bufEnd p := ⟨by omega, fun _ => ⟨by omega, by omega⟩⟩
  rw [← decodeStringReading_value b (by omega), decodeStringReading_of_fits (by omega) hfits] at hd
  split at hd
  · cases hd
  · rename_i hvalid
    refine ⟨?_, fun h => hvalid (.inl h)⟩
    split at hd
    · rename_i hzero
      obtain rfl := Option.some.inj hd
      have hlen : cellLength b.mem p = 0 := by
        unfold cellLength
        split
        · rfl
        · rename_i hsome
          exact (hzero.resolve_left fun h => hsome (.inl h)).resolve_right fun h => hsome (.inr h)
      rw [cellEnd, hlen]
      rfl
    · rename_i hsome
      split at hd
      · cases hd
      · obtain rfl := Option.some.inj hd
        dsimp only at hle ⊢
        have hlen : cellLength b.mem p = encodedLength b.mem p :=
          if_neg fun h => hsome (h.elim .inl fun h => .inr (.inr h))
        rw [cellEnd, hlen]
        exact addSize_of_lt (by omega)

/-- So is a row. -/
theorem rowCells_row {count p q : Nat} (hin : StringsInside b count p)
    (h : rowCells b count p = some q) : q = rowEnd b.mem count p ∧ CellsValid b.mem count p := by
  induction count generalizing p with
  | zero => exact ⟨(Option.some.inj h).symm, trivial⟩
  | succ count ih =>
      rw [rowCells, Option.bind_eq_some_iff] at h
      obtain ⟨next, hnext, hrest⟩ := h
      obtain ⟨rfl, hvalid⟩ := rowCell_cell hin.1 hnext
      obtain ⟨hend, hcells⟩ := ih (hin.2 _ hnext) hrest
      exact ⟨hend, hvalid, hcells⟩

/-- An OK result, or rows that fill the set. -/
def Complete (b : Reply) (rs : ResultSet) : Prop :=
  rs.type = .ok ∨ rs.type = .getResult ∧ Filled b rs

/-- The last result set is one with rows; all the others are complete. -/
structure Open (b : Reply) (p : MysqlParser) (front : List ResultSet) (cur : ResultSet) : Prop where
  list : p.resultSetList = front ++ [cur]
  complete : ∀ rs ∈ front, Complete b rs
  type : cur.type = .getResult

/-- The columns of a set are known. -/
structure Columns (cur : ResultSet) : Prop where
  columns : cur.fieldCount = cur.fields.length
  someColumn : cur.fields ≠ []

/-- The rows so far lie one behind the other up to the offset of the parser. -/
structure RowsSoFar (b : Reply) (p : MysqlParser) (cur : ResultSet) : Prop where
  valid : RowsValid b.mem cur.fields.length cur.rowCount (b.base + cur.rowsBeginOffset)
  filled : rowsEnd b.mem cur.fields.length cur.rowCount (b.base + cur.rowsBeginOffset) =
    b.base + p.offset

/-- What the parser has left so far, by the packet that it expects. -/
def Laid (b : Reply) (p : MysqlParser) : Prop :=
  match p.parse with
  | .errorPacket => True
  | .columnDefPacket => ∃ front cur, Open b p front cur ∧ cur.rowCount = 0 ∧
      p.currentFieldCount = cur.fields.length
  | .fieldEofPacket => ∃ front cur, Open b p front cur ∧ cur.rowCount = 0 ∧ Columns cur
  | .rowPacket => ∃ front cur, Open b p front cur ∧ Columns cur ∧ RowsSoFar b p cur
  | _ => ∀ rs ∈ p.resultSetList, Complete b rs

variable {p q : MysqlParser} {front : List ResultSet} {cur : ResultSet}

theorem Open.current (h : Open b p front cur) : p.current = cur := by
  rw [MysqlParser.current, h.list]
  exact List.getLastD_concat

/-- The result set at the end is replaced. -/
theorem Open.setCurrent (h : Open b p front cur) (rs : ResultSet) :
    (p.setCurrent rs).resultSetList = front ++ [rs] := by
  rw [MysqlParser.setCurrent, h.list, List.dropLast_concat]

/-- While the columns are read, the last result set is open and has no rows. -/
theorem laid_of_columnDef (hparse : p.parse = .columnDefPacket)
    (h : ∃ front cur, Open b p front cur ∧ cur.rowCount = 0 ∧
      p.currentFieldCount = cur.fields.length) : Laid b p := by
  unfold Laid
  rw [hparse]
  exact h

/-- While the rows are read, the last result set is open. -/
theorem laid_of_row (hparse : p.parse = .rowPacket)
    (h : ∃ front cur, Open b p front cur ∧ Columns cur ∧ RowsSoFar b p cur) : Laid b p := by
  unfold Laid
  rw [hparse]
  exact h

/-- The functions that are called between result sets. -/
def between : ParseFn → Bool
  | .basePacket | .okPacket | .eofPacket | .fieldCount | .localInline => true
  | _ => false

/-- Between two result sets all of them are complete. -/
theorem laid_between (hparse : between p.parse = true) :
    Laid b p ↔ ∀ rs ∈ p.resultSetList, Complete b rs := by
  unfold Laid
  cases h : p.parse <;> first | rfl | (rw [h] at hparse; cases hparse)

theorem complete_append (rs : ResultSet) {list : List ResultSet}
    (h : ∀ r ∈ list, Complete b r) (hrs : Complete b rs) : ∀ r ∈ list ++ [rs], Complete b r := by
  intro r hr
  rcases List.mem_append.mp hr with hold | hnew
  · exact h r hold
  · rw [List.mem_singleton.mp hnew]
    exact hrs

/-- An OK packet is a result set of its own. -/
theorem laid_okPacket (hsets : ∀ rs ∈ p.resultSetList, Complete b rs) (hparse : p.parse = .okPacket)
    {ret : Int} (h : parseOkPacket b p = (ret, q)) (hret : 0 ≤ ret) : Laid b q := by
  unfold parseOkPacket at h
  split at h
  · cases h
    exact absurd hret (by decide)
  · rename_i packet hread
    have hall := complete_append (packet.resultSet b) hsets (.inl rfl)
    dsimp only at h
    split at h
    · cases h
      trivial
    · split at h
      · cases h
        exact hall
      · cases h
        exact (laid_between (by dsimp only; rw [hparse]; rfl)).mpr hall

/-- A column is added to the open result set. -/
theorem laid_columnDefPacket (hopen : Open b p front cur) (hrows : cur.rowCount = 0)
    (hcount : p.currentFieldCount = cur.fields.length) (hparse : p.parse = .columnDefPacket)
    {ret : Int} (h : parseColumnDefPacket b p = (ret, q)) (hret : 0 ≤ ret) : Laid b q := by
  unfold parseColumnDefPacket at h
  split at h
  · cases h
    exact absurd hret (by decide)
  · rename_i field next hread
    rw [hopen.current] at h
    have hlength : p.currentFieldCount + 1 = ((cur.fields ++ [field]).length : Int) := by
      rw [hcount, List.length_append]
      rfl
    have hsets := hopen.setCurrent { cur with fields := cur.fields ++ [field] }
    dsimp only at h
    by_cases hlast : p.currentFieldCount + 1 = cur.fieldCount
    · rw [if_pos hlast] at h
      cases h
      exact ⟨front, _, ⟨hsets, hopen.complete, hopen.type⟩, hrows,
        ⟨hlast.symm.trans hlength, by simp⟩⟩
    · rw [if_neg hlast] at h
      cases h
      exact laid_of_columnDef hparse
        ⟨front, _, ⟨hsets, hopen.complete, hopen.type⟩, hrows, hlength⟩

/-- The columns end, and the rows begin. -/
theorem laid_fieldEofPacket (hopen : Open b p front cur) (hrows : cur.rowCount = 0)
    (hcolumns : Columns cur) {ret : Int} (h : parseFieldEofPacket b p = (ret, q)) (hret : 0 ≤ ret) :
    Laid b q := by
  unfold parseFieldEofPacket at h
  split at h
  · cases h
    exact absurd hret (by decide)
  · rw [hopen.current] at h
    cases h
    refine ⟨front, _, ⟨hopen.setCurrent _, hopen.complete, hopen.type⟩,
      ⟨hcolumns.columns, hcolumns.someColumn⟩, ?_⟩
    constructor
    · dsimp only
      rw [hrows]
      trivial
    · dsimp only
      rw [hrows]
      rfl

/-- A row is added to the open result set, or it ends. -/
theorem laid_rowPacket (hinv : Inv b p) (hparse : p.parse = .rowPacket) (hopen : Open b p front cur)
    (hcolumns : Columns cur) (hrows : RowsSoFar b p cur)
    (hin : b.mem (p.pos b) ≠ 255 → b.mem (p.pos b) ≠ 254 →
      StringsInside b (toSize p.current.fieldCount) (p.pos b))
    {ret : Int} (h : parseRowPacket b p = (ret, q)) (hret : 0 ≤ ret) : Laid b q := by
  have hpos := pos_eq hinv.offset_le
  have hlt := hinv.offset_lt (by rw [hparse]; decide)
  unfold parseRowPacket at h
  dsimp only at h
  by_cases herror : b.mem (p.pos b) = 255
  · rw [if_pos herror] at h
    cases h
    trivial
  by_cases heof : b.mem (p.pos b) = 254
  · rw [if_neg herror, if_pos heof, hopen.current] at h
    cases h
    refine (laid_between rfl).mpr ?_
    dsimp only
    rw [hopen.setCurrent]
    refine complete_append _ hopen.complete (.inr ⟨hopen.type, hcolumns.columns, hcolumns.someColumn,
      hrows.valid, hrows.filled, hlt, ?_⟩)
    rw [← hpos]
    exact heof
  · have hinside := hin herror heof
    rw [hopen.current] at hinside
    have hfieldCount := hinv.fieldCount (.inr (.inr hparse))
    rw [hopen.current] at hfieldCount
    have hsize : toSize cur.fieldCount = cur.fields.length := by
      have hcolumns := hcolumns.columns
      unfold toSize
      omega
    rw [if_neg herror, if_neg heof, hopen.current] at h
    split at h
    · cases h
      exact absurd hret (by decide)
    · rename_i next hcells
      rw [hsize] at hinside hcells
      obtain ⟨hnext, hvalid⟩ := rowCells_row hinside hcells
      have hbound := rowCells_forward (stringsForward_of_inside hinside)
        (by rw [hpos]; unfold Reply.bufEnd; omega) hcells
      rw [hpos] at hnext hvalid hbound
      have hoffset : b.base + b.offsetOf next = next := by
        rw [offsetOf_eq (by omega) hbound.2]
        omega
      cases h
      refine laid_of_row hparse ⟨front, _, ⟨hopen.setCurrent _, hopen.complete, hopen.type⟩,
        ⟨hcolumns.columns, hcolumns.someColumn⟩, ?_, ?_⟩
      · dsimp only
        refine hrows.valid.snoc ?_
        rw [hrows.filled]
        exact hvalid
      · dsimp only
        rw [rowsEnd_add, hrows.filled, hoffset, hnext]
        rfl

/-- The number of columns opens a result set. -/
theorem laid_fieldCount (hsets : ∀ rs ∈ p.resultSetList, Complete b rs) {ret : Int}
    (h : parseFieldCount b p = (ret, q)) (hret : 0 ≤ ret) : Laid b q := by
  unfold parseFieldCount at h
  rcases decodeLengthSafe b (p.pos b) with ⟨code, fieldCount, next⟩
  dsimp only at h
  split at h
  · cases h
    exact absurd hret (by decide)
  · split at h
    · cases h
      exact hsets
    · cases h
      exact ⟨p.resultSetList, _, ⟨rfl, hsets, rfl⟩, rfl, rfl⟩

/-- An accepted call leaves everything laid out. -/
theorem laid_call (hinv : Inv b p) (hin : StepInside b p) (hlaid : Laid b p) {ret : Int}
    (h : callParse b p = (ret, q)) (hret : 0 ≤ ret) : Laid b q := by
  unfold callParse at h
  unfold StepInside at hin
  cases hparse : p.parse with
  | basePacket =>
      have hsets := (laid_between (by rw [hparse]; rfl)).mp hlaid
      rw [hparse] at h
      cases h
      have hheader : ∀ fn, (fn = .errorPacket ∨ between fn = true) →
          Laid b { p with parse := fn } := by
        intro fn hfn
        rcases hfn with rfl | hfn
        · trivial
        · exact (laid_between hfn).mpr hsets
      refine hheader _ ?_
      split
      · exact .inr rfl
      · split
        · exact .inl rfl
        · split
          · exact .inr rfl
          · split <;> exact .inr rfl
  | errorPacket =>
      rw [hparse] at h
      unfold parseErrorPacket at h
      dsimp only at h
      have herror : q.parse = .errorPacket := by
        split at h
        · cases h
          exact hparse
        · split at h <;> cases h <;> exact hparse
      unfold Laid
      rw [herror]
      trivial
  | okPacket =>
      rw [hparse] at h
      exact laid_okPacket ((laid_between (by rw [hparse]; rfl)).mp hlaid) hparse h hret
  | eofPacket =>
      have hsets := (laid_between (by rw [hparse]; rfl)).mp hlaid
      rw [hparse] at h
      unfold parseEofPacket at h
      dsimp only at h
      split at h
      · cases h
        exact absurd hret (by decide)
      · split at h
        · cases h
          exact hsets
        · cases h
          exact (laid_between (by dsimp only; rw [hparse]; rfl)).mpr hsets
  | fieldCount =>
      rw [hparse] at h
      exact laid_fieldCount ((laid_between (by rw [hparse]; rfl)).mp hlaid) h hret
  | localInline =>
      have hsets := (laid_between (by rw [hparse]; rfl)).mp hlaid
      rw [hparse] at h
      cases h
      exact (laid_between (by dsimp only; rw [hparse]; rfl)).mpr hsets
  | columnDefPacket =>
      rw [hparse] at h
      unfold Laid at hlaid
      rw [hparse] at hlaid
      obtain ⟨front, cur, hopen, hrows, hcount⟩ := hlaid
      exact laid_columnDefPacket hopen hrows hcount hparse h hret
  | fieldEofPacket =>
      rw [hparse] at h
      unfold Laid at hlaid
      rw [hparse] at hlaid
      obtain ⟨front, cur, hopen, hrows, hcolumns⟩ := hlaid
      exact laid_fieldEofPacket hopen hrows hcolumns h hret
  | rowPacket =>
      rw [hparse] at h hin
      unfold Laid at hlaid
      rw [hparse] at hlaid
      obtain ⟨front, cur, hopen, hcolumns, hrows⟩ := hlaid
      exact laid_rowPacket hinv hparse hopen hcolumns hrows hin h hret

theorem not_ended {q' : MysqlParser} (h : ((0 : Int), q') = (1, q)) : False :=
  absurd (show (0 : Int) = 1 from congrArg Prod.fst h) (by decide)

/-- A call that ends the parsing comes between result sets, or it is for an error packet. -/
theorem call_ends (h : callParse b p = (1, q)) :
    q.packetType = .error ∨ between q.parse = true := by
  unfold callParse at h
  cases hparse : p.parse with
  | errorPacket =>
      rw [hparse] at h
      unfold parseErrorPacket at h
      dsimp only at h
      split at h
      · cases h
      · split at h <;> cases h <;> exact .inl rfl
  | okPacket =>
      rw [hparse] at h
      unfold parseOkPacket at h
      dsimp only at h
      split at h
      · cases h
      · split at h
        · exact (not_ended h).elim
        · split at h
          · exact (not_ended h).elim
          · obtain rfl := (Prod.mk.inj h).2
            exact .inr (by dsimp only; rw [hparse]; rfl)
  | eofPacket =>
      rw [hparse] at h
      unfold parseEofPacket at h
      dsimp only at h
      split at h
      · cases h
      · split at h
        · cases h
        · cases h
          exact .inr (by dsimp only; rw [hparse]; rfl)
  | localInline =>
      rw [hparse] at h
      cases h
      exact .inr (by dsimp only; rw [hparse]; rfl)
  | basePacket =>
      rw [hparse] at h
      exact (not_ended h).elim
  | fieldEofPacket =>
      rw [hparse] at h
      unfold parseFieldEofPacket at h
      dsimp only at h
      split at h
      · cases h
      · exact (not_ended h).elim
  | fieldCount =>
      rw [hparse] at h
      unfold parseFieldCount at h
      rcases decodeLengthSafe b (p.pos b) with ⟨code, fieldCount, next⟩
      dsimp only at h
      split at h
      · cases h
      · split at h <;> cases h
  | columnDefPacket =>
      rw [hparse] at h
      unfold parseColumnDefPacket at h
      dsimp only at h
      split at h
      · cases h
      · exact (not_ended h).elim
  | rowPacket =>
      rw [hparse] at h
      unfold parseRowPacket at h
      dsimp only at h
      split at h
      · cases h
      · split at h
        · cases h
        · split at h <;> cases h

/-- The loop ends with what the last state function returned. -/
theorem parseStep_done (h : parseStep b p = .done (1, q)) : callParse b p = (1, q) := by
  unfold parseStep at h
  rcases hcall : callParse b p with ⟨ret, r⟩
  rw [hcall] at h
  dsimp only at h
  split at h
  · rename_i hneg
    obtain ⟨rfl, rfl⟩ := Prod.mk.inj (Step.done.inj h)
    exact absurd hneg (by decide)
  · split at h
    · exact absurd (show (-2 : Int) = 1 from congrArg Prod.fst (Step.done.inj h)) (by decide)
    · split at h
      · cases h
      · exact Step.done.inj h

/-- If no accepted length leaves the buffer, a reply that is parsed to its end, and not to an error
packet, has left OK results and row sets whose rows fill them. -/
theorem parsed_filled {cmd fuel : Nat} {m : MysqlParser}
    (hin : ∀ s, Reaches (parseStep b) (mysqlParserSetCommand cmd (mysqlParserInit m)) s →
      StepInside b s)
    (hparse : mysqlParserParse fuel b (mysqlParserSetCommand cmd (mysqlParserInit m)) = some (1, p))
    (herror : p.packetType ≠ .error) :
    ∀ rs ∈ p.resultSetList, rs.type = .ok ∨ rs.type = .getResult ∧ Filled b rs := by
  have hlaid : between p.parse = true ∧ Laid b p := by
    refine loop_invariant
      (P := fun s => Reaches (parseStep b) (mysqlParserSetCommand cmd (mysqlParserInit m)) s ∧
        Inv b s ∧ Laid b s)
      (Q := fun r => r.1 = 1 → r.2.packetType ≠ .error → between r.2.parse = true ∧ Laid b r.2)
      (fun s t hs hnext => ?_) (fun s r hs hdone hone hnot => ?_) ?_ hparse rfl herror
    · obtain ⟨hreach, hinv, hlaid⟩ := hs
      obtain ⟨hcall, -⟩ := parseStep_next hnext
      exact ⟨hreach.tail hnext, inv_next hinv (hin s hreach) hnext,
        laid_call hinv (hin s hreach) hlaid hcall (Int.le_refl 0)⟩
    · obtain ⟨hreach, hinv, hlaid⟩ := hs
      obtain ⟨ret, q⟩ := r
      obtain rfl : ret = 1 := hone
      have hcall := parseStep_done hdone
      exact ⟨(call_ends hcall).resolve_left hnot,
        laid_call hinv (hin s hreach) hlaid hcall (by decide)⟩
    · exact ⟨.refl, mysqlParserInit_inv b cmd m, fun rs hmem => absurd hmem List.not_mem_nil⟩
  exact (laid_between hlaid.1).mp hlaid.2

/-- What the user sees of a reply that was parsed: its row sets hold the rows that they count, and the
loop visits all its sets with all their rows if and only if no row set is empty. -/
theorem parsed_iteration {cmd fuel : Nat} {m : MysqlParser}
    (hin : ∀ s, Reaches (parseStep b) (mysqlParserSetCommand cmd (mysqlParserInit m)) s →
      StepInside b s)
    (hparse : mysqlParserParse fuel b (mysqlParserSetCommand cmd (mysqlParserInit m)) = some (1, p))
    (herror : p.packetType ≠ .error) :
    (∀ rs ∈ p.resultSetList, rs.type = .ok ∨ rs.type = .getResult ∧ Filled b rs) ∧
      (Iterates b p ↔ ∀ rs ∈ p.resultSetList, rs.type = .getResult → rs.rowCount ≠ 0) := by
  have hfilled := parsed_filled hin hparse herror
  refine ⟨hfilled, ?_⟩
  constructor
  · intro h rs hmem htype
    rcases shown_of_iterates h rs hmem with hok | ⟨-, hcount, -⟩
    · rw [htype] at hok
      cases hok
    · exact hcount
  · intro h
    refine iterates_of_shown fun rs hmem => ?_
    rcases hfilled rs hmem with hok | ⟨htype, hrows⟩
    · exact .inl hok
    · exact .inr ⟨htype, h rs hmem htype, hrows⟩

theorem parsed_iteration_oneRow :
    (∀ rs ∈ oneRowParser.resultSetList, rs.type = .ok ∨ rs.type = .getResult ∧ Filled oneRowReply rs) ∧
      Iterates oneRowReply oneRowParser := by
  obtain ⟨hfilled, hiterates⟩ := parsed_iteration (p := oneRowParser) oneRow_inside parse_oneRow
    (by decide +kernel)
  exact ⟨hfilled, hiterates.mpr (by decide +kernel)⟩

end Workflow.Mysql
