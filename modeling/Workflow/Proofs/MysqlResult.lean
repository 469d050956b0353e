/-
Module: Workflow.Proofs.MysqlResult
Layer: Proofs
Purpose: Walking over a parsed reply. Where the rows of a set lie one behind the other between its two
  offsets, the three ways to fetch them decode the same cells; they differ in the type of a NULL cell,
  and `rewind` does not bring back the status that the last row has changed. A set without rows is not
  told apart from one whose first row is still to come.
Trusted boundary: none
Main exports: Filled, rowsOf, readCells_spec, fetchRowWith_row, fetchRows_spec, AtRow,
  rowAccess_agrees
-/
import Workflow.Lib.Run
import Workflow.Proofs.MysqlByteorder
import Workflow.Protocol.MysqlResult

namespace Workflow.Mysql

open Workflow.Lib Reading

variable {mem : Nat → Byte} {last : Nat}

/-! ### Rows that lie in memory -/

/-- The length of the string in the cell at `p`. The largest number stands for no string at all. -/
def cellLength (mem : Nat → Byte) (p : Nat) : Nat :=
  if mem p = 251 ∨ encodedLength mem p = sizeMax then 0 else encodedLength mem p

/-- The address behind the cell at `p`. -/
def cellEnd (mem : Nat → Byte) (p : Nat) : Nat :=
  p + headerSize (mem p) + cellLength mem p

/-- The cell at `p`. -/
def cellOf (mem : Nat → Byte) (nullType : Nat → Nat) (dataType p : Nat) : MySQLCell :=
  if mem p = 251 then { data := 0, len := 0, dataType := nullType dataType }
  else
    { data := if cellLength mem p = 0 then 0 else p + headerSize (mem p)
      len := cellLength mem p
      dataType := dataType }

/-- The address behind `count` cells. -/
def rowEnd (mem : Nat → Byte) : Nat → Nat → Nat
  | 0, p => p
  | count + 1, p => rowEnd mem count (cellEnd mem p)

/-- The cells of the row at `p`. -/
def cellsOf (mem : Nat → Byte) (nullType : Nat → Nat) : List Nat → Nat → List MySQLCell
  | [], _ => []
  | dataType :: types, p =>
      cellOf mem nullType dataType p :: cellsOf mem nullType types (cellEnd mem p)

/-- None of the `count` cells from `p` on begins with the byte of an error packet. -/
def CellsValid (mem : Nat → Byte) : Nat → Nat → Prop
  | 0, _ => True
  | count + 1, p => mem p ≠ 255 ∧ CellsValid mem count (cellEnd mem p)

/-- The address behind `count` rows. -/
def rowsEnd (mem : Nat → Byte) (columns : Nat) : Nat → Nat → Nat
  | 0, p => p
  | count + 1, p => rowsEnd mem columns count (rowEnd mem columns p)

/-- The `count` rows from `p` on. -/
def rowsFrom (mem : Nat → Byte) (nullType : Nat → Nat) (types : List Nat) :
    Nat → Nat → List (List MySQLCell)
  | 0, _ => []
  | count + 1, p =>
      cellsOf mem nullType types p :: rowsFrom mem nullType types count (rowEnd mem types.length p)

def RowsValid (mem : Nat → Byte) (columns : Nat) : Nat → Nat → Prop
  | 0, _ => True
  | count + 1, p => CellsValid mem columns p ∧ RowsValid mem columns count (rowEnd mem columns p)

theorem lt_cellEnd (mem : Nat → Byte) (p : Nat) : p < cellEnd mem p := by
  have hpos := headerSize_pos (mem p)
  unfold cellEnd
  omega

theorem cellEnd_null {p : Nat} (h : mem p = 251) : cellEnd mem p = p + 1 := by
  rw [cellEnd, cellLength, if_pos (.inl h), h]
  rfl

theorem add_le_rowEnd (mem : Nat → Byte) (count p : Nat) : p + count ≤ rowEnd mem count p := by
  induction count generalizing p with
  | zero => exact Nat.le_refl p
  | succ count ih =>
      have hcell := lt_cellEnd mem p
      have hrest := ih (cellEnd mem p)
      rw [rowEnd]
      omega

theorem le_rowsEnd (mem : Nat → Byte) (columns count p : Nat) : p ≤ rowsEnd mem columns count p := by
  induction count generalizing p with
  | zero => exact Nat.le_refl p
  | succ count ih =>
      have hrow := add_le_rowEnd mem columns p
      have hrest := ih (rowEnd mem columns p)
      rw [rowsEnd]
      omega

theorem rowsEnd_add (mem : Nat → Byte) (columns m n p : Nat) :
    rowsEnd mem columns (m + n) p = rowsEnd mem columns n (rowsEnd mem columns m p) := by
  induction m generalizing p with
  | zero => rw [Nat.zero_add, rowsEnd]
  | succ m ih => rw [Nat.succ_add, rowsEnd, ih, rowsEnd]

theorem RowsValid.drop {columns m n p : Nat} (h : RowsValid mem columns (m + n) p) :
    RowsValid mem columns n (rowsEnd mem columns m p) := by
  induction m generalizing p with
  | zero => rwa [Nat.zero_add] at h
  | succ m ih =>
      rw [Nat.succ_add, RowsValid] at h
      exact ih h.2

theorem RowsValid.snoc {columns count p : Nat} (h : RowsValid mem columns count p)
    (hlast : CellsValid mem columns (rowsEnd mem columns count p)) :
    RowsValid mem columns (count + 1) p := by
  induction count generalizing p with
  | zero => exact ⟨hlast, trivial⟩
  | succ count ih => exact ⟨h.1, ih h.2 hlast⟩

/-! ### Decoding -/

/-- A cell inside the buffer is decoded as it is. -/
theorem decodeString_cell {p : Nat} (dataType : Nat) (nullType : Nat → Nat) (hlast : last < 2 ^ 63)
    (hend : cellEnd mem p ≤ last) (hnull : mem p ≠ 251) (hvalid : mem p ≠ 255) :
    ∃ d, (decodeStringReading mem last p).value = some d ∧ d.pos = cellEnd mem p ∧
      { data := d.str, len := d.len, dataType := dataType : MySQLCell } =
        cellOf mem nullType dataType p ∧
      Within (Inside p last) (decodeStringReading mem last p) := by
  have hpos := headerSize_pos (mem p)
  unfold cellEnd at hend ⊢
  have hfits : PrefixFits mem last p := ⟨by omega, fun _ => ⟨by omega, by omega⟩⟩
  have hread : Within (Inside p last) (decodeStringReading mem last p) :=
    decodeStringReading_within.mpr ((decodeLengthReading_within (by omega)).mpr hfits)
  rw [cellOf, if_neg hnull, decodeStringReading_of_fits (by omega) hfits,
    if_neg (not_or.mpr ⟨hvalid, by omega⟩)]
  by_cases hzero : mem p = 251 ∨ encodedLength mem p = 0 ∨ encodedLength mem p = sizeMax
  · have hlen : cellLength mem p = 0 := by
      unfold cellLength
      split
      · rfl
      · rename_i hsome
        rcases hzero with h | h | h
        · exact absurd (.inl h) hsome
        · exact h
        · exact absurd (.inr h) hsome
    rw [if_pos hzero, hlen]
    exact ⟨_, rfl, rfl, rfl, hread⟩
  · obtain ⟨-, hzero⟩ := not_or.mp hzero
    obtain ⟨hzero, hmax⟩ := not_or.mp hzero
    have hlen : cellLength mem p = encodedLength mem p :=
      if_neg (not_or.mpr ⟨hnull, hmax⟩)
    rw [hlen] at hend ⊢
    have hadd : addSize (p + headerSize (mem p)) (encodedLength mem p) =
        p + headerSize (mem p) + encodedLength mem p := addSize_of_lt (by omega)
    rw [if_neg (not_or.mpr ⟨hnull, not_or.mpr ⟨hzero, hmax⟩⟩), hadd, if_neg (by omega)]
    refine ⟨_, rfl, rfl, ?_, hread⟩
    rw [if_neg hzero]

/-- A row inside the buffer is read cell by cell. -/
theorem readCells_spec (nullType : Nat → Nat) {types : List Nat} {p : Nat} (hlast : last < 2 ^ 63)
    (hend : rowEnd mem types.length p ≤ last) (hvalid : CellsValid mem types.length p) :
    (readCells mem last nullType types p).value =
        some (cellsOf mem nullType types p, rowEnd mem types.length p) ∧
      Within (Inside p last) (readCells mem last nullType types p) := by
  induction types generalizing p with
  | nil => exact ⟨rfl, within_pure _⟩
  | cons dataType types ih =>
      rw [List.length_cons, rowEnd] at hend
      have hcell := lt_cellEnd mem p
      have hrest := add_le_rowEnd mem types.length (cellEnd mem p)
      obtain ⟨hvalue, hwithin⟩ := ih hend hvalid.2
      have hlater : Within (Inside p last) (readCells mem last nullType types (cellEnd mem p)) :=
        fun a ha => ⟨by have := (hwithin a ha).1; omega, (hwithin a ha).2⟩
      have hhead : Inside p last p := ⟨Nat.le_refl p, by omega⟩
      by_cases hnull : mem p = 251
      · have hnext : addSize p 1 = cellEnd mem p := by
          rw [cellEnd_null hnull]
          exact addSize_of_lt (by omega)
        have hread : readCells mem last nullType (dataType :: types) p = (load mem p >>= fun _ =>
            readCells mem last nullType types (cellEnd mem p) >>= fun row =>
              pure (row.map fun row =>
                ({ data := 0, len := 0, dataType := nullType dataType } :: row.1, row.2))) := by
          simp only [readCells, Bind.bind, load, hnull, if_true, hnext]
        rw [hread]
        refine ⟨?_, within_bind.mpr ⟨within_load.mpr hhead,
          within_bind.mpr ⟨hlater, within_pure _⟩⟩⟩
        rw [value_bind, value_bind, hvalue, value_pure, Option.map_some, cellsOf, cellOf,
          if_pos hnull]
        rfl
      · obtain ⟨d, hd, hdpos, hdcell, hdwithin⟩ :=
          decodeString_cell dataType nullType hlast (by omega) hnull hvalid.1
        have hread : readCells mem last nullType (dataType :: types) p = (load mem p >>= fun _ =>
            decodeStringReading mem last p >>= fun _ =>
              readCells mem last nullType types (cellEnd mem p) >>= fun row =>
                pure (row.map fun row =>
                  ({ data := d.str, len := d.len, dataType := dataType } :: row.1, row.2))) := by
          simp only [readCells, Bind.bind, load, hnull, if_false, hd, hdpos]
        rw [hread]
        refine ⟨?_, within_bind.mpr ⟨within_load.mpr hhead, within_bind.mpr ⟨hdwithin,
          within_bind.mpr ⟨hlater, within_pure _⟩⟩⟩⟩
        rw [value_bind, value_bind, value_bind, hvalue, value_pure, Option.map_some, hdcell]
        rfl

/-- So are all the rows of `fetch_all`. -/
theorem readRows_spec (nullType : Nat → Nat) {types : List Nat} {count p : Nat}
    (hlast : last < 2 ^ 63) (hend : rowsEnd mem types.length count p ≤ last)
    (hvalid : RowsValid mem types.length count p) :
    (readRows mem last nullType types count p).value =
      some (rowsFrom mem nullType types count p, rowsEnd mem types.length count p) := by
  induction count generalizing p with
  | zero => rfl
  | succ count ih =>
      rw [rowsEnd] at hend
      have hrest := le_rowsEnd mem types.length count (rowEnd mem types.length p)
      obtain ⟨hvalue, -⟩ := readCells_spec nullType hlast (by omega) hvalid.1
      have htail := ih hend hvalid.2
      simp only [readRows, value_bind, hvalue, htail, value_pure, Option.map_some]
      rfl

/-! ### The result set -/

/-- The rows of a set lie one behind the other from the first offset to the second, where the EOF
packet begins. -/
structure Filled (b : Reply) (rs : ResultSet) : Prop where
  columns : rs.fieldCount = rs.fields.length
  someColumn : rs.fields ≠ []
  valid : RowsValid b.mem rs.fields.length rs.rowCount (b.base + rs.rowsBeginOffset)
  filled : rowsEnd b.mem rs.fields.length rs.rowCount (b.base + rs.rowsBeginOffset) =
    b.base + rs.rowsEndOffset
  inside : rs.rowsEndOffset < b.len
  eof : b.mem (b.base + rs.rowsEndOffset) = 254

/-- The types of the columns. -/
def ResultSet.dataTypes (rs : ResultSet) : List Nat :=
  rs.fields.map MysqlField.dataType

/-- The rows of the set, with `nullType` for the type of a NULL cell. -/
def rowsOf (b : Reply) (nullType : Nat → Nat) (rs : ResultSet) : List (List MySQLCell) :=
  rowsFrom b.mem nullType rs.dataTypes rs.rowCount (b.base + rs.rowsBeginOffset)

/-- The address of a row. -/
def rowAt (b : Reply) (rs : ResultSet) (row : Nat) : Nat :=
  rowsEnd b.mem rs.fields.length row (b.base + rs.rowsBeginOffset)

/-- The cursor stands in front of a row of the set, or behind the last one. -/
structure AtRow (b : Reply) (rs : ResultSet) (c : ResultCursor) : Prop where
  fields : c.fields = rs.fields
  rowCount : c.rowCount = rs.rowCount
  start : c.start = b.base + rs.rowsBeginOffset
  last : c.last = b.base + rs.rowsEndOffset
  row_le : c.currentRow ≤ rs.rowCount
  pos : c.pos = rowAt b rs c.currentRow
  more : c.status = .getResult → c.currentRow < rs.rowCount ∨ rs.rowCount = 0

variable {b : Reply} {rs : ResultSet} {c : ResultCursor}

theorem Filled.last_lt (h : Filled b rs) : b.base + rs.rowsEndOffset < 2 ^ 63 := by
  have huser := b.user
  have hinside := h.inside
  omega

theorem AtRow.dataTypes (h : AtRow b rs c) : c.dataTypes = rs.dataTypes := by
  rw [ResultCursor.dataTypes, h.fields, ResultSet.dataTypes]

theorem ResultSet.length_dataTypes (rs : ResultSet) : rs.dataTypes.length = rs.fields.length :=
  List.length_map _

/-- The rows that are still to come fill what is left. -/
theorem Filled.rest (h : Filled b rs) {row : Nat} (hle : row ≤ rs.rowCount) :
    rowsEnd b.mem rs.fields.length (rs.rowCount - row) (rowAt b rs row) =
        b.base + rs.rowsEndOffset ∧
      RowsValid b.mem rs.fields.length (rs.rowCount - row) (rowAt b rs row) := by
  have hsplit : row + (rs.rowCount - row) = rs.rowCount := by omega
  refine ⟨?_, RowsValid.drop (by rw [hsplit]; exact h.valid)⟩
  rw [rowAt, ← rowsEnd_add, hsplit]
  exact h.filled

/-! ### One row -/

/-- The cursor behind the row that it stands at. -/
def ResultCursor.advanced (mem : Nat → Byte) (c : ResultCursor) : ResultCursor :=
  { c with
    currentRow := c.currentRow + 1
    status := if c.currentRow + 1 = c.rowCount then .atEnd else c.status
    pos := rowEnd mem c.dataTypes.length c.pos }

theorem fetchRowWith_row (nullType : Nat → Nat) (hstatus : c.status = .getResult)
    (hlast : c.last < 2 ^ 63) (hend : rowEnd mem c.dataTypes.length c.pos ≤ c.last)
    (hvalid : CellsValid mem c.dataTypes.length c.pos) :
    (c.fetchRowWith nullType mem).value =
        (some (cellsOf mem nullType c.dataTypes c.pos), c.advanced mem) ∧
      Within (Inside c.pos c.last) (c.fetchRowWith nullType mem) := by
  obtain ⟨hvalue, hwithin⟩ := readCells_spec nullType hlast hend hvalid
  have hread : c.fetchRowWith nullType mem = (readCells mem c.last nullType c.dataTypes c.pos >>=
      fun _ => pure (some (cellsOf mem nullType c.dataTypes c.pos), c.advanced mem)) := by
    simp only [ResultCursor.fetchRowWith, hstatus, ne_eq, not_true_eq_false, if_false, Bind.bind,
      hvalue, ResultCursor.advanced]
  rw [hread]
  exact ⟨rfl, within_bind.mpr ⟨hwithin, within_pure _⟩⟩

theorem fetchRowWith_closed (nullType : Nat → Nat) (mem : Nat → Byte)
    (hstatus : c.status ≠ .getResult) : c.fetchRowWith nullType mem = pure (none, c) :=
  if_pos hstatus

/-- In front of the EOF packet no row can be decoded. -/
theorem fetchRowWith_eof (nullType : Nat → Nat) (hstatus : c.status = .getResult)
    (hlast : c.last < 2 ^ 63) (hpos : c.pos = c.last) (heof : mem c.pos = 254)
    (hcolumn : c.dataTypes ≠ []) :
    (c.fetchRowWith nullType mem).value = (none, { c with status := .error }) := by
  have hdecode : (decodeStringReading mem c.last c.pos).value = none := by
    have hover : addSize c.pos 8 > c.last := by
      rw [addSize_of_lt (by omega), hpos]
      omega
    simp [decodeStringReading, decodeLengthReading, heof, prefixedReading, hover, sliceAt]
  have hcells : (readCells mem c.last nullType c.dataTypes c.pos).value = none := by
    obtain ⟨dataType, types, htypes⟩ := List.exists_cons_of_ne_nil hcolumn
    rw [htypes]
    simp [readCells, heof, hdecode]
  simp [ResultCursor.fetchRowWith, hstatus, hcells]

/-! ### All rows that are left -/

theorem fetchStep_row {nullType : Nat → Nat} {f : Fetched} {row : List MySQLCell} {c : ResultCursor}
    (h : (f.cursor.fetchRowWith nullType mem).value = (some row, c)) :
    fetchStep nullType mem f = .next
      { rows := f.rows ++ [row]
        reads := f.reads ++ (f.cursor.fetchRowWith nullType mem).reads
        cursor := c } := by
  simp only [fetchStep, h]

theorem fetchStep_none {nullType : Nat → Nat} {f : Fetched} {c : ResultCursor}
    (h : (f.cursor.fetchRowWith nullType mem).value = (none, c)) :
    fetchStep nullType mem f = .done
      { f with
        reads := f.reads ++ (f.cursor.fetchRowWith nullType mem).reads
        cursor := c } := by
  simp only [fetchStep, h]

/-- The loop over the rows, when `count + 1` of them are left. -/
theorem loop_fetchStep (nullType : Nat → Nat) {count : Nat} {f : Fetched}
    (hstatus : f.cursor.status = .getResult) (hlast : f.cursor.last < 2 ^ 63)
    (hcount : f.cursor.currentRow + (count + 1) = f.cursor.rowCount)
    (hend : rowsEnd mem f.cursor.dataTypes.length (count + 1) f.cursor.pos ≤ f.cursor.last)
    (hvalid : RowsValid mem f.cursor.dataTypes.length (count + 1) f.cursor.pos) :
    ∃ g, loop (fetchStep nullType mem) (count + 2) f = some g ∧
      g.rows = f.rows ++ rowsFrom mem nullType f.cursor.dataTypes (count + 1) f.cursor.pos ∧
      (∀ a ∈ g.reads, a ∈ f.reads ∨ Inside f.cursor.pos f.cursor.last a) ∧
      g.cursor.status = .atEnd ∧ g.cursor.rest = f.cursor.rest := by
  induction count generalizing f with
  | zero =>
      obtain ⟨hvalue, hwithin⟩ := fetchRowWith_row nullType hstatus hlast hend hvalid.1
      have hclosed : (f.cursor.advanced mem).status = .atEnd := if_pos hcount
      rw [loop_next (fetchStep_row hvalue)]
      have hnone : ((f.cursor.advanced mem).fetchRowWith nullType mem) =
          pure (none, f.cursor.advanced mem) :=
        fetchRowWith_closed nullType mem (by rw [hclosed]; decide)
      refine ⟨_, loop_done (fetchStep_none (by dsimp only; rw [hnone]; rfl)) 0, rfl,
        fun a ha => ?_, hclosed, rfl⟩
      dsimp only at ha
      rw [hnone, List.mem_append, List.mem_append] at ha
      rcases ha with (hold | hnew) | hlater
      · exact .inl hold
      · exact .inr (hwithin a hnew)
      · exact absurd hlater List.not_mem_nil
  | succ count ih =>
      rw [rowsEnd] at hend
      have hrest := le_rowsEnd mem f.cursor.dataTypes.length (count + 1)
        (rowEnd mem f.cursor.dataTypes.length f.cursor.pos)
      have hrow := add_le_rowEnd mem f.cursor.dataTypes.length f.cursor.pos
      obtain ⟨hvalue, hwithin⟩ := fetchRowWith_row nullType hstatus hlast (by omega) hvalid.1
      have hopen : (f.cursor.advanced mem).status = .getResult := by
        rw [ResultCursor.advanced, if_neg (by omega)]
        exact hstatus
      rw [loop_next (fetchStep_row hvalue)]
      have htail := ih (f := ⟨f.rows ++ [cellsOf mem nullType f.cursor.dataTypes f.cursor.pos],
        f.reads ++ (f.cursor.fetchRowWith nullType mem).reads, f.cursor.advanced mem⟩)
        hopen hlast (by dsimp only [ResultCursor.advanced]; omega) hend hvalid.2
      obtain ⟨g, hloop, hrows, hreads, hclosed, hsame⟩ := htail
      refine ⟨g, hloop, ?_, fun a ha => ?_, hclosed, hsame⟩
      · rw [hrows, List.append_assoc]
        rfl
      · rcases hreads a ha with hold | hnew
        · rcases List.mem_append.mp hold with hfirst | hthis
          · exact .inl hfirst
          · exact .inr (hwithin a hthis)
        · refine .inr ⟨?_, hnew.2⟩
          have hle := hnew.1
          dsimp only [ResultCursor.advanced] at hle
          omega

/-- The row that the cursor stands at. -/
theorem fetchRowWith_at (nullType : Nat → Nat) (h : Filled b rs) (hat : AtRow b rs c)
    (hstatus : c.status = .getResult) (hlt : c.currentRow < rs.rowCount) :
    (c.fetchRowWith nullType b.mem).value =
        (some (cellsOf b.mem nullType rs.dataTypes c.pos), c.advanced b.mem) ∧
      Within (Inside c.pos c.last) (c.fetchRowWith nullType b.mem) := by
  obtain ⟨hend, hvalid⟩ := h.rest hat.row_le
  obtain ⟨count, hcount⟩ : ∃ count, rs.rowCount - c.currentRow = count + 1 :=
    ⟨rs.rowCount - c.currentRow - 1, by omega⟩
  rw [hcount, rowsEnd] at hend
  rw [hcount, RowsValid] at hvalid
  have hrest := le_rowsEnd b.mem rs.fields.length count
    (rowEnd b.mem rs.fields.length (rowAt b rs c.currentRow))
  have hfits : rowEnd b.mem c.dataTypes.length c.pos ≤ c.last := by
    rw [hat.dataTypes, rs.length_dataTypes, hat.pos, hat.last]
    omega
  have hcells : CellsValid b.mem c.dataTypes.length c.pos := by
    rw [hat.dataTypes, rs.length_dataTypes, hat.pos]
    exact hvalid.1
  have hrow := fetchRowWith_row nullType hstatus (by rw [hat.last]; exact h.last_lt) hfits hcells
  rwa [hat.dataTypes] at hrow

/-- A set without rows. -/
theorem fetchRowWith_behind (nullType : Nat → Nat) (h : Filled b rs) (hat : AtRow b rs c)
    (hstatus : c.status = .getResult) (hzero : rs.rowCount = 0) :
    (c.fetchRowWith nullType b.mem).value = (none, { c with status := .error }) := by
  have hpos : c.pos = b.base + rs.rowsEndOffset := by
    have hfilled := h.filled
    have hle := hat.row_le
    rw [hzero] at hfilled hle
    rw [hat.pos, Nat.le_zero.mp hle]
    exact hfilled
  have heof : b.mem c.pos = 254 := by
    rw [hpos]
    exact h.eof
  refine fetchRowWith_eof nullType hstatus (by rw [hat.last]; exact h.last_lt)
    (by rw [hpos, hat.last]) heof ?_
  rw [hat.dataTypes]
  exact fun hnil => h.someColumn (List.map_eq_nil_iff.mp hnil)

/-- What the loop over the rows gives from a row of the set on. -/
theorem fetchRows_spec (nullType : Nat → Nat) (h : Filled b rs) (hat : AtRow b rs c)
    (hstatus : c.status = .getResult) (hlt : c.currentRow < rs.rowCount) :
    ∃ fuel f, fetchRows nullType b.mem fuel c = some f ∧
      f.rows = rowsFrom b.mem nullType rs.dataTypes (rs.rowCount - c.currentRow) c.pos ∧
      (∀ a ∈ f.reads, Inside c.pos c.last a) ∧ f.cursor.status = .atEnd ∧
      f.cursor.rest = c.rest := by
  obtain ⟨hend, hvalid⟩ := h.rest hat.row_le
  have hlast := h.last_lt
  have hlength := rs.length_dataTypes
  obtain ⟨count, hcount⟩ : ∃ count, rs.rowCount - c.currentRow = count + 1 :=
    ⟨rs.rowCount - c.currentRow - 1, by omega⟩
  rw [hcount] at hend hvalid ⊢
  have hfits : rowsEnd b.mem c.dataTypes.length (count + 1) c.pos ≤ c.last := by
    rw [hat.dataTypes, hlength, hat.pos, hat.last, hend]
  have hcells : RowsValid b.mem c.dataTypes.length (count + 1) c.pos := by
    rw [hat.dataTypes, hlength, hat.pos]
    exact hvalid
  obtain ⟨f, hf, hrows, hreads, hclosed, hsame⟩ := loop_fetchStep nullType (f := ⟨[], [], c⟩) hstatus
    (by rw [hat.last]; exact hlast) (by dsimp only; rw [hat.rowCount]; omega) hfits hcells
  refine ⟨count + 2, f, hf, ?_, fun a ha => ?_, hclosed, hsame⟩
  · rw [hrows, List.nil_append, hat.dataTypes]
  · exact (hreads a ha).resolve_left List.not_mem_nil

/-- In front of the EOF packet the loop gives nothing. -/
theorem fetchRows_eof (nullType : Nat → Nat) (h : Filled b rs) (hat : AtRow b rs c)
    (hstatus : c.status = .getResult) (hzero : rs.rowCount = 0) :
    ∃ f, fetchRows nullType b.mem 1 c = some f ∧ f.rows = [] := by
  exact ⟨_, loop_done (fetchStep_none (fetchRowWith_behind nullType h hat hstatus hzero)) 0, rfl⟩

/-- Both cases. -/
theorem fetchRows_left (nullType : Nat → Nat) (h : Filled b rs) (hat : AtRow b rs c)
    (hstatus : c.status = .getResult) :
    ∃ fuel f, fetchRows nullType b.mem fuel c = some f ∧
      f.rows = rowsFrom b.mem nullType rs.dataTypes (rs.rowCount - c.currentRow) c.pos := by
  rcases hat.more hstatus with hlt | hzero
  · obtain ⟨fuel, f, hf, hrows, -⟩ := fetchRows_spec nullType h hat hstatus hlt
    exact ⟨fuel, f, hf, hrows⟩
  · obtain ⟨f, hf, hrows⟩ := fetchRows_eof nullType h hat hstatus hzero
    refine ⟨1, f, hf, ?_⟩
    rw [hrows, hzero, Nat.zero_sub]
    rfl

/-- What `fetch_all` gives from a row of the set on. -/
theorem fetchAll_spec (h : Filled b rs) (hat : AtRow b rs c) (hstatus : c.status = .getResult) :
    (c.fetchAll b.mem).value =
      (some (rowsFrom b.mem (fun _ => mysqlTypeNull) rs.dataTypes (rs.rowCount - c.currentRow) c.pos),
        { c with
          currentRow := c.rowCount
          status := .atEnd
          pos := b.base + rs.rowsEndOffset }) := by
  obtain ⟨hend, hvalid⟩ := h.rest hat.row_le
  have hlast := h.last_lt
  have hlength := rs.length_dataTypes
  have hnext : rowsEnd b.mem rs.dataTypes.length (rs.rowCount - c.currentRow) c.pos =
      b.base + rs.rowsEndOffset := by
    rw [hlength, hat.pos, hend]
  have hcells : RowsValid b.mem rs.dataTypes.length (rs.rowCount - c.currentRow) c.pos := by
    rw [hlength, hat.pos]
    exact hvalid
  have hrows := readRows_spec (fun _ => mysqlTypeNull) hlast (Nat.le_of_eq hnext) hcells
  rw [hnext] at hrows
  simp only [ResultCursor.fetchAll, hstatus, ne_eq, not_true_eq_false, if_false, value_bind,
    hat.dataTypes, hat.rowCount, hrows, value_pure, hat.last]

/-! ### Any order of the fetches -/

/-- A call of the cursor of one result set. -/
inductive RowAccess where
  | fetchRow
  | fetchRowNocopy
  | fetchAll
  | rewind
deriving Repr, DecidableEq

/-- The cursor after the call. -/
def ResultCursor.after (mem : Nat → Byte) (c : ResultCursor) : RowAccess → ResultCursor
  | .fetchRow => (c.fetchRow mem).value.2
  | .fetchRowNocopy => (c.fetchRowNocopy mem).value.2
  | .fetchAll => (c.fetchAll mem).value.2
  | .rewind => c.rewind

/-- The calls of the cursor from the moment at which it comes to the set. -/
def rowMachine (b : Reply) (rs : ResultSet) : Machine ResultCursor RowAccess where
  init := fun c => ∃ old : ResultCursor, c = ResultCursor.fetchResultSet b rs
    { old with currentRow := 0 }
  step := fun c access c' => c' = c.after b.mem access

theorem atRow_fetchResultSet (old : ResultCursor) (htype : rs.type = .getResult)
    (h : Filled b rs) : AtRow b rs (ResultCursor.fetchResultSet b rs { old with currentRow := 0 }) ∧
      (ResultCursor.fetchResultSet b rs { old with currentRow := 0 }).status = .getResult ∧
      (ResultCursor.fetchResultSet b rs { old with currentRow := 0 }).currentRow = 0 := by
  have huser := b.user
  have hinside := h.inside
  have hbegin : b.base + rs.rowsBeginOffset ≤ b.base + rs.rowsEndOffset := by
    rw [← h.filled]
    exact le_rowsEnd _ _ _ _
  have hstart : addSize b.base rs.rowsBeginOffset = b.base + rs.rowsBeginOffset :=
    addSize_of_lt (by omega)
  have hlast : addSize b.base rs.rowsEndOffset = b.base + rs.rowsEndOffset :=
    addSize_of_lt (by omega)
  have heq : ResultCursor.fetchResultSet b rs { old with currentRow := 0 } =
      { old with
        serverStatus := rs.serverStatus
        currentRow := 0
        status := .getResult
        start := b.base + rs.rowsBeginOffset
        pos := b.base + rs.rowsBeginOffset
        last := b.base + rs.rowsEndOffset
        rowCount := rs.rowCount
        fields := rs.fields } := by
    simp only [ResultCursor.fetchResultSet, htype, hstart, hlast, h.columns, Int.toNat_natCast,
      List.take_length]
  rw [heq]
  exact ⟨⟨rfl, rfl, rfl, rfl, Nat.zero_le _, rfl, fun _ => by dsimp only; omega⟩, rfl, rfl⟩

/-- The cursor behind the row that it stands at. -/
theorem AtRow.advanced (hat : AtRow b rs c) (hlt : c.currentRow < rs.rowCount) :
    AtRow b rs (c.advanced b.mem) := by
  refine ⟨hat.fields, hat.rowCount, hat.start, hat.last, hlt, ?_, fun hopen => ?_⟩
  · dsimp only [ResultCursor.advanced]
    rw [hat.dataTypes, rs.length_dataTypes, hat.pos, rowAt, rowAt, rowsEnd_add]
    rfl
  · dsimp only [ResultCursor.advanced] at hopen ⊢
    by_cases hlast : c.currentRow + 1 = c.rowCount
    · rw [if_pos hlast] at hopen
      cases hopen
    · have hcount := hat.rowCount
      exact .inl (by omega)

theorem AtRow.fetchRowWith (nullType : Nat → Nat) (h : Filled b rs) (hat : AtRow b rs c) :
    AtRow b rs (c.fetchRowWith nullType b.mem).value.2 := by
  by_cases hstatus : c.status = .getResult
  · rcases hat.more hstatus with hlt | hzero
    · rw [(fetchRowWith_at nullType h hat hstatus hlt).1]
      exact hat.advanced hlt
    · rw [fetchRowWith_behind nullType h hat hstatus hzero]
      exact { hat with more := fun hopen => by cases hopen }
  · rw [fetchRowWith_closed nullType b.mem hstatus]
    exact hat

theorem AtRow.after (h : Filled b rs) (hat : AtRow b rs c) (access : RowAccess) :
    AtRow b rs (c.after b.mem access) := by
  cases access with
  | fetchRow => exact hat.fetchRowWith _ h
  | fetchRowNocopy => exact hat.fetchRowWith _ h
  | fetchAll =>
      rw [ResultCursor.after]
      by_cases hstatus : c.status = .getResult
      · rw [fetchAll_spec h hat hstatus]
        refine ⟨hat.fields, hat.rowCount, hat.start, hat.last, Nat.le_of_eq hat.rowCount, ?_,
          fun hopen => by cases hopen⟩
        dsimp only
        rw [hat.rowCount]
        exact h.filled.symm
      · have hclosed : c.fetchAll b.mem = pure (none, c) := if_pos hstatus
        rw [hclosed]
        exact hat
  | rewind =>
      rw [ResultCursor.after, ResultCursor.rewind]
      split
      · exact hat
      · refine ⟨hat.fields, hat.rowCount, hat.start, hat.last, Nat.zero_le _, hat.start, ?_⟩
        intro _
        dsimp only
        omega

theorem atRow_reachable (htype : rs.type = .getResult) (h : Filled b rs)
    (hc : Reachable (rowMachine b rs) (fun _ _ => True) c) : AtRow b rs c := by
  refine Reachable.invariant (fun c hinit => ?_) (fun c access c' hat _ hstep => ?_) hc
  · obtain ⟨old, rfl⟩ := hinit
    exact (atRow_fetchResultSet old htype h).1
  · rw [hstep]
    exact hat.after h access

/-! ### The ways to fetch agree -/

/-- Every NULL cell of the row at `p` stands in a column of the type NULL. -/
def NullsTyped (mem : Nat → Byte) : List Nat → Nat → Prop
  | [], _ => True
  | dataType :: types, p =>
      (mem p = 251 → dataType = mysqlTypeNull) ∧ NullsTyped mem types (cellEnd mem p)

theorem cellsOf_id_iff {types : List Nat} {p : Nat} :
    cellsOf mem id types p = cellsOf mem (fun _ => mysqlTypeNull) types p ↔
      NullsTyped mem types p := by
  induction types generalizing p with
  | nil => exact iff_of_true rfl trivial
  | cons dataType types ih =>
      rw [cellsOf, cellsOf, List.cons.injEq, ih, NullsTyped]
      refine and_congr_left' ?_
      unfold cellOf
      by_cases hnull : mem p = 251
      · rw [if_pos hnull, if_pos hnull, MySQLCell.mk.injEq]
        exact ⟨fun hsame _ => hsame.2.2, fun htyped => ⟨rfl, rfl, htyped hnull⟩⟩
      · rw [if_neg hnull, if_neg hnull]
        exact iff_of_true rfl fun hsome => absurd hsome hnull

/-- What is said about a position of the cursor: `fetch_all` gives the rows that `fetch_row` gives one
by one, `fetch_row_nocopy` gives the same cells and leaves the same cursor as `fetch_row`, and behind
`rewind` each of the three gives the whole set. -/
structure AccessAgrees (b : Reply) (rs : ResultSet) (c : ResultCursor) : Prop where
  all : ∃ fuel f, fetchRows (fun _ => mysqlTypeNull) b.mem fuel c = some f ∧
    f.rows = (c.fetchAll b.mem).value.1.getD []
  nocopy : (c.fetchRowNocopy b.mem).value = (c.fetchRow b.mem).value
  againAll : (c.rewind.fetchAll b.mem).value.1 = some (rowsOf b (fun _ => mysqlTypeNull) rs)
  againRow : ∃ fuel f, fetchRows (fun _ => mysqlTypeNull) b.mem fuel c.rewind = some f ∧
    f.rows = rowsOf b (fun _ => mysqlTypeNull) rs
  againNocopy : ∃ fuel f, fetchRows id b.mem fuel c.rewind = some f ∧ f.rows = rowsOf b id rs

/-- `fetch_row_nocopy` agrees with `fetch_row` at a row unless it has a NULL cell in a column of
another type. -/
theorem nocopy_iff (h : Filled b rs) (hat : AtRow b rs c) (hstatus : c.status = .getResult) :
    (c.fetchRowNocopy b.mem).value = (c.fetchRow b.mem).value ↔
      (c.currentRow < rs.rowCount → NullsTyped b.mem rs.dataTypes (rowAt b rs c.currentRow)) := by
  unfold ResultCursor.fetchRowNocopy ResultCursor.fetchRow
  rcases hat.more hstatus with hlt | hzero
  · rw [(fetchRowWith_at _ h hat hstatus hlt).1, (fetchRowWith_at _ h hat hstatus hlt).1,
      Prod.mk.injEq, Option.some.injEq, cellsOf_id_iff, hat.pos]
    exact ⟨fun hsame _ => hsame.1, fun htyped => ⟨htyped hlt, rfl⟩⟩
  · rw [fetchRowWith_behind _ h hat hstatus hzero, fetchRowWith_behind _ h hat hstatus hzero]
    exact iff_of_true rfl fun hlt => by omega

/-- At every position that the calls on a result set reach: the three agree, and the set can be fetched
again, if and only if the last row has not been fetched yet and the next row, where there is one, has
no NULL cell in a column of another type. -/
theorem rowAccess_agrees (htype : rs.type = .getResult) (h : Filled b rs)
    (hc : Reachable (rowMachine b rs) (fun _ _ => True) c) :
    AccessAgrees b rs c ↔ c.status = .getResult ∧
      (c.currentRow < rs.rowCount → NullsTyped b.mem rs.dataTypes (rowAt b rs c.currentRow)) := by
  have hat := atRow_reachable htype h hc
  constructor
  · intro hagree
    have hstatus : c.status = .getResult := by
      have hagain := hagree.againAll
      by_contra hne
      have hsame : c.rewind.status = c.status := by
        unfold ResultCursor.rewind
        split <;> rfl
      have hclosed : c.rewind.fetchAll b.mem = pure (none, c.rewind) :=
        if_pos (by rw [hsame]; exact hne)
      rw [hclosed] at hagain
      cases hagain
    exact ⟨hstatus, (nocopy_iff h hat hstatus).mp hagree.nocopy⟩
  · rintro ⟨hstatus, htyped⟩
    have hrewound : AtRow b rs c.rewind := hat.after h .rewind
    have hrewind : c.rewind = { c with currentRow := 0, pos := c.start } :=
      if_neg fun hother => hother.1 hstatus
    have hopen : c.rewind.status = .getResult := by
      rw [hrewind]
      exact hstatus
    have hwhole : ∀ nullType, rowsFrom b.mem nullType rs.dataTypes
        (rs.rowCount - c.rewind.currentRow) c.rewind.pos = rowsOf b nullType rs := by
      intro nullType
      rw [hrewind]
      dsimp only
      rw [hat.start, Nat.sub_zero]
      rfl
    refine ⟨?_, (nocopy_iff h hat hstatus).mpr htyped, ?_, ?_, ?_⟩
    · rw [fetchAll_spec h hat hstatus]
      exact fetchRows_left _ h hat hstatus
    · rw [fetchAll_spec h hrewound hopen, hwhole]
    · rw [← hwhole]
      exact fetchRows_left _ h hrewound hopen
    · rw [← hwhole]
      exact fetchRows_left _ h hrewound hopen

/-- A column of strings. -/
def stringColumn : MysqlField where
  catalog := { offset := 0, length := 0 }
  db := { offset := 0, length := 0 }
  table := { offset := 0, length := 0 }
  orgTable := { offset := 0, length := 0 }
  name := { offset := 0, length := 0 }
  orgName := { offset := 0, length := 0 }
  dflt := { offset := sizeMax, length := 0 }
  charsetnr := 33
  length := 0
  dataType := 253
  flags := 0
  decimals := 0

/-- The rows "a" and "b", and the EOF packet. -/
def twoRowsReply : Reply :=
  replyOf [1, 97, 1, 98, 254, 0, 0, 2, 0] (by decide)

def twoRows : ResultSet where
  type := .getResult
  fieldCount := 1
  rowCount := 2
  rowsBeginOffset := 0
  rowsEndOffset := 4
  fields := [stringColumn]

theorem filled_twoRows : Filled twoRowsReply twoRows where
  columns := rfl
  someColumn := by decide
  valid := ⟨⟨by decide, trivial⟩, ⟨by decide, trivial⟩, trivial⟩
  filled := by decide
  inside := by decide
  eof := by decide

/-- The cursor in front of the rows. -/
def twoRowsCursor : ResultCursor :=
  ResultCursor.fetchResultSet twoRowsReply twoRows
    { ResultCursor.init twoRowsReply default with currentRow := 0 }

/-- Behind the first row. -/
theorem rowAccess_agrees_second :
    AccessAgrees twoRowsReply twoRows (twoRowsCursor.after twoRowsReply.mem .fetchRow) :=
  (rowAccess_agrees rfl filled_twoRows
    (.step (.init ⟨ResultCursor.init twoRowsReply default, rfl⟩) (a := .fetchRow) trivial rfl)).mpr
    ⟨by decide +kernel, fun _ => ⟨fun hnull => absurd hnull (by decide +kernel), trivial⟩⟩

/-- Behind the last row nothing is fetched again. -/
theorem rowAccess_not_agrees : ¬ ∀ (b : Reply) (rs : ResultSet) (c : ResultCursor),
    rs.type = .getResult → Filled b rs → Reachable (rowMachine b rs) (fun _ _ => True) c →
    AccessAgrees b rs c := by
  intro h
  have hagree := h twoRowsReply twoRows (twoRowsCursor.after twoRowsReply.mem .fetchAll) rfl
    filled_twoRows
    (.step (.init ⟨ResultCursor.init twoRowsReply default, rfl⟩) (a := .fetchAll) trivial rfl)
  have hagain := hagree.againAll
  have hnone : ((twoRowsCursor.after twoRowsReply.mem .fetchAll).rewind.fetchAll
      twoRowsReply.mem).value.1 = none := by decide +kernel
  rw [hnone] at hagain
  cases hagain

end Workflow.Mysql
