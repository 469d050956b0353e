/-
Module: Workflow.Protocol.MysqlResult
Layer: Protocol
Purpose: `MySQLResultCursor` (MySQLResult.cc): walking over the result sets of a parsed reply and over
  the rows of each, which are decoded from the buffer once more. Reading keeps a record of the
  addresses. The output of a fetch that fails is left out, and so is the cursor over the columns. The
  rows are counted in numbers, as in `MysqlParser`.
Trusted boundary: human-reviewed model
Main exports: ResultCursor, ResultCursor.fetchRow, ResultCursor.fetchRowNocopy,
  ResultCursor.fetchAll, ResultCursor.rewind, ResultCursor.nextResultSet, fetchRows, mysqlCallback
-/
import Workflow.Lib.Loop
import Workflow.Lib.Reading
import Workflow.Protocol.MysqlByteorder

namespace Workflow.Mysql

open Workflow.Lib Reading

/-- `MYSQL_STATUS_*`. -/
inductive CursorStatus where
  | notInit
  | ok
  | getResult
  | error
  | atEnd
deriving Repr, DecidableEq

/-- `MYSQL_TYPE_NULL`. -/
def mysqlTypeNull : Nat := 6

/-- `MySQLCell`. The pointer 0 is `NULL`. -/
structure MySQLCell where
  data : Nat
  len : Nat
  dataType : Nat
deriving Repr, DecidableEq

/-- `MySQLResultCursor`. `sets` is the list of the parser, `rest` what `cursor` has not reached. -/
structure ResultCursor where
  sets : List ResultSet
  rest : List ResultSet
  status : CursorStatus
  serverStatus : Nat
  currentRow : Nat
  rowCount : Nat
  fields : List MysqlField
  start : Nat
  pos : Nat
  last : Nat
  affectedRows : Nat
  insertId : Nat
  warningCount : Nat
  infoLen : Int

namespace ResultCursor

/-- The columns' types, `fields[i]->get_data_type()`. -/
def dataTypes (c : ResultCursor) : List Nat :=
  c.fields.map MysqlField.dataType

/-- `fetch_result_set`. -/
def fetchResultSet (b : Reply) (rs : ResultSet) (c : ResultCursor) : ResultCursor :=
  let c := { c with serverStatus := rs.serverStatus }
  match rs.type with
  | .getResult =>
      { c with
        status := .getResult
        start := addSize b.base rs.rowsBeginOffset
        pos := addSize b.base rs.rowsBeginOffset
        last := addSize b.base rs.rowsEndOffset
        rowCount := rs.rowCount
        fields := rs.fields.take rs.fieldCount.toNat }
  | .ok =>
      { c with
        status := .ok
        affectedRows := rs.affectedRows
        insertId := rs.insertId
        warningCount := rs.warningCount
        start := addSize b.base rs.infoOffset
        infoLen := rs.infoLen
        fields := [] }
  | _ => { c with status := .error }

/-- `init`, and `mysql_result_set_cursor_init`. -/
def init (b : Reply) (p : MysqlParser) : ResultCursor :=
  let c : ResultCursor :=
    { sets := p.resultSetList
      rest := p.resultSetList
      status := .notInit
      serverStatus := 0
      currentRow := 0
      rowCount := 0
      fields := []
      start := 0
      pos := 0
      last := 0
      affectedRows := 0
      insertId := 0
      warningCount := 0
      infoLen := 0 }
  match p.resultSetList with
  | [] => c
  | rs :: rest => fetchResultSet b rs { c with rest := rest }

/-- `next_result_set`. -/
def nextResultSet (b : Reply) (c : ResultCursor) : Bool × ResultCursor :=
  if c.status = .notInit ∨ c.status = .error then (false, c)
  else
    match c.rest with
    | rs :: rest => (true, fetchResultSet b rs { c with rest := rest, currentRow := 0 })
    | [] => (false, { c with status := .atEnd })

/-- `first_result_set`. -/
def firstResultSet (b : Reply) (c : ResultCursor) : ResultCursor :=
  if c.status = .notInit ∨ c.status = .error then c
  else
    match c.sets with
    | rs :: rest => fetchResultSet b rs { c with rest := rest, currentRow := 0 }
    | [] => { c with rest := [] }

/-- `rewind`. -/
def rewind (c : ResultCursor) : ResultCursor :=
  if c.status ≠ .getResult ∧ c.status ≠ .atEnd then c
  else { c with currentRow := 0, pos := c.start }

end ResultCursor

/-! ### Rows -/

/-- The loop over the cells of a row that `fetch_row`, `fetch_row_nocopy` and `fetch_all` have in
common: the cells and the pointer behind them, or `none` if a string cannot be decoded. A NULL cell
gets the type `nullType` of the column's. -/
def readCells (mem : Nat → Byte) (last : Nat) (nullType : Nat → Nat) :
    List Nat → Nat → Reading (Option (List MySQLCell × Nat))
  | [], p => pure (some ([], p))
  | dataType :: types, p => do
      let c ← load mem p
      if c = 251 then
        let row ← readCells mem last nullType types (addSize p 1)
        pure (row.map fun row =>
          ({ data := 0, len := 0, dataType := nullType dataType } :: row.1, row.2))
      else
        let decoded ← decodeStringReading mem last p
        match decoded with
        | none => pure none
        | some d =>
            let row ← readCells mem last nullType types d.pos
            pure (row.map fun row =>
              ({ data := d.str, len := d.len, dataType := dataType } :: row.1, row.2))

/-- The outer loop of `fetch_all`, with `count` rows to go. -/
def readRows (mem : Nat → Byte) (last : Nat) (nullType : Nat → Nat) (types : List Nat) :
    Nat → Nat → Reading (Option (List (List MySQLCell) × Nat))
  | 0, p => pure (some ([], p))
  | count + 1, p => do
      let row ← readCells mem last nullType types p
      match row with
      | none => pure none
      | some (cells, next) =>
          let rows ← readRows mem last nullType types count next
          pure (rows.map fun rows => (cells :: rows.1, rows.2))

namespace ResultCursor

/-- What `fetch_row` and `fetch_row_nocopy` have in common; `none` is `false`. -/
def fetchRowWith (nullType : Nat → Nat) (mem : Nat → Byte) (c : ResultCursor) :
    Reading (Option (List MySQLCell) × ResultCursor) := do
  if c.status ≠ .getResult then pure (none, c)
  else
    let row ← readCells mem c.last nullType c.dataTypes c.pos
    match row with
    | none => pure (none, { c with status := .error })
    | some (cells, p) =>
        pure (some cells, { c with
          currentRow := c.currentRow + 1
          status := if c.currentRow + 1 = c.rowCount then .atEnd else c.status
          pos := p })

/-- `fetch_row` with a vector. -/
def fetchRow : (Nat → Byte) → ResultCursor → Reading (Option (List MySQLCell) × ResultCursor) :=
  fetchRowWith fun _ => mysqlTypeNull

/-- `fetch_row_nocopy`, which leaves a NULL cell the type of its column. -/
def fetchRowNocopy :
    (Nat → Byte) → ResultCursor → Reading (Option (List MySQLCell) × ResultCursor) :=
  fetchRowWith id

/-- `fetch_all`. -/
def fetchAll (mem : Nat → Byte) (c : ResultCursor) :
    Reading (Option (List (List MySQLCell)) × ResultCursor) := do
  if c.status ≠ .getResult then pure (none, c)
  else
    let rows ← readRows mem c.last (fun _ => mysqlTypeNull) c.dataTypes
      (c.rowCount - c.currentRow) c.pos
    match rows with
    | none => pure (none, { c with status := .error })
    | some (rows, p) =>
        pure (some rows, { c with currentRow := c.rowCount, status := .atEnd, pos := p })

end ResultCursor

/-! ### The loops of a user -/

/-- The rows that were fetched so far, the addresses that were read for them, and the cursor. -/
structure Fetched where
  rows : List (List MySQLCell)
  reads : List Nat
  cursor : ResultCursor

/-- One pass of `while (cursor.fetch_row(row))`, or of the same loop with `fetch_row_nocopy`. -/
def fetchStep (nullType : Nat → Nat) (mem : Nat → Byte) (f : Fetched) : Step Fetched Fetched :=
  let fetch := f.cursor.fetchRowWith nullType mem
  match fetch.value.1 with
  | some row => .next
      { rows := f.rows ++ [row], reads := f.reads ++ fetch.reads, cursor := fetch.value.2 }
  | none => .done { f with reads := f.reads ++ fetch.reads, cursor := fetch.value.2 }

/-- `while (cursor.fetch_row(row))`. -/
def fetchRows (nullType : Nat → Nat) (mem : Nat → Byte) (fuel : Nat) (c : ResultCursor) :
    Option Fetched :=
  loop (fetchStep nullType mem) fuel { rows := [], reads := [], cursor := c }

/-- What a user sees of a result set. -/
inductive Visit where
  | rows (fields : List MysqlField) (fetched : Fetched)
  | ok (affectedRows insertId warningCount info : Nat) (infoLen : Int)

/-- The body of the loop of `mysql_callback`: the set that the cursor is at. -/
def visitSet (mem : Nat → Byte) (fuel : Nat) (c : ResultCursor) : Option (Visit × ResultCursor) :=
  if c.status = .getResult then
    (fetchRows (fun _ => mysqlTypeNull) mem fuel c).map fun f => (.rows c.fields f, f.cursor)
  else some (.ok c.affectedRows c.insertId c.warningCount c.start c.infoLen, c)

/-- One pass of the loop of `mysql_callback`; `none` when the loop over the rows is still running. -/
def visitStep (b : Reply) (fuel : Nat) (s : List Visit × ResultCursor) :
    Step (List Visit × ResultCursor) (Option (List Visit)) :=
  if s.2.status ≠ .getResult ∧ s.2.status ≠ .ok then .done (some s.1)
  else
    match visitSet b.mem fuel s.2 with
    | none => .done none
    | some (visit, c) =>
        match c.nextResultSet b with
        | (true, c) => .next (s.1 ++ [visit], c)
        | (false, _) => .done (some (s.1 ++ [visit]))

/-- The loop of `mysql_callback` over the result sets of a reply. -/
def mysqlCallback (b : Reply) (p : MysqlParser) (fuel : Nat) : Option (List Visit) :=
  (loop (visitStep b fuel) fuel ([], ResultCursor.init b p)).join

end Workflow.Mysql
