/-
Module: Workflow.Proofs.MysqlTermination
Layer: Proofs
Purpose: When the MySQL parser returns. A call that accepts what it reads moves the offset forward
  inside the buffer or hands over to another function, as long as every length that it accepts lies
  inside the buffer with the bytes it announces; a length that wraps around the address space takes
  the parser back and it never returns.
Trusted boundary: none
Main exports: StringInside, StepInside, Forward, rowCell_forward, callParse_forward,
  mysqlParserParse_returns
-/
import Workflow.Protocol.MysqlParser

namespace Workflow.Mysql

open Workflow.Lib

/-! ### Lengths that lie inside the buffer -/

/-- The size of a length-encoded integer, by its first byte. -/
def headerSize (c : Byte) : Nat :=
  if c = 252 then 3 else if c = 253 then 4 else if c = 254 then 9 else 1

/-- If the parser accepts the string at `p`, its length and the bytes it announces lie inside the
buffer. -/
def StringInside (b : Reply) (p : Nat) : Prop :=
  ∀ d, decodeString b p = some d → p + headerSize (b.mem p) + d.len ≤ b.bufEnd

/-- The same for `count` strings in a row. -/
def StringsInside (b : Reply) : Nat → Nat → Prop
  | 0, _ => True
  | count + 1, p => StringInside b p ∧ ∀ q, rowCell b p = some q → StringsInside b count q

/-- Every accepted string moves the pointer forward inside the buffer. -/
def StringsForward (b : Reply) : Nat → Nat → Prop
  | 0, _ => True
  | count + 1, p => ∀ q, rowCell b p = some q →
      p < q ∧ q ≤ b.bufEnd ∧ StringsForward b count q

theorem bufEnd_lt (b : Reply) : b.bufEnd < 2 ^ 63 :=
  b.user

theorem headerSize_pos (c : Byte) : 1 ≤ headerSize c := by
  unfold headerSize
  grind

theorem headerSize_le (c : Byte) : headerSize c ≤ 9 := by
  unfold headerSize
  grind

/-- A length that was decoded ends behind its bytes. -/
theorem decodeLengthSafe_pos {b : Reply} {p : Nat} (h : 0 < (decodeLengthSafe b p).1) :
    (decodeLengthSafe b p).2.2 = addSize p (headerSize (b.mem p)) := by
  unfold decodeLengthSafe headerSize at *
  grind

theorem decodeString_pos {b : Reply} {p : Nat} {d : Decoded} (h : decodeString b p = some d) :
    d.pos = addSize (addSize p (headerSize (b.mem p))) d.len := by
  unfold decodeString at h
  simp only at h
  split at h
  · simp at h
  · rename_i hret
    have hpos := decodeLengthSafe_pos (b := b) (p := p) (by omega)
    split at h
    · simp only [Option.some.injEq] at h
      rw [← h, ← hpos]
      simp only [addSize, Nat.add_zero, hpos]
      omega
    · split at h
      · simp at h
      · simp only [Option.some.injEq] at h
        rw [← h, ← hpos]

/-- A NULL cell is what `decode_string` makes of it. -/
theorem rowCell_eq (b : Reply) (p : Nat) : rowCell b p = (decodeString b p).map Decoded.pos := by
  unfold rowCell
  split
  · rename_i hnull
    simp [decodeString, decodeLengthSafe, hnull]
  · rfl

/-- A cell ends behind its start and inside the packet. -/
theorem rowCell_forward {b : Reply} {p q : Nat} (hin : StringInside b p)
    (h : rowCell b p = some q) : p < q ∧ q ≤ b.bufEnd := by
  rw [rowCell_eq, Option.map_eq_some_iff] at h
  obtain ⟨d, hd, rfl⟩ := h
  have hle := hin d hd
  have hpos := headerSize_pos (b.mem p)
  have huser := bufEnd_lt b
  have hheader : addSize p (headerSize (b.mem p)) = p + headerSize (b.mem p) :=
    addSize_of_lt (by omega)
  rw [decodeString_pos hd, hheader, addSize_of_lt (by omega)]
  omega

/-- So do any number of strings. -/
theorem stringsForward_of_inside {b : Reply} {count p : Nat} (h : StringsInside b count p) :
    StringsForward b count p := by
  induction count generalizing p with
  | zero => trivial
  | succ count ih =>
      intro q hq
      obtain ⟨hlt, hle⟩ := rowCell_forward h.1 hq
      exact ⟨hlt, hle, ih (h.2 q hq)⟩

/-- Several strings together move the pointer forward inside the buffer. -/
theorem rowCells_forward {b : Reply} {count p q : Nat} (h : StringsForward b count p)
    (hp : p ≤ b.bufEnd) (hq : rowCells b count p = some q) :
    p + count ≤ q ∧ q ≤ b.bufEnd := by
  induction count generalizing p with
  | zero =>
      simp only [rowCells, Option.some.injEq] at hq
      omega
  | succ count ih =>
      rw [rowCells, Option.bind_eq_some_iff] at hq
      obtain ⟨next, hnext, hrest⟩ := hq
      obtain ⟨hlt, hle, hforward⟩ := h next hnext
      have := ih hforward hle hrest
      omega

/-! ### What a call may read -/

/-- If the parser accepts the OK packet at `pos`, its message lies inside the buffer and its length
fits an `int`. -/
def OkInside (b : Reply) (pos : Nat) : Prop :=
  ∀ packet, readOkPacket b pos = some packet →
    packet.pos + packet.infoLen ≤ b.bufEnd ∧ packet.infoLen < 2 ^ 31

/-- If the parser accepts the number at `pos`, it lies inside the buffer. -/
def LengthInside (b : Reply) (pos : Nat) : Prop :=
  0 < (decodeLengthSafe b pos).1 → pos + headerSize (b.mem pos) ≤ b.bufEnd

/-- If the parser accepts the strings of the column definition at `pos`, they lie inside the
buffer. -/
def ColumnInside (b : Reply) (cmd pos : Nat) : Prop :=
  StringsInside b 6 pos ∧
    (cmd = comFieldList → ∀ q, rowCells b 6 pos = some q → StringInside b (addSize q 13))

/-- The condition on a call, by the function that is called. -/
def StepInside (b : Reply) (p : MysqlParser) : Prop :=
  match p.parse with
  | .okPacket => OkInside b (p.pos b)
  | .fieldCount => LengthInside b (p.pos b)
  | .columnDefPacket => ColumnInside b p.cmd (p.pos b)
  | .rowPacket => b.mem (p.pos b) ≠ 255 → b.mem (p.pos b) ≠ 254 →
      StringsInside b (toSize p.current.fieldCount) (p.pos b)
  | _ => True

instance (b : Reply) (p : Nat) : Decidable (StringInside b p) :=
  decidable_of_iff (∀ d ∈ decodeString b p, p + headerSize (b.mem p) + d.len ≤ b.bufEnd) Iff.rfl

instance decidableStringsInside (b : Reply) : ∀ count p, Decidable (StringsInside b count p)
  | 0, _ => inferInstanceAs (Decidable True)
  | count + 1, p =>
      have : ∀ q, Decidable (StringsInside b count q) := decidableStringsInside b count
      inferInstanceAs (Decidable (StringInside b p ∧ ∀ q ∈ rowCell b p, StringsInside b count q))

instance (b : Reply) (pos : Nat) : Decidable (OkInside b pos) :=
  decidable_of_iff (∀ packet ∈ readOkPacket b pos,
    packet.pos + packet.infoLen ≤ b.bufEnd ∧ packet.infoLen < 2 ^ 31) Iff.rfl

instance (b : Reply) (pos : Nat) : Decidable (LengthInside b pos) :=
  inferInstanceAs (Decidable (_ → _))

instance (b : Reply) (cmd pos : Nat) : Decidable (ColumnInside b cmd pos) :=
  inferInstanceAs (Decidable (_ ∧ (_ → ∀ q ∈ rowCells b 6 pos, StringInside b (addSize q 13))))

theorem stepInside_iff {b : Reply} {p : MysqlParser} : StepInside b p ↔
    (p.parse = .okPacket → OkInside b (p.pos b)) ∧
    (p.parse = .fieldCount → LengthInside b (p.pos b)) ∧
    (p.parse = .columnDefPacket → ColumnInside b p.cmd (p.pos b)) ∧
    (p.parse = .rowPacket → b.mem (p.pos b) ≠ 255 → b.mem (p.pos b) ≠ 254 →
      StringsInside b (toSize p.current.fieldCount) (p.pos b)) := by
  unfold StepInside
  cases p.parse <;> simp

instance (b : Reply) (p : MysqlParser) : Decidable (StepInside b p) :=
  decidable_of_iff _ stepInside_iff.symm

/-! ### What a call does -/

/-- The offset moves strictly forward and not behind the end of the buffer. -/
def Moves (b : Reply) (p q : MysqlParser) : Prop :=
  p.offset < q.offset ∧ q.offset ≤ b.len

/-- An accepted call moves the offset, or it leaves the offset and hands over to another function: the
base packet to the function for its first byte, an empty field count to the OK packet, the rows to
the packet that ends them. In a row every cell moves the pointer. -/
def Forward (b : Reply) (p : MysqlParser) : Prop :=
  0 ≤ (callParse b p).1 →
    match p.parse with
    | .basePacket => (callParse b p).2.offset = p.offset ∧ (callParse b p).2.parse ≠ .basePacket
    | .fieldCount => Moves b p (callParse b p).2 ∨
        (callParse b p).2.offset = p.offset ∧ (callParse b p).2.parse = .okPacket
    | .rowPacket =>
        ((callParse b p).2.offset = p.offset ∧
          ((callParse b p).2.parse = .eofPacket ∨ (callParse b p).2.parse = .errorPacket)) ∨
        (Moves b p (callParse b p).2 ∧
          StringsForward b (toSize p.current.fieldCount) (p.pos b))
    | _ => Moves b p (callParse b p).2

/-- What holds whenever a call begins. -/
structure Inv (b : Reply) (p : MysqlParser) : Prop where
  offset_lt : p.parse ≠ .basePacket → p.offset < b.len
  offset_le : p.offset ≤ b.len
  fieldCount : p.parse = .columnDefPacket ∨ p.parse = .fieldEofPacket ∨ p.parse = .rowPacket →
    0 < p.current.fieldCount ∧ p.current.fieldCount < 2 ^ 31
  header : p.parse = .fieldCount → b.mem (p.pos b) ≠ 0 ∧ b.mem (p.pos b) ≠ 251 ∧
    b.mem (p.pos b) ≠ 254 ∧ b.mem (p.pos b) ≠ 255

/-- The cursor as a position in memory. -/
theorem pos_eq {b : Reply} {p : MysqlParser} (h : p.offset ≤ b.len) :
    p.pos b = b.base + p.offset := by
  have huser := b.user
  exact addSize_of_lt (by omega)

/-- And a position as an offset. -/
theorem offsetOf_eq {b : Reply} {p : Nat} (hle : b.base ≤ p) (hp : p ≤ b.bufEnd) :
    b.offsetOf p = p - b.base := by
  have huser := bufEnd_lt b
  exact subSize_of_le hle (by omega)

/-- A pointer in front of the packet and one inside the buffer give a move. -/
theorem moves_of_pos {b : Reply} {p q : MysqlParser} {next : Nat} (hp : p.offset ≤ b.len)
    (hlt : p.pos b < next) (hle : next ≤ b.bufEnd) (hq : q.offset = b.offsetOf next) :
    Moves b p q := by
  rw [pos_eq hp] at hlt
  rw [offsetOf_eq (by omega) hle] at hq
  unfold Reply.bufEnd at hle
  exact ⟨by omega, by omega⟩

/-- Near the buffer a decoded length takes the pointer forward by its size. -/
theorem decodeLengthSafe_near {b : Reply} {p n q : Nat} {ret : Int} (hp : p ≤ b.bufEnd + 16)
    (h : decodeLengthSafe b p = (ret, n, q)) (hret : ¬ ret ≤ 0) : p < q ∧ q ≤ p + 9 := by
  have huser := bufEnd_lt b
  have hpos := headerSize_pos (b.mem p)
  have hle := headerSize_le (b.mem p)
  have hq := decodeLengthSafe_pos (b := b) (p := p) (by rw [h]; exact Int.not_le.mp hret)
  rw [h, addSize_of_lt (by omega)] at hq
  simp only at hq
  omega

/-- The fixed part of an OK packet lies inside the buffer. -/
theorem readOkNumbers_inside {b : Reply} {pos affected insert p : Nat} (hpos : pos ≤ b.bufEnd)
    (h : readOkNumbers b pos = some (affected, insert, p)) : pos < p ∧ p + 4 ≤ b.bufEnd := by
  have huser := bufEnd_lt b
  have hfirst : addSize pos 1 = pos + 1 := addSize_of_lt (by omega)
  rcases hread1 : decodeLengthSafe b (pos + 1) with ⟨ret1, n1, p1⟩
  rcases hread2 : decodeLengthSafe b p1 with ⟨ret2, n2, p2⟩
  simp only [readOkNumbers, hfirst, hread1, hread2] at h
  split at h
  · simp at h
  · rename_i hret1
    have hnear1 := decodeLengthSafe_near (by omega) hread1 hret1
    split at h
    · simp at h
    · rename_i hret2
      have hnear2 := decodeLengthSafe_near (by omega) hread2 hret2
      rw [addSize_of_lt (by omega)] at h
      split at h
      · simp at h
      · rename_i hend
        simp only [Option.some.injEq, Prod.mk.injEq] at h
        omega

/-- The pointer behind the length of an OK packet's message is behind the packet's first byte. -/
theorem readOkPacket_pos {b : Reply} {pos : Nat} {packet : OkPacket} (hpos : pos ≤ b.bufEnd)
    (h : readOkPacket b pos = some packet) : pos < packet.pos := by
  have huser := bufEnd_lt b
  unfold readOkPacket at h
  rw [Option.bind_eq_bind, Option.bind_eq_some_iff] at h
  obtain ⟨⟨affected, insert, p⟩, hnumbers, h⟩ := h
  obtain ⟨hlt, hle⟩ := readOkNumbers_inside hpos hnumbers
  have hfour : addSize p 4 = p + 4 := addSize_of_lt (by omega)
  rcases hread : decodeLengthSafe b (p + 4) with ⟨ret, n, q⟩
  simp only [hfour, hread] at h
  split at h
  · split at h
    · rename_i hret
      have hnear := decodeLengthSafe_near (by omega) hread (by omega)
      split at h
      · simp at h
      · obtain rfl := Option.some.inj h
        exact Nat.lt_trans (by omega) hnear.1
    · split at h
      · obtain rfl := Option.some.inj h
        exact Nat.lt_of_lt_of_le hlt (Nat.le_add_right p 4)
      · simp at h
  · obtain rfl := Option.some.inj h
    exact Nat.lt_of_lt_of_le hlt (Nat.le_add_right p 4)

/-! ### Every call moves forward -/

/-- What an accepted OK packet does to the parser. -/
theorem parseOkPacket_of_read {b : Reply} {p : MysqlParser} {packet : OkPacket}
    (h : readOkPacket b (p.pos b) = some packet) :
    (parseOkPacket b p).2.offset =
        addSize (b.offsetOf packet.pos) (toSize (toInt packet.infoLen)) ∧
      ((parseOkPacket b p).1, (parseOkPacket b p).2.parse) =
        if packet.ret < 0 then (0, .errorPacket)
        else if packet.serverStatus &&& moreResultsExist ≠ 0 then (0, .basePacket)
        else (1, p.parse) := by
  unfold parseOkPacket
  rw [h]
  simp only [OkPacket.resultSet]
  by_cases hret : packet.ret < 0
  · simp only [if_pos hret, and_self]
  · by_cases hmore : packet.serverStatus &&& moreResultsExist ≠ 0
    · simp only [if_neg hret, if_pos hmore, and_self]
    · simp only [if_neg hret, if_neg hmore, and_self]

/-- An OK packet moves the cursor forward. -/
theorem parseOkPacket_moves {b : Reply} {p : MysqlParser} (hp : p.offset ≤ b.len)
    (hin : OkInside b (p.pos b)) (h : 0 ≤ (parseOkPacket b p).1) :
    Moves b p (parseOkPacket b p).2 := by
  have huser := bufEnd_lt b
  have hpos := pos_eq hp
  cases hread : readOkPacket b (p.pos b) with
  | none => simp [parseOkPacket, hread] at h
  | some packet =>
      obtain ⟨hle, hint⟩ := hin packet hread
      have hlt := readOkPacket_pos (by unfold Reply.bufEnd; omega) hread
      have hoff : b.offsetOf packet.pos = packet.pos - b.base := offsetOf_eq (by omega) (by omega)
      have hlen : toSize (toInt packet.infoLen) = packet.infoLen := by
        rw [toInt_of_lt hint, toSize_of_lt (by omega)]
      have hnext := (parseOkPacket_of_read hread).1
      rw [hoff, hlen, addSize_of_lt (by omega)] at hnext
      unfold Reply.bufEnd at hle
      exact ⟨by omega, by omega⟩

/-- So does an EOF packet. -/
theorem parseEofPacket_moves {b : Reply} {p : MysqlParser} (hp : p.offset ≤ b.len)
    (h : 0 ≤ (parseEofPacket b p).1) : Moves b p (parseEofPacket b p).2 := by
  have huser := b.user
  have hoff : addSize p.offset 5 = p.offset + 5 := addSize_of_lt (by omega)
  have hfive : addSize (p.pos b) 5 = b.base + p.offset + 5 := by
    rw [pos_eq hp]
    exact addSize_of_lt (by omega)
  unfold parseEofPacket at h ⊢
  simp only [hfive, hoff, Reply.bufEnd] at h ⊢
  split at h
  · simp at h
  · rename_i hend
    rw [if_neg hend]
    split <;> exact ⟨by simp only; omega, by simp only; omega⟩

/-- So does the one behind the columns. -/
theorem parseFieldEofPacket_moves {b : Reply} {p : MysqlParser} (hp : p.offset ≤ b.len)
    (h : 0 ≤ (parseFieldEofPacket b p).1) : Moves b p (parseFieldEofPacket b p).2 := by
  have huser := b.user
  have hoff : addSize p.offset 5 = p.offset + 5 := addSize_of_lt (by omega)
  have hfive : addSize (p.pos b) 5 = b.base + p.offset + 5 := by
    rw [pos_eq hp]
    exact addSize_of_lt (by omega)
  unfold parseFieldEofPacket at h ⊢
  simp only [hfive, hoff, Reply.bufEnd] at h ⊢
  split at h
  · simp at h
  · rename_i hend
    rw [if_neg hend]
    exact ⟨by simp only; omega, by simp only; omega⟩

/-- An error packet ends the reply. -/
theorem parseErrorPacket_offset {b : Reply} {p : MysqlParser} (h : 0 ≤ (parseErrorPacket b p).1) :
    (parseErrorPacket b p).2.offset = b.len := by
  unfold parseErrorPacket at h ⊢
  grind

/-- The column definition reads six strings and 13 bytes, and one more string for a field list. -/
theorem readColumnDef_next {b : Reply} {cmd pos next : Nat} {field : MysqlField}
    (h : readColumnDef b cmd pos = some (field, next)) :
    ∃ q, rowCells b 6 pos = some q ∧ addSize q 13 ≤ b.bufEnd ∧
      (if cmd = comFieldList then rowCell b (addSize (addSize q 1) 12) = some next
        else next = addSize (addSize q 1) 12) := by
  simp only [readColumnDef, Option.bind_eq_bind, Option.bind_eq_some_iff] at h
  obtain ⟨d1, h1, d2, h2, d3, h3, d4, h4, d5, h5, d6, h6, h⟩ := h
  refine ⟨d6.pos, ?_, ?_⟩
  · simp [rowCells, rowCell_eq, h1, h2, h3, h4, h5, h6]
  · split at h
    · simp at h
    · rename_i hend
      refine ⟨Nat.not_lt.mp hend, ?_⟩
      split at h
      · rename_i hcmd
        rw [if_pos hcmd, rowCell_eq]
        simp only [Option.bind_eq_some_iff, Option.some.injEq, Prod.mk.injEq] at h
        obtain ⟨d7, h7, _, hnext⟩ := h
        rw [h7, ← hnext]
        rfl
      · rename_i hcmd
        rw [if_neg hcmd]
        simp only [Option.some.injEq, Prod.mk.injEq] at h
        exact h.2.symm

/-- A column moves the cursor forward. -/
theorem parseColumnDefPacket_moves {b : Reply} {p : MysqlParser} (hp : p.offset ≤ b.len)
    (hin : ColumnInside b p.cmd (p.pos b)) (h : 0 ≤ (parseColumnDefPacket b p).1) :
    Moves b p (parseColumnDefPacket b p).2 := by
  have huser := bufEnd_lt b
  have hpos : p.pos b ≤ b.bufEnd := by
    rw [pos_eq hp]
    unfold Reply.bufEnd
    omega
  unfold parseColumnDefPacket at h ⊢
  cases hread : readColumnDef b p.cmd (p.pos b) with
  | none => simp [hread] at h
  | some result =>
      obtain ⟨field, next⟩ := result
      obtain ⟨q, hcells, hend, hnext⟩ := readColumnDef_next hread
      obtain ⟨hge, hle⟩ := rowCells_forward (stringsForward_of_inside hin.1) hpos hcells
      have h13 : addSize (addSize q 1) 12 = q + 13 := by
        rw [addSize_of_lt (a := q) (by omega)]
        exact addSize_of_lt (by omega)
      have h13' : addSize q 13 = q + 13 := addSize_of_lt (by omega)
      rw [h13] at hnext
      rw [h13'] at hend
      have hmove : p.pos b < next ∧ next ≤ b.bufEnd := by
        split at hnext
        · rename_i hcmd
          have hcell := rowCell_forward (by rw [← h13']; exact hin.2 hcmd q hcells) hnext
          omega
        · omega
      exact moves_of_pos hp hmove.1 hmove.2 rfl

/-- A row with at least one cell moves the offset; without cells in front of the end of the rows the
call hands over. -/
theorem parseRowPacket_forward {b : Reply} {p : MysqlParser} (hp : p.offset ≤ b.len)
    (hcount : 0 < p.current.fieldCount ∧ p.current.fieldCount < 2 ^ 31)
    (hin : b.mem (p.pos b) ≠ 255 → b.mem (p.pos b) ≠ 254 →
      StringsInside b (toSize p.current.fieldCount) (p.pos b))
    (h : 0 ≤ (parseRowPacket b p).1) :
    ((parseRowPacket b p).2.offset = p.offset ∧
      ((parseRowPacket b p).2.parse = .eofPacket ∨ (parseRowPacket b p).2.parse = .errorPacket)) ∨
    (Moves b p (parseRowPacket b p).2 ∧
      StringsForward b (toSize p.current.fieldCount) (p.pos b)) := by
  have hpos : p.pos b ≤ b.bufEnd := by
    rw [pos_eq hp]
    unfold Reply.bufEnd
    omega
  unfold parseRowPacket at h ⊢
  simp only at h ⊢
  by_cases herr : b.mem (p.pos b) = 255
  · simp [herr]
  · by_cases heof : b.mem (p.pos b) = 254
    · simp [heof, MysqlParser.setCurrent]
    · rw [if_neg herr, if_neg heof] at h ⊢
      have hforward := stringsForward_of_inside (hin herr heof)
      cases hcells : rowCells b (toSize p.current.fieldCount) (p.pos b) with
      | none => simp [hcells] at h
      | some next =>
          obtain ⟨hge, hle⟩ := rowCells_forward hforward hpos hcells
          have hone : 1 ≤ toSize p.current.fieldCount := by
            unfold toSize
            omega
          exact Or.inr ⟨moves_of_pos hp (by omega) hle rfl, hforward⟩

theorem korr_lt (b : Reply) (size p : Nat) : b.korr size p < 2 ^ (8 * size) := by
  induction size generalizing p with
  | zero => simp [Reply.korr]
  | succ size ih =>
      have hbyte := (b.mem p).toNat_lt
      have hrest := ih (p + 1)
      have hpow : 2 ^ (8 * (size + 1)) = 2 ^ 8 * 2 ^ (8 * size) := by
        rw [← Nat.pow_add]
        congr 1
        omega
      rw [Reply.korr, hpow]
      omega

/-- A number that does not begin with a marker is small. -/
theorem decodeLengthSafe_small {b : Reply} {p n q : Nat} {ret : Int}
    (h : decodeLengthSafe b p = (ret, n, q)) (hnull : b.mem p ≠ 251) (height : b.mem p ≠ 254) :
    n < 2 ^ 24 := by
  have h2 := korr_lt b 2 (p + 1)
  have h3 := korr_lt b 3 (p + 1)
  have hbyte := (b.mem p).toNat_lt
  unfold decodeLengthSafe at h
  grind

/-- So does the number of columns. -/
theorem parseFieldCount_forward {b : Reply} {p : MysqlParser} (hp : p.offset ≤ b.len)
    (hin : LengthInside b (p.pos b)) (hnull : b.mem (p.pos b) ≠ 251)
    (height : b.mem (p.pos b) ≠ 254) (h : 0 ≤ (parseFieldCount b p).1) :
    ((parseFieldCount b p).2.parse = .okPacket ∧ (parseFieldCount b p).2.offset = p.offset) ∨
    ((parseFieldCount b p).2.parse = .columnDefPacket ∧ Moves b p (parseFieldCount b p).2 ∧
      0 < (parseFieldCount b p).2.current.fieldCount ∧
      (parseFieldCount b p).2.current.fieldCount < 2 ^ 31) := by
  have huser := bufEnd_lt b
  rcases hread : decodeLengthSafe b (p.pos b) with ⟨ret, count, next⟩
  have hsmall := decodeLengthSafe_small hread hnull height
  simp only [parseFieldCount, hread] at h ⊢
  by_cases hret : ret ≤ 0
  · simp [hret] at h
  · by_cases hempty : count = sizeMax ∨ count = 0
    · rw [if_neg hret, if_pos hempty]
      exact Or.inl ⟨rfl, rfl⟩
    · rw [if_neg hret, if_neg hempty]
      have hinside := hin (by rw [hread]; exact Int.not_le.mp hret)
      have hnear := decodeLengthSafe_near (by omega) hread hret
      have hnext := decodeLengthSafe_pos (b := b) (p := p.pos b)
        (by rw [hread]; exact Int.not_le.mp hret)
      rw [hread, addSize_of_lt (by omega)] at hnext
      simp only at hnext
      refine Or.inr ⟨rfl, moves_of_pos hp hnear.1 (by omega) rfl, ?_⟩
      simp only [MysqlParser.current, List.getLastD_concat]
      rw [toInt_of_lt (by omega)]
      omega

/-- So does any packet that the condition holds of. -/
theorem callParse_forward {b : Reply} {p : MysqlParser} (hinv : Inv b p) (hin : StepInside b p) :
    Forward b p := by
  intro h
  have hle := hinv.offset_le
  have hlt := hinv.offset_lt
  unfold StepInside at hin
  unfold callParse at h ⊢
  cases hparse : p.parse with
  | basePacket =>
      simp only [parseBasePacket]
      grind
  | errorPacket =>
      simp only [hparse] at h ⊢
      have hoff := parseErrorPacket_offset h
      exact ⟨by rw [hoff]; exact hlt (by simp [hparse]), Nat.le_of_eq hoff⟩
  | okPacket =>
      simp only [hparse] at h hin ⊢
      exact parseOkPacket_moves hle hin h
  | eofPacket =>
      simp only [hparse] at h ⊢
      exact parseEofPacket_moves hle h
  | fieldEofPacket =>
      simp only [hparse] at h ⊢
      exact parseFieldEofPacket_moves hle h
  | fieldCount =>
      simp only [hparse] at h hin ⊢
      obtain ⟨_, hnull, height, _⟩ := hinv.header hparse
      rcases parseFieldCount_forward hle hin hnull height h with ⟨hok, hoff⟩ | ⟨_, hmoves, _⟩
      · exact Or.inr ⟨hoff, hok⟩
      · exact Or.inl hmoves
  | columnDefPacket =>
      simp only [hparse] at h hin ⊢
      exact parseColumnDefPacket_moves hle hin h
  | localInline => exact ⟨hlt (by simp [hparse]), Nat.le_refl _⟩
  | rowPacket =>
      simp only [hparse] at h hin ⊢
      exact parseRowPacket_forward hle (hinv.fieldCount (by simp [hparse])) hin h

/-! ### The loop -/

/-- How many functions can still be handed over to without moving. -/
def rank : ParseFn → Nat
  | .basePacket => 2
  | .fieldCount => 1
  | .rowPacket => 1
  | _ => 0

/-- The offset has moved, or the call was handed over. -/
def Later (p q : MysqlParser) : Prop :=
  p.offset < q.offset ∨ p.offset = q.offset ∧ rank q.parse < rank p.parse

/-- Later than later. -/
theorem Later.trans {p q r : MysqlParser} (h₁ : Later p q) (h₂ : Later q r) : Later p r := by
  unfold Later at *
  omega

/-- A pass that goes on has parsed a packet before the end. -/
theorem parseStep_next {b : Reply} {p q : MysqlParser} (h : parseStep b p = .next q) :
    callParse b p = (0, q) ∧ q.offset < b.len := by
  unfold parseStep at h
  rcases hcall : callParse b p with ⟨ret, r⟩
  simp only [hcall] at h
  grind

/-- A packet that is parsed before the end is followed by another. -/
theorem parseStep_of_call {b : Reply} {p : MysqlParser} (hret : (callParse b p).1 = 0)
    (hlt : (callParse b p).2.offset < b.len) : parseStep b p = .next (callParse b p).2 := by
  unfold parseStep
  grind

/-- A packet that moves the cursor takes the loop nearer to its end. -/
theorem later_of_forward {b : Reply} {p q : MysqlParser} (hf : Forward b p)
    (h : parseStep b p = .next q) : Later p q := by
  obtain ⟨hcall, _⟩ := parseStep_next h
  unfold Forward at hf
  rw [hcall] at hf
  have hf := hf (Int.le_refl 0)
  unfold Later
  cases hparse : p.parse with
  | basePacket =>
      simp only [hparse] at hf
      refine Or.inr ⟨hf.1.symm, ?_⟩
      cases hq : q.parse <;> simp_all [rank]
  | fieldCount =>
      simp only [hparse] at hf
      rcases hf with hmoves | ⟨hoff, hok⟩
      · exact Or.inl hmoves.1
      · exact Or.inr ⟨hoff.symm, by simp [hok, rank]⟩
  | rowPacket =>
      simp only [hparse] at hf
      rcases hf with ⟨hoff, hend | hend⟩ | ⟨hmoves, _⟩
      · exact Or.inr ⟨hoff.symm, by simp [hend, rank]⟩
      · exact Or.inr ⟨hoff.symm, by simp [hend, rank]⟩
      · exact Or.inl hmoves.1
  | errorPacket | okPacket | eofPacket | fieldEofPacket | columnDefPacket | localInline =>
      simp only [hparse] at hf
      exact Or.inl hf.1

/-- The packets that belong to one result set with rows. -/
def inRows : ParseFn → Bool
  | .columnDefPacket => true
  | .fieldEofPacket => true
  | .rowPacket => true
  | _ => false

/-- A result set with rows begins with its field count and keeps it. -/
theorem callParse_inRows {b : Reply} {p q : MysqlParser} (h : callParse b p = (0, q))
    (hq : inRows q.parse = true) :
    p.parse = .fieldCount ∨
      (inRows p.parse = true ∧ q.current.fieldCount = p.current.fieldCount) := by
  unfold callParse at h
  cases hparse : p.parse with
  | fieldCount => exact Or.inl rfl
  | columnDefPacket =>
      simp only [hparse, parseColumnDefPacket] at h
      split at h
      · simp at h
      · simp only [Prod.mk.injEq, true_and] at h
        rw [← h]
        exact Or.inr ⟨rfl, by simp [MysqlParser.setCurrent, MysqlParser.current]⟩
  | fieldEofPacket =>
      simp only [hparse, parseFieldEofPacket] at h
      split at h
      · simp at h
      · simp only [Prod.mk.injEq, true_and] at h
        rw [← h]
        exact Or.inr ⟨rfl, by simp [MysqlParser.setCurrent, MysqlParser.current]⟩
  | rowPacket =>
      simp only [hparse, parseRowPacket] at h
      split at h
      · simp only [Prod.mk.injEq, true_and] at h
        simp [← h, inRows] at hq
      · split at h
        · simp only [Prod.mk.injEq, true_and] at h
          simp [← h, inRows] at hq
        · split at h
          · simp at h
          · simp only [Prod.mk.injEq, true_and] at h
            rw [← h]
            exact Or.inr ⟨rfl, by simp [MysqlParser.setCurrent, MysqlParser.current]⟩
  | basePacket =>
      simp only [hparse, parseBasePacket, Prod.mk.injEq, true_and] at h
      rw [← h] at hq
      grind [inRows]
  | errorPacket =>
      simp only [hparse, parseErrorPacket] at h
      grind
  | okPacket =>
      simp only [hparse, parseOkPacket] at h
      grind [inRows]
  | eofPacket =>
      simp only [hparse, parseEofPacket] at h
      grind [inRows]
  | localInline => simp [hparse, parseLocalInline] at h

/-- Only the base packet hands over to the field count. -/
theorem callParse_fieldCount {b : Reply} {p q : MysqlParser} (h : callParse b p = (0, q))
    (hq : q.parse = .fieldCount) :
    p.parse = .basePacket ∧ q.offset = p.offset ∧ b.mem (p.pos b) ≠ 0 ∧ b.mem (p.pos b) ≠ 251 ∧
      b.mem (p.pos b) ≠ 254 ∧ b.mem (p.pos b) ≠ 255 := by
  unfold callParse at h
  cases hparse : p.parse with
  | basePacket =>
      simp only [hparse, parseBasePacket, Prod.mk.injEq, true_and] at h
      grind
  | errorPacket =>
      simp only [hparse, parseErrorPacket] at h
      grind
  | okPacket =>
      simp only [hparse, parseOkPacket] at h
      grind
  | eofPacket =>
      simp only [hparse, parseEofPacket] at h
      grind
  | fieldEofPacket =>
      simp only [hparse, parseFieldEofPacket] at h
      grind
  | fieldCount =>
      simp only [hparse, parseFieldCount] at h
      grind
  | columnDefPacket =>
      simp only [hparse, parseColumnDefPacket] at h
      grind
  | localInline => simp [hparse, parseLocalInline] at h
  | rowPacket =>
      simp only [hparse, parseRowPacket] at h
      grind [MysqlParser.setCurrent]

/-- What each pass keeps. -/
theorem inv_next {b : Reply} {p q : MysqlParser} (hinv : Inv b p) (hin : StepInside b p)
    (h : parseStep b p = .next q) : Inv b q := by
  obtain ⟨hcall, hlt⟩ := parseStep_next h
  refine ⟨fun _ => hlt, Nat.le_of_lt hlt, fun hq => ?_, fun hq => ?_⟩
  · rcases callParse_inRows hcall (by rcases hq with hq | hq | hq <;> rw [hq] <;> rfl) with
      hcount | ⟨hrows, hsame⟩
    · obtain ⟨_, hnull, height, _⟩ := hinv.header hcount
      simp only [StepInside, hcount] at hin
      simp only [callParse, hcount] at hcall
      rcases parseFieldCount_forward hinv.offset_le hin hnull height (by rw [hcall]) with
        ⟨hok, _⟩ | ⟨_, _, hfield⟩
      · rw [hcall] at hok
        simp only at hok
        rw [hok] at hq
        simp at hq
      · rw [hcall] at hfield
        exact hfield
    · rw [hsame]
      refine hinv.fieldCount ?_
      cases hparse : p.parse <;> simp_all [inRows]
  · obtain ⟨_, hoff, hheader⟩ := callParse_fieldCount hcall hq
    have hpos : q.pos b = p.pos b := by simp only [MysqlParser.pos, hoff]
    rw [hpos]
    exact hheader

/-- A new parser. -/
theorem mysqlParserInit_inv (b : Reply) (cmd : Nat) (p : MysqlParser) :
    Inv b (mysqlParserSetCommand cmd (mysqlParserInit p)) where
  offset_lt h := by simp [mysqlParserSetCommand, mysqlParserInit] at h
  offset_le := Nat.zero_le _
  fieldCount h := by simp [mysqlParserSetCommand, mysqlParserInit] at h
  header h := by simp [mysqlParserSetCommand, mysqlParserInit] at h

/-- `Later` states are closer to the end of the buffer. -/
theorem later_wellFounded (len : Nat) :
    WellFounded fun q p : MysqlParser => Later p q ∧ q.offset ≤ len := by
  refine Subrelation.wf (r := InvImage (Prod.Lex (· < ·) (· < ·))
    fun p : MysqlParser => (len - p.offset, rank p.parse)) (fun {q p} h => ?_)
    (InvImage.wf _ (Prod.lex Nat.lt_wfRel Nat.lt_wfRel).wf)
  obtain ⟨hlt | ⟨heq, hrank⟩, hle⟩ := h
  · exact Prod.Lex.left _ _ (by omega)
  · simp only [InvImage, heq]
    exact Prod.Lex.right _ hrank

/-- A run in which every accepted length lies inside the buffer returns; its calls move the offset
forward inside the buffer, and so does every result set. -/
theorem mysqlParserParse_returns (b : Reply) (cmd : Nat) (m : MysqlParser)
    (h : ∀ p, Reaches (parseStep b) (mysqlParserSetCommand cmd (mysqlParserInit m)) p →
      StepInside b p) :
    (∃ fuel r, mysqlParserParse fuel b (mysqlParserSetCommand cmd (mysqlParserInit m)) = some r) ∧
    (∀ p, Reaches (parseStep b) (mysqlParserSetCommand cmd (mysqlParserInit m)) p → Forward b p) ∧
    (∀ p q, Reaches (parseStep b) (mysqlParserSetCommand cmd (mysqlParserInit m)) p →
      Relation.TransGen (fun s t => parseStep b s = .next t) p q →
      p.parse = .basePacket → q.parse = .basePacket → Moves b p q) := by
  generalize hinit : mysqlParserSetCommand cmd (mysqlParserInit m) = init at h ⊢
  have hstart : Inv b init := hinit ▸ mysqlParserInit_inv b cmd m
  -- every pass begins in a state of the run, which satisfies the condition and the invariant
  have hinv : ∀ p, Reaches (parseStep b) init p → Inv b p := by
    intro p hp
    induction hp with
    | refl => exact hstart
    | tail hreach hnext ih => exact inv_next ih (h _ hreach) hnext
  have hforward : ∀ p, Reaches (parseStep b) init p → Forward b p :=
    fun p hp => callParse_forward (hinv p hp) (h p hp)
  have hlater : ∀ p q, Reaches (parseStep b) init p → parseStep b p = .next q → Later p q :=
    fun p q hp hnext => later_of_forward (hforward p hp) hnext
  refine ⟨?_, hforward, fun p q hp hpq hbase hbase' => ?_⟩
  · exact halts_of_wellFounded (later_wellFounded b.len)
      (P := Reaches (parseStep b) init)
      (fun p q hp hnext => ⟨hp.tail hnext, hlater p q hp hnext, Nat.le_of_lt (parseStep_next hnext).2⟩)
      init Relation.ReflTransGen.refl
  · have hchain : ∀ t, Relation.TransGen (fun s t => parseStep b s = .next t) p t →
        Later p t ∧ Reaches (parseStep b) init t := by
      intro t ht
      induction ht with
      | single hnext => exact ⟨hlater p _ hp hnext, hp.tail hnext⟩
      | tail _ hnext ih => exact ⟨ih.1.trans (hlater _ _ ih.2 hnext), ih.2.tail hnext⟩
    obtain ⟨hpq', hreach⟩ := hchain q hpq
    have hle := (hinv q hreach).offset_le
    rcases hpq' with hlt | ⟨_, hrank⟩
    · exact ⟨hlt, hle⟩
    · rw [hbase, hbase'] at hrank
      exact absurd hrank (Nat.lt_irrefl _)

/-- A buffer at a user address that holds `bytes`, with zeros around it. -/
def replyOf (bytes : List Byte) (h : 4096 + bytes.length < 2 ^ 63) : Reply where
  base := 4096
  len := bytes.length
  mem := fun a => (bytes[a - 4096]?).getD 0
  user := h

/-- A row set with one row, and an OK result behind it. -/
def oneRowReply : Reply :=
  replyOf ([1] ++ ([0, 0, 0, 0, 0, 0] ++ [12, 33, 0, 0, 0, 0, 0, 253, 0, 0, 0, 0, 0]) ++
    [254, 0, 0, 0, 0] ++ [1, 97] ++ [254, 0, 0, 10, 0] ++ [0, 0, 0, 2, 0, 0, 0]) (by decide)

def oneRowParser : MysqlParser :=
  ((mysqlParserParse 10 oneRowReply
    (mysqlParserSetCommand comQuery (mysqlParserInit default))).getD default).2

/-- The reply with one row is parsed to its end. -/
theorem parse_oneRow : mysqlParserParse 10 oneRowReply
    (mysqlParserSetCommand comQuery (mysqlParserInit default)) = some (1, oneRowParser) :=
  rfl

/-- Every length of this reply lies inside it. -/
theorem oneRow_inside (s : MysqlParser) (hs : Reaches (parseStep oneRowReply)
    (mysqlParserSetCommand comQuery (mysqlParserInit default)) s) : StepInside oneRowReply s := by
  have hsteps : ∀ s ∈ passes (parseStep oneRowReply) 10
      (mysqlParserSetCommand comQuery (mysqlParserInit default)), StepInside oneRowReply s := by
    decide +kernel
  exact hsteps s (hs.mem_passes parse_oneRow)

theorem mysqlParserParse_returns_oneRow :
    (∃ fuel r, mysqlParserParse fuel oneRowReply
      (mysqlParserSetCommand comQuery (mysqlParserInit default)) = some r) ∧
    (∀ p, Reaches (parseStep oneRowReply)
      (mysqlParserSetCommand comQuery (mysqlParserInit default)) p → Forward oneRowReply p) ∧
    (∀ p q, Reaches (parseStep oneRowReply)
        (mysqlParserSetCommand comQuery (mysqlParserInit default)) p →
      Relation.TransGen (fun s t => parseStep oneRowReply s = .next t) p q →
      p.parse = .basePacket → q.parse = .basePacket → Moves oneRowReply p q) :=
  mysqlParserParse_returns oneRowReply comQuery default oneRow_inside

/-- An OK packet with more results behind it whose message has the length 2 ^ 64 - 16. -/
def wrappedOk : Reply :=
  replyOf [0, 0, 0, 8, 0, 0, 0, 254, 0xF0, 0xFF, 0xFF, 0xFF, 0xFF, 0xFF, 0xFF, 0xFF] (by decide)

/-- The length takes the offset back to the packet itself, so it is parsed for ever. -/
theorem mysqlParserParse_wrappedOk :
    ¬ ∃ fuel r, mysqlParserParse fuel wrappedOk
      (mysqlParserSetCommand comQuery (mysqlParserInit default)) = some r := by
  refine not_halts_of_invariant (P := fun p : MysqlParser =>
    p.offset = 0 ∧ (p.parse = .basePacket ∨ p.parse = .okPacket)) (fun p hp => ?_) (by decide)
  obtain ⟨hoff, hparse⟩ := hp
  have hpos : p.pos wrappedOk = 4096 := by
    simp only [MysqlParser.pos, hoff]
    rfl
  rcases hparse with hbase | hok
  · have hmem : wrappedOk.mem 4096 = 0 := rfl
    have hcall : callParse wrappedOk p = (0, { p with parse := .okPacket }) := by
      simp [callParse, hbase, parseBasePacket, hpos, hmem]
    refine ⟨_, parseStep_of_call ?_ ?_, ?_, ?_⟩
    · rw [hcall]
    · rw [hcall, hoff]
      decide
    · rw [hcall]
      exact hoff
    · rw [hcall]
      exact Or.inr rfl
  · have hread : readOkPacket wrappedOk 4096 = some
        { affectedRows := 0, insertId := 0, serverStatus := 8, warningCount := 0, ret := 1,
          infoLen := 2 ^ 64 - 16, pos := 4112 } := by
      decide +kernel
    have hcall : callParse wrappedOk p = parseOkPacket wrappedOk p := by
      simp only [callParse, hok]
    obtain ⟨hoffset, hnext⟩ := parseOkPacket_of_read (p := p) (by rw [hpos]; exact hread)
    have hback : addSize (wrappedOk.offsetOf 4112) (toSize (toInt ((2 ^ 64 - 16 : Nat) : Int))) =
        0 := by decide +kernel
    simp only [hback] at hoffset
    rw [if_neg (by decide), if_pos (by decide), Prod.mk.injEq] at hnext
    rw [← hcall] at hoffset hnext
    exact ⟨_, parseStep_of_call hnext.1 (by rw [hoffset]; decide), hoffset, Or.inl hnext.2⟩

end Workflow.Mysql
