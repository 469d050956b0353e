/-
Module: Workflow.Proofs.HttpHeaderStore
Layer: Proofs
Purpose: The header store is the ordered list of its headers. Every line holds `name: value` CRLF in
  front of what is left of its buffer, however the values shrink and grow, as long as the lengths fit
  in the `int` fields and no stored name hides behind a NUL.
Trusted boundary: none
Main exports: Holds, addHeader_holds, setHeader_holds, Represents, Suitable, headerStore_refines
-/
import Mathlib.Data.List.Forall2
import Workflow.Lib.Trace
import Workflow.Protocol.HttpHeaderStore

namespace Workflow.Http

open Workflow.Lib

/-! ### One line -/

/-- The bytes of a header line. -/
def HeaderLine.text (h : HeaderLine) : List Byte :=
  h.name ++ colonSpace ++ h.value ++ crlf

/-- A line holds a header: its text is at the front of the buffer and the lengths are recorded. -/
structure Holds (line : BufferedLine) (h : HeaderLine) : Prop where
  text : h.text <+: line.buf
  nameLen : line.nameLen = h.name.length
  valueLen : line.valueLen = h.value.length
  nameFits : h.name.length < 2 ^ 31
  valueFits : h.value.length < 2 ^ 31

theorem memcpy_at (front old rest : List Byte) {bytes : List Byte}
    (h : old.length = bytes.length) :
    memcpy (front ++ old ++ rest) front.length bytes = some (front ++ bytes ++ rest) := by
  have hin : front.length + bytes.length ≤ (front ++ old ++ rest).length := by
    simp only [List.length_append]
    omega
  rw [memcpy, if_pos hin, ← h, ← List.length_append, List.drop_left, List.append_assoc front old,
    List.take_left]

/-- `memcpy` behind a front part that stays. -/
theorem memcpy_behind (front bytes : List Byte) {buf : List Byte} (off : Nat) (hfront : front <+: buf)
    (hoff : off = front.length) (hlen : front.length + bytes.length ≤ buf.length) :
    ∃ rest, memcpy buf off bytes = some (front ++ bytes ++ rest) ∧
      front.length + bytes.length + rest.length = buf.length := by
  obtain ⟨tail, rfl⟩ := hfront
  rw [List.length_append] at hlen
  refine ⟨tail.drop bytes.length, ?_, ?_⟩
  · rw [hoff, ← memcpy_at front (tail.take bytes.length), List.append_assoc front,
      List.take_append_drop]
    rw [List.length_take]
    omega
  · rw [List.length_append, List.length_drop]
    omega

theorem memread_front (front bytes rest : List Byte) :
    memread (front ++ bytes ++ rest) front.length bytes.length = some bytes := by
  have hin : front.length + bytes.length ≤ (front ++ bytes ++ rest).length := by
    simp only [List.length_append]
    omega
  rw [memread, if_pos hin, List.append_assoc, List.drop_left, List.take_left]

/-- A new buffer gets the name and the separator, and keeps room for the value and the line end. -/
theorem writeName_spec (name : List Byte) (valueLen : Nat) :
    ∃ rest, writeName name valueLen = some (name ++ colonSpace ++ rest) ∧
      rest.length = valueLen + 2 := by
  obtain ⟨rest, hname, hlen⟩ := memcpy_behind [] name 0
    (List.nil_prefix : [] <+: malloc (name.length + valueLen + 4)) rfl
    (by simp only [malloc, List.length_nil, List.length_replicate]; omega)
  rw [List.nil_append] at hname
  simp only [malloc, List.length_nil, List.length_replicate] at hlen
  have hsep : colonSpace.length = 2 := rfl
  obtain ⟨rest', hcolon, hlen'⟩ := memcpy_behind name colonSpace name.length
    (List.prefix_append name rest) rfl
    (by rw [List.length_append]; omega)
  refine ⟨rest', ?_, by rw [List.length_append] at hlen'; omega⟩
  simp only [writeName, hname, Option.bind_eq_bind, Option.bind_some, hcolon]

/-- The value and the line end are written behind the name, inside the buffer. -/
theorem writeValue_spec (name value : List Byte) {buf : List Byte} (hname : name ++ colonSpace <+: buf)
    (hlen : name.length + value.length + 4 ≤ buf.length) :
    ∃ buf', writeValue buf name.length value = some buf' ∧
      ({ name := name, value := value } : HeaderLine).text <+: buf' ∧
      buf'.length = buf.length := by
  have hsep : colonSpace.length = 2 := rfl
  have hend : crlf.length = 2 := rfl
  obtain ⟨rest, hvalue, hrest⟩ := memcpy_behind (name ++ colonSpace) value (name.length + 2) hname
    (by rw [List.length_append, hsep]) (by rw [List.length_append]; omega)
  rw [List.length_append] at hrest
  obtain ⟨rest', hcrlf, hrest'⟩ := memcpy_behind (name ++ colonSpace ++ value) crlf
    (name.length + 2 + value.length) (List.prefix_append _ rest)
    (by simp only [List.length_append, hsep]) (by simp only [List.length_append]; omega)
  refine ⟨name ++ colonSpace ++ value ++ crlf ++ rest', ?_, List.prefix_append _ rest', ?_⟩
  · simp only [writeValue, hvalue, Option.bind_eq_bind, Option.bind_some, hcrlf]
  · simp only [List.length_append] at hrest' ⊢
    omega

theorem toSize_ofNat {n : Nat} (h : n < 2 ^ 31) : toSize (n : Int) = n :=
  toSize_of_lt (by omega)

/-- The name of a line, whose spelling can be another, and the value. -/
theorem Holds.parts {line : BufferedLine} {h : HeaderLine} (hline : Holds line h) :
    h.name ++ colonSpace <+: line.buf ∧ h.name.length + h.value.length + 4 ≤ line.buf.length ∧
      toSize line.nameLen = h.name.length ∧ toSize line.valueLen = h.value.length := by
  refine ⟨?_, ?_, ?_, ?_⟩
  · refine List.IsPrefix.trans ?_ hline.text
    rw [HeaderLine.text, List.append_assoc]
    exact List.prefix_append _ _
  · have hle := hline.text.length_le
    simp only [HeaderLine.text, List.length_append] at hle
    have hsep : colonSpace.length = 2 := rfl
    have hend : crlf.length = 2 := rfl
    omega
  · rw [hline.nameLen, toSize_ofNat hline.nameFits]
  · rw [hline.valueLen, toSize_ofNat hline.valueFits]

/-- What the cursor reads of a line. -/
theorem Holds.read {line : BufferedLine} {h : HeaderLine} (hline : Holds line h) :
    memread line.buf 0 (toSize line.nameLen) = some h.name ∧
      memread line.buf (h.name.length + 2) (toSize line.valueLen) = some h.value := by
  obtain ⟨_, _, hn, hv⟩ := hline.parts
  obtain ⟨rest, hrest⟩ := hline.text
  rw [hn, hv, ← hrest]
  constructor
  · have hname := memread_front [] h.name (colonSpace ++ h.value ++ crlf ++ rest)
    simpa only [HeaderLine.text, List.nil_append, List.length_nil, List.append_assoc] using hname
  · have hvalue := memread_front (h.name ++ colonSpace) h.value (crlf ++ rest)
    have hlen : (h.name ++ colonSpace).length = h.name.length + 2 := by
      rw [List.length_append]
      rfl
    rw [hlen] at hvalue
    simpa only [HeaderLine.text, List.append_assoc] using hvalue

/-! ### Names -/

/-- The comparison that the code makes: equal lengths, and equal up to case or up to a NUL. -/
def HeaderLine.namedUpToNul (name : List Byte) (h : HeaderLine) : Bool :=
  h.name.length == name.length && strncasecmpEq name.length h.name name

theorem strncasecmpEq_append {n : Nat} {a b : List Byte} (rest : List Byte) (h : n ≤ a.length) :
    strncasecmpEq n (a ++ rest) b = strncasecmpEq n a b := by
  induction n generalizing a b with
  | zero => simp only [strncasecmpEq]
  | succ n ih =>
      cases a with
      | nil => simp at h
      | cons x a =>
          cases b with
          | nil => rfl
          | cons y b =>
              simp only [List.length_cons] at h
              simp only [List.cons_append, strncasecmpEq, ih (Nat.le_of_succ_le_succ h)]

theorem strncasecmpEq_of_strcasecmpEq {a b : List Byte} (h : strcasecmpEq a b = true) :
    a.length = b.length ∧ strncasecmpEq b.length a b = true := by
  have hmap : a.map tolower = b.map tolower := by simpa [strcasecmpEq] using h
  have hlen : a.length = b.length := by simpa using congrArg List.length hmap
  refine ⟨hlen, ?_⟩
  clear h
  induction a generalizing b with
  | nil =>
      cases b with
      | nil => rfl
      | cons y b => simp at hlen
  | cons x a ih =>
      cases b with
      | nil => simp at hlen
      | cons y b =>
          simp only [List.map_cons, List.cons.injEq] at hmap
          simp only [List.length_cons, Nat.add_right_cancel_iff] at hlen
          simp [strncasecmpEq, hmap.1, ih hmap.2 hlen]

theorem HeaderLine.namedUpToNul_of_named {name : List Byte} {h : HeaderLine}
    (hname : h.named name = true) : h.namedUpToNul name = true := by
  obtain ⟨hlen, hcmp⟩ := strncasecmpEq_of_strcasecmpEq hname
  simp [namedUpToNul, hlen, hcmp]

theorem Holds.hasName {line : BufferedLine} {h : HeaderLine} (hline : Holds line h)
    (name : List Byte) : line.hasName name = h.namedUpToNul name := by
  obtain ⟨_, _, hn, _⟩ := hline.parts
  obtain ⟨rest, hrest⟩ := hline.text
  rw [BufferedLine.hasName, HeaderLine.namedUpToNul, hn]
  by_cases hlen : h.name.length = name.length
  · have hbuf : line.buf = h.name ++ (colonSpace ++ (h.value ++ (crlf ++ rest))) := by
      rw [← hrest]
      simp only [HeaderLine.text, List.append_assoc]
    rw [hbuf, strncasecmpEq_append _ (Nat.le_of_eq hlen.symm)]
  · rw [beq_false_of_ne hlen, Bool.false_and, Bool.false_and]

/-! ### The first line with a name -/

theorem firstWhere_congr {α : Type} {p q : α → Bool} {xs : List α}
    (hqp : ∀ x ∈ xs, q x = true → p x = true)
    (h : ∀ i x, firstWhere p xs = some (i, x) → q x = true) :
    firstWhere p xs = firstWhere q xs := by
  induction xs with
  | nil => rfl
  | cons x xs ih =>
      by_cases hp : p x = true
      · have hq : q x = true := h 0 x (by simp [firstWhere, hp])
        simp [firstWhere, hp, hq]
      · have hq : ¬ q x = true := fun hq => hp (hqp x (List.mem_cons_self) hq)
        have hrest := ih (fun y hy => hqp y (List.mem_cons_of_mem x hy)) fun i y hfirst =>
          h (i + 1) y (by simp [firstWhere, hp, hfirst])
        simp [firstWhere, hp, hq, hrest]

theorem firstWhere_some {α : Type} {p : α → Bool} {xs : List α} {i : Nat} {x : α}
    (h : firstWhere p xs = some (i, x)) : xs[i]? = some x ∧ p x = true := by
  induction xs generalizing i with
  | nil => simp [firstWhere] at h
  | cons y xs ih =>
      rw [firstWhere] at h
      split at h
      · rename_i hp
        simp only [Option.some.injEq, Prod.mk.injEq] at h
        obtain ⟨rfl, rfl⟩ := h
        exact ⟨rfl, hp⟩
      · simp only [Option.map_eq_some_iff, Prod.mk.injEq, Prod.exists] at h
        obtain ⟨j, z, hfirst, rfl, rfl⟩ := h
        exact ih hfirst

/-- Tests that agree on related elements find related elements at the same place. -/
theorem firstWhere_forall₂ {α β : Type} {R : α → β → Prop} {p : α → Bool} {q : β → Bool}
    {xs : List α} {ys : List β} (h : List.Forall₂ R xs ys)
    (hpq : ∀ x y, R x y → p x = q y) :
    (firstWhere p xs = none ∧ firstWhere q ys = none) ∨
      ∃ i x y, firstWhere p xs = some (i, x) ∧ firstWhere q ys = some (i, y) ∧ R x y := by
  induction h with
  | nil => exact Or.inl ⟨rfl, rfl⟩
  | cons hxy hrest ih =>
      rename_i x y xs ys
      have heq := hpq x y hxy
      by_cases hp : p x = true
      · exact Or.inr ⟨0, x, y, by simp [firstWhere, hp], by simp [firstWhere, ← heq, hp], hxy⟩
      · rcases ih with ⟨hnone, hnone'⟩ | ⟨i, u, v, hfirst, hfirst', huv⟩
        · exact Or.inl ⟨by simp [firstWhere, hp, hnone], by simp [firstWhere, ← heq, hp, hnone']⟩
        · exact Or.inr ⟨i + 1, u, v, by simp [firstWhere, hp, hfirst],
            by simp [firstWhere, ← heq, hp, hfirst'], huv⟩

/-! ### The operations on the lines -/

theorem addHeader_holds {lines : List BufferedLine} {headers : List HeaderLine} {name value : List Byte}
    (h : List.Forall₂ Holds lines headers) (hname : name.length < 2 ^ 31)
    (hvalue : value.length < 2 ^ 31) :
    ∃ lines', addHeader name value lines = some lines' ∧
      List.Forall₂ Holds lines' (headers ++ [{ name := name, value := value }]) := by
  obtain ⟨rest, hfront, hrest⟩ := writeName_spec name value.length
  have hsep : colonSpace.length = 2 := rfl
  obtain ⟨buf, hbuf, htext, _⟩ := writeValue_spec name value
    (List.prefix_append (name ++ colonSpace) rest) (by simp only [List.length_append]; omega)
  refine ⟨_, by
    simp only [addHeader, hfront, Option.bind_eq_bind, Option.bind_some, hbuf]; rfl, ?_⟩
  have hholds : Holds { nameLen := toInt name.length, valueLen := toInt value.length, buf := buf }
      { name := name, value := value } := by
    refine ⟨htext, ?_, ?_, hname, hvalue⟩
    · simp only [toInt_of_lt hname]
    · simp only [toInt_of_lt hvalue]
  exact List.rel_append h (.cons hholds .nil)

/-- A line takes a new value; a longer one comes with a new buffer and the name of the caller. -/
theorem Holds.setValue {line : BufferedLine} {h : HeaderLine} {name value : List Byte}
    (hline : Holds line h) (hname : h.name.length = name.length) (hvalue : value.length < 2 ^ 31) :
    ∃ line', line.setValue name value = some line' ∧ Holds line' (h.withValue name value) := by
  obtain ⟨hpre, hcap, _, hv⟩ := hline.parts
  have hsep : colonSpace.length = 2 := rfl
  by_cases hlong : h.value.length < value.length
  · obtain ⟨rest, hfront, hrest⟩ := writeName_spec name value.length
    obtain ⟨buf, hbuf, htext, _⟩ := writeValue_spec name value
      (List.prefix_append (name ++ colonSpace) rest) (by simp only [List.length_append]; omega)
    refine ⟨{ line with valueLen := toInt value.length, buf := buf }, ?_, ?_⟩
    · simp only [BufferedLine.setValue, hv, gt_iff_lt, hlong, if_true, hfront, Option.bind_eq_bind,
        Option.bind_some, hbuf]
      rfl
    · rw [HeaderLine.withValue, if_pos hlong]
      have hnameFits := hline.nameFits
      rw [hname] at hnameFits
      refine ⟨htext, ?_, ?_, hnameFits, hvalue⟩
      · exact hline.nameLen.trans (by rw [hname])
      · simp only [toInt_of_lt hvalue]
  · obtain ⟨buf, hbuf, htext, _⟩ := writeValue_spec h.name value hpre (by omega)
    rw [hname] at hbuf
    refine ⟨{ line with valueLen := toInt value.length, buf := buf }, ?_, ?_⟩
    · simp [BufferedLine.setValue, hv, hlong, hbuf]
    · rw [HeaderLine.withValue, if_neg hlong]
      refine ⟨htext, hline.nameLen, ?_, hline.nameFits, hvalue⟩
      simp only [toInt_of_lt hvalue]

theorem forall₂_set {α β : Type} {R : α → β → Prop} {xs : List α} {ys : List β} {x : α} {y : β}
    (h : List.Forall₂ R xs ys) (i : Nat) (hxy : R x y) : List.Forall₂ R (xs.set i x) (ys.set i y) := by
  induction h generalizing i with
  | nil => exact .nil
  | cons hhead hrest ih =>
      cases i with
      | zero => exact .cons hxy hrest
      | succ i => exact .cons hhead (ih i)

/-- No stored name is taken for the given one only because a NUL hides where they differ: the first
name that `strncasecmp` accepts is the given one up to case. -/
def Unmistaken (name : List Byte) (headers : List HeaderLine) : Prop :=
  ∀ h ∈ (firstWhere (HeaderLine.namedUpToNul name) headers).map Prod.snd, h.named name = true

instance (name : List Byte) (headers : List HeaderLine) : Decidable (Unmistaken name headers) :=
  inferInstanceAs (Decidable (∀ h ∈ Option.map _ _, _))

theorem Unmistaken.firstWhere_eq {name : List Byte} {headers : List HeaderLine}
    (h : Unmistaken name headers) :
    firstWhere (HeaderLine.namedUpToNul name) headers = firstWhere (HeaderLine.named name) headers :=
  firstWhere_congr (fun _ _ hnamed => HeaderLine.namedUpToNul_of_named hnamed)
    fun i x hfirst => h x (by rw [hfirst]; rfl)

/-- The line that the code finds is the line of the header that is meant. -/
theorem firstWhere_hasName {name : List Byte} {lines : List BufferedLine} {headers : List HeaderLine}
    (h : List.Forall₂ Holds lines headers) (hclear : Unmistaken name headers) :
    (firstWhere (BufferedLine.hasName name) lines = none ∧
        firstWhere (HeaderLine.named name) headers = none) ∨
      ∃ i line header, firstWhere (BufferedLine.hasName name) lines = some (i, line) ∧
        firstWhere (HeaderLine.named name) headers = some (i, header) ∧ Holds line header := by
  rw [← hclear.firstWhere_eq]
  exact firstWhere_forall₂ h fun line header hline => hline.hasName name

theorem setHeader_holds {lines : List BufferedLine} {headers : List HeaderLine} {name value : List Byte}
    (h : List.Forall₂ Holds lines headers) (hname : name.length < 2 ^ 31)
    (hvalue : value.length < 2 ^ 31) (hclear : Unmistaken name headers) :
    ∃ lines', setHeader name value lines = some lines' ∧
      List.Forall₂ Holds lines' (replaceValue name value headers) := by
  unfold setHeader replaceValue
  rcases firstWhere_hasName h hclear with ⟨hnone, hnone'⟩ | ⟨i, line, header, hfirst, hfirst', hline⟩
  · rw [hnone, hnone']
    exact addHeader_holds h hname hvalue
  · rw [hfirst, hfirst']
    have hlen := (strncasecmpEq_of_strcasecmpEq (firstWhere_some hfirst').2).1
    obtain ⟨line', hset, hholds⟩ := hline.setValue hlen hvalue
    exact ⟨lines.set i line', by simp [hset], forall₂_set h i hholds⟩

/-! ### The store -/

variable {κ : Type}

/-- The store holds the list of headers, line by line, and the cursors are at the same places. -/
structure Represents (s : HeaderStore κ) (l : HeaderList κ) : Prop where
  lines : List.Forall₂ Holds s.lines l.headers
  cursor : s.cursor = l.cursor

theorem Represents.init : Represents (κ := κ) HeaderStore.init HeaderList.init :=
  ⟨.nil, rfl⟩

/-- What an operation must meet: lengths that the `int` fields record, and a name that the code cannot
mistake. -/
def Suitable (l : HeaderList κ) : HeaderOp κ → Prop
  | .add name value => name.length < 2 ^ 31 ∧ value.length < 2 ^ 31
  | .set name value =>
      name.length < 2 ^ 31 ∧ value.length < 2 ^ 31 ∧ Unmistaken name l.headers
  | .find k name => Unmistaken name (l.headers.drop (l.cursor k))
  | .next _ | .rewind _ => True

variable [DecidableEq κ]

theorem Represents.moveTo {s : HeaderStore κ} {l : HeaderList κ} (h : Represents s l) (k : κ)
    (next : Nat) : Represents (s.moveTo k next) (l.moveTo k next) :=
  ⟨h.lines, by simp only [HeaderStore.moveTo, HeaderList.moveTo, h.cursor]⟩

instance (l : HeaderList κ) : (op : HeaderOp κ) → Decidable (Suitable l op)
  | .add _ _ => inferInstanceAs (Decidable (_ ∧ _))
  | .set _ _ => inferInstanceAs (Decidable (_ ∧ _ ∧ _))
  | .find _ _ => inferInstanceAs (Decidable (Unmistaken _ _))
  | .next _ | .rewind _ => isTrue trivial

theorem moveTo_self (l : HeaderList κ) (k : κ) : l.moveTo k (l.cursor k) = l := by
  have hcursor : (fun j => if j = k then l.cursor k else l.cursor j) = l.cursor := by
    funext j
    split
    · rename_i heq
      rw [heq]
    · rfl
  simp only [HeaderList.moveTo, hcursor]

/-- One call gives the answer of the list and leaves a store that holds the new list. -/
theorem perform_represents {s : HeaderStore κ} {l : HeaderList κ} {op : HeaderOp κ}
    (h : Represents s l) (hok : Suitable l op) :
    ∃ t, s.perform op = some (t, (l.perform op).2) ∧ Represents t (l.perform op).1 := by
  cases op with
  | add name value =>
      obtain ⟨lines, hadd, hlines⟩ := addHeader_holds h.lines hok.1 hok.2
      exact ⟨{ s with lines := lines }, by simp [HeaderStore.perform, hadd, HeaderList.perform],
        hlines, h.cursor⟩
  | set name value =>
      obtain ⟨lines, hset, hlines⟩ := setHeader_holds h.lines hok.1 hok.2.1 hok.2.2
      exact ⟨{ s with lines := lines }, by simp [HeaderStore.perform, hset, HeaderList.perform],
        hlines, h.cursor⟩
  | next k =>
      have hget := List.forall₂_iff_get.mp h.lines
      simp only [HeaderStore.perform, HeaderList.perform, cursorNext, h.cursor]
      cases hheader : l.headers[l.cursor k]? with
      | none =>
          have hline : s.lines[l.cursor k]? = none := by
            rw [List.getElem?_eq_none_iff] at hheader ⊢
            omega
          rw [hline]
          refine ⟨s.moveTo k (l.cursor k), rfl, ?_⟩
          have hself := h.moveTo k (l.cursor k)
          rwa [moveTo_self] at hself
      | some header =>
          obtain ⟨hlt, rfl⟩ := List.getElem?_eq_some_iff.mp hheader
          have hlt' : l.cursor k < s.lines.length := by omega
          have hline := hget.2 (l.cursor k) hlt' hlt
          rw [List.getElem?_eq_getElem hlt']
          simp only [List.get_eq_getElem] at hline
          obtain ⟨hname, hvalue⟩ := hline.read
          rw [← hline.parts.2.2.1] at hvalue
          exact ⟨s.moveTo k (l.cursor k + 1), by simp [hname, hvalue], h.moveTo k _⟩
  | find k name =>
      have hdrop := List.forall₂_drop (l.cursor k) h.lines
      simp only [HeaderStore.perform, HeaderList.perform, cursorFind, h.cursor]
      rcases firstWhere_hasName hdrop hok with
        ⟨hnone, hnone'⟩ | ⟨i, line, header, hfirst, hfirst', hline⟩
      · rw [hnone, hnone', h.lines.length_eq]
        exact ⟨_, rfl, h.moveTo k _⟩
      · have hlen := (strncasecmpEq_of_strcasecmpEq (firstWhere_some hfirst').2).1
        have hvalue := hline.read.2
        rw [hlen] at hvalue
        rw [hfirst, hfirst']
        exact ⟨s.moveTo k (l.cursor k + i + 1), by simp [hvalue], h.moveTo k _⟩
  | rewind k => exact ⟨s.moveTo k 0, rfl, h.moveTo k 0⟩

/-- Every sequence of suitable calls on a fresh store gives the answers of an ordered list of headers,
and leaves that list in the lines. -/
theorem headerStore_refines (ops : List (HeaderOp κ))
    (hok : Meets HeaderList.perform Suitable (HeaderList.init (κ := κ)) ops) :
    ∃ s, performAll HeaderStore.perform HeaderStore.init ops =
        some (s, (specAll HeaderList.perform HeaderList.init ops).2) ∧
      Represents s (specAll HeaderList.perform HeaderList.init ops).1 := by
  refine performAll_refines ?_ Represents.init hok
  intro s l op h hsuitable
  exact perform_represents h hsuitable

/-- A value that shrinks and grows, and a lookup in another spelling. -/
theorem headerStore_refines_shrink :
    ∃ s, performAll HeaderStore.perform (HeaderStore.init (κ := Unit))
        [.add (ascii "Host") (ascii "abc"), .set (ascii "HOST") (ascii "a"),
          .set (ascii "host") (ascii "ab"), .find () (ascii "HoSt"), .rewind (), .next ()] =
      some (s, [.done, .done, .done, .value (ascii "ab"), .done,
        .header (ascii "host") (ascii "ab")]) := by
  obtain ⟨s, hrun, _⟩ := headerStore_refines (κ := Unit)
    [.add (ascii "Host") (ascii "abc"), .set (ascii "HOST") (ascii "a"),
      .set (ascii "host") (ascii "ab"), .find () (ascii "HoSt"), .rewind (), .next ()] (by decide)
  exact ⟨s, hrun⟩

/-- A value of `2 ^ 31` bytes is recorded with a negative length, and the cursor hands out bytes that
are not there. -/
theorem longValue_lost {value : List Byte} (hlen : value.length = 2 ^ 31) :
    performAll HeaderStore.perform (HeaderStore.init (κ := Unit)) [.add [97] value, .next ()] = none ∧
      (specAll HeaderList.perform (HeaderList.init (κ := Unit)) [.add [97] value, .next ()]).2 =
        [.done, .header [97] value] := by
  refine ⟨?_, rfl⟩
  obtain ⟨rest, hfront, hrest⟩ := writeName_spec [97] value.length
  obtain ⟨buf, hbuf, _, hsize⟩ := writeValue_spec [97] value
    (List.prefix_append ([97] ++ colonSpace) rest)
    (by simp only [List.length_append, colonSpace, List.length_cons, List.length_nil]; omega)
  simp only [List.length_append, colonSpace, List.length_cons, List.length_nil] at hsize
  have hname : toSize (toInt (([97] : List Byte).length : Int)) = 1 := by decide
  have hstored : toSize (toInt (value.length : Int)) = 2 ^ 64 - 2 ^ 31 := by
    rw [hlen]
    decide
  have hread : memread buf (1 + 2) (toSize (toInt (value.length : Int))) = none := by
    rw [memread, hstored, if_neg (by omega)]
  have hadd : addHeader [97] value [] =
      some [{ nameLen := toInt ([97] : List Byte).length, valueLen := toInt value.length
              buf := buf }] := by
    simp only [addHeader, hfront, Option.bind_eq_bind, Option.bind_some, hbuf]
    rfl
  simp only [performAll, HeaderStore.perform, HeaderStore.init, hadd, Option.bind_eq_bind,
    Option.bind_some, Option.pure_def, cursorNext, List.getElem?_cons_zero, hname, hread,
    Option.bind_none, Option.map_none, Option.bind_fun_none]

/-- A value of `2 ^ 31` bytes is lost, and a name is found under another one that differs from it only
behind a NUL. -/
theorem headerStore_confused :
    (performAll HeaderStore.perform (HeaderStore.init (κ := Unit))
          [.add [97] (List.replicate (2 ^ 31) 120), .next ()] = none ∧
        (specAll HeaderList.perform (HeaderList.init (κ := Unit))
          [.add [97] (List.replicate (2 ^ 31) 120), .next ()]).2 =
          [.done, .header [97] (List.replicate (2 ^ 31) 120)]) ∧
      (performAll HeaderStore.perform (HeaderStore.init (κ := Unit))
          [.add [97, 0, 98] [49], .find () [97, 0, 99]]).map Prod.snd = some [.done, .value [49]] ∧
      (specAll HeaderList.perform (HeaderList.init (κ := Unit))
          [.add [97, 0, 98] [49], .find () [97, 0, 99]]).2 = [.done, .absent] :=
  ⟨longValue_lost List.length_replicate, by decide, by decide⟩

end Workflow.Http
