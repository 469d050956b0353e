/-
Module: Workflow.Proofs.RedisRoundTrip
Layer: Proofs
Purpose: What `RedisMessage` encodes, the Redis parser reads back. The encoder is a recursion over the
  tree; the parser keeps a list of the elements still to be read. The proof follows the tree: a value
  that starts at the position of the parser is read, written to the current reply, and the parser goes
  on with the next element of its list.
Trusted boundary: none
Main exports: encoding, encode_eq, Encodable, Fits, Leads, ReadTo, readTo_value, round_trip
-/
import Workflow.Protocol.RedisMessage
import Workflow.Proofs.RedisSplit

namespace Workflow.Redis

open Workflow.Lib Workflow.Util

/-! ### The encoded text -/

/-- The decimal text of a length. -/
def sizeText (n : Nat) : List Byte :=
  toDecimal (Int.bmod n (2 ^ 64))

mutual

/-- The text of a value. -/
def encoding : RedisValue → List Byte
  | .nil => [36, 45, 49, CR, LF]
  | .int intv => [58] ++ toDecimal intv ++ [CR, LF]
  | .status strv => [43] ++ strv ++ [CR, LF]
  | .error strv => [45] ++ strv ++ [CR, LF]
  | .string strv => [36] ++ sizeText strv.length ++ [CR, LF] ++ strv ++ [CR, LF]
  | .array values => [42] ++ sizeText values.length ++ [CR, LF] ++ encodingAll values

def encodingAll : List RedisValue → List Byte
  | [] => []
  | v :: values => encoding v ++ encodingAll values

end

/-- The stream `t` is `s` with this text added. -/
def Writes (s t : EncodeStream) (data : List Byte) : Prop :=
  t.Consistent ∧ t.text = s.text ++ data

/-- What is appended is written behind the rest. -/
theorem writes_append {s t : EncodeStream} {text : List Byte} (h : Writes s t text)
    (data : List Byte) : Writes s (t.append data) (text ++ data) := by
  obtain ⟨hconsistent, htext⟩ := append_spec h.1 data
  exact ⟨hconsistent, by rw [htext, h.2, List.append_assoc]⟩

theorem writes_refl {s : EncodeStream} (h : s.Consistent) : Writes s s [] :=
  ⟨h, (List.append_nil _).symm⟩

theorem appendSize_eq (n : Nat) (s : EncodeStream) : s.appendSize n = s.append (sizeText n) := by
  rw [EncodeStream.appendSize, EncodeStream.appendInt, EncodeStream.appendCopy, sizeText]

theorem encodeReply_status (r : OutReply) (strv : List Byte) (t : EncodeStream) :
    encodeReply ((RedisValue.status strv).transform r) t =
      ((t.append [43]).append (strv.take strv.length)).append [CR, LF] := rfl

theorem encodeReply_error (r : OutReply) (strv : List Byte) (t : EncodeStream) :
    encodeReply ((RedisValue.error strv).transform r) t =
      ((t.append [45]).append (strv.take strv.length)).append [CR, LF] := rfl

theorem encodeReply_string (r : OutReply) (strv : List Byte) (t : EncodeStream) :
    encodeReply ((RedisValue.string strv).transform r) t =
      ((((t.append [36]).append (sizeText strv.length)).append [CR, LF]).append
        (strv.take strv.length)).append [CR, LF] := by
  rw [RedisValue.transform, encodeReply, appendSize_eq]
  rfl

theorem encodeReply_array (r : OutReply) (values : List RedisValue) (t : EncodeStream) :
    encodeReply ((RedisValue.array values).transform r) t =
      encodeAll (RedisValue.transformAll values)
        (((t.append [42]).append (sizeText (RedisValue.transformAll values).length)).append
          [CR, LF]) := by
  rw [RedisValue.transform, encodeReply, appendSize_eq]
  rfl

theorem transformAll_length (values : List RedisValue) :
    (RedisValue.transformAll values).length = values.length := by
  induction values with
  | nil => rfl
  | cons v values ih => simp only [RedisValue.transformAll, List.length_cons, ih]

/-- Three pieces. -/
theorem writes_line {s t : EncodeStream} {text : List Byte} (h : Writes s t text)
    (a b c : List Byte) :
    Writes s (((t.append a).append b).append c) (text ++ (a ++ b ++ c)) := by
  rw [← List.append_assoc, ← List.append_assoc]
  exact writes_append (writes_append (writes_append h a) b) c

mutual

/-- A reply is written as its encoding. -/
theorem encodeReply_writes {s t : EncodeStream} {text : List Byte} (h : Writes s t text) :
    ∀ (v : RedisValue) (r : OutReply),
      Writes s (encodeReply (v.transform r) t) (text ++ encoding v)
  | .nil, r => writes_append h _
  | .int intv, r => writes_line h _ _ _
  | .status strv, r => by
      rw [encodeReply_status, List.take_length]
      exact writes_line h _ _ _
  | .error strv, r => by
      rw [encodeReply_error, List.take_length]
      exact writes_line h _ _ _
  | .string strv, r => by
      rw [encodeReply_string, encoding, List.take_length, ← List.append_assoc, ← List.append_assoc]
      exact writes_append (writes_append (writes_line h _ _ _) _) _
  | .array values, r => by
      rw [encodeReply_array, encoding, transformAll_length, ← List.append_assoc]
      exact encodeAll_writes (writes_line h _ _ _) values

/-- So are the elements of an array, one behind the other. -/
theorem encodeAll_writes {s t : EncodeStream} {text : List Byte} (h : Writes s t text) :
    ∀ values : List RedisValue,
      Writes s (encodeAll (RedisValue.transformAll values) t) (text ++ encodingAll values)
  | [] => by
      rw [encodingAll, List.append_nil]
      exact h
  | v :: values => by
      rw [encodingAll, ← List.append_assoc]
      exact encodeAll_writes (encodeReply_writes h v outReplyInit) values

end

/-- The merging of buffers does not show in what is sent. -/
theorem encode_eq (v : RedisValue) : encode v = encoding v := by
  have hw := encodeReply_writes (writes_refl (consistent_reset encodeIovMax)) v outReplyInit
  exact hw.2

/-! ### Values that can be sent -/

mutual

/-- Texts of one line, strings whose length is an `int`, 64-bit integers. -/
def Encodable : RedisValue → Prop
  | .nil => True
  | .int intv => longMin ≤ intv ∧ intv ≤ longMax
  | .status strv => ∀ c ∈ strv, c ≠ CR ∧ c ≠ LF
  | .error strv => ∀ c ∈ strv, c ≠ CR ∧ c ≠ LF
  | .string strv => strv.length < 2 ^ 31
  | .array values => EncodableAll values

def EncodableAll : List RedisValue → Prop
  | [] => True
  | v :: values => Encodable v ∧ EncodableAll values

end

mutual

/-- With `left` values announced and not yet read, this one included, the count stays an `int` while
the value is read. -/
def Fits (left : Nat) : RedisValue → Prop
  | .nil => True
  | .int _ => True
  | .status _ => True
  | .error _ => True
  | .string _ => True
  | .array values => left + values.length < 2 ^ 31 ∧ FitsAll (left - 1 + values.length) values

def FitsAll (left : Nat) : List RedisValue → Prop
  | [] => True
  | v :: values => Fits left v ∧ FitsAll (left - 1) values

end

/-! ### Passes over known bytes -/

/-- Passes of the loop lead from one state to another, where it may be that the reply is complete,
and none of them comes to a blank length line. -/
structure Leads (behind : List Byte) (p q : RedisParser) : Prop where
  loop : parseLoop behind p = if q.status = .parseEnd then (1, q) else parseLoop behind q
  blank : MeetsBlank behind p → q.status ≠ .parseEnd ∧ MeetsBlank behind q

/-- A pass of the loop that goes on. -/
theorem Leads.pass {behind : List Byte} {p : RedisParser} (hblank : ¬ p.AtBlank)
    (hgo : (forward behind p).1 = 0 ∨ (forward behind p).1 = 1) :
    Leads behind p (afterForward (forward behind p)) where
  loop := by
    by_cases hstatus : (afterForward (forward behind p)).status = .parseEnd
    · rw [parseLoop, if_pos hgo, if_neg (not_not.mpr hstatus), if_pos hstatus]
    · rw [parseLoop, if_pos hgo, if_pos hstatus, if_neg hstatus]
  blank := by
    intro h
    cases h with
    | here hp => exact absurd hp hblank
    | later _ hstatus hmeets => exact ⟨hstatus, hmeets⟩

theorem Leads.of_forward {behind : List Byte} {p : RedisParser} {r : Int × RedisParser}
    (hstatus : p.status ≠ .untilCrlf) (hpass : forward behind p = r) (hgo : r.1 = 0 ∨ r.1 = 1) :
    Leads behind p (afterForward r) := by
  subst hpass
  exact .pass (fun h => hstatus h.status) hgo

/-- Passes after passes. -/
theorem Leads.trans {behind : List Byte} {p q r : RedisParser} (hpq : Leads behind p q)
    (hstatus : q.status ≠ .parseEnd) (hqr : Leads behind q r) : Leads behind p r where
  loop := by rw [hpq.loop, if_neg hstatus, hqr.loop]
  blank := fun h => hqr.blank (hpq.blank h).2

theorem getD_of_drop {m rest : List Byte} {i : Nat} {c : Byte} (h : m.drop i = c :: rest) :
    i < m.length ∧ m.getD i 0 = c ∧ m.drop (i + 1) = rest := by
  have hlt : i < m.length := by
    by_contra hge
    rw [List.drop_eq_nil_of_le (by omega)] at h
    simp at h
  rw [List.drop_eq_getElem_cons hlt] at h
  injection h with hhead htail
  exact ⟨hlt, by rw [List.getD_eq_getElem _ _ hlt, hhead], htail⟩

section Passes

variable {behind : List Byte} {p : RedisParser} {rest : List Byte}

/-- The byte that says what comes. -/
theorem leads_cmd {ch : Byte} (hstatus : p.status = .getCmd)
    (hbytes : p.msgbuf.drop p.msgidx = ch :: rest) (hcmd : isCmd ch = true) :
    Leads behind p
      { p with msgidx := p.msgidx + 1, cmd := ch, status := .untilCrlf, scanned := 0 } := by
  obtain ⟨hin, hch, -⟩ := getD_of_drop hbytes
  have hpass : forward behind p =
      (0, { p with msgidx := p.msgidx + 1, cmd := ch, status := .untilCrlf, scanned := 0 }) := by
    rw [forward, if_neg (by omega), hch]
    simp only [hstatus, parseCmd, hcmd, if_true]
  exact .of_forward (by rw [hstatus]; decide) hpass (.inl rfl)

/-- The end of a line, when only its first byte is wanted. -/
theorem leads_cr (hstatus : p.status = .getCr) (hbytes : p.msgbuf.drop p.msgidx = CR :: rest) :
    Leads behind p { p with msgidx := p.msgidx + 1, status := .getLf } := by
  obtain ⟨hin, hch, -⟩ := getD_of_drop hbytes
  have hpass : forward behind p = (0, { p with msgidx := p.msgidx + 1, status := .getLf }) := by
    rw [forward, if_neg (by omega), hch]
    simp only [hstatus, parseCr, ne_eq, not_true_eq_false, if_false]
  exact .of_forward (by rw [hstatus]; decide) hpass (.inl rfl)

/-- The end of a line finishes what stands before it. -/
theorem leads_lf (hstatus : p.status = .getLf) (hbytes : p.msgbuf.drop p.msgidx = LF :: rest) :
    Leads behind p (finishOne { p with msgidx := p.msgidx + 1 }) := by
  obtain ⟨hin, hch, -⟩ := getD_of_drop hbytes
  have hpass : forward behind p = (1, { p with msgidx := p.msgidx + 1 }) := by
    rw [forward, if_neg (by omega), hch]
    simp only [hstatus, parseLf, ne_eq, not_true_eq_false, if_false]
  exact .of_forward (by rw [hstatus]; decide) hpass (.inr rfl)

/-- A text of known length is taken as it is. -/
theorem leads_nchar {strv : List Byte} (hstatus : p.status = .getNchar)
    (hbytes : p.msgbuf.drop p.msgidx = strv ++ rest) (hne : strv ≠ [])
    (hnchar : p.nchar = strv.length) :
    Leads behind p { p.setCur (.setString p.msgidx strv.length) with
      msgidx := p.msgidx + strv.length, status := .getCr } := by
  have hlen : p.msgbuf.length - p.msgidx = strv.length + rest.length := by
    rw [← List.length_drop, hbytes, List.length_append]
  have hpos := List.length_pos_iff.mpr hne
  have hpass : forward behind p = (0, { p.setCur (.setString p.msgidx strv.length) with
      msgidx := p.msgidx + strv.length, status := .getCr }) := by
    rw [forward_nchar (by omega) hstatus, parseNchar, if_pos (by omega), hnchar]
  exact .of_forward (by rw [hstatus]; decide) hpass (.inl rfl)

/-- The end of a line is found behind a text without CR. -/
theorem searchCrlf_text {m text : List Byte} {i : Nat} (htext : ∀ c ∈ text, c ≠ CR)
    (hbytes : m.drop i = text ++ CR :: LF :: rest) : searchCrlf m i = (text.length, true) := by
  induction text generalizing i with
  | nil =>
      obtain ⟨-, hcr, hnext⟩ := getD_of_drop hbytes
      obtain ⟨hin, hlf, -⟩ := getD_of_drop hnext
      rw [searchCrlf, if_pos hin, if_pos ⟨hcr, hlf⟩]
      rfl
  | cons c text ih =>
      obtain ⟨-, hc, hnext⟩ := getD_of_drop hbytes
      have hin : i + 1 < m.length := by
        by_contra hout
        rw [List.drop_eq_nil_of_le (by omega)] at hnext
        simp at hnext
      have hne : c ≠ CR := htext c List.mem_cons_self
      rw [searchCrlf, if_pos hin, if_neg (by rw [hc]; exact fun h => hne h.1),
        ih (fun d hd => htext d (List.mem_cons_of_mem _ hd)) hnext]
      rfl

/-- The line is converted on its own when it is not blank. -/
theorem leads_line {text : List Byte} {r : Int × RedisParser} (hstatus : p.status = .untilCrlf)
    (hscanned : p.scanned = 0) (hbytes : p.msgbuf.drop p.msgidx = text ++ CR :: LF :: rest)
    (htext : ∀ c ∈ text, c ≠ CR)
    (hne : p.cmd = 36 ∨ p.cmd = 42 → ∃ c ∈ text, isSpace c = false)
    (hline : parseLineAs (atoi text) { p with scanned := text.length } = r)
    (hgo : r.1 = 0 ∨ r.1 = 1) : Leads behind p (afterForward r) := by
  have hsearch : p.search = (text.length, true) := by
    rw [RedisParser.search, hscanned]
    exact searchCrlf_text htext hbytes
  have hfound : p.search.2 = true := by rw [hsearch]
  have hin : p.msgidx < p.msgbuf.length := by
    have hend := (searchCrlf_found hfound).1
    omega
  have hlineText : p.line = text := by
    rw [RedisParser.line, hsearch, hscanned, hbytes]
    simp
  have hpass : forward behind p = r := by
    rw [forward_crlf hin hstatus, parseCrlf_found hfound, hscanned, hsearch, Nat.zero_add, ← hline]
    refine parseLineAs_congr fun hcmd => ?_
    rw [atoi_eq_line hfound (by rw [hlineText]; exact hne hcmd), hlineText]
  have hblank : ¬ p.AtBlank := by
    intro h
    obtain ⟨c, hc, hspace⟩ := hne h.cmd
    have hc := h.blank c (by rw [hlineText]; exact hc)
    rw [hspace] at hc
    exact absurd hc (by decide)
  subst hpass
  exact .pass hblank hgo

end Passes

/-! ### Values -/

/-- The parser has the count `nleft` and goes on with the first of these replies, or is at the end. -/
def Next (readList : List (List Nat)) (nleft : Int) (q : RedisParser) : Prop :=
  q.nleft = nleft ∧
    match readList with
    | [] => q.status = .parseEnd
    | next :: rest => q.status = .getCmd ∧ q.cur = next ∧ q.readList = rest

/-- A value of `size` bytes has been read, and `f` has been done to the current reply. -/
structure ReadTo (behind : List Byte) (p q : RedisParser) (size : Nat) (f : Reply → Reply) :
    Prop where
  leads : Leads behind p q
  msgbuf : q.msgbuf = p.msgbuf
  msgidx : q.msgidx = p.msgidx + size
  reply : q.reply = p.reply.update f p.cur
  next : Next p.readList (p.nleft - 1) q

/-- The parser is at the beginning of a value with these replies still to be read. -/
structure Ready (p : RedisParser) : Prop where
  status : p.status = .getCmd
  nleft : p.nleft = p.readList.length + 1
  bound : p.readList.length + 1 < 2 ^ 31

/-- A value that is finished hands over to the next one that is due. -/
theorem finishOne_next {p : RedisParser} (hnleft : p.nleft = p.readList.length + 1)
    (hbound : p.readList.length + 1 < 2 ^ 31) : Next p.readList (p.nleft - 1) (finishOne p) := by
  have hcount : toInt (p.nleft - 1) = p.readList.length := by
    rw [hnleft, Int.add_sub_cancel]
    exact toInt_of_lt (by omega)
  unfold finishOne Next
  dsimp only
  rw [hcount]
  cases hlist : p.readList with
  | nil =>
      rw [if_neg (by simp)]
      exact ⟨by rw [hnleft, hlist]; rfl, rfl⟩
  | cons next rest =>
      rw [if_pos (by simp)]
      exact ⟨by rw [hnleft, hlist, Int.add_sub_cancel], rfl, rfl, rfl⟩

theorem finishOne_reply (p : RedisParser) : (finishOne p).reply = p.reply := by
  unfold finishOne
  dsimp only
  split <;> rfl

/-- What has been done to the current reply when it is finished. -/
theorem readTo_finish {behind : List Byte} {p u : RedisParser} {size : Nat} {f : Reply → Reply}
    (hready : Ready p) (hleads : Leads behind p (finishOne u)) (hmsgbuf : u.msgbuf = p.msgbuf)
    (hmsgidx : u.msgidx = p.msgidx + size) (hreply : u.reply = p.reply.update f p.cur)
    (hnleft : u.nleft = p.nleft) (hlist : u.readList = p.readList) :
    ReadTo behind p (finishOne u) size f where
  leads := hleads
  msgbuf := (finishOne_frame u).1.trans hmsgbuf
  msgidx := (finishOne_frame u).2.1.trans hmsgidx
  reply := (finishOne_reply u).trans hreply
  next := by
    rw [← hlist, ← hnleft]
    exact finishOne_next (by rw [hnleft, hlist]; exact hready.nleft) (by rw [hlist]; exact hready.bound)

section Leaves

variable {behind : List Byte} {p : RedisParser} {rest : List Byte}

/-- The state when the line behind the character `ch` has been found. -/
def atLine (p : RedisParser) (ch : Byte) (slen : Nat) : RedisParser :=
  { p with msgidx := p.msgidx + 1, cmd := ch, status := .untilCrlf, scanned := slen }

/-- The first character and the line. -/
theorem leads_first {ch : Byte} {text : List Byte} {r : Int × RedisParser} (hready : Ready p)
    (hbytes : p.msgbuf.drop p.msgidx = ch :: (text ++ CR :: LF :: rest)) (hcmd : isCmd ch = true)
    (htext : ∀ c ∈ text, c ≠ CR) (hne : ch = 36 ∨ ch = 42 → ∃ c ∈ text, isSpace c = false)
    (hline : parseLineAs (atoi text) (atLine p ch text.length) = r) (hgo : r.1 = 0 ∨ r.1 = 1) :
    Leads behind p (afterForward r) :=
  Leads.trans (leads_cmd hready.status hbytes hcmd) (show Status.untilCrlf ≠ .parseEnd by decide)
    (leads_line rfl rfl (getD_of_drop hbytes).2.2 htext hne hline hgo)

/-- A reply that is finished with its line. -/
theorem readTo_line (ch : Byte) (text : List Byte) {f : Reply → Reply} (hready : Ready p)
    (hbytes : p.msgbuf.drop p.msgidx = [ch] ++ text ++ [CR, LF] ++ rest) (hcmd : isCmd ch = true)
    (htext : ∀ c ∈ text, c ≠ CR) (hne : ch = 36 ∨ ch = 42 → ∃ c ∈ text, isSpace c = false)
    (hline : parseLineAs (atoi text) (atLine p ch text.length) =
      (1, ({ atLine p ch text.length with
        msgidx := p.msgidx + 1 + text.length + 2 } : RedisParser).setCur f)) :
    ∃ q, ReadTo behind p q ([ch] ++ text ++ [CR, LF]).length f := by
  have hbytes : p.msgbuf.drop p.msgidx = ch :: (text ++ CR :: LF :: rest) := by
    rw [hbytes]
    simp
  refine ⟨_, readTo_finish hready (leads_first hready hbytes hcmd htext hne hline (.inr rfl)) rfl
    ?_ rfl rfl rfl⟩
  simp only [RedisParser.setCur, List.length_append, List.length_cons, List.length_nil]
  omega

/-- Both bytes of the end of a line at once. -/
theorem leads_crlf (hstatus : p.status = .getCr)
    (hbytes : p.msgbuf.drop p.msgidx = CR :: LF :: rest) :
    Leads behind p (finishOne { p with msgidx := p.msgidx + 2, status := .getLf }) :=
  Leads.trans (leads_cr hstatus hbytes) (show Status.getLf ≠ .parseEnd by decide)
    (leads_lf rfl (getD_of_drop hbytes).2.2)

/-- What starts at an offset is what is taken there. -/
theorem take_of_starts {a text m : List Byte} {off : Nat} (h : a ++ text <+: m.drop off) :
    (m.drop (off + a.length)).take text.length = text := by
  obtain ⟨t, ht⟩ := h
  rw [← List.drop_drop, ← ht, List.append_assoc, List.drop_left, List.take_left]

theorem prefix_of_line {a text more m : List Byte} (h : a ++ text ++ more <+: m) :
    a ++ text <+: m :=
  (List.prefix_append _ _).trans h

/-- A status line is read back. -/
theorem readTo_status {strv : List Byte} (hready : Ready p) (hv : Encodable (.status strv))
    (hbytes : p.msgbuf.drop p.msgidx = encoding (.status strv) ++ rest) :
    ∃ q, ReadTo behind p q (encoding (.status strv)).length
      (.setStatus (p.msgidx + 1) strv.length) :=
  readTo_line 43 strv hready hbytes (by decide) (fun c hc => (hv c hc).1) (by simp)
    (by simp [parseLineAs, atLine])

/-- So is an error. -/
theorem readTo_error {strv : List Byte} (hready : Ready p) (hv : Encodable (.error strv))
    (hbytes : p.msgbuf.drop p.msgidx = encoding (.error strv) ++ rest) :
    ∃ q, ReadTo behind p q (encoding (.error strv)).length
      (.setError (p.msgidx + 1) strv.length) :=
  readTo_line 45 strv hready hbytes (by decide) (fun c hc => (hv c hc).1) (by simp)
    (by simp [parseLineAs, atLine])

/-- So is nil. -/
theorem readTo_nil (hready : Ready p)
    (hbytes : p.msgbuf.drop p.msgidx = encoding .nil ++ rest) :
    ∃ q, ReadTo behind p q (encoding .nil).length .setNull := by
  have hminus : atoi [45, 49] = -1 := by decide
  have htext : ∀ c ∈ ([45, 49] : List Byte), c ≠ CR := by
    intro c hc
    rcases List.mem_pair.mp hc with rfl | rfl <;> decide
  have hne : ∃ c ∈ ([45, 49] : List Byte), isSpace c = false :=
    ⟨45, List.mem_cons_self, by decide⟩
  exact readTo_line 36 [45, 49] hready hbytes (by decide) htext (fun _ => hne)
    (by simp [parseLineAs, atLine, hminus])

/-- The characters of a decimal number. -/
theorem toDecimal_char {v : Int} {c : Byte} (h : c ∈ toDecimal v) :
    c ≠ CR ∧ isSpace c = false := by
  have hdigit : ∀ c ∈ decimal v.natAbs, c ≠ CR ∧ isSpace c = false := by
    intro c hc
    have hspace := (isDigit_facts (decimal_isDigit _ c hc)).1
    refine ⟨?_, hspace⟩
    rintro rfl
    exact absurd hspace (by decide)
  unfold toDecimal at h
  split at h
  · rcases List.mem_cons.mp h with rfl | hc
    · decide
    · exact hdigit c hc
  · exact hdigit c h

/-- A number of a `long` takes 30 characters at most. -/
theorem toDecimal_length {v : Int} (hlow : longMin ≤ v) (hhigh : v ≤ longMax) :
    0 < (toDecimal v).length ∧ (toDecimal v).length ≤ 30 := by
  have habs : v.natAbs < 10 ^ (19 + 1) := by
    unfold longMin at hlow
    unfold longMax at hhigh
    omega
  have hle := decimal_length_le habs
  have hpos := List.length_pos_iff.mpr (decimal_ne_nil v.natAbs)
  unfold toDecimal
  split
  · rw [List.length_cons]
    omega
  · omega

/-- So is an integer. -/
theorem readTo_int {intv : Int} (hready : Ready p) (hv : Encodable (.int intv))
    (hbytes : p.msgbuf.drop p.msgidx = encoding (.int intv) ++ rest) :
    ∃ q, ReadTo behind p q (encoding (.int intv)).length (.setInteger intv) := by
  obtain ⟨hpos, hle⟩ := toDecimal_length hv.1 hv.2
  have htext : (p.msgbuf.drop (p.msgidx + 1)).take (toDecimal intv).length = toDecimal intv :=
    take_of_starts (a := [58]) (by rw [hbytes, encoding, List.append_assoc]; exact List.prefix_append _ _)
  refine readTo_line 58 (toDecimal intv) hready hbytes (by decide)
    (fun c hc => (toDecimal_char hc).1) (by simp) ?_
  have hvalue : atoll (toDecimal intv) = intv := strtol_toDecimal hv.1 hv.2
  have hlen : ¬ ((toDecimal intv).length = 0 ∨ (toDecimal intv).length > 30) := by omega
  simp only [parseLineAs, atLine, htext, hvalue]
  rw [if_neg (by decide), if_neg (by decide), if_pos trivial, if_neg hlen]

/-- The text of a length is read as the length. -/
theorem atoi_sizeText {n : Nat} (h : n < 2 ^ 63) : atoi (sizeText n) = toInt n := by
  have hsize : Int.bmod n (2 ^ 64) = n := Int.bmod_eq_of_le (by omega) (by omega)
  have hread := strtol_toDecimal (v := n) (by unfold longMin; omega) (by unfold longMax; omega)
  rw [atoi, sizeText, hsize, hread]

/-- A line that is read as the length `n`. -/
structure IsSize (n : Nat) (text : List Byte) : Prop where
  value : atoi text = toInt n
  char : ∀ c ∈ text, c ≠ CR
  not_blank : ∃ c ∈ text, isSpace c = false

theorem sizeText_isSize {n : Nat} (h : n < 2 ^ 63) : IsSize n (sizeText n) where
  value := atoi_sizeText h
  char := fun _ hc => (toDecimal_char hc).1
  not_blank := by
    have hne : sizeText n ≠ [] := by
      unfold sizeText toDecimal
      split
      · exact List.cons_ne_nil _ _
      · exact decimal_ne_nil _
    obtain ⟨c, text, heq⟩ := List.exists_cons_of_ne_nil hne
    have hc : c ∈ sizeText n := by
      rw [heq]
      exact List.mem_cons_self
    exact ⟨c, hc, (toDecimal_char hc).2⟩

/-- The first line of a string or an array. -/
theorem leads_size {ch : Byte} {n : Nat} {text : List Byte} {r : Int × RedisParser}
    (hready : Ready p) (htext : IsSize n text)
    (hbytes : p.msgbuf.drop p.msgidx = ch :: (text ++ CR :: LF :: rest)) (hcmd : isCmd ch = true)
    (hline : parseLineAs (toInt n) (atLine p ch text.length) = r) (hgo : r.1 = 0 ∨ r.1 = 1) :
    Leads behind p (afterForward r) := by
  rw [← htext.value] at hline
  exact leads_first hready hbytes hcmd htext.char (fun _ => htext.not_blank) hline hgo

/-- The bytes behind some of the bytes at the position. -/
theorem drop_of_append {m text more : List Byte} {i : Nat} (h : m.drop i = text ++ more) :
    m.drop (i + text.length) = more := by
  rw [← List.drop_drop, h, List.drop_left]

/-- The bytes behind the first line. -/
theorem drop_line {ch : Byte} {text more : List Byte}
    (h : p.msgbuf.drop p.msgidx = ch :: (text ++ CR :: LF :: more)) :
    p.msgbuf.drop (p.msgidx + 1 + text.length + 2) = more := by
  have hsplit : p.msgbuf.drop p.msgidx = (ch :: (text ++ [CR, LF])) ++ more := by
    rw [h]
    simp
  rw [← drop_of_append hsplit]
  congr 1
  simp only [List.length_cons, List.length_append, List.length_nil]
  omega

/-- So is the empty text. -/
theorem readTo_empty {text : List Byte} (hready : Ready p) (htext : IsSize 0 text)
    (hbytes : p.msgbuf.drop p.msgidx = 36 :: (text ++ CR :: LF :: (CR :: LF :: rest))) :
    ∃ q, ReadTo behind p q (text.length + 5) (.setString (p.msgidx + 1) 0) := by
  set u : RedisParser := { atLine p 36 text.length with
    msgidx := p.msgidx + 1 + text.length + 2
    reply := p.reply.update (.setString (p.msgidx + 1) 0) p.cur
    status := .getCr } with hu
  have hline : parseLineAs (toInt (0 : Nat)) (atLine p 36 text.length) = (0, u) := by
    simp [parseLineAs, atLine, toInt, hu, RedisParser.setCur]
  have hleads : Leads behind p u := leads_size hready htext hbytes (by decide) hline (.inl rfl)
  refine ⟨_, readTo_finish hready (hleads.trans (show Status.getCr ≠ .parseEnd by decide)
    (leads_crlf rfl (drop_line hbytes))) rfl ?_ rfl rfl rfl⟩
  simp only [hu]
  omega

/-- So is a text that is not empty. -/
theorem readTo_string {strv text : List Byte} (hready : Ready p) (hlen : strv.length < 2 ^ 31)
    (hne : strv ≠ []) (htext : IsSize strv.length text)
    (hbytes : p.msgbuf.drop p.msgidx =
      36 :: (text ++ CR :: LF :: (strv ++ CR :: LF :: rest))) :
    ∃ q, ReadTo behind p q (text.length + strv.length + 5)
      (.setString (p.msgidx + 1 + text.length + 2) strv.length) := by
  have hpos := List.length_pos_iff.mpr hne
  set u : RedisParser := { atLine p 36 text.length with
    msgidx := p.msgidx + 1 + text.length + 2
    nchar := strv.length
    status := .getNchar } with hu
  set w : RedisParser := { u.setCur (.setString (p.msgidx + 1 + text.length + 2) strv.length) with
    msgidx := p.msgidx + 1 + text.length + 2 + strv.length
    status := .getCr } with hw
  have hline : parseLineAs (toInt strv.length) (atLine p 36 text.length) = (0, u) := by
    have hneg : ¬ (strv.length : Int) < 0 := by omega
    have hzero : ¬ (strv.length : Int) = 0 := by omega
    rw [toInt_of_lt hlen]
    simp only [parseLineAs, atLine, hneg, hzero, if_false, Int.toNat_natCast]
    rw [if_neg (by decide), if_neg (by decide), if_neg (by decide), if_pos trivial, hu]
    simp only [atLine]
  have hdata := drop_line hbytes
  have hleads : Leads behind p u := leads_size hready htext hbytes (by decide) hline (.inl rfl)
  have hchars : Leads behind u w := leads_nchar rfl hdata hne rfl
  refine ⟨_, readTo_finish hready ((hleads.trans (show Status.getNchar ≠ .parseEnd by decide)
    hchars).trans (show Status.getCr ≠ .parseEnd by decide)
    (leads_crlf rfl (drop_of_append hdata))) rfl ?_ rfl rfl rfl⟩
  simp only [hw]
  omega

end Leaves

/-! ### Arrays -/

namespace Reply

/-- An array with these elements. -/
def arrayOf (es : List Reply) (r : Reply) : Reply :=
  { r with type := .array, element := es }

/-- Two changes of one reply are one. -/
theorem update_update (f g : Reply → Reply) (path : List Nat) (r : Reply) :
    update f path (update g path r) = update (fun x => f (g x)) path r := by
  induction path generalizing r with
  | nil => rfl
  | cons i path ih =>
      simp only [update, List.modify_modify_eq]
      congr 2
      funext x
      exact ih x

/-- A change of an element is a change of its array. -/
theorem update_concat (f : Reply → Reply) (path : List Nat) (i : Nat) (r : Reply) :
    update f (path ++ [i]) r =
      update (fun x => { x with element := x.element.modify i f }) path r := by
  induction path generalizing r with
  | nil => rfl
  | cons j path ih =>
      simp only [List.cons_append, update]
      congr 2
      funext x
      exact ih x

/-- Writing to the first element that has not been read. -/
theorem update_next (f : Reply → Reply) (path : List Nat) (done : List Reply) (e : Reply)
    (es : List Reply) (r : Reply) :
    update f (path ++ [done.length]) (update (arrayOf (done ++ e :: es)) path r) =
      update (arrayOf (done ++ f e :: es)) path r := by
  rw [update_concat, update_update]
  congr 1
  funext x
  simp [arrayOf, List.modify_eq_take_drop]

end Reply

/-- Elements of an array, from number `i` on. -/
def children (path : List Nat) (i n : Nat) : List (List Nat) :=
  (List.range n).map fun j => path ++ [i + j]

theorem children_succ (path : List Nat) (i n : Nat) :
    children path i (n + 1) = (path ++ [i]) :: children path (i + 1) n := by
  unfold children
  rw [List.range_succ_eq_map, List.map_cons, List.map_map]
  congr 1
  refine List.map_congr_left fun j _ => ?_
  simp only [Function.comp_apply, Nat.succ_eq_add_one]
  congr 2
  omega

section Arrays

variable {behind : List Byte} {p : RedisParser} {rest text : List Byte}

/-- So is the empty array. -/
theorem readTo_emptyArray (hready : Ready p) (htext : IsSize 0 text)
    (hbytes : p.msgbuf.drop p.msgidx = 42 :: (text ++ CR :: LF :: rest)) :
    ∃ q, ReadTo behind p q (text.length + 3) (.arrayOf []) := by
  set u : RedisParser := { atLine p 42 text.length with
    msgidx := p.msgidx + 1 + text.length + 2
    reply := p.reply.update (.arrayOf []) p.cur } with hu
  have hnleft : toInt p.nleft = p.nleft := by
    rw [hready.nleft]
    exact toInt_of_lt (n := p.readList.length + 1) hready.bound
  have hline : parseLineAs (toInt (0 : Nat)) (atLine p 42 text.length) = (1, u) := by
    have hzero : toInt ((0 : Nat) : Int) = 0 := by decide
    rw [hzero]
    simp only [parseLineAs, atLine, RedisParser.setCur, Int.add_zero, hnleft, Int.toNat_zero]
    rw [if_neg (by decide), if_neg (by decide), if_neg (by decide), if_neg (by decide),
      if_pos trivial, if_neg (by decide), if_pos trivial, hu]
    rfl
  refine ⟨_, readTo_finish hready (leads_size hready htext hbytes (by decide) hline (.inr rfl)) rfl
    ?_ rfl rfl rfl⟩
  simp only [hu]
  omega

/-- The parser at the first element of an array. -/
def atFirst (p : RedisParser) (n slen : Nat) : RedisParser :=
  { atLine p 42 slen with
    msgidx := p.msgidx + 1 + slen + 2
    reply := p.reply.update (.arrayOf (List.replicate n replyInit)) p.cur
    nleft := p.nleft - 1 + n
    readList := children p.cur 1 (n - 1) ++ p.readList
    cur := p.cur ++ [0]
    status := .getCmd }

/-- The head of an array leads to its first element. -/
theorem leads_array {n : Nat} (hready : Ready p) (hpos : 0 < n)
    (hfits : p.readList.length + 1 + n < 2 ^ 31) (htext : IsSize n text)
    (hbytes : p.msgbuf.drop p.msgidx = 42 :: (text ++ CR :: LF :: rest)) :
    Leads behind p (atFirst p n text.length) := by
  have hline : parseLineAs (toInt n) (atLine p 42 text.length) =
      (0, atFirst p n text.length) := by
    have hsum : toInt (p.nleft + n) = p.nleft + n := by
      rw [hready.nleft]
      exact toInt_of_lt (n := p.readList.length + 1 + n) hfits
    have hsub : toInt (p.nleft + n - 1) = p.nleft - 1 + n := by
      rw [hready.nleft, show ((p.readList.length : Int) + 1 + n - 1) =
        ((p.readList.length + n : Nat) : Int) by omega, toInt_of_lt (by omega)]
      omega
    have hneg : ¬ (n : Int) < 0 := by omega
    have hzero : ¬ (n : Int) = 0 := by omega
    have hchildren : (List.range (n - 1)).map (fun i => p.cur ++ [i + 1]) =
        children p.cur 1 (n - 1) :=
      List.map_congr_left fun j _ => by rw [Nat.add_comm]
    rw [toInt_of_lt (by omega)]
    simp only [parseLineAs, atLine, RedisParser.setCur, enterArray, hneg, hzero, if_false,
      Int.toNat_natCast, hsum, hsub, hchildren]
    rw [if_neg (by decide), if_neg (by decide), if_neg (by decide), if_neg (by decide),
      if_pos trivial]
    rfl
  exact leads_size hready htext hbytes (by decide) hline (.inl rfl)

/-- The parser is ready for the first element. -/
theorem ready_atFirst {n : Nat} (hready : Ready p) (hpos : 0 < n)
    (hfits : p.readList.length + 1 + n < 2 ^ 31) (slen : Nat) :
    Ready (atFirst p n slen) ∧ (atFirst p n slen).readList.length + 1 = p.readList.length + n := by
  have hlen : (atFirst p n slen).readList.length + 1 = p.readList.length + n := by
    simp only [atFirst, children, List.length_append, List.length_map, List.length_range]
    omega
  refine ⟨⟨rfl, ?_, by omega⟩, hlen⟩
  have hcount : (atFirst p n slen).nleft = p.nleft - 1 + n := rfl
  rw [hcount, hready.nleft]
  omega

end Arrays

/-! ### Trees -/

/-- The elements of an array have been read, and the array in `reply` at `path` now holds `es`. -/
structure ReadAll (behind : List Byte) (p q : RedisParser) (size : Nat) (reply : Reply) : Prop where
  leads : Leads behind p q
  msgbuf : q.msgbuf = p.msgbuf
  msgidx : q.msgidx = p.msgidx + size
  reply : q.reply = reply

/-- The parser at the first of some elements of an array: `done` are the elements that have been read,
and `after` the replies that come behind the array. -/
structure AtElement (p : RedisParser) (path : List Nat) (done : List Reply) (n : Nat)
    (after : List (List Nat)) (reply : Reply) : Prop where
  ready : Ready p
  cur : p.cur = path ++ [done.length]
  readList : p.readList = children path (done.length + 1) (n - 1) ++ after
  reply : p.reply = reply.update (.arrayOf (done ++ List.replicate n replyInit)) path

section Values

variable {behind : List Byte} {p q : RedisParser} {rest : List Byte}

/-- So is any text. -/
theorem readTo_stringValue {strv text : List Byte} (hready : Ready p) (hlen : strv.length < 2 ^ 31)
    (hsize : IsSize strv.length text)
    (hbytes : p.msgbuf.drop p.msgidx = [36] ++ text ++ [CR, LF] ++ strv ++ [CR, LF] ++ rest) :
    ∃ q f, ReadTo behind p q ([36] ++ text ++ [CR, LF] ++ strv ++ [CR, LF]).length f ∧
      ∀ m x, [36] ++ text ++ [CR, LF] ++ strv ++ [CR, LF] <+: m.drop p.msgidx →
        RedisValue.set m (f x) = .string strv := by
  have hline : p.msgbuf.drop p.msgidx = 36 :: (text ++ CR :: LF :: (strv ++ CR :: LF :: rest)) := by
    rw [hbytes]
    simp
  have hlength : ([36] ++ text ++ [CR, LF] ++ strv ++ [CR, LF]).length =
      text.length + strv.length + 5 := by
    simp only [List.length_append, List.length_cons, List.length_nil]
    omega
  rw [hlength]
  by_cases hne : strv = []
  · subst hne
    obtain ⟨q, hq⟩ := readTo_empty hready hsize hline
    exact ⟨q, _, hq, fun _ _ _ => rfl⟩
  · obtain ⟨q, hq⟩ := readTo_string hready hlen hne hsize hline
    refine ⟨q, _, hq, fun m x hm => congrArg RedisValue.string ?_⟩
    have htake := take_of_starts (a := [36] ++ text ++ [CR, LF]) (prefix_of_line hm)
    rw [← htake]
    congr 2
    simp only [List.length_append, List.length_cons, List.length_nil]
    omega

theorem array_line {text more : List Byte}
    (hbytes : p.msgbuf.drop p.msgidx = [42] ++ text ++ [CR, LF] ++ more ++ rest) :
    p.msgbuf.drop p.msgidx = 42 :: (text ++ CR :: LF :: (more ++ rest)) := by
  rw [hbytes]
  simp

theorem readTo_emptyArrayValue {text : List Byte} (hready : Ready p) (hsize : IsSize 0 text)
    (hbytes : p.msgbuf.drop p.msgidx = [42] ++ text ++ [CR, LF] ++ [] ++ rest) :
    ∃ q, ReadTo behind p q ([42] ++ text ++ [CR, LF] ++ []).length (.arrayOf []) := by
  have hlength : ([42] ++ text ++ [CR, LF] ++ []).length = text.length + 3 := by
    simp only [List.length_append, List.length_cons, List.length_nil]
    omega
  rw [hlength]
  exact readTo_emptyArray hready hsize (array_line hbytes)

theorem prefix_of_append {a b m : List Byte} {off i : Nat} (h : a ++ b <+: m.drop off)
    (hi : i = off + a.length) : b <+: m.drop i := by
  obtain ⟨t, ht⟩ := h
  rw [List.append_assoc] at ht
  exact ⟨t, by rw [hi, drop_of_append ht.symm]⟩

theorem prefix_of_array {text more m : List Byte} {off : Nat}
    (h : [42] ++ text ++ [CR, LF] ++ more <+: m.drop off) :
    more <+: m.drop (off + 1 + text.length + 2) := by
  refine prefix_of_append h ?_
  simp only [List.length_append, List.length_cons, List.length_nil]
  omega

/-- The array line and then the elements. -/
theorem readTo_array {n : Nat} {text more : List Byte} {es : List Reply} (hready : Ready p)
    (hpos : 0 < n) (hfits : p.readList.length + 1 + n < 2 ^ 31) (htext : IsSize n text)
    (hbytes : p.msgbuf.drop p.msgidx = [42] ++ text ++ [CR, LF] ++ more ++ rest)
    (hread : ReadAll behind (atFirst p n text.length) q more.length
      (p.reply.update (.arrayOf ([] ++ es)) p.cur))
    (hnext : Next p.readList ((atFirst p n text.length).nleft - n) q) :
    ReadTo behind p q ([42] ++ text ++ [CR, LF] ++ more).length (.arrayOf es) where
  leads := (leads_array hready hpos hfits htext (array_line hbytes)).trans
    (show Status.getCmd ≠ .parseEnd by decide) hread.leads
  msgbuf := hread.msgbuf
  msgidx := by
    have hidx : (atFirst p n text.length).msgidx = p.msgidx + 1 + text.length + 2 := rfl
    rw [hread.msgidx, hidx]
    simp only [List.length_append, List.length_cons, List.length_nil]
    omega
  reply := hread.reply
  next := by
    have hcount : (atFirst p n text.length).nleft - n = p.nleft - 1 := by
      have hdef : (atFirst p n text.length).nleft = p.nleft - 1 + n := rfl
      rw [hdef]
      omega
    rw [← hcount]
    exact hnext

variable {path : List Nat} {done : List Reply} {after : List (List Nat)} {reply : Reply} {n size : Nat}
  {f : Reply → Reply}

/-- An element that has been read stands behind those before it. -/
theorem atElement_reply (hat : AtElement p path done (n + 1) after reply)
    (hread : ReadTo behind p q size f) :
    q.reply =
      reply.update (.arrayOf ((done ++ [f replyInit]) ++ List.replicate n replyInit)) path := by
  rw [hread.reply, hat.reply, hat.cur, List.replicate_succ, Reply.update_next, List.append_assoc]
  rfl

/-- With one element read, the parser is at the next one. -/
theorem atElement_next (hat : AtElement p path done (n + 1 + 1) after reply)
    (hread : ReadTo behind p q size f) :
    AtElement q path (done ++ [f replyInit]) (n + 1) after reply ∧
      q.readList.length + 1 = p.readList.length := by
  have hlist : p.readList = (path ++ [done.length + 1]) ::
      (children path (done.length + 1 + 1) n ++ after) := by
    rw [hat.readList, Nat.add_sub_cancel, children_succ, List.cons_append]
  have hnext := hread.next
  rw [hlist] at hnext
  obtain ⟨hnleft, hstatus, hcur, hrest⟩ := hnext
  have hlen : q.readList.length + 1 = p.readList.length := by
    rw [hlist, hrest, List.length_cons]
  have hready := hat.ready
  refine ⟨⟨⟨hstatus, ?_, ?_⟩, ?_, ?_, atElement_reply hat hread⟩, hlen⟩
  · rw [hnleft, hready.nleft]
    omega
  · have hbound := hready.bound
    omega
  · rw [hcur, List.length_append]
    rfl
  · rw [hrest, List.length_append]
    rfl

end Values

mutual

/-- A value at the position of the parser is read, with all its elements. -/
theorem readTo_value (behind : List Byte) : ∀ (v : RedisValue) (p : RedisParser) (rest : List Byte),
    Ready p → Encodable v → Fits (p.readList.length + 1) v →
      p.msgbuf.drop p.msgidx = encoding v ++ rest →
        ∃ q f, ReadTo behind p q (encoding v).length f ∧
          ∀ m x, encoding v <+: m.drop p.msgidx → RedisValue.set m (f x) = v
  | .nil, p, rest, hready, _, _, hbytes => by
      obtain ⟨q, hq⟩ := readTo_nil hready hbytes
      exact ⟨q, _, hq, fun _ _ _ => rfl⟩
  | .int intv, p, rest, hready, hv, _, hbytes => by
      obtain ⟨q, hq⟩ := readTo_int hready hv hbytes
      exact ⟨q, _, hq, fun _ _ _ => rfl⟩
  | .status strv, p, rest, hready, hv, _, hbytes => by
      obtain ⟨q, hq⟩ := readTo_status hready hv hbytes
      refine ⟨q, _, hq, fun m x hm => ?_⟩
      exact congrArg RedisValue.status (take_of_starts (a := [43]) (prefix_of_line hm))
  | .error strv, p, rest, hready, hv, _, hbytes => by
      obtain ⟨q, hq⟩ := readTo_error hready hv hbytes
      refine ⟨q, _, hq, fun m x hm => ?_⟩
      exact congrArg RedisValue.error (take_of_starts (a := [45]) (prefix_of_line hm))
  | .string strv, p, rest, hready, hv, _, hbytes => by
      have hlen : strv.length < 2 ^ 31 := hv
      simp only [encoding] at hbytes ⊢
      exact readTo_stringValue hready hlen (sizeText_isSize (by omega)) hbytes
  | .array [], p, rest, hready, _, _, hbytes => by
      simp only [encoding, encodingAll, List.length_nil] at hbytes ⊢
      obtain ⟨q, hq⟩ := readTo_emptyArrayValue hready (sizeText_isSize (by decide)) hbytes
      exact ⟨q, _, hq, fun _ _ _ => rfl⟩
  | .array (v :: values), p, rest, hready, hv, hfits, hbytes => by
      have hpos : 0 < (v :: values).length := Nat.zero_lt_succ _
      obtain ⟨hcount, hall⟩ := hfits
      have hsize := sizeText_isSize (n := (v :: values).length) (by omega)
      rw [encoding] at hbytes ⊢
      generalize sizeText (v :: values).length = text at hbytes hsize ⊢
      obtain ⟨hfirst, hlen⟩ := ready_atFirst hready hpos hcount text.length
      obtain ⟨q, es, hread, hnext, hset⟩ := readTo_values behind (v :: values) _ rest p.cur []
        p.readList p.reply (List.cons_ne_nil _ _) ⟨hfirst, rfl, rfl, rfl⟩ hv
        (by rw [hlen]; exact hall) (drop_line (array_line hbytes))
      refine ⟨q, .arrayOf es, readTo_array hready hpos hcount hsize hbytes hread hnext, ?_⟩
      intro m x hm
      exact congrArg RedisValue.array (hset m (prefix_of_array hm))

/-- So are the elements of an array, in their places. -/
theorem readTo_values (behind : List Byte) :
    ∀ (values : List RedisValue) (p : RedisParser) (rest : List Byte) (path : List Nat)
      (done : List Reply) (after : List (List Nat)) (reply : Reply), values ≠ [] →
      AtElement p path done values.length after reply → EncodableAll values →
      FitsAll (p.readList.length + 1) values →
      p.msgbuf.drop p.msgidx = encodingAll values ++ rest →
        ∃ q es, ReadAll behind p q (encodingAll values).length
            (reply.update (.arrayOf (done ++ es)) path) ∧
          Next after (p.nleft - values.length) q ∧
          ∀ m, encodingAll values <+: m.drop p.msgidx → RedisValue.setAll m es = values
  | [], _, _, _, _, _, _, hne, _, _, _, _ => absurd rfl hne
  | v :: values, p, rest, path, done, after, reply, _, hat, hv, hfits, hbytes => by
      rw [encodingAll, List.append_assoc] at hbytes
      obtain ⟨q, f, hread, hset⟩ := readTo_value behind v p _ hat.ready hv.1 hfits.1 hbytes
      by_cases hlast : values = []
      · subst hlast
        refine ⟨q, [f replyInit], ⟨hread.leads, hread.msgbuf, ?_, ?_⟩, ?_, ?_⟩
        · rw [hread.msgidx, encodingAll, encodingAll, List.append_nil]
        · rw [atElement_reply hat hread, List.length_nil, List.replicate_zero, List.append_nil]
        · have hafter : p.readList = after := hat.readList
          rw [← hafter]
          exact hread.next
        · intro m hm
          rw [encodingAll, encodingAll, List.append_nil] at hm
          rw [RedisValue.setAll, RedisValue.setAll, hset m replyInit hm]
      · obtain ⟨n, hn⟩ : ∃ n, values.length = n + 1 :=
          Nat.exists_eq_succ_of_ne_zero fun h => hlast (List.eq_nil_of_length_eq_zero h)
        rw [List.length_cons, hn] at hat
        obtain ⟨hat', hlen⟩ := atElement_next hat hread
        rw [← hn] at hat'
        have hmore : q.msgbuf.drop q.msgidx = encodingAll values ++ rest := by
          rw [hread.msgbuf, hread.msgidx]
          exact drop_of_append hbytes
        obtain ⟨r, es, hrest, hnext, hsetAll⟩ := readTo_values behind values q rest path _ after
          reply hlast hat' hv.2 (by rw [hlen]; exact hfits.2) hmore
        refine ⟨r, f replyInit :: es, ⟨?_, hrest.msgbuf.trans hread.msgbuf, ?_, ?_⟩, ?_, ?_⟩
        · exact hread.leads.trans (by rw [hat'.ready.status]; decide) hrest.leads
        · rw [hrest.msgidx, hread.msgidx, encodingAll, List.length_append, Nat.add_assoc]
        · rw [hrest.reply, List.append_assoc]
          rfl
        · have hcount : q.nleft - values.length = p.nleft - (v :: values).length := by
            rw [hread.next.1, List.length_cons]
            omega
          rw [← hcount]
          exact hnext
        · intro m hm
          rw [encodingAll] at hm
          have hhead := hset m replyInit ((List.prefix_append _ _).trans hm)
          have htail := hsetAll m (prefix_of_append hm hread.msgidx)
          rw [RedisValue.setAll, hhead, htail]

end

/-! ### Messages in pieces -/

/-- The cursor stays inside the buffer. -/
theorem forward_msgidx_le (behind : List Byte) {p : RedisParser} (h : p.msgidx ≤ p.msgbuf.length) :
    (forward behind p).2.msgidx ≤ p.msgbuf.length := by
  rcases Nat.lt_or_ge p.msgidx p.msgbuf.length with hin | hout
  · cases hstatus : p.status with
    | getCmd =>
        rw [forward, if_neg (by omega), hstatus]
        simp only [parseCmd]
        split <;> exact hin
    | getCr =>
        rw [forward, if_neg (by omega), hstatus]
        simp only [parseCr]
        split <;> exact hin
    | getLf =>
        rw [forward, if_neg (by omega), hstatus]
        simp only [parseLf]
        split <;> exact hin
    | untilCrlf =>
        rw [forward_crlf hin hstatus]
        cases hfound : p.search.2 with
        | true =>
            rw [parseCrlf_found hfound, parseLineAs_msgidx]
            have hend := (searchCrlf_found hfound).1
            change p.msgidx + p.scanned + p.search.1 + 1 < p.msgbuf.length at hend
            simp only
            omega
        | false =>
            rw [parseCrlf_wait hfound]
            exact h
    | getNchar =>
        rw [forward_nchar hin hstatus, parseNchar]
        split
        · simp only
          omega
        · exact h
    | parseEnd =>
        rw [forward, if_neg (by omega), hstatus]
        exact h
  · rw [forward_out hout]
    exact h

/-- So it does over the whole loop. -/
theorem parseLoop_msgidx_le (behind : List Byte) (p : RedisParser)
    (h : p.msgidx ≤ p.msgbuf.length) : (parseLoop behind p).2.msgidx ≤ p.msgbuf.length := by
  have hpass := forward_msgidx_le behind h
  have hbuf := (forward_moves behind p).1
  induction p using parseLoop.induct behind with
  | case1 p hgo hstatus ih =>
      have hafter : (afterForward (forward behind p)).msgbuf = p.msgbuf := by
        rw [afterForward_msgbuf, hbuf]
      have hle : (afterForward (forward behind p)).msgidx ≤
          (afterForward (forward behind p)).msgbuf.length := by
        rw [afterForward_msgidx, hafter]
        exact hpass
      rw [parseLoop_next hgo hstatus, ← hafter]
      exact ih hle (forward_msgidx_le behind hle) (forward_moves behind _).1
  | case2 p hgo hstatus =>
      rw [parseLoop, if_pos hgo, if_neg hstatus, afterForward_msgidx]
      exact hpass
  | case3 p hgo htwo =>
      rw [parseLoop, if_neg hgo, if_pos htwo]
      exact hpass
  | case4 p hgo htwo =>
      rw [parseLoop, if_neg hgo, if_neg htwo]
      exact hpass

/-- The message holds the bytes of the calls that were made, and the position is inside. -/
theorem appendAll_buffer (behind : Nat → List Byte) (chunks : List (List Byte)) (p : RedisParser)
    (h : p.msgidx ≤ p.msgbuf.length) :
    (appendAll behind chunks p).2.2.msgidx ≤ (appendAll behind chunks p).2.2.msgbuf.length ∧
      (appendAll behind chunks p).2.2.msgbuf <+: p.msgbuf ++ chunks.flatten := by
  induction chunks generalizing p with
  | nil => exact ⟨h, by rw [List.flatten_nil, List.append_nil]; exact List.prefix_refl _⟩
  | cons chunk chunks ih =>
      rw [List.flatten_cons, ← List.append_assoc]
      by_cases hstatus : p.status = .parseEnd
      · have hcall : redisParserAppendMessage (behind chunks.length) chunk p = (1, 0, p) := by
          rw [redisParserAppendMessage, if_pos hstatus]
        rw [appendAll_stop hcall Int.one_ne_zero, List.append_assoc]
        exact ⟨h, List.prefix_append _ _⟩
      · obtain ⟨size, hcall⟩ := append_report (behind chunks.length) chunk hstatus
        have hle := parseLoop_msgidx_le (behind chunks.length) (p.ext chunk size)
          (by simp only [RedisParser.ext, List.length_append]; omega)
        have hbuf := parseLoop_msgbuf (behind chunks.length) (p.ext chunk size)
        rw [← hbuf] at hle
        have hbuf : (parseLoop (behind chunks.length) (p.ext chunk size)).2.msgbuf =
            p.msgbuf ++ chunk := hbuf
        by_cases hcode : (parseLoop (behind chunks.length) (p.ext chunk size)).1 = 0
        · rw [appendAll_wait hcall hcode, ← hbuf]
          exact ih _ hle
        · rw [appendAll_stop hcall hcode, ← hbuf]
          exact ⟨hle, List.prefix_append _ _⟩

/-! ### Round trip -/

theorem encoding_ne_nil (v : RedisValue) : encoding v ≠ [] := by
  have hcons : ∀ (c : Byte) (a : List Byte), [c] ++ a ≠ [] := fun c a => List.cons_ne_nil c a
  cases v <;> rw [encoding]
  case nil => exact List.cons_ne_nil _ _
  all_goals
    simp only [List.append_assoc]
    exact hcons _ _

/-- The loop on a whole message. -/
theorem parseLoop_encoding {v : RedisValue} (hv : Encodable v) (hfits : Fits 1 v)
    (trailing behind : List Byte) :
    ∃ (q : RedisParser) (f : Reply → Reply),
      parseLoop behind (redisParserInit.ext (encoding v ++ trailing) 0) = (1, q) ∧
      ¬ MeetsBlank behind (redisParserInit.ext (encoding v ++ trailing) 0) ∧
      q.msgidx = (encoding v).length ∧ q.reply = f replyInit ∧
      ∀ m x, encoding v <+: m → RedisValue.set m (f x) = v := by
  obtain ⟨q, f, hread, hset⟩ := readTo_value behind v
    (redisParserInit.ext (encoding v ++ trailing) 0) trailing
    ⟨rfl, rfl, (by decide : 0 + 1 < 2 ^ 31)⟩ hv hfits rfl
  have hend : q.status = .parseEnd := hread.next.2
  refine ⟨q, f, ?_, ?_, ?_, hread.reply, hset⟩
  · rw [hread.leads.loop, if_pos hend]
  · exact fun h => (hread.leads.blank h).1 hend
  · rw [hread.msgidx]
    exact Nat.zero_add _

/-- A value that is encoded, followed by any bytes and cut in any way, is read back, and exactly its
bytes are taken, as long as the number of values announced and not yet read stays an `int`. -/
theorem round_trip (v : RedisValue) (hv : Encodable v) (hfits : Fits 1 v) (trailing : List Byte)
    (hlen : (encode v ++ trailing).length < 2 ^ 64) (behind : Nat → List Byte)
    (chunks : List (List Byte)) (hcut : chunks.flatten = encode v ++ trailing) :
    (appendAll behind chunks redisParserInit).1 = 1 ∧
      (appendAll behind chunks redisParserInit).2.1 = (encode v).length ∧
      RedisValue.set (appendAll behind chunks redisParserInit).2.2.msgbuf
        (appendAll behind chunks redisParserInit).2.2.reply = v := by
  rw [encode_eq] at hlen hcut ⊢
  obtain ⟨q, f, hloop, hblank, hidx, hreply, hset⟩ := parseLoop_encoding hv hfits trailing []
  have hbuffer := appendAll_buffer behind chunks redisParserInit (Nat.zero_le _)
  cases chunks with
  | nil =>
      rw [List.flatten_nil] at hcut
      exact absurd (List.append_eq_nil_iff.mp hcut.symm).1 (encoding_ne_nil v)
  | cons chunk chunks =>
      rw [← hcut] at hloop hblank hlen
      obtain ⟨hcode, hmsgidx, hsame, hsize⟩ := appendAll_report behind chunks chunk redisParserInit
        (by decide) hblank (by simpa [redisParserInit] using hlen) []
      rw [hloop] at hcode hmsgidx hsame hsize
      generalize appendAll behind (chunk :: chunks) redisParserInit = r at *
      have hcode : r.1 = 1 := hcode
      refine ⟨hcode, ?_, ?_⟩
      · have hreport : (report redisParserInit (chunk :: chunks).flatten (1, q)).2.1 =
            subSize q.msgidx 0 := by
          have hnone : redisParserInit.msgbuf.length = 0 := rfl
          simp only [report, if_true, hnone]
        have hsub : subSize q.msgidx 0 = q.msgidx := by
          refine subSize_of_le (Nat.zero_le _) ?_
          rw [hcut, List.length_append] at hlen
          omega
        have hnonneg : 0 ≤ r.1 := by omega
        exact (hsize hnonneg).trans (hreport.trans (hsub.trans hidx))
      · have hstarts : encoding v <+: r.2.2.msgbuf := by
          have hwhole : r.2.2.msgbuf <+: encoding v ++ trailing := hcut ▸ hbuffer.2
          refine List.prefix_of_prefix_length_le (List.prefix_append _ _) hwhole ?_
          rw [← hidx, ← (show r.2.2.msgidx = q.msgidx from hmsgidx)]
          exact hbuffer.1
        rw [show r.2.2.reply = f replyInit from hsame.trans hreply]
        exact hset _ _ hstarts

/-- An array of 5 and nil, with a byte of the next message behind it, arrives in two pieces. -/
theorem pair_round_trip :
    (appendAll (fun _ => []) [[42, 50, 13], [10, 58, 53, 13, 10, 36, 45, 49, 13, 10, 43]]
        redisParserInit).1 = 1 ∧
      (appendAll (fun _ => []) [[42, 50, 13], [10, 58, 53, 13, 10, 36, 45, 49, 13, 10, 43]]
        redisParserInit).2.1 = (encode (.array [.int 5, .nil])).length ∧
      RedisValue.set
        (appendAll (fun _ => []) [[42, 50, 13], [10, 58, 53, 13, 10, 36, 45, 49, 13, 10, 43]]
          redisParserInit).2.2.msgbuf
        (appendAll (fun _ => []) [[42, 50, 13], [10, 58, 53, 13, 10, 36, 45, 49, 13, 10, 43]]
          redisParserInit).2.2.reply = .array [.int 5, .nil] :=
  round_trip (.array [.int 5, .nil])
    ⟨⟨by decide, by decide⟩, trivial, trivial⟩
    ⟨by decide, trivial, trivial, trivial⟩ [43] (by decide +kernel) (fun _ => []) _
    (by decide +kernel)

/-! ### Arrays that are too long -/

/-- An array whose length is negative as an `int` is read as nil, and its elements are not read. -/
theorem readTo_negative {behind text rest : List Byte} {p : RedisParser} {n : Nat} (hready : Ready p)
    (htext : IsSize n text) (hneg : toInt n < 0)
    (hbytes : p.msgbuf.drop p.msgidx = [42] ++ text ++ [CR, LF] ++ rest) :
    ∃ q, ReadTo behind p q ([42] ++ text ++ [CR, LF]).length .setNull := by
  refine readTo_line 42 text hready hbytes (by decide) htext.char (fun _ => htext.not_blank) ?_
  rw [htext.value]
  simp only [parseLineAs, atLine, hneg, if_true]
  rw [if_neg (by decide), if_neg (by decide), if_neg (by decide), if_neg (by decide)]

theorem encodableAll_replicate (n : Nat) : EncodableAll (List.replicate n .nil) := by
  induction n with
  | zero => trivial
  | succ n ih => exact ⟨trivial, ih⟩

theorem encodingAll_replicate_length (n : Nat) :
    (encodingAll (List.replicate n .nil)).length = 5 * n := by
  induction n with
  | zero => rfl
  | succ n ih =>
      rw [List.replicate_succ, encodingAll, List.length_append, ih, encoding]
      simp only [List.length_cons, List.length_nil]
      omega

theorem array_encode_length {n : Nat} (hn : n < 2 ^ 59) :
    (encode (.array (List.replicate n .nil))).length < 2 ^ 64 := by
  have hsize : (sizeText n).length ≤ 30 := by
    have hbmod : Int.bmod n (2 ^ 64) = n := Int.bmod_eq_of_le (by omega) (by omega)
    rw [sizeText, hbmod]
    exact (toDecimal_length (by unfold longMin; omega) (by unfold longMax; omega)).2
  rw [encode_eq, encoding, List.length_replicate]
  generalize sizeText n = text at hsize
  simp only [List.length_append, List.length_cons, List.length_nil, encodingAll_replicate_length]
  omega

/-- An array of nils whose length is negative as an `int` does not come back. -/
theorem long_array_lost {n : Nat} (hn : n < 2 ^ 59) (hneg : toInt n < 0) :
    RedisValue.set
      (appendAll (fun _ => []) [encode (.array (List.replicate n .nil))] redisParserInit).2.2.msgbuf
      (appendAll (fun _ => []) [encode (.array (List.replicate n .nil))] redisParserInit).2.2.reply =
        .nil := by
  generalize hbytes : encode (.array (List.replicate n .nil)) = bytes
  obtain ⟨size, hcall⟩ := append_report ((fun _ => []) 0) bytes
    (p := redisParserInit) (show Status.getCmd ≠ .parseEnd by decide)
  have hdrop : (redisParserInit.ext bytes size).msgbuf.drop 0 =
      [42] ++ sizeText n ++ [CR, LF] ++ encodingAll (List.replicate n .nil) := by
    rw [← hbytes, encode_eq, encoding, List.length_replicate]
    rfl
  have hready : Ready (redisParserInit.ext bytes size) :=
    ⟨rfl, rfl, (by decide : 0 + 1 < 2 ^ 31)⟩
  obtain ⟨q, hq⟩ : ∃ q, ReadTo [] _ q _ _ :=
    readTo_negative hready (sizeText_isSize (by omega)) hneg hdrop
  have hend : q.status = .parseEnd := hq.next.2
  have hloop : parseLoop [] (redisParserInit.ext bytes size) = (1, q) := by
    rw [hq.leads.loop, if_pos hend]
  rw [hloop] at hcall
  rw [appendAll_stop hcall Int.one_ne_zero]
  rw [show (report redisParserInit bytes (1, q)).2.2 = q from rfl, hq.reply]
  rfl

/-- What is said of every value that can be encoded, at an array of nils. -/
theorem array_not_back {n : Nat} (hn : n < 2 ^ 59) (hneg : toInt n < 0) :
    ¬ ∀ v, Encodable v → ∀ trailing, (encode v ++ trailing).length < 2 ^ 64 →
      ∀ behind chunks, chunks.flatten = encode v ++ trailing →
        (appendAll behind chunks redisParserInit).1 = 1 ∧
          (appendAll behind chunks redisParserInit).2.1 = (encode v).length ∧
          RedisValue.set (appendAll behind chunks redisParserInit).2.2.msgbuf
            (appendAll behind chunks redisParserInit).2.2.reply = v := by
  intro h
  have hlost := long_array_lost hn hneg
  have hback := (h (.array (List.replicate n .nil)) (encodableAll_replicate n) []
    (by rw [List.append_nil]; exact array_encode_length hn) (fun _ => [])
    [encode (.array (List.replicate n .nil))] (by rw [List.flatten_cons, List.flatten_nil])).2.2
  rw [hlost] at hback
  exact absurd hback (by simp)

/-- An array of `2 ^ 31` nils can be encoded and does not come back. -/
theorem int_length_lost :
    ¬ ∀ v, Encodable v → ∀ trailing, (encode v ++ trailing).length < 2 ^ 64 →
      ∀ behind chunks, chunks.flatten = encode v ++ trailing →
        (appendAll behind chunks redisParserInit).1 = 1 ∧
          (appendAll behind chunks redisParserInit).2.1 = (encode v).length ∧
          RedisValue.set (appendAll behind chunks redisParserInit).2.2.msgbuf
            (appendAll behind chunks redisParserInit).2.2.reply = v :=
  array_not_back (n := 2 ^ 31) (by decide) (by decide)

end Workflow.Redis
