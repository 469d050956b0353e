/-
Module: Workflow.Proofs.HttpMessage
Layer: Proofs
Purpose: `encode` fits its vectors: it writes no entry behind the last one, and the entries it returns
  gather to the message, with the blocks of the body combined where they do not fit, exactly if no
  name or value is too long for the `int` that the header store records its length in.
Trusted boundary: none
Main exports: OutputBody.Consistent, Stored, encodeHeaders_spec, encodeBlocks_spec, gather_lines,
  encode_fits
-/
import Workflow.Proofs.HttpHeaderStore
import Workflow.Protocol.HttpMessage

namespace Workflow.Http

open Workflow.Lib

/-! ### The output body -/

/-- The blocks have different addresses, and the recorded size is that of the content. -/
structure OutputBody.Consistent (body : OutputBody) : Prop where
  distinct : (body.blocks.map MessageBlock.addr).Nodup
  size : body.size = body.content.length

theorem lt_freshAddr {blocks : List MessageBlock} {block : MessageBlock} (h : block ∈ blocks) :
    block.addr < freshAddr blocks := by
  unfold freshAddr
  induction blocks with
  | nil => simp at h
  | cons x blocks ih =>
      simp only [List.map_cons, List.foldr_cons]
      rcases List.mem_cons.mp h with rfl | hmem
      · omega
      · have hlt := ih hmem
        omega

theorem distinct_append_fresh {blocks : List MessageBlock} (rest : List MessageBlock)
    (bytes : List Byte) (h : (blocks.map MessageBlock.addr).Nodup) :
    ((blocks ++ [(⟨freshAddr (blocks ++ rest), bytes⟩ : MessageBlock)]).map
      MessageBlock.addr).Nodup := by
  rw [List.map_append, List.nodup_append]
  refine ⟨h, by simp, ?_⟩
  intro a ha b hb
  obtain ⟨block, hblock, rfl⟩ := List.mem_map.mp ha
  simp only [List.map_cons, List.map_nil, List.mem_singleton] at hb
  have hlt := lt_freshAddr (List.mem_append_left rest hblock)
  omega

theorem OutputBody.empty_consistent : OutputBody.empty.Consistent :=
  ⟨List.nodup_nil, rfl⟩

theorem OutputBody.Consistent.append {body : OutputBody} (h : body.Consistent) (bytes : List Byte) :
    (body.append bytes).Consistent := by
  refine ⟨?_, ?_⟩
  · have hfresh := distinct_append_fresh [] bytes h.distinct
    rwa [List.append_nil] at hfresh
  · simp only [OutputBody.append, OutputBody.content, List.flatMap_append, List.length_append, h.size]
    simp

/-! ### Combining blocks -/

theorem copyBlocks_spec (blocks : List MessageBlock) (front rest : List Byte)
    (h : rest.length = (blocks.flatMap MessageBlock.bytes).length) :
    copyBlocks (front ++ rest) front.length blocks =
      some (front ++ blocks.flatMap MessageBlock.bytes) := by
  induction blocks generalizing front rest with
  | nil =>
      have hnil : rest = [] := List.eq_nil_of_length_eq_zero h
      rw [copyBlocks, hnil]
      rfl
  | cons block blocks ih =>
      rw [List.flatMap_cons, List.length_append] at h
      have htake : (rest.take block.bytes.length).length = block.bytes.length := by
        rw [List.length_take]
        omega
      have hcopy := memcpy_at front _ (rest.drop block.bytes.length) htake
      rw [List.append_assoc, List.take_append_drop] at hcopy
      have hnext := ih (front ++ block.bytes) (rest.drop block.bytes.length)
        (by rw [List.length_drop]; omega)
      rw [List.length_append] at hnext
      rw [copyBlocks, hcopy, Option.bind_eq_bind, Option.bind_some, hnext, List.flatMap_cons,
        List.append_assoc]

/-- The combined block has the content of the blocks that it replaces. -/
theorem combineFrom_spec (before rest : List MessageBlock) :
    combineFrom before rest (rest.flatMap MessageBlock.bytes).length =
      some { addr := freshAddr (before ++ rest), bytes := rest.flatMap MessageBlock.bytes } := by
  have hcopy := copyBlocks_spec rest [] (malloc (rest.flatMap MessageBlock.bytes).length)
    (by rw [malloc, List.length_replicate])
  simp only [List.nil_append, List.length_nil] at hcopy
  simp only [combineFrom, hcopy, Option.bind_eq_bind, Option.bind_some, Option.pure_def]

/-! ### The two loops -/

/-- The header lines that fit get an entry each. -/
theorem encodeHeaders_spec {max : Nat} (lines : List BufferedLine) (vectors : List IoVec)
    (hlen : vectors.length ≤ max) :
    encodeHeaders max lines vectors =
      vectors ++ (lines.take (max - vectors.length)).map headerVec := by
  induction lines generalizing vectors with
  | nil => simp [encodeHeaders]
  | cons line lines ih =>
      rw [encodeHeaders]
      split
      · rename_i hfull
        simp [hfull]
      · rename_i hroom
        have hnext := ih (vectors ++ [headerVec line])
          (by rw [List.length_append, List.length_singleton]; omega)
        obtain ⟨room, hroom'⟩ : ∃ room, max - vectors.length = room + 1 :=
          ⟨max - vectors.length - 1, by omega⟩
        have hroom'' : max - (vectors ++ [headerVec line]).length = room := by
          rw [List.length_append, List.length_singleton]
          omega
        rw [hnext, hroom'', hroom', List.take_succ_cons, List.map_cons, List.append_assoc]
        rfl

/-- The blocks get an entry each, the last entry for all blocks that are left. -/
theorem encodeBlocks_spec {max : Nat} (before rest : List MessageBlock) (size : Nat)
    (vectors : List IoVec) (hroom : rest ≠ [] → vectors.length < max) (hlen : vectors.length ≤ max)
    (hsize : size = (rest.flatMap MessageBlock.bytes).length)
    (hdistinct : ((before ++ rest).map MessageBlock.addr).Nodup) :
    ∃ after, encodeBlocks max before rest size vectors =
        some (vectors ++ after.map fun x => .block x.addr, before ++ after) ∧
      after.flatMap MessageBlock.bytes = rest.flatMap MessageBlock.bytes ∧
      ((before ++ after).map MessageBlock.addr).Nodup ∧ vectors.length + after.length ≤ max := by
  induction rest generalizing before size vectors with
  | nil => exact ⟨[], by simp [encodeBlocks], rfl, hdistinct, by simpa using hlen⟩
  | cons block rest ih =>
      have hlt := hroom (List.cons_ne_nil _ _)
      rw [encodeBlocks]
      split
      · refine ⟨[{ addr := freshAddr (before ++ block :: rest)
                   bytes := (block :: rest).flatMap MessageBlock.bytes }], ?_, ?_, ?_, ?_⟩
        · rw [hsize, combineFrom_spec]
          rfl
        · simp
        · rw [List.map_append] at hdistinct
          exact distinct_append_fresh _ _ (List.nodup_append.mp hdistinct).1
        · rw [List.length_singleton]
          omega
      · rename_i hmore
        have hroom' : rest ≠ [] → (vectors ++ [IoVec.block block.addr]).length < max := by
          intro hne
          rw [List.length_append, List.length_singleton]
          have hnot : vectors.length + 1 ≠ max := fun heq => hmore ⟨heq, hne⟩
          omega
        rw [List.flatMap_cons, List.length_append] at hsize
        obtain ⟨after, hrun, hcontent, hdistinct', hlen'⟩ := ih (before ++ [block])
          (size - block.bytes.length) (vectors ++ [.block block.addr]) hroom'
          (by rw [List.length_append, List.length_singleton]; omega) (by omega)
          (by rwa [List.append_assoc, List.singleton_append])
        rw [List.length_append, List.length_singleton] at hlen'
        rw [List.append_assoc, List.singleton_append] at hdistinct'
        refine ⟨block :: after, ?_, ?_, hdistinct', by rw [List.length_cons]; omega⟩
        · rw [hrun, List.append_assoc, List.append_assoc]
          rfl
        · rw [List.flatMap_cons, List.flatMap_cons, hcontent]

/-! ### Header lines of any length -/

/-- A line as the header store makes it: the text of the header is at the front of its buffer, and
the lengths are recorded as `int`s. No object has `2 ^ 63` bytes. -/
structure Stored (line : BufferedLine) (h : HeaderLine) : Prop where
  text : h.text <+: line.buf
  nameLen : line.nameLen = toInt h.name.length
  valueLen : line.valueLen = toInt h.value.length
  size : line.buf.length < 2 ^ 63

/-- A header whose lengths fit in an `int`. -/
def HeaderLine.Short (h : HeaderLine) : Prop :=
  h.name.length < 2 ^ 31 ∧ h.value.length < 2 ^ 31

instance (h : HeaderLine) : Decidable h.Short := by
  unfold HeaderLine.Short
  infer_instance

/-- `add_header` stores a header of any length. -/
theorem addHeader_stored {lines : List BufferedLine} {headers : List HeaderLine}
    (name value : List Byte) (h : List.Forall₂ Stored lines headers)
    (hsize : name.length + value.length + 4 < 2 ^ 63) :
    ∃ lines', addHeader name value lines = some lines' ∧
      List.Forall₂ Stored lines' (headers ++ [{ name := name, value := value }]) := by
  obtain ⟨rest, hfront, hrest⟩ := writeName_spec name value.length
  have hsep : colonSpace.length = 2 := rfl
  obtain ⟨buf, hbuf, htext, hlen⟩ := writeValue_spec name value
    (List.prefix_append (name ++ colonSpace) rest) (by simp only [List.length_append]; omega)
  have hbytes : buf.length < 2 ^ 63 := by
    rw [hlen, List.length_append, List.length_append]
    omega
  have hstored : Stored { nameLen := toInt name.length, valueLen := toInt value.length, buf := buf }
      { name := name, value := value } :=
    { text := htext, nameLen := by dsimp only, valueLen := by dsimp only, size := hbytes }
  refine ⟨_, ?_, List.rel_append h (.cons hstored .nil)⟩
  rw [addHeader, hfront, Option.bind_eq_bind, Option.bind_some, hbuf]
  rfl

/-- The length of an entry is that of the header, or less, or that of no object. -/
theorem headerLen_cases (n v : Nat) (h : n + v + 4 < 2 ^ 63) :
    ((n < 2 ^ 31 ∧ v < 2 ^ 31) →
      (toSize (toInt n) + 2 + toSize (toInt v) + 2) % 2 ^ 64 = n + v + 4) ∧
    (¬ (n < 2 ^ 31 ∧ v < 2 ^ 31) →
      (toSize (toInt n) + 2 + toSize (toInt v) + 2) % 2 ^ 64 < n + v + 4 ∨
        2 ^ 63 ≤ (toSize (toInt n) + 2 + toSize (toInt v) + 2) % 2 ^ 64) := by
  constructor
  · rintro ⟨hn, hv⟩
    rw [toInt_of_lt hn, toInt_of_lt hv, toSize_of_lt (by omega), toSize_of_lt (by omega)]
    omega
  · intro hlong
    have hname := toSize_toInt n
    have hvalue := toSize_toInt v
    omega

theorem HeaderLine.length_text (h : HeaderLine) :
    h.text.length = h.name.length + h.value.length + 4 := by
  simp only [HeaderLine.text, List.length_append, colonSpace, crlf, List.length_cons,
    List.length_nil]
  omega

/-- The entry of a short header is its text, that of a longer one is less, or not in the buffer. -/
theorem Stored.bytes {line : BufferedLine} {h : HeaderLine} (hline : Stored line h)
    (blocks : List MessageBlock) :
    (h.Short → (headerVec line).bytes blocks = some h.text) ∧
      (¬ h.Short → ∀ bytes, (headerVec line).bytes blocks = some bytes →
        bytes.length < h.text.length) := by
  have hle := hline.text.length_le
  have hsize := hline.size
  rw [h.length_text] at hle ⊢
  obtain ⟨hshort, hlong⟩ := headerLen_cases h.name.length h.value.length (by omega)
  rw [← hline.nameLen, ← hline.valueLen] at hshort hlong
  constructor
  · intro hs
    obtain ⟨rest, hbuf⟩ := hline.text
    have hfront := memread_front [] h.text rest
    rw [List.nil_append, hbuf, List.length_nil, h.length_text] at hfront
    rw [headerVec, IoVec.bytes, hshort hs, hfront]
  · intro hs bytes hread
    rw [headerVec, IoVec.bytes, memread, Nat.zero_add] at hread
    split at hread
    · rename_i hin
      obtain rfl := Option.some.inj hread
      rw [List.drop_zero, List.length_take]
      have hcases := hlong hs
      omega
    · cases hread

/-! ### What the vectors gather -/

theorem gather_append (blocks : List MessageBlock) (front rest : List IoVec) :
    gather blocks (front ++ rest) =
      (gather blocks front).bind fun a => (gather blocks rest).map (a ++ ·) := by
  induction front with
  | nil =>
      rw [List.nil_append, gather, Option.bind_some]
      exact Option.map_id'.symm
  | cons v front ih =>
      rw [List.cons_append, gather, gather, ih]
      cases v.bytes blocks with
      | none => rfl
      | some x =>
          cases gather blocks front with
          | none => rfl
          | some a =>
              cases gather blocks rest with
              | none => rfl
              | some b =>
                  simp only [Option.bind_eq_bind, Option.bind_some, Option.map_some,
                    Option.pure_def, List.append_assoc]

theorem gather_text (blocks : List MessageBlock) (texts : List (List Byte)) :
    gather blocks (texts.map .text) = some texts.flatten := by
  induction texts with
  | nil => rfl
  | cons text texts ih =>
      simp only [List.map_cons, gather, IoVec.bytes, ih, Option.bind_eq_bind, Option.bind_some,
        Option.pure_def, List.flatten_cons]

/-- The entries of the header lines gather to the header lines if these are short. -/
theorem gather_lines (blocks : List MessageBlock) {lines : List BufferedLine}
    {headers : List HeaderLine} (h : List.Forall₂ Stored lines headers)
    (hshort : ∀ header ∈ headers, header.Short) :
    gather blocks (lines.map headerVec) = some (headers.flatMap HeaderLine.text) := by
  induction h with
  | nil => rfl
  | cons hline hrest ih =>
      obtain ⟨hhead, htail⟩ := List.forall_mem_cons.mp hshort
      simp only [List.map_cons, gather, (hline.bytes blocks).1 hhead, ih htail,
        Option.bind_eq_bind, Option.bind_some, Option.pure_def, List.flatMap_cons]

/-- They never gather to more, and to less if one is not short. -/
theorem gather_lines_le (blocks : List MessageBlock) {lines : List BufferedLine}
    {headers : List HeaderLine} (h : List.Forall₂ Stored lines headers) {bytes : List Byte}
    (hgather : gather blocks (lines.map headerVec) = some bytes) :
    bytes.length ≤ (headers.flatMap HeaderLine.text).length ∧
      ((∃ header ∈ headers, ¬ header.Short) →
        bytes.length < (headers.flatMap HeaderLine.text).length) := by
  induction h generalizing bytes with
  | nil =>
      cases hgather
      simp
  | cons hline hrest ih =>
      rename_i line header lines headers
      obtain ⟨first, hfirst, hgather⟩ := Option.bind_eq_some_iff.mp hgather
      obtain ⟨rest, hgathered, heq⟩ := Option.bind_eq_some_iff.mp hgather
      cases heq
      obtain ⟨hle, hlt⟩ := ih hgathered
      obtain ⟨hshort, hlong⟩ := hline.bytes blocks
      rw [List.flatMap_cons, List.length_append, List.length_append]
      by_cases hs : header.Short
      · obtain rfl := Option.some.inj ((hshort hs).symm.trans hfirst)
        refine ⟨by omega, fun ⟨x, hx, hnot⟩ => ?_⟩
        rcases List.mem_cons.mp hx with rfl | hx
        · exact absurd hs hnot
        · have := hlt ⟨x, hx, hnot⟩
          omega
      · have hless := hlong hs first hfirst
        exact ⟨by omega, fun _ => by omega⟩

theorem find_addr {blocks : List MessageBlock} {x : MessageBlock}
    (hdistinct : (blocks.map MessageBlock.addr).Nodup) (hx : x ∈ blocks) :
    blocks.find? (fun block => block.addr == x.addr) = some x := by
  induction blocks with
  | nil => simp at hx
  | cons y blocks ih =>
      simp only [List.map_cons, List.nodup_cons] at hdistinct
      rcases List.mem_cons.mp hx with rfl | hmem
      · simp
      · have hne : y.addr ≠ x.addr := by
          intro heq
          exact hdistinct.1 (heq ▸ List.mem_map_of_mem hmem)
        rw [List.find?_cons_of_neg (by simpa using hne)]
        exact ih hdistinct.2 hmem

/-- The entries for blocks of the list gather their bytes. -/
theorem gather_blocks {blocks part : List MessageBlock}
    (hdistinct : (blocks.map MessageBlock.addr).Nodup) (hsub : ∀ x ∈ part, x ∈ blocks) :
    gather blocks (part.map fun x => .block x.addr) = some (part.flatMap MessageBlock.bytes) := by
  induction part with
  | nil => rfl
  | cons x part ih =>
      have hfind := find_addr hdistinct (hsub x List.mem_cons_self)
      simp only [List.map_cons, gather, IoVec.bytes, hfind, Option.map_some,
        ih fun y hy => hsub y (List.mem_cons_of_mem x hy), Option.bind_eq_bind, Option.bind_some,
        Option.pure_def, List.flatMap_cons]

/-! ### `encode` -/

/-- The bytes of the message: start line, header lines, an empty line and the body. -/
def messageText (start : List Byte × List Byte × List Byte) (headers : List HeaderLine)
    (body : List Byte) : List Byte :=
  start.1 ++ [SP] ++ start.2.1 ++ [SP] ++ start.2.2 ++ crlf ++ headers.flatMap HeaderLine.text ++
    crlf ++ body

/-- What `encode` must do with `max` entries for a message with this many headers: refuse, or return
the number of entries it has written, which gather to the message; the body keeps its size and
content, and at no time an entry behind the last one is written. -/
structure Fits (start : List Byte × List Byte × List Byte) (headers : List HeaderLine)
    (body : OutputBody) (max : Nat) (r : Encoded) : Prop where
  inside : r.vectors.length ≤ max
  consistent : r.body.Consistent
  size : r.body.size = body.size
  content : r.body.content = body.content
  encoded : headers.length + 7 < max → r.ret = r.vectors.length ∧
    gather r.body.blocks r.vectors = some (messageText start headers body.content)
  refused : max ≤ headers.length + 7 → r.ret = -1 ∧ r.errno = some .overflow

/-- What `encode` comes to: it refuses, or its entries are those of the start line, of all header
lines and of the blocks that are left. -/
theorem encode_cases {p : HttpParser} {start : List Byte × List Byte × List Byte}
    {body : OutputBody} {max : Nat} (lines : List BufferedLine) (hstart : startLine p = some start)
    (hbody : body.Consistent) (hmax : 7 ≤ max) :
    ∃ r, encode p lines body max = some r ∧ r.vectors.length ≤ max ∧ r.body.Consistent ∧
      r.body.size = body.size ∧ r.body.content = body.content ∧
      (max ≤ lines.length + 7 → r.ret = -1 ∧ r.errno = some .overflow) ∧
      (lines.length + 7 < max → r.ret = r.vectors.length ∧
        gather r.body.blocks r.vectors =
          (gather r.body.blocks (lines.map headerVec)).map fun bytes =>
            start.1 ++ [SP] ++ start.2.1 ++ [SP] ++ start.2.2 ++ crlf ++ bytes ++ crlf ++
              body.content) := by
  obtain ⟨first, second, third⟩ := start
  -- the six entries of the start line, and an entry for each header line that fits
  generalize hsix : [IoVec.text first, .text [SP], .text second, .text [SP], .text third,
    .text crlf] = six
  have hlen : six.length = 6 := by
    rw [← hsix]
    rfl
  have hheaders := encodeHeaders_spec lines six (by omega : six.length ≤ max)
  rw [hlen] at hheaders
  simp only [encode, hstart, hsix, hheaders, Option.bind_eq_bind]
  have hcount : (six ++ (lines.take (max - 6)).map headerVec).length =
      6 + min (max - 6) lines.length := by
    rw [List.length_append, hlen, List.length_map, List.length_take]
  rw [hcount]
  by_cases hfits : lines.length + 7 < max
  · rw [if_neg (by omega), List.take_of_length_le (by omega)]
    generalize hvectors : six ++ lines.map headerVec ++ [.text crlf] = vectors
    have hvlen : vectors.length = lines.length + 7 := by
      rw [← hvectors, List.length_append, List.length_append, hlen, List.length_map,
        List.length_singleton]
      omega
    obtain ⟨after, hrun, hcontent, hdistinct, hafter⟩ := encodeBlocks_spec [] body.blocks body.size
      vectors (fun _ => by omega) (by omega : vectors.length ≤ max) hbody.size hbody.distinct
    rw [List.nil_append] at hrun hdistinct
    have hkept : ({ body with blocks := after } : OutputBody).content = body.content := hcontent
    refine ⟨_, by rw [hrun]; rfl, ?_, ⟨hdistinct, hbody.size.trans ?_⟩, rfl, hkept,
      fun h => by omega, fun _ => ⟨rfl, ?_⟩⟩
    · rw [List.length_append, List.length_map]
      exact hafter
    · exact congrArg List.length hkept.symm
    · have hfront : gather after six =
          some (first ++ [SP] ++ second ++ [SP] ++ third ++ crlf) := by
        have htexts : six = [first, [SP], second, [SP], third, crlf].map .text := by
          rw [← hsix]
          rfl
        rw [htexts, gather_text]
        simp
      have hend : gather after [.text crlf] = some crlf := by
        have hone := gather_text after [crlf]
        rwa [List.flatten_cons, List.flatten_nil, List.append_nil] at hone
      rw [gather_append, ← hvectors, gather_append, gather_append, hfront, hend,
        gather_blocks hdistinct fun x hx => hx, hcontent]
      cases gather after (lines.map headerVec) with
      | none => rfl
      | some bytes => rfl
  · rw [if_pos (by omega)]
    exact ⟨_, rfl, by rw [hcount]; omega, hbody, rfl, rfl, fun _ => ⟨rfl, rfl⟩,
      fun h => absurd h hfits⟩

/-- When there is room for a header that is not short, the entries do not gather to the message. -/
theorem not_fits_of_long {p : HttpParser} {start : List Byte × List Byte × List Byte}
    {lines : List BufferedLine} {headers : List HeaderLine} {body : OutputBody} {max : Nat}
    (hstart : startLine p = some start) (hlines : List.Forall₂ Stored lines headers)
    (hbody : body.Consistent) (hroom : headers.length + 7 < max)
    (hlong : ∃ h ∈ headers, ¬ h.Short) :
    ¬ ∃ r, encode p lines body max = some r ∧ Fits start headers body max r := by
  rintro ⟨r, hrun, hfits⟩
  have hlength := hlines.length_eq
  obtain ⟨r', hrun', -, -, -, -, -, hencoded⟩ := encode_cases lines hstart hbody
    (by omega : 7 ≤ max)
  obtain rfl := Option.some.inj (hrun.symm.trans hrun')
  obtain ⟨-, hgather⟩ := hencoded (by omega)
  rw [(hfits.encoded hroom).2] at hgather
  obtain ⟨bytes, hbytes, heq⟩ := Option.map_eq_some_iff.mp hgather.symm
  have hless := (gather_lines_le r.body.blocks hlines hbytes).2 hlong
  have hsame := congrArg List.length heq
  simp only [messageText, List.length_append] at hsame
  omega

/-- For every start line, every store that holds the headers, every body and every array of at least
7 entries, `encode` fits its vectors exactly if it refuses, for want of entries, or every name and
value is shorter than `2 ^ 31` bytes. -/
theorem encode_fits {p : HttpParser} {start : List Byte × List Byte × List Byte}
    {lines : List BufferedLine} {headers : List HeaderLine} {body : OutputBody} {max : Nat}
    (hstart : startLine p = some start) (hlines : List.Forall₂ Stored lines headers)
    (hbody : body.Consistent) (hmax : 7 ≤ max) :
    (∃ r, encode p lines body max = some r ∧ Fits start headers body max r) ↔
      (max ≤ headers.length + 7 ∨ ∀ h ∈ headers, h.Short) := by
  constructor
  · intro hfits
    by_contra hnot
    obtain ⟨hroom, hlong⟩ := not_or.mp hnot
    refine not_fits_of_long hstart hlines hbody (by omega) ?_ hfits
    simpa using hlong
  · intro hok
    have hlength := hlines.length_eq
    obtain ⟨r, hrun, hinside, hconsistent, hsize, hcontent, hrefused, hencoded⟩ :=
      encode_cases lines hstart hbody hmax
    refine ⟨r, hrun, hinside, hconsistent, hsize, hcontent, fun hroom => ?_,
      fun hfull => hrefused (by omega)⟩
    obtain ⟨hret, hgather⟩ := hencoded (by omega)
    refine ⟨hret, ?_⟩
    rw [hgather, gather_lines r.body.blocks hlines (hok.resolve_left (by omega))]
    rfl

/-- `GET / HTTP/1.1`. -/
def getRoot : HttpParser :=
  { (default : HttpParser) with
    method := some (ascii "GET"), uri := some (ascii "/"), version := some (ascii "HTTP/1.1") }

/-- Two header lines, three blocks and one entry left for the blocks: they are combined. -/
theorem encode_fits_combined :
    ∃ r, encode getRoot
        [⟨4, 1, ascii "Host: a\r\n"⟩, ⟨6, 3, ascii "Accept: */*\r\n" ++ [0, 0]⟩]
        (OutputBody.empty |>.append [97] |>.append [98] |>.append [99]) 10 = some r ∧
      Fits (ascii "GET", ascii "/", ascii "HTTP/1.1")
        [⟨ascii "Host", ascii "a"⟩, ⟨ascii "Accept", ascii "*/*"⟩]
        (OutputBody.empty |>.append [97] |>.append [98] |>.append [99]) 10 r :=
  (encode_fits rfl
    (.cons ⟨by decide, by decide, by decide, by decide⟩
      (.cons ⟨by decide, by decide, by decide, by decide⟩ .nil))
    (((OutputBody.empty_consistent.append _).append _).append _) (by decide)).mpr
    (Or.inr (by decide))

theorem encode_long {value : List Byte} (hlen : value.length = 2 ^ 31) :
    ∃ lines, addHeader [97] value [] = some lines ∧
      ¬ ∃ r, encode getRoot lines .empty 9 = some r ∧
        Fits (ascii "GET", ascii "/", ascii "HTTP/1.1") [⟨[97], value⟩] .empty 9 r := by
  obtain ⟨lines, hadd, hlines⟩ := addHeader_stored [97] value .nil (by rw [hlen]; decide)
  have hroom : [(⟨[97], value⟩ : HeaderLine)].length + 7 < 9 := Nat.lt_succ_self 8
  refine ⟨lines, hadd, not_fits_of_long rfl hlines OutputBody.empty_consistent hroom
    ⟨_, List.mem_singleton_self _, fun hshort => ?_⟩⟩
  have hvalue := hshort.2
  simp only [hlen] at hvalue
  omega

/-- A value of `2 ^ 31` bytes: the entry of its header is not the header line. -/
theorem encode_overlong :
    ∃ lines, addHeader [97] (List.replicate (2 ^ 31) 120) [] = some lines ∧
      ¬ ∃ r, encode getRoot lines .empty 9 = some r ∧
        Fits (ascii "GET", ascii "/", ascii "HTTP/1.1") [⟨[97], List.replicate (2 ^ 31) 120⟩]
          .empty 9 r :=
  encode_long List.length_replicate

end Workflow.Http
