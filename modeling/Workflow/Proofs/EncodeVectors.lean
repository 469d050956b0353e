/-
Module: Workflow.Proofs.EncodeVectors
Layer: Proofs
Purpose: `EncodeStream` with its memory refines the stream of byte lists, whatever is merged. The
  vectors stay inside the array as soon as it has room for two.
Trusted boundary: none
Main exports: Buff.Holds, Placed, mergeLoop_spec, Represents, perform_refines, encodeMerging_iff
-/
import Workflow.Util.EncodeVectors
import Mathlib.Data.List.Forall2
import Mathlib.Data.List.Induction

namespace Workflow.Util

open Workflow.Lib

/-! ### Buffers -/

/-- Buffer `i` holds these bytes, in the memory of the caller or in a string of its own. -/
def Buff.Holds (mem : Nat → Byte) (i : Nat) (b : Buff) (d : List Byte) : Prop :=
  b.len = d.length ∧ d ≠ [] ∧
    ((∃ addr, b.data = .outside addr ∧ b.str = [] ∧ (List.range' addr b.len).map mem = d) ∨
      (b.data = .inside i b.edition ∧ b.str = d))

/-- The buffer is not deleted, and holds these bytes. -/
def HoldsAt (mem : Nat → Byte) (heap : Nat → Option Buff) (i : Nat) (d : List Byte) : Prop :=
  ∃ b, heap i = some b ∧ b.Holds mem i d

variable {mem : Nat → Byte} {heap heap' : Nat → Option Buff} {i : Nat} {b : Buff} {d : List Byte}

theorem Buff.Holds.read (h : b.Holds mem i d) (hheap : heap i = some b) :
    b.data.read mem heap b.len = some d := by
  obtain ⟨hlen, -, ⟨addr, hdata, -, hbytes⟩ | ⟨hdata, hstr⟩⟩ := h
  · rw [hdata, Base.read, hbytes]
  · rw [hdata]
    simp only [Base.read, hheap, Option.bind_eq_bind, Option.bind_some, hlen, hstr, le_refl, and_self,
      if_true, List.take_length]

theorem Buff.Holds.own (h : b.Holds mem i d) (hheap : heap i = some b) :
    b.own mem heap = some d := by
  unfold Buff.own
  by_cases hstr : b.str = []
  · rw [if_pos hstr, h.read hheap]
  · rw [if_neg hstr]
    obtain ⟨-, -, ⟨addr, -, hnil, -⟩ | ⟨-, hown⟩⟩ := h
    · exact absurd hnil hstr
    · rw [hown]

theorem HoldsAt.congr (h : HoldsAt mem heap i d) (hheap : heap' i = heap i) :
    HoldsAt mem heap' i d := by
  obtain ⟨b, hb, hholds⟩ := h
  exact ⟨b, by rw [hheap, hb], hholds⟩

theorem holdsAll_congr {ids : List Nat} {ds : List (List Byte)}
    (h : List.Forall₂ (HoldsAt mem heap) ids ds) (hheap : ∀ i ∈ ids, heap' i = heap i) :
    List.Forall₂ (HoldsAt mem heap') ids ds := by
  induction h with
  | nil => exact .nil
  | cons hhead _ ih =>
      exact .cons (hhead.congr (hheap _ List.mem_cons_self))
        (ih fun i hi => hheap i (List.mem_cons_of_mem _ hi))

/-! ### Merging -/

/-- The buffers `front` have their vectors, in order from the first of the array on; those of `rest`
are still to come. -/
structure Placed (mem : Nat → Byte) (s : VecStream) (front : List Nat) (done : List (List Byte))
    (rest : List Nat) (ahead : List (List Byte)) : Prop where
  list : s.bufferList = front ++ rest
  nodup : (front ++ rest).Nodup
  size : s.size = front.length
  held : List.Forall₂ (HoldsAt mem s.heap) front done
  waiting : List.Forall₂ (HoldsAt mem s.heap) rest ahead
  vec : ∀ k i, front[k]? = some i → ∃ b, s.heap i = some b ∧ s.vec k = ⟨b.data, b.len⟩
  fresh : ∀ i, s.fresh ≤ i → s.heap i = none

variable {s : VecStream} {front rest : List Nat} {done ahead : List (List Byte)}

/-- The next buffer gets its vector. -/
theorem Placed.setVec {x : Nat} (h : Placed mem s front done (x :: rest) (d :: ahead))
    (hb : s.heap x = some b) :
    Placed mem (s.setVec b.data b.len) (front ++ [x]) (done ++ [d]) rest ahead := by
  obtain ⟨hlist, hnodup, hsize, hfront, hrest, hvec, hfresh⟩ := h
  obtain ⟨hx, htail⟩ := List.forall₂_cons.mp hrest
  refine ⟨by simp [VecStream.setVec, hlist], by simpa using hnodup, by simp [VecStream.setVec, hsize],
    List.rel_append hfront (.cons hx .nil), htail, fun k i hi => ?_, hfresh⟩
  rcases Nat.lt_trichotomy k front.length with hlt | rfl | hgt
  · rw [List.getElem?_append_left hlt] at hi
    obtain ⟨b', hb', hat⟩ := hvec k i hi
    refine ⟨b', hb', ?_⟩
    rw [← hat]
    exact Function.update_of_ne (by omega) _ _
  · rw [List.getElem?_concat_length] at hi
    cases hi
    refine ⟨b, hb, ?_⟩
    rw [← hsize]
    exact Function.update_self _ _ _
  · rw [List.getElem?_eq_none (by simp; omega)] at hi
    cases hi

/-- Two neighbours become one. -/
theorem Placed.mergeInto {x y : Nat} {dx dy : List Byte}
    (h : Placed mem s front done (x :: y :: rest) (dx :: dy :: ahead)) :
    ∃ t, s.mergeInto mem x y = some t ∧ Placed mem t front done (x :: rest) ((dx ++ dy) :: ahead) ∧
      t.bytes = s.bytes ∧ t.max = s.max ∧ t.size = s.size ∧ t.written = s.written := by
  obtain ⟨hlist, hnodup, hsize, hfront, hrest, hvec, hfresh⟩ := h
  obtain ⟨⟨bx, hbx, hdx⟩, htail⟩ := List.forall₂_cons.mp hrest
  obtain ⟨⟨next, hnext, hdy⟩, htail⟩ := List.forall₂_cons.mp htail
  have hxy : x ≠ y := by
    rintro rfl
    simp [List.nodup_append] at hnodup
  obtain ⟨hfrontx, hfronty⟩ : x ∉ front ∧ y ∉ front := by
    constructor
    · intro hx
      exact (List.nodup_append.mp hnodup).2.2 x hx x List.mem_cons_self rfl
    · intro hy
      exact (List.nodup_append.mp hnodup).2.2 y hy y (by simp) rfl
  obtain ⟨hrestx, hresty⟩ : x ∉ rest ∧ y ∉ rest := by
    have hback := (List.nodup_append.mp hnodup).2.1
    rw [List.nodup_cons, List.nodup_cons, List.mem_cons, not_or] at hback
    exact ⟨hback.1.2, hback.2.1⟩
  have hother : ∀ {l : List Nat}, x ∉ l → y ∉ l → ∀ i ∈ l, i ≠ x ∧ i ≠ y := by
    intro l hx hy i hi
    exact ⟨fun heq => hx (heq ▸ hi), fun heq => hy (heq ▸ hi)⟩
  let merged : Buff :=
    { data := .inside x (bx.edition + 1)
      len := (dx ++ dy).length
      str := dx ++ dy
      edition := bx.edition + 1 }
  let t : VecStream := { s with
    heap := Function.update (Function.update s.heap x (some merged)) y none
    bufferList := s.bufferList.erase y }
  have hmerge : s.mergeInto mem x y = some t := by
    simp only [VecStream.mergeInto, hbx, hnext, hdx.own hbx, hdy.read hnext, Option.bind_eq_bind,
      Option.bind_some]
    rfl
  have hself : t.heap x = some merged := by
    simp only [t, Function.update_of_ne hxy, Function.update_self]
  have hgone : t.heap y = none := Function.update_self _ _ _
  have hkeep : ∀ i, i ≠ x ∧ i ≠ y → t.heap i = s.heap i := by
    rintro i ⟨hix, hiy⟩
    simp only [t, Function.update_of_ne hiy, Function.update_of_ne hix]
  refine ⟨t, hmerge, ?_, rfl, rfl, rfl, rfl⟩
  constructor
  case list =>
    simp only [t, hlist]
    rw [List.erase_append_right _ hfronty, List.erase_cons_tail (by simpa using hxy),
      List.erase_cons_head]
  case nodup => exact hnodup.sublist (by simp)
  case size => exact hsize
  case held => exact holdsAll_congr hfront fun i hi => hkeep i (hother hfrontx hfronty i hi)
  case waiting =>
    have hne : dx ++ dy ≠ [] := List.append_ne_nil_of_left_ne_nil hdx.2.1 dy
    exact .cons ⟨merged, hself, rfl, hne, Or.inr ⟨rfl, rfl⟩⟩
      (holdsAll_congr htail fun i hi => hkeep i (hother hrestx hresty i hi))
  case vec =>
    intro k i hi
    obtain ⟨b, hb, hat⟩ := hvec k i hi
    exact ⟨b, (hkeep i (hother hfrontx hfronty i (List.mem_of_getElem? hi))).trans hb, hat⟩
  case fresh =>
    intro i hi
    have hnone := hfresh i hi
    have hix : i ≠ x := by
      rintro rfl
      rw [hbx] at hnone
      cases hnone
    by_cases hiy : i = y
    · rw [hiy, hgone]
    · rw [hkeep i ⟨hix, hiy⟩, hnone]

theorem length_mergePairs (ds : List (List Byte)) :
    (EncodeStream.mergePairs ds).length = (ds.length + 1) / 2 := by
  induction ds using EncodeStream.mergePairs.induct with
  | case1 x y rest ih =>
      rw [EncodeStream.mergePairs, List.length_cons, ih, List.length_cons, List.length_cons]
      omega
  | case2 rest hrest =>
      cases rest with
      | nil => rfl
      | cons x more =>
          cases more with
          | nil => simp [EncodeStream.mergePairs]
          | cons y more => exact absurd rfl (hrest x y more)

/-- The loop merges the buffers that it still has ahead, two by two, and writes their vectors. -/
theorem mergeLoop_spec (h : Placed mem s front done rest ahead) :
    ∃ t ids, VecStream.mergeLoop mem rest s = some t ∧
      Placed mem t (front ++ ids) (done ++ EncodeStream.mergePairs ahead) [] [] ∧
      t.bytes = s.bytes ∧ t.max = s.max ∧
      t.written = s.written ++ List.range' s.size ((rest.length + 1) / 2) := by
  induction rest, s using VecStream.mergeLoop.induct generalizing front done ahead with
  | case1 x y rest s ih =>
      obtain ⟨dx, tail, hdx, htail, rfl⟩ := List.forall₂_cons_left_iff.mp h.waiting
      obtain ⟨dy, ahead, hdy, hahead, rfl⟩ := List.forall₂_cons_left_iff.mp htail
      obtain ⟨t, hmerge, ht, hbytes, hmax, hsize, hwritten⟩ := h.mergeInto
      obtain ⟨⟨b, hb, -⟩, -⟩ := List.forall₂_cons.mp ht.waiting
      obtain ⟨u, ids, hloop, hu, hbytes', hmax', hwritten'⟩ := ih t b (ht.setVec hb)
      refine ⟨u, x :: ids, ?_, ?_, hbytes'.trans hbytes, hmax'.trans hmax, ?_⟩
      · simp only [VecStream.mergeLoop, hmerge, hb, Option.bind_eq_bind, Option.bind_some, hloop]
      · simpa [EncodeStream.mergePairs] using hu
      · rw [hwritten']
        simp only [VecStream.setVec, hwritten, hsize, List.append_assoc, List.singleton_append,
          List.length_cons]
        rw [show (rest.length + 1 + 1 + 1) / 2 = (rest.length + 1) / 2 + 1 by omega, List.range'_succ]
  | case2 x s =>
      obtain ⟨d, tail, ⟨b, hb, hholds⟩, htail, rfl⟩ := List.forall₂_cons_left_iff.mp h.waiting
      cases htail
      refine ⟨s.setVec b.data b.len, [x], ?_, h.setVec hb, rfl, rfl, by simp [VecStream.setVec]⟩
      simp only [VecStream.mergeLoop, hb, Option.bind_eq_bind, Option.bind_some]
  | case3 s =>
      cases h.waiting
      refine ⟨s, [], rfl, ?_, rfl, rfl, ?_⟩
      · simpa [EncodeStream.mergePairs] using h
      · simp

/-! ### Refinement -/

/-- The stream with its memory stands for a stream of byte lists. -/
def Represents (mem : Nat → Byte) (s : VecStream) (e : EncodeStream) : Prop :=
  (∃ ids, Placed mem s ids e.bufferList [] []) ∧ e.Consistent ∧ e.max = s.max

theorem Represents.size {e : EncodeStream} (h : Represents mem s e) :
    s.size = e.bufferList.length := by
  obtain ⟨⟨ids, hplaced⟩, -⟩ := h
  rw [hplaced.size, hplaced.held.length_eq]

theorem represents_reset (vec : Nat → IoVec) (max : Nat) :
    Represents mem (.reset vec max) (.reset max) := by
  refine ⟨⟨[], rfl, List.nodup_nil, rfl, .nil, .nil, fun k i h => ?_, fun _ _ => rfl⟩, rfl, rfl⟩
  rw [List.getElem?_nil] at h
  cases h

/-- Reading the vectors gives the buffers. -/
theorem readVecs_eq {ids : List Nat} {ds : List (List Byte)}
    (hheld : List.Forall₂ (HoldsAt mem s.heap) ids ds) (k : Nat)
    (hvec : ∀ j i, ids[j]? = some i → ∃ b, s.heap i = some b ∧ s.vec (k + j) = ⟨b.data, b.len⟩) :
    s.readVecs mem k ids.length = some ds.flatten := by
  induction hheld generalizing k with
  | nil => rfl
  | @cons i d ids ds hhead _ ih =>
      obtain ⟨b, hb, hholds⟩ := hhead
      obtain ⟨b', hb', hat⟩ := hvec 0 i rfl
      cases hb.symm.trans hb'
      have htail := ih (k + 1) fun j i hi => by
        rw [Nat.add_assoc, Nat.add_comm 1 j]
        exact hvec (j + 1) i hi
      rw [Nat.add_zero] at hat
      simp only [List.length_cons, VecStream.readVecs, hat, hholds.read hb, htail, Option.bind_eq_bind,
        Option.bind_some, List.flatten_cons]

theorem Represents.contents {e : EncodeStream} (h : Represents mem s e) :
    s.contents mem = some e.text := by
  obtain ⟨⟨ids, hplaced⟩, hconsistent, -⟩ := h
  rw [VecStream.contents, hplaced.size, readVecs_eq hplaced.held 0 fun j i hi => by
    rw [Nat.zero_add]
    exact hplaced.vec j i hi]
  exact congrArg (fun vec => some vec.flatten) hconsistent.symm

/-- Before the loop of `check_merge` no buffer has its vector. -/
theorem Placed.restart {ids : List Nat} {ds : List (List Byte)} (h : Placed mem s ids ds [] []) :
    Placed mem { s with size := 0 } [] [] ids ds := by
  obtain ⟨hlist, hnodup, -, hheld, -, -, hfresh⟩ := h
  rw [List.append_nil] at hlist hnodup
  refine ⟨hlist, hnodup, rfl, .nil, hheld, fun k i hi => ?_, hfresh⟩
  rw [List.getElem?_nil] at hi
  cases hi

/-- The places that an append writes when `size` vectors are in use. -/
def placesOf (max size : Nat) : List Nat :=
  size :: if size + 1 ≥ max then List.range' 0 ((size + 2) / 2) else []

theorem appendBuff_refines {e : EncodeStream} (h : Represents mem s e)
    (hb : b.Holds mem s.fresh d) :
    ∃ t, s.appendBuff mem b = some t ∧ Represents mem t (e.append d) ∧
      t.bytes = s.bytes + UInt64.ofNat d.length ∧ t.written = s.written ++ placesOf s.max s.size := by
  have hsize := h.size
  obtain ⟨⟨ids, hplaced⟩, hconsistent, hmax⟩ := h
  have hd : d.length ≠ 0 := mt List.eq_nil_of_length_eq_zero hb.2.1
  let t := (s.addBuff b).setVec b.data b.len
  have hnew : s.fresh ∉ ids := by
    intro hmem
    obtain ⟨k, hk⟩ := List.mem_iff_getElem?.mp hmem
    obtain ⟨b', hb', -⟩ := hplaced.vec k s.fresh hk
    rw [hplaced.fresh s.fresh (Nat.le_refl _)] at hb'
    cases hb'
  have hadded : Placed mem (s.addBuff b) ids e.bufferList [s.fresh] [d] := by
    have hold : ∀ i, i ≠ s.fresh → (s.addBuff b).heap i = s.heap i := fun i hi =>
      Function.update_of_ne hi _ _
    have hself : (s.addBuff b).heap s.fresh = some b := Function.update_self _ _ _
    have hmem : ∀ i ∈ ids, i ≠ s.fresh := by
      rintro i hi rfl
      exact hnew hi
    constructor
    case list => simp only [VecStream.addBuff, hplaced.list, List.append_nil]
    case nodup =>
      have hnodup := hplaced.nodup
      rw [List.append_nil] at hnodup
      rw [List.nodup_append]
      refine ⟨hnodup, List.pairwise_singleton _ _, fun i hi j hj => ?_⟩
      rw [List.mem_singleton.mp hj]
      exact hmem i hi
    case size => exact hplaced.size
    case held => exact holdsAll_congr hplaced.held fun i hi => hold i (hmem i hi)
    case waiting => exact .cons ⟨b, hself, hb⟩ .nil
    case vec =>
      intro k i hi
      obtain ⟨b', hb', hat⟩ := hplaced.vec k i hi
      exact ⟨b', (hold i (hmem i (List.mem_of_getElem? hi))).trans hb', hat⟩
    case fresh =>
      intro i hi
      have hle : s.fresh + 1 ≤ i := hi
      rw [hold i (by omega), hplaced.fresh i (by omega)]
  have hlinked := hadded.setVec (Function.update_self _ _ _)
  have happend : e.append d =
      EncodeStream.checkMerge { e with vec := e.vec ++ [d], bufferList := e.bufferList ++ [d] } := by
    rw [EncodeStream.append, if_neg hd]
  have hvec : (e.vec ++ [d]).length = s.size + 1 := by
    rw [List.length_append, hsize, hconsistent]
    rfl
  have hbytes : b.len = d.length := hb.1
  by_cases hfull : s.size + 1 ≥ s.max
  · obtain ⟨u, ids', hloop, hu, hubytes, humax, huwritten⟩ := mergeLoop_spec hlinked.restart
    have hlist : t.bufferList = ids ++ [s.fresh] := by rw [hlinked.list, List.append_nil]
    rw [← hlist] at hloop
    have hcheck : t.checkMerge mem = some u := by
      rw [VecStream.checkMerge, if_pos (show t.size ≥ t.max from hfull)]
      exact hloop
    refine ⟨{ u with bytes := u.bytes + UInt64.ofNat b.len }, ?_, ?_, ?_, ?_⟩
    · simp only [VecStream.appendBuff, Option.bind_eq_bind, t] at hcheck ⊢
      rw [hcheck]
      rfl
    · rw [happend, EncodeStream.checkMerge, if_pos (by rw [hvec, hmax]; exact hfull)]
      exact ⟨⟨_, hu.list, hu.nodup, hu.size, hu.held, hu.waiting, hu.vec, hu.fresh⟩, rfl,
        hmax.trans humax.symm⟩
    · rw [hubytes, hbytes]
      rfl
    · have hids : (ids ++ [s.fresh]).length + 1 = s.size + 2 := by
        rw [hplaced.size, List.length_append]
        rfl
      rw [placesOf, if_pos hfull, huwritten, hids]
      simp only [VecStream.setVec, VecStream.addBuff, List.append_assoc, List.singleton_append]
  · have hcheck : t.checkMerge mem = some t := by
      rw [VecStream.checkMerge, if_neg (show ¬ t.size ≥ t.max from hfull)]
    refine ⟨{ t with bytes := t.bytes + UInt64.ofNat b.len }, ?_, ?_, ?_, ?_⟩
    · simp only [VecStream.appendBuff, Option.bind_eq_bind, t] at hcheck ⊢
      rw [hcheck]
      rfl
    · rw [happend, EncodeStream.checkMerge, if_neg (by rw [hvec, hmax]; exact hfull)]
      refine ⟨⟨_, hlinked.list, hlinked.nodup, hlinked.size, hlinked.held, hlinked.waiting,
        hlinked.vec, hlinked.fresh⟩, ?_, hmax⟩
      exact congrArg (· ++ [d]) hconsistent
    · rw [hbytes]
      rfl
    · rw [placesOf, if_neg hfull]
      rfl

/-- A call does to the memory what it does to the byte lists. -/
theorem perform_refines {e : EncodeStream} (h : Represents mem s e) (call : EncodeCall) :
    ∃ t, s.perform mem call = some t ∧ Represents mem t (e.append (call.data mem)) ∧
      t.bytes = s.bytes + UInt64.ofNat (call.data mem).length ∧
      t.written = s.written ++ if call.data mem = [] then [] else placesOf s.max s.size := by
  have hempty : Represents mem s (e.append []) ∧ s.bytes = s.bytes + UInt64.ofNat 0 ∧
      s.written = s.written ++ [] := ⟨h, (UInt64.add_zero _).symm, (List.append_nil _).symm⟩
  have hcopy : ∀ data : List Byte, ∃ t, s.appendCopy mem data = some t ∧
      Represents mem t (e.append data) ∧ t.bytes = s.bytes + UInt64.ofNat data.length ∧
      t.written = s.written ++ if data = [] then [] else placesOf s.max s.size := by
    intro data
    by_cases hdata : data = []
    · subst hdata
      exact ⟨s, rfl, hempty⟩
    · have hlen : data.length ≠ 0 := mt List.eq_nil_of_length_eq_zero hdata
      rw [VecStream.appendCopy, if_neg hlen, if_neg hdata]
      exact appendBuff_refines h ⟨rfl, hdata, Or.inr ⟨rfl, rfl⟩⟩
  have hnocopy : ∀ addr len : Nat, ∃ t, s.appendNocopy mem addr len = some t ∧
      Represents mem t (e.append ((List.range' addr len).map mem)) ∧
      t.bytes = s.bytes + UInt64.ofNat ((List.range' addr len).map mem).length ∧
      t.written = s.written ++
        if (List.range' addr len).map mem = [] then [] else placesOf s.max s.size := by
    intro addr len
    by_cases hlen : len = 0
    · subst hlen
      exact ⟨s, rfl, hempty⟩
    · have hne : (List.range' addr len).map mem ≠ [] := by
        intro hnil
        have hzero := congrArg List.length hnil
        rw [List.length_map, List.length_range'] at hzero
        exact hlen hzero
      rw [VecStream.appendNocopy, if_neg hlen, if_neg hne]
      exact appendBuff_refines h
        ⟨by rw [List.length_map, List.length_range'], hne, Or.inl ⟨addr, rfl, rfl, rfl⟩⟩
  cases call with
  | appendCopy data => exact hcopy data
  | appendNocopy addr len => exact hnocopy addr len
  | shiftText addr len => exact hnocopy addr len
  | shiftInt intv => exact hcopy (toDecimal intv.toInt)

/-! ### Sequences of calls -/

/-- What the calls append, in order. -/
def dataOf (mem : Nat → Byte) (calls : List EncodeCall) : List Byte :=
  (calls.map (EncodeCall.data mem)).flatten

/-- The abstract stream after the calls. -/
def appended (mem : Nat → Byte) (max : Nat) (calls : List EncodeCall) : EncodeStream :=
  calls.foldl (fun e call => e.append (call.data mem)) (.reset max)

theorem dataOf_snoc (calls : List EncodeCall) (call : EncodeCall) :
    dataOf mem (calls ++ [call]) = dataOf mem calls ++ call.data mem := by
  simp [dataOf]

theorem appended_snoc (max : Nat) (calls : List EncodeCall) (call : EncodeCall) :
    appended mem max (calls ++ [call]) = (appended mem max calls).append (call.data mem) := by
  rw [appended, List.foldl_append]
  rfl

theorem text_appended (max : Nat) (calls : List EncodeCall) :
    (appended mem max calls).Consistent ∧ (appended mem max calls).text = dataOf mem calls := by
  induction calls using List.reverseRecOn with
  | nil => exact ⟨rfl, rfl⟩
  | append_singleton calls call ih =>
      obtain ⟨hconsistent, htext⟩ := append_spec ih.1 (call.data mem)
      rw [appended_snoc, dataOf_snoc]
      exact ⟨hconsistent, by rw [htext, ih.2]⟩

theorem append_max (e : EncodeStream) (d : List Byte) : (e.append d).max = e.max := by
  unfold EncodeStream.append EncodeStream.checkMerge
  split
  · rfl
  · split <;> rfl

theorem max_appended (max : Nat) (calls : List EncodeCall) : (appended mem max calls).max = max := by
  induction calls using List.reverseRecOn with
  | nil => rfl
  | append_singleton calls call ih => rw [appended_snoc, append_max, ih]

/-- How many buffers there are after an append. -/
theorem length_append {e : EncodeStream} (h : e.Consistent) (hd : d ≠ []) :
    (e.append d).bufferList.length =
      if e.bufferList.length + 1 ≥ e.max then (e.bufferList.length + 2) / 2
      else e.bufferList.length + 1 := by
  have hvec : (e.vec ++ [d]).length = e.bufferList.length + 1 := by
    rw [List.length_append, show e.vec = e.bufferList from h]
    rfl
  rw [EncodeStream.append, if_neg (mt List.eq_nil_of_length_eq_zero hd), EncodeStream.checkMerge]
  simp only [hvec]
  split
  · rw [length_mergePairs, List.length_append, List.length_singleton]
  · rw [List.length_append, List.length_singleton]

/-- The number of vectors in use never passes the number of calls that append something, and after a
call it is below `max` as soon as that is 2. -/
theorem size_appended (mem : Nat → Byte) (max : Nat) (calls : List EncodeCall) :
    (appended mem max calls).bufferList.length ≤
        (calls.filter fun call => call.data mem ≠ []).length ∧
      (2 ≤ max → (appended mem max calls).bufferList.length < max) := by
  induction calls using List.reverseRecOn with
  | nil => exact ⟨Nat.le_refl 0, fun h => Nat.lt_of_lt_of_le Nat.zero_lt_two h⟩
  | append_singleton calls call ih =>
      obtain ⟨hcount, hroom⟩ := ih
      rw [appended_snoc, List.filter_append, List.length_append]
      by_cases hdata : call.data mem = []
      · rw [EncodeStream.append, if_pos (by rw [hdata]; rfl)]
        exact ⟨Nat.le_add_right_of_le hcount, hroom⟩
      · have hone : ([call].filter fun call => call.data mem ≠ []).length = 1 := by
          simp [hdata]
        rw [hone, length_append (text_appended max calls).1 hdata, max_appended]
        constructor
        · split <;> omega
        · intro htwo
          have hlt := hroom htwo
          split <;> omega

/-- The state after a sequence of calls. -/
theorem perform_all (mem : Nat → Byte) (vec : Nat → IoVec) (max : Nat) (calls : List EncodeCall) :
    ∃ s, calls.foldlM (VecStream.perform mem) (.reset vec max) = some s ∧
      Represents mem s (appended mem max calls) ∧
      s.bytes = UInt64.ofNat (dataOf mem calls).length := by
  induction calls using List.reverseRecOn with
  | nil => exact ⟨_, rfl, represents_reset vec max, rfl⟩
  | append_singleton calls call ih =>
      obtain ⟨s, hrun, hs, hbytes⟩ := ih
      obtain ⟨t, hcall, ht, htbytes, -⟩ := perform_refines hs call
      refine ⟨t, ?_, by rw [appended_snoc]; exact ht, ?_⟩
      · rw [List.foldlM_append, hrun]
        simp only [List.foldlM_cons, List.foldlM_nil, Option.bind_eq_bind, Option.bind_some, hcall]
        rfl
      · rw [htbytes, hbytes, dataOf_snoc, List.length_append, UInt64.ofNat_add]

/-- What is promised after some calls. -/
structure Delivered (mem : Nat → Byte) (max : Nat) (calls : List EncodeCall) (s : VecStream) : Prop where
  written : ∀ k ∈ s.written, k < max
  size : s.size ≤ max
  contents : s.contents mem = some (dataOf mem calls)
  bytes : s.bytes.toNat = (dataOf mem calls).length

/-- After each of the calls everything is as promised. -/
def DeliversAll (mem : Nat → Byte) (vec : Nat → IoVec) (max : Nat) (calls : List EncodeCall) : Prop :=
  ∀ before after, calls = before ++ after →
    ∃ s, before.foldlM (VecStream.perform mem) (.reset vec max) = some s ∧
      Delivered mem max before s

/-- There is a second vector, or at most one call appends anything; and the number of bytes is one
that a `size_t` can hold. -/
def HasRoom (mem : Nat → Byte) (max : Nat) (calls : List EncodeCall) : Prop :=
  (2 ≤ max ∨ (calls.filter fun call => call.data mem ≠ []).length ≤ 1) ∧
    (dataOf mem calls).length < 2 ^ 64

theorem HasRoom.before {max : Nat} {before after : List EncodeCall}
    (h : HasRoom mem max (before ++ after)) : HasRoom mem max before := by
  obtain ⟨hroom, hlen⟩ := h
  rw [List.filter_append, List.length_append] at hroom
  have hsplit : dataOf mem (before ++ after) = dataOf mem before ++ dataOf mem after := by
    simp [dataOf]
  rw [hsplit, List.length_append] at hlen
  exact ⟨hroom.imp_right fun h => by omega, by omega⟩

/-- With room, every write stays inside the array. -/
theorem written_inside {vec : Nat → IoVec} {max : Nat} (hmax : 0 < max) {calls : List EncodeCall}
    {s : VecStream} (h : HasRoom mem max calls)
    (hrun : calls.foldlM (VecStream.perform mem) (.reset vec max) = some s) :
    ∀ k ∈ s.written, k < max := by
  induction calls using List.reverseRecOn generalizing s with
  | nil =>
      cases hrun
      exact fun k hk => absurd hk List.not_mem_nil
  | append_singleton calls call ih =>
      obtain ⟨t, ht, hrep, -⟩ := perform_all mem vec max calls
      obtain ⟨u, hcall, -, -, hwritten⟩ := perform_refines hrep call
      rw [List.foldlM_append, ht] at hrun
      simp only [List.foldlM_cons, List.foldlM_nil, Option.bind_eq_bind, Option.bind_some, hcall] at hrun
      cases hrun
      have hbefore := ih h.before ht
      rw [hwritten]
      intro k hk
      rcases List.mem_append.mp hk with hk | hk
      · exact hbefore k hk
      by_cases hdata : call.data mem = []
      · rw [if_pos hdata] at hk
        cases hk
      rw [if_neg hdata] at hk
      obtain ⟨hcount, htwo⟩ := size_appended mem max calls
      have hmax' : t.max = max := hrep.2.2.symm.trans (max_appended max calls)
      have hone : ([call].filter fun call => call.data mem ≠ []).length = 1 := by
        simp [hdata]
      have hlt : t.size < max := by
        rw [hrep.size]
        rcases h.1 with hlarge | hsmall
        · exact htwo hlarge
        · rw [List.filter_append, List.length_append, hone] at hsmall
          omega
      rw [placesOf, hmax'] at hk
      rcases List.mem_cons.mp hk with rfl | hk
      · exact hlt
      · split at hk
        · have hplace := (List.mem_range'_1.mp hk).2
          omega
        · cases hk

/-- Among calls of which two append something, one appends behind another. -/
theorem exists_second (mem : Nat → Byte) {calls : List EncodeCall}
    (h : 2 ≤ (calls.filter fun call => call.data mem ≠ []).length) :
    ∃ before call after, calls = before ++ call :: after ∧ call.data mem ≠ [] ∧
      dataOf mem before ≠ [] := by
  induction calls with
  | nil =>
      rw [List.filter_nil, List.length_nil] at h
      omega
  | cons first rest ih =>
      by_cases hfirst : first.data mem = []
      · rw [List.filter_cons_of_neg (by simpa using hfirst)] at h
        obtain ⟨before, call, after, rfl, hcall, hbefore⟩ := ih h
        refine ⟨first :: before, call, after, rfl, hcall, ?_⟩
        have hdata : dataOf mem (first :: before) = first.data mem ++ dataOf mem before := rfl
        rwa [hdata, hfirst, List.nil_append]
      · rw [List.filter_cons_of_pos (by simpa using hfirst), List.length_cons] at h
        obtain ⟨call, hmem⟩ := List.exists_mem_of_length_pos (Nat.lt_of_succ_le (Nat.le_of_succ_le_succ h))
        obtain ⟨hmem, hcall⟩ := List.mem_filter.mp hmem
        obtain ⟨before, after, rfl⟩ := List.append_of_mem hmem
        exact ⟨first :: before, call, after, rfl, of_decide_eq_true hcall,
          List.append_ne_nil_of_left_ne_nil hfirst _⟩

theorem foldlM_snoc {vec : Nat → IoVec} {max : Nat} {calls : List EncodeCall} {call : EncodeCall}
    {t : VecStream} (hrun : calls.foldlM (VecStream.perform mem) (.reset vec max) = some s)
    (hcall : s.perform mem call = some t) :
    (calls ++ [call]).foldlM (VecStream.perform mem) (.reset vec max) = some t := by
  rw [List.foldlM_append, hrun]
  simp only [List.foldlM_cons, List.foldlM_nil, Option.bind_eq_bind, Option.bind_some, hcall]
  rfl

/-- With room, everything is as promised. -/
theorem delivered_of_hasRoom {vec : Nat → IoVec} {max : Nat} (hmax : 0 < max) {calls : List EncodeCall}
    (h : HasRoom mem max calls) :
    ∃ s, calls.foldlM (VecStream.perform mem) (.reset vec max) = some s ∧
      Delivered mem max calls s := by
  obtain ⟨s, hrun, hrep, hbytes⟩ := perform_all mem vec max calls
  obtain ⟨hcount, htwo⟩ := size_appended mem max calls
  refine ⟨s, hrun, written_inside hmax h hrun, ?_, ?_, ?_⟩
  · rw [hrep.size]
    rcases h.1 with hlarge | hsmall
    · exact Nat.le_of_lt (htwo hlarge)
    · omega
  · rw [hrep.contents, (text_appended max calls).2]
  · rw [hbytes, UInt64.toNat_ofNat_of_lt' h.2]

/-- Without a second vector, the second call that appends something writes behind the array. -/
theorem beyond_of_second {vec : Nat → IoVec} (before : List EncodeCall) (call : EncodeCall)
    (hcall : call.data mem ≠ []) (hbefore : dataOf mem before ≠ []) :
    ¬ ∃ s, (before ++ [call]).foldlM (VecStream.perform mem) (.reset vec 1) = some s ∧
      Delivered mem 1 (before ++ [call]) s := by
  rintro ⟨u, hrun, hdelivered⟩
  obtain ⟨s, hs, hrep, -⟩ := perform_all mem vec 1 before
  obtain ⟨t, ht, -, -, hwritten⟩ := perform_refines hrep call
  cases (foldlM_snoc hs ht).symm.trans hrun
  have hpos : s.size ≠ 0 := by
    intro hzero
    have hcontents := hrep.contents
    rw [VecStream.contents, hzero, (text_appended 1 before).2] at hcontents
    exact hbefore (Option.some.inj hcontents).symm
  have hplace : s.size ∈ u.written := by
    rw [hwritten, if_neg hcall, placesOf]
    simp
  have hlt := hdelivered.written s.size hplace
  omega

/-- For every array that has a vector: everything is as promised after each call exactly when there
is room. -/
theorem encodeMerging_iff (mem : Nat → Byte) (vec : Nat → IoVec) (max : Nat) (hmax : 0 < max)
    (calls : List EncodeCall) : DeliversAll mem vec max calls ↔ HasRoom mem max calls := by
  constructor
  · intro h
    constructor
    · by_contra hnot
      rw [not_or] at hnot
      obtain rfl : max = 1 := by omega
      obtain ⟨before, call, after, rfl, hcall, hbefore⟩ := exists_second mem
        (show 2 ≤ (calls.filter fun call => call.data mem ≠ []).length by omega)
      exact beyond_of_second before call hcall hbefore (h (before ++ [call]) after (by simp))
    · obtain ⟨s, -, hdelivered⟩ := h calls [] (List.append_nil _).symm
      rw [← hdelivered.bytes]
      exact s.bytes.toNat_lt
  · rintro h before after rfl
    exact delivered_of_hasRoom hmax h.before

/-- Three calls on an array of two vectors. -/
theorem encodeMerging_two :
    DeliversAll (fun _ => 0) (fun _ => ⟨.outside 0, 0⟩) 2
        [.appendCopy (ascii "a"), .appendNocopy 0 1, .shiftInt 5] ↔
      HasRoom (fun _ => 0) 2 [.appendCopy (ascii "a"), .appendNocopy 0 1, .shiftInt 5] :=
  encodeMerging_iff _ _ 2 (by decide) _

/-- With a single vector, the second string is written behind the array. -/
theorem encodeMerging_one :
    ¬ ∀ (mem : Nat → Byte) (vec : Nat → IoVec) (max : Nat), 0 < max → ∀ calls,
      DeliversAll mem vec max calls := by
  intro hevery
  have hdelivers := hevery (fun _ => 0) (fun _ => ⟨.outside 0, 0⟩) 1 (by decide)
    [.appendCopy (ascii "a"), .appendCopy (ascii "b")]
  exact beyond_of_second [.appendCopy (ascii "a")] (.appendCopy (ascii "b")) (by decide) (by decide)
    (hdelivers _ [] rfl)

end Workflow.Util
