/-
Module: Workflow.Proofs.RedisSplit
Layer: Proofs
Purpose: When the Redis parser is independent of the way its input is cut. A reply that has been read
  is never written again, so a blank length line whose conversion depends on the memory behind the
  message shows in the reply for good.
Trusted boundary: none
Main exports: Reply.typeAt, Pending, Frozen, Effect, forward_effect, meetsBlank_reaches, SplitIndependent,
  split_independent
-/
import Workflow.Proofs.RedisStream
import Mathlib.Data.List.Infix

namespace Workflow.Redis

open Workflow.Lib

/-! ### Replies at a path -/

namespace Reply

/-- The type of the reply at a path. -/
def typeAt (path : List Nat) (r : Reply) : Option ReplyType :=
  (r.get? path).map Reply.type

/-- The type below an element. -/
theorem typeAt_cons (i : Nat) (path : List Nat) (r : Reply) :
    typeAt (i :: path) r = r.element[i]?.bind (typeAt path) := by
  unfold typeAt
  simp only [get?]
  cases r.element[i]? <;> rfl

/-- Writing to a reply does not touch the types of those that are not below it. -/
theorem typeAt_update_of_not_above {f : Reply → Reply} {target path : List Nat} (h : ¬ target <+: path)
    (r : Reply) : typeAt path (update f target r) = typeAt path r := by
  induction target generalizing path r with
  | nil => exact absurd List.nil_prefix h
  | cons i target ih =>
      cases path with
      | nil => rfl
      | cons j path =>
          rw [typeAt_cons, typeAt_cons, update, List.getElem?_modify]
          split
          · rename_i hij
            have hnot : ¬ target <+: path := by
              rw [List.cons_prefix_cons] at h
              exact fun hp => h ⟨hij, hp⟩
            cases r.element[j]? with
            | none => rfl
            | some child => exact ih hnot child
          · cases r.element[j]? <;> rfl

/-- What is changed at a place is what is found there. -/
theorem get?_update_self (f : Reply → Reply) (path : List Nat) (r : Reply) :
    get? path (update f path r) = (get? path r).map f := by
  induction path generalizing r with
  | nil => rfl
  | cons i path ih =>
      simp only [update, get?, List.getElem?_modify_eq]
      cases r.element[i]? with
      | none => rfl
      | some child => exact ih child

theorem typeAt_update_self {f : Reply → Reply} {t : ReplyType} (h : ∀ r, (f r).type = t)
    {path : List Nat} {r : Reply} (hpath : (typeAt path r).isSome) :
    typeAt path (update f path r) = some t := by
  unfold typeAt at hpath ⊢
  rw [get?_update_self]
  cases hget : get? path r with
  | none => simp [hget] at hpath
  | some child => simp [h]

/-- A place below a place. -/
theorem get?_append (path rest : List Nat) (r : Reply) :
    get? (path ++ rest) r = (get? path r).bind (get? rest) := by
  induction path generalizing r with
  | nil => rfl
  | cons i path ih =>
      simp only [List.cons_append, get?]
      cases r.element[i]? with
      | none => rfl
      | some child => exact ih child

/-- The elements of an array that has just been made are there. -/
theorem typeAt_setArray {size i : Nat} (hi : i < size) {path : List Nat} {r : Reply}
    (hpath : (typeAt path r).isSome) :
    (typeAt (path ++ [i]) (update (setArray size) path r)).isSome := by
  unfold typeAt at hpath ⊢
  rw [get?_append, get?_update_self]
  cases hget : get? path r with
  | none => simp [hget] at hpath
  | some child => simp [get?, setArray, hi]

end Reply

/-! ### What a pass does to the replies -/

theorem toInt_toInt_add (a b : Int) : toInt (toInt a + b) = toInt (a + b) :=
  Int.bmod_add_bmod

/-- The ways in which a pass changes the replies and the list of those still to be read. -/
inductive Effect (p q : RedisParser) : Prop
  | keep (reply : q.reply = p.reply) (cur : q.cur = p.cur) (readList : q.readList = p.readList)
      (nleft : q.nleft = p.nleft)
  | write (f : Reply → Reply) (reply : q.reply = p.reply.update f p.cur) (cur : q.cur = p.cur)
      (readList : q.readList = p.readList) (nleft : q.nleft = p.nleft ∨ q.nleft = toInt p.nleft)
  | enter (n : Nat) (pos : 0 < n) (reply : q.reply = p.reply.update (.setArray n) p.cur)
      (cur : q.cur = p.cur ++ [0])
      (readList : q.readList =
        (List.range (n - 1)).map (fun i => p.cur ++ [i + 1]) ++ p.readList)
      (nleft : q.nleft = toInt (toInt (p.nleft + n) - 1))

/-- The same, with the number of elements that a pass announces. What is written to a reply without
elements gives it none. -/
inductive Change (p q : RedisParser) : Nat → Prop
  | keep (reply : q.reply = p.reply) (cur : q.cur = p.cur) (readList : q.readList = p.readList)
      (nleft : q.nleft = p.nleft) : Change p q 0
  | write (f : Reply → Reply) (reply : q.reply = p.reply.update f p.cur) (cur : q.cur = p.cur)
      (readList : q.readList = p.readList) (nleft : q.nleft = p.nleft ∨ q.nleft = toInt p.nleft)
      (leaf : ∀ r : Reply, r.element = [] → (f r).element = []) : Change p q 0
  | enter (n : Nat) (pos : 0 < n) (reply : q.reply = p.reply.update (.setArray n) p.cur)
      (cur : q.cur = p.cur ++ [0])
      (readList : q.readList =
        (List.range (n - 1)).map (fun i => p.cur ++ [i + 1]) ++ p.readList)
      (nleft : q.nleft = toInt (toInt (p.nleft + n) - 1)) : Change p q n

theorem Change.effect {p q : RedisParser} {n : Nat} (h : Change p q n) : Effect p q := by
  cases h with
  | keep reply cur readList nleft => exact .keep reply cur readList nleft
  | write f reply cur readList nleft leaf => exact .write f reply cur readList nleft
  | enter n pos reply cur readList nleft => exact .enter n pos reply cur readList nleft

/-- The elements that a line announces. -/
def lineAnnounces (n : Int) (p : RedisParser) : Nat :=
  if p.cmd = 42 then n.toNat else 0

theorem parseLineAs_change (n : Int) (p : RedisParser) :
    Change p (parseLineAs n p).2 (lineAnnounces n p) ∧
      ((parseLineAs n p).1 = 1 → (parseLineAs n p).2.cur = p.cur) := by
  have other : ∀ {c : Byte}, p.cmd = c → c ≠ 42 → ¬p.cmd = 42 := fun hc hne h => hne (hc ▸ h)
  unfold parseLineAs lineAnnounces
  dsimp only
  by_cases hstatus : p.cmd = 43
  · rw [if_pos hstatus, if_neg (other hstatus (by decide))]
    exact ⟨.write _ rfl rfl rfl (.inl rfl) fun _ h => h, fun _ => rfl⟩
  by_cases herror : p.cmd = 45
  · rw [if_neg hstatus, if_pos herror, if_neg (other herror (by decide))]
    exact ⟨.write _ rfl rfl rfl (.inl rfl) fun _ h => h, fun _ => rfl⟩
  by_cases hinteger : p.cmd = 58
  · rw [if_neg hstatus, if_neg herror, if_pos hinteger, if_neg (other hinteger (by decide))]
    split
    · exact ⟨.keep rfl rfl rfl rfl, fun _ => rfl⟩
    · exact ⟨.write _ rfl rfl rfl (.inl rfl) fun _ h => h, fun _ => rfl⟩
  by_cases hstring : p.cmd = 36
  · rw [if_neg hstatus, if_neg herror, if_neg hinteger, if_pos hstring,
      if_neg (other hstring (by decide))]
    split
    · exact ⟨.write _ rfl rfl rfl (.inl rfl) fun _ h => h, fun _ => rfl⟩
    · split
      · exact ⟨.write _ rfl rfl rfl (.inl rfl) fun _ h => h, fun _ => rfl⟩
      · exact ⟨.keep rfl rfl rfl rfl, fun _ => rfl⟩
  rw [if_neg hstatus, if_neg herror, if_neg hinteger, if_neg hstring]
  by_cases harray : p.cmd = 42
  · rw [if_pos harray, if_pos harray]
    split
    · rename_i hneg
      rw [Int.toNat_of_nonpos (Int.le_of_lt hneg)]
      exact ⟨.write _ rfl rfl rfl (.inl rfl) fun _ h => h, fun _ => rfl⟩
    · split
      · rename_i hzero
        subst hzero
        refine ⟨.write _ rfl rfl rfl (.inr ?_) fun _ _ => rfl, fun _ => rfl⟩
        simp only [Int.add_zero]
      · rename_i hneg hne
        refine ⟨.enter n.toNat (by omega) rfl rfl rfl ?_, fun h => by simp at h⟩
        simp only [enterArray, RedisParser.setCur]
        rw [Int.toNat_of_nonneg (by omega)]
  · rw [if_neg harray, if_neg harray]
    exact ⟨.keep rfl rfl rfl rfl, fun _ => rfl⟩

/-- The elements that a pass announces. -/
def announces (behind : List Byte) (p : RedisParser) : Nat :=
  if p.msgidx < p.msgbuf.length ∧ p.status = .untilCrlf ∧ p.search.2 then
    lineAnnounces (atoi ((p.msgbuf ++ behind).drop p.msgidx)) p
  else 0

/-- A pass keeps the replies, or writes to the current one, or goes into an array. A pass that
finishes a reply has not moved to another one. -/
theorem forward_change (behind : List Byte) (p : RedisParser) :
    Change p (forward behind p).2 (announces behind p) ∧
      ((forward behind p).1 = 1 → (forward behind p).2.cur = p.cur) := by
  unfold forward announces
  split
  · rename_i hout
    rw [if_neg fun h => absurd h.1 (Nat.not_lt.mpr hout)]
    exact ⟨.keep rfl rfl rfl rfl, fun _ => rfl⟩
  · rename_i hin
    cases hstatus : p.status with
    | getCmd =>
        simp only [parseCmd, reduceCtorEq, false_and, and_false, if_false]
        split <;> exact ⟨.keep rfl rfl rfl rfl, fun _ => rfl⟩
    | getCr =>
        simp only [parseCr, reduceCtorEq, false_and, and_false, if_false]
        split <;> exact ⟨.keep rfl rfl rfl rfl, fun _ => rfl⟩
    | getLf =>
        simp only [parseLf, reduceCtorEq, false_and, and_false, if_false]
        split <;> exact ⟨.keep rfl rfl rfl rfl, fun _ => rfl⟩
    | untilCrlf =>
        cases hfound : p.search.2 with
        | true =>
            simp only
            rw [parseCrlf_found hfound, if_pos ⟨Nat.not_le.mp hin, trivial, trivial⟩]
            obtain ⟨hchange, hcur⟩ := parseLineAs_change (atoi ((p.msgbuf ++ behind).drop p.msgidx))
              { p with scanned := p.scanned + p.search.1 }
            refine ⟨?_, hcur⟩
            generalize hn : lineAnnounces _ _ = n at hchange
            have hsame : lineAnnounces (atoi ((p.msgbuf ++ behind).drop p.msgidx)) p = n := hn
            rw [hsame]
            cases hchange with
            | keep reply cur readList nleft => exact .keep reply cur readList nleft
            | write f reply cur readList nleft leaf => exact .write f reply cur readList nleft leaf
            | enter n pos reply cur readList nleft => exact .enter n pos reply cur readList nleft
        | false =>
            simp only
            rw [parseCrlf_wait hfound, if_neg (by simp)]
            exact ⟨.keep rfl rfl rfl rfl, fun _ => rfl⟩
    | getNchar =>
        simp only [parseNchar, reduceCtorEq, false_and, and_false, if_false]
        split
        · exact ⟨.write _ rfl rfl rfl (.inl rfl) fun _ h => h, fun _ => rfl⟩
        · exact ⟨.keep rfl rfl rfl rfl, fun _ => rfl⟩
    | parseEnd =>
        simp only [reduceCtorEq, false_and, and_false, if_false]
        exact ⟨.keep rfl rfl rfl rfl, fun _ => trivial⟩

theorem forward_effect (behind : List Byte) (p : RedisParser) :
    Effect p (forward behind p).2 ∧
      ((forward behind p).1 = 1 → (forward behind p).2.cur = p.cur) :=
  ⟨(forward_change behind p).1.effect, (forward_change behind p).2⟩

/-! ### The replies still to be read -/

/-- None of the two replies contains the other. -/
def Apart (a b : List Nat) : Prop :=
  ¬ a <+: b ∧ ¬ b <+: a

/-- The replies still to be read exist, none contains another, and `nleft` counts them. -/
structure Pending (p : RedisParser) : Prop where
  nleft : p.nleft = toInt (p.readList.length + 1)
  apart : (p.cur :: p.readList).Pairwise Apart
  valid : ∀ path ∈ p.cur :: p.readList, (p.reply.typeAt path).isSome

theorem pending_init (more : List Byte) (size : Nat) : Pending (redisParserInit.ext more size) where
  nleft := by simp [RedisParser.ext, redisParserInit, toInt]
  apart := List.pairwise_singleton _ _
  valid := by
    intro path hpath
    obtain rfl := List.mem_singleton.mp hpath
    rfl

/-- A reply that overlaps with an element of an array is that element or overlaps with the array. -/
theorem apart_child {a path : List Nat} (h : Apart path a) (i : Nat) : Apart (path ++ [i]) a := by
  refine ⟨fun hp => h.1 ((List.prefix_append _ _).trans hp), fun hp => ?_⟩
  rcases List.prefix_concat_iff.mp hp with heq | hstarts
  · exact h.1 (heq ▸ List.prefix_append _ _)
  · exact h.2 hstarts

theorem apart_siblings {path : List Nat} {i j : Nat} (h : i ≠ j) :
    Apart (path ++ [i]) (path ++ [j]) := by
  constructor
  · intro hp
    rw [List.prefix_append_right_inj] at hp
    simp at hp
    exact h hp
  · intro hp
    rw [List.prefix_append_right_inj] at hp
    simp at hp
    exact h hp.symm

/-- The elements of an array, the first one in front. -/
theorem enter_children {n : Nat} (hpos : 0 < n) (path : List Nat) (rest : List (List Nat)) :
    (path ++ [0]) :: ((List.range (n - 1)).map (fun i => path ++ [i + 1]) ++ rest) =
      (List.range n).map (fun i => path ++ [i]) ++ rest := by
  obtain ⟨k, rfl⟩ : ∃ k, n = k + 1 := ⟨n - 1, by omega⟩
  rw [Nat.add_sub_cancel, List.range_succ_eq_map]
  simp only [List.map_cons, List.map_map, List.cons_append]
  rfl

theorem pending_effect {p q : RedisParser} (heffect : Effect p q) (h : Pending p) : Pending q := by
  have hapart := h.apart
  rw [List.pairwise_cons] at hapart
  -- a write to the current reply leaves the types of the others
  have hother : ∀ f, ∀ path ∈ p.readList,
      ((p.reply.update f p.cur).typeAt path).isSome := by
    intro f path hpath
    rw [Reply.typeAt_update_of_not_above (hapart.1 path hpath).1]
    exact h.valid path (List.mem_cons_of_mem _ hpath)
  have hcur := h.valid p.cur List.mem_cons_self
  cases heffect with
  | keep reply cur readList nleft =>
      exact ⟨by rw [nleft, readList, h.nleft], by rw [cur, readList]; exact h.apart,
        by rw [cur, readList, reply]; exact h.valid⟩
  | write f reply cur readList nleft =>
      refine ⟨?_, by rw [cur, readList]; exact h.apart, ?_⟩
      · rw [readList]
        rcases nleft with hsame | hwrap
        · rw [hsame, h.nleft]
        · rw [hwrap, h.nleft]
          exact Int.bmod_bmod
      · rw [cur, readList, reply]
        intro path hpath
        rcases List.mem_cons.mp hpath with rfl | hpath
        · unfold Reply.typeAt at hcur ⊢
          rw [Reply.get?_update_self]
          simpa using hcur
        · exact hother f path hpath
  | enter n pos reply cur readList nleft =>
      have hlist : q.cur :: q.readList = (List.range n).map (fun i => p.cur ++ [i]) ++ p.readList := by
        rw [cur, readList, enter_children pos]
      refine ⟨?_, ?_, ?_⟩
      · rw [nleft, readList, h.nleft, toInt_toInt_add, Int.sub_eq_add_neg, toInt_toInt_add]
        congr 1
        simp only [List.length_append, List.length_map, List.length_range, Nat.cast_add]
        omega
      · rw [hlist, List.pairwise_append]
        refine ⟨?_, hapart.2, ?_⟩
        · rw [List.pairwise_map]
          exact List.nodup_range.imp fun hne => apart_siblings hne
        · intro a ha b hb
          obtain ⟨i, -, rfl⟩ := List.mem_map.mp ha
          exact apart_child (hapart.1 b hb) i
      · rw [hlist, reply]
        intro path hpath
        rcases List.mem_append.mp hpath with hchild | hrest
        · obtain ⟨i, hi, rfl⟩ := List.mem_map.mp hchild
          exact Reply.typeAt_setArray (List.mem_range.mp hi) hcur
        · exact hother _ path hrest

/-- The count behind the last reply is 0. -/
theorem finishOne_nleft {p : RedisParser} (h : p.nleft = toInt (p.readList.length + 1)) :
    toInt (p.nleft - 1) = toInt p.readList.length := by
  rw [h, Int.sub_eq_add_neg, toInt_toInt_add]
  congr 1
  omega

/-- A parser that goes on after a reply has a next one to read. -/
theorem finishOne_cases {p : RedisParser} (h : p.nleft = toInt (p.readList.length + 1)) :
    (finishOne p).reply = p.reply ∧
      ((finishOne p).status = .parseEnd ∨
        (p.readList = (finishOne p).cur :: (finishOne p).readList ∧
          (finishOne p).nleft = toInt ((finishOne p).readList.length + 1))) := by
  have hcount := finishOne_nleft h
  unfold finishOne
  dsimp only
  split
  · rename_i hpos
    refine ⟨rfl, .inr ?_⟩
    cases hlist : p.readList with
    | nil =>
        rw [hcount, hlist] at hpos
        exact absurd hpos (by decide)
    | cons next rest =>
        refine ⟨rfl, ?_⟩
        simp only [List.tail_cons]
        rw [hcount, hlist]
        simp
  · exact ⟨rfl, .inl rfl⟩

theorem pending_after {behind : List Byte} {p : RedisParser} (h : Pending p)
    (hstatus : (afterForward (forward behind p)).status ≠ .parseEnd) :
    Pending (afterForward (forward behind p)) := by
  have hnext := pending_effect (forward_effect behind p).1 h
  generalize forward behind p = r at hnext hstatus
  unfold afterForward at hstatus ⊢
  split
  · rename_i hone
    rw [if_pos hone] at hstatus
    obtain ⟨hreply, hend | ⟨hlist, hnleft⟩⟩ := finishOne_cases hnext.nleft
    · exact absurd hend hstatus
    · refine ⟨hnleft, ?_, ?_⟩
      · rw [← hlist]
        exact hnext.apart.tail
      · rw [← hlist, hreply]
        exact fun path hpath => hnext.valid path (List.mem_cons_of_mem _ hpath)
  · exact hnext

/-! ### Replies that have been read -/

/-- The reply at the path has its type for good: it has been read, or only its line end is missing. -/
structure Frozen (path : List Nat) (t : ReplyType) (p : RedisParser) : Prop where
  type : p.reply.typeAt path = some t
  past : p.status = .parseEnd ∨ (∀ other ∈ p.cur :: p.readList, ¬ other <+: path) ∨
    (p.cur = path ∧ (p.status = .getCr ∨ p.status = .getLf) ∧
      (∀ other ∈ p.readList, ¬ other <+: path) ∧ p.nleft = toInt (p.readList.length + 1))

theorem frozen_finish {path : List Nat} {t : ReplyType} {p : RedisParser}
    (htype : p.reply.typeAt path = some t) (hpast : ∀ other ∈ p.readList, ¬ other <+: path)
    (hnleft : p.nleft = toInt (p.readList.length + 1)) : Frozen path t (finishOne p) := by
  obtain ⟨hreply, hend | ⟨hlist, -⟩⟩ := finishOne_cases hnleft
  · exact ⟨by rw [hreply]; exact htype, .inl hend⟩
  · exact ⟨by rw [hreply]; exact htype, .inr (.inl (hlist ▸ hpast))⟩

/-- A pass that waits for CR or LF keeps everything else. -/
theorem forward_closing (behind : List Byte) {p : RedisParser}
    (hstatus : p.status = .getCr ∨ p.status = .getLf) :
    ∃ msgidx status, (status = .getCr ∨ status = .getLf) ∧
      (forward behind p).2 = { p with msgidx := msgidx, status := status } := by
  unfold forward
  split
  · exact ⟨p.msgidx, p.status, hstatus, rfl⟩
  · rcases hstatus with hcr | hlf
    · simp only [hcr, parseCr]
      split
      · exact ⟨p.msgidx + 1, .getCr, .inl rfl, rfl⟩
      · exact ⟨p.msgidx + 1, .getLf, .inr rfl, rfl⟩
    · simp only [hlf, parseLf]
      split <;> exact ⟨p.msgidx + 1, .getLf, .inr rfl, rfl⟩

theorem past_effect {path : List Nat} {p q : RedisParser} (heffect : Effect p q)
    (hpast : ∀ other ∈ p.cur :: p.readList, ¬ other <+: path) :
    q.reply.typeAt path = p.reply.typeAt path ∧
      ∀ other ∈ q.cur :: q.readList, ¬ other <+: path := by
  have hcur := hpast p.cur List.mem_cons_self
  cases heffect with
  | keep reply cur readList nleft =>
      rw [reply, cur, readList]
      exact ⟨rfl, hpast⟩
  | write f reply cur readList nleft =>
      rw [reply, cur, readList, Reply.typeAt_update_of_not_above hcur]
      exact ⟨rfl, hpast⟩
  | enter n pos reply cur readList nleft =>
      rw [reply, cur, readList, enter_children pos, Reply.typeAt_update_of_not_above hcur]
      refine ⟨rfl, fun other hother => ?_⟩
      rcases List.mem_append.mp hother with hchild | hrest
      · obtain ⟨i, -, rfl⟩ := List.mem_map.mp hchild
        exact fun hp => hcur ((List.prefix_append _ _).trans hp)
      · exact hpast other (List.mem_cons_of_mem _ hrest)

theorem finishOne_past {path : List Nat} {p : RedisParser}
    (hpast : ∀ other ∈ p.cur :: p.readList, ¬ other <+: path) :
    (finishOne p).reply = p.reply ∧
      ∀ other ∈ (finishOne p).cur :: (finishOne p).readList, ¬ other <+: path := by
  have hlist : (finishOne p).reply = p.reply ∧ (finishOne p).cur = p.readList.headD p.cur ∧
      (finishOne p).readList = p.readList.tail := by
    unfold finishOne
    dsimp only
    split <;> exact ⟨rfl, rfl, rfl⟩
  rw [hlist.2.1, hlist.2.2]
  refine ⟨hlist.1, fun other hother => hpast other ?_⟩
  cases hread : p.readList with
  | nil =>
      rw [hread] at hother
      exact hother
  | cons next rest =>
      rw [hread] at hother
      exact List.mem_cons_of_mem _ hother

theorem frozen_forward {path : List Nat} {t : ReplyType} (behind : List Byte) {p : RedisParser}
    (h : Frozen path t p) :
    Frozen path t (forward behind p).2 ∧ Frozen path t (afterForward (forward behind p)) := by
  have hafter : ∀ r : Int × RedisParser, Frozen path t r.2 →
      (r.1 = 1 → Frozen path t (finishOne r.2)) →
      Frozen path t r.2 ∧ Frozen path t (afterForward r) := by
    intro r hstay hfinish
    refine ⟨hstay, ?_⟩
    unfold afterForward
    split
    · exact hfinish ‹_›
    · exact hstay
  refine hafter _ ?_ ?_
  all_goals rcases h.past with hend | hpast | ⟨hcur, hstatus, hothers, hnleft⟩
  · unfold forward
    split
    · exact h
    · simp only [hend]
      exact h
  · obtain ⟨htype, hnext⟩ := past_effect (forward_effect behind p).1 hpast
    exact ⟨htype.trans h.type, .inr (.inl hnext)⟩
  · obtain ⟨msgidx, status, hclosing, heq⟩ := forward_closing behind hstatus
    rw [heq]
    exact ⟨h.type, .inr (.inr ⟨hcur, hclosing, hothers, hnleft⟩)⟩
  · intro hone
    unfold forward at hone
    split at hone
    · simp at hone
    · simp only [hend] at hone
      simp at hone
  · intro _
    obtain ⟨htype, hnext⟩ := past_effect (forward_effect behind p).1 hpast
    obtain ⟨hreply, hrest⟩ := finishOne_past hnext
    exact ⟨by rw [hreply, htype]; exact h.type, .inr (.inl hrest)⟩
  · intro _
    obtain ⟨msgidx, status, hclosing, heq⟩ := forward_closing behind hstatus
    rw [heq]
    exact frozen_finish h.type hothers hnleft

theorem frozen_loop {path : List Nat} {t : ReplyType} (behind : List Byte) (p : RedisParser)
    (h : Frozen path t p) : Frozen path t (parseLoop behind p).2 := by
  obtain ⟨hstay, hafter⟩ := frozen_forward behind h
  induction p using parseLoop.induct behind with
  | case1 p hgo hstatus ih =>
      rw [parseLoop_next hgo hstatus]
      obtain ⟨hstay', hafter'⟩ := frozen_forward behind hafter
      exact ih hafter hstay' hafter'
  | case2 p hgo hstatus =>
      rw [parseLoop, if_pos hgo, if_neg hstatus]
      exact hafter
  | case3 p hgo htwo =>
      rw [parseLoop, if_neg hgo, if_pos htwo]
      exact hstay
  | case4 p hgo htwo =>
      rw [parseLoop, if_neg hgo, if_neg htwo]
      exact hstay

/-- The type of a reply that has been read does not change in later calls. -/
theorem frozen_append {path : List Nat} {t : ReplyType} (behind buf : List Byte) {p : RedisParser}
    (h : Frozen path t p) : Frozen path t (redisParserAppendMessage behind buf p).2.2 := by
  unfold redisParserAppendMessage
  split
  · exact h
  · exact frozen_loop behind _ ⟨h.type, h.past⟩

theorem frozen_appendAll {path : List Nat} {t : ReplyType} (behind : Nat → List Byte)
    (chunks : List (List Byte)) (p : RedisParser) (h : Frozen path t p) :
    Frozen path t (appendAll behind chunks p).2.2 := by
  induction chunks generalizing p with
  | nil => exact h
  | cons chunk chunks ih =>
      have hcall := frozen_append (behind chunks.length) chunk h
      rw [appendAll]
      dsimp only
      split
      · exact ih _ hcall
      · exact hcall

/-! ### Up to the blank line -/

/-- The parser on the beginning of its message. -/
def RedisParser.cut (p : RedisParser) (m : List Byte) (size : Nat) : RedisParser :=
  { p with msgbuf := m, bufsize := size }

theorem cut_ext {p : RedisParser} {m more : List Byte} (h : p.msgbuf = m ++ more) (size : Nat) :
    (p.cut m size).ext more p.bufsize = p := by
  unfold RedisParser.cut RedisParser.ext
  dsimp only
  rw [← h]

theorem ext_cut {p : RedisParser} {m : List Byte} (h : p.msgbuf = m) (more : List Byte) (k : Nat) :
    (p.ext more k).cut m p.bufsize = p := by
  unfold RedisParser.cut RedisParser.ext
  dsimp only
  rw [← h]

theorem parseLineAs_msgidx (n : Int) (p : RedisParser) :
    (parseLineAs n p).2.msgidx = p.msgidx + p.scanned + 2 := by
  unfold parseLineAs
  dsimp only
  repeat' split
  all_goals rfl

/-- A pass that needs more than the beginning of the message ends behind it. -/
theorem forward_wait_cut {behind behind' : List Byte} {p : RedisParser} {m more : List Byte}
    {size : Nat} (hbuf : p.msgbuf = m ++ more)
    (hgo : (forward behind p).1 = 0 ∨ (forward behind p).1 = 1) (hstart : p.msgidx < m.length)
    (hwait : (forward behind' (p.cut m size)).1 = 2) : m.length < (forward behind p).2.msgidx := by
  have hin : p.msgidx < p.msgbuf.length := by
    rw [hbuf, List.length_append]
    omega
  rcases forward_wait hwait with hout | ⟨-, hstatus, hnot⟩ | ⟨-, hstatus, hshort⟩
  · exact absurd hout (Nat.not_le.mpr hstart)
  · have hstatus : p.status = .untilCrlf := hstatus
    rw [forward_crlf hin hstatus] at hgo ⊢
    cases hfound : p.search.2 with
    | false =>
        rw [parseCrlf_wait hfound] at hgo
        simp at hgo
    | true =>
        have hbeyond := searchCrlf_beyond hnot more
        simp only [RedisParser.cut] at hbeyond
        rw [← hbuf] at hbeyond
        have hbeyond : m.length ≤ p.msgidx + p.scanned + p.search.1 + 1 := hbeyond hfound
        rw [parseCrlf_found hfound, parseLineAs_msgidx]
        simp only
        omega
  · have hstatus : p.status = .getNchar := hstatus
    have hshort : m.length < p.msgidx + p.nchar := hshort
    rw [forward_nchar hin hstatus] at hgo ⊢
    unfold parseNchar at hgo ⊢
    split
    · exact hshort
    · rename_i hmore
      rw [if_neg hmore] at hgo
      simp at hgo

/-- A pass that does not get past the beginning of the message gives the same there. -/
theorem forward_cut {behind : List Byte} {p : RedisParser} {m more : List Byte}
    (hbuf : p.msgbuf = m ++ more) (hgo : (forward behind p).1 = 0 ∨ (forward behind p).1 = 1)
    (hblank : ¬ p.AtBlank) (hstart : p.msgidx < m.length)
    (hend : (forward behind p).2.msgidx ≤ m.length) (behind' : List Byte) (size : Nat) :
    ∃ k, forward behind' (p.cut m size) = ((forward behind p).1, (forward behind p).2.cut m k) := by
  have hwait : (forward behind' (p.cut m size)).1 ≠ 2 := fun hwait =>
    absurd (forward_wait_cut hbuf hgo hstart hwait) (Nat.not_lt.mpr hend)
  have hnot : ¬ (p.cut m size).AtBlank := by
    intro h
    have h' := AtBlank.ext h more p.bufsize
    rw [cut_ext hbuf] at h'
    exact hblank h'
  have hsame := forward_ext hwait hnot behind more p.bufsize
  rw [cut_ext hbuf] at hsame
  have hmsg : (forward behind' (p.cut m size)).2.msgbuf = m := (forward_moves _ _).1
  refine ⟨(forward behind' (p.cut m size)).2.bufsize, ?_⟩
  rw [hsame, ext_cut hmsg]

theorem afterForward_cut (ret : Int) (p : RedisParser) (m : List Byte) (size : Nat) :
    afterForward (ret, p.cut m size) = (afterForward (ret, p)).cut m size := by
  unfold afterForward finishOne RedisParser.cut
  dsimp only
  repeat' split
  all_goals rfl

theorem afterForward_msgidx (r : Int × RedisParser) : (afterForward r).msgidx = r.2.msgidx := by
  unfold afterForward
  split
  · exact (finishOne_frame r.2).2.1
  · rfl

/-- A parser that comes to a blank length line comes there on the bytes up to the end of that
line. -/
structure Reaches (p q : RedisParser) (m more : List Byte) : Prop where
  msgbuf : p.msgbuf = m ++ more
  blank : q.AtBlank
  line_end : q.msgidx + q.scanned + q.search.1 + 2 = m.length
  msgbuf_blank : q.msgbuf = m
  le : p.msgidx ≤ q.msgidx
  pending : Pending p → Pending q
  same : ∀ behind size, ∃ k, parseLoop behind (p.cut m size) = parseLoop behind (q.cut m k)

theorem reaches_here {p : RedisParser} (h : p.AtBlank) : ∃ q m more, Reaches p q m more := by
  have hfound := h.found
  obtain ⟨hin, -⟩ := searchCrlf_found hfound
  change p.msgidx + p.scanned + p.search.1 + 1 < p.msgbuf.length at hin
  set m := p.msgbuf.take (p.msgidx + p.scanned + p.search.1 + 2) with hm
  have hbuf : p.msgbuf = m ++ p.msgbuf.drop (p.msgidx + p.scanned + p.search.1 + 2) :=
    (List.take_append_drop _ _).symm
  have hlen : m.length = p.msgidx + p.scanned + p.search.1 + 2 := by
    rw [hm, List.length_take]
    omega
  -- the line end is inside, so the search finds it there too
  have hfound' : (p.cut m 0).search.2 = true := by
    by_contra hnot
    have hbeyond := searchCrlf_beyond (Bool.not_eq_true _ ▸ hnot)
      (p.msgbuf.drop (p.msgidx + p.scanned + p.search.1 + 2))
    simp only [RedisParser.cut] at hbeyond
    rw [← hbuf] at hbeyond
    have hbeyond : m.length ≤ p.msgidx + p.scanned + p.search.1 + 1 := hbeyond hfound
    omega
  have hsearch := search_ext hfound' (p.msgbuf.drop (p.msgidx + p.scanned + p.search.1 + 2)) p.bufsize
  have hline := line_ext hfound' (p.msgbuf.drop (p.msgidx + p.scanned + p.search.1 + 2)) p.bufsize
  rw [cut_ext hbuf] at hsearch hline
  refine ⟨p.cut m 0, m, _, hbuf, ⟨h.status, h.cmd, hfound', ?_⟩, ?_, rfl, Nat.le_refl _, ?_, ?_⟩
  · rw [← hline]
    exact h.blank
  · rw [← hsearch, hlen]
    rfl
  · exact fun hp => ⟨hp.nleft, hp.apart, hp.valid⟩
  · exact fun behind size => ⟨size, rfl⟩

theorem meetsBlank_reaches {trace : List Byte} {p : RedisParser} (h : MeetsBlank trace p) :
    ∃ q m more, Reaches p q m more := by
  induction h with
  | here hblank => exact reaches_here hblank
  | @later p hgo hstatus hmeets ih =>
      by_cases hblank : p.AtBlank
      · exact reaches_here hblank
      obtain ⟨q, m, more, hreach⟩ := ih
      obtain ⟨hmsg, hmove⟩ := forward_moves trace p
      have hbuf : p.msgbuf = m ++ more := by
        rw [← hmsg, ← hreach.msgbuf]
        exact (afterForward_msgbuf _).symm
      have hend := hreach.line_end
      have hle := hreach.le
      rw [afterForward_msgidx] at hle
      have hstep : p.msgidx ≤ (forward trace p).2.msgidx := by
        rcases (hmove hgo).2 with hlt | ⟨-, -, hle, -⟩
        · exact Nat.le_of_lt hlt
        · exact hle
      refine ⟨q, m, more, hbuf, hreach.blank, hend, hreach.msgbuf_blank, by omega, ?_, ?_⟩
      · exact fun hp => hreach.pending (pending_after hp hstatus)
      · intro behind size
        obtain ⟨k, hcut⟩ := forward_cut hbuf hgo hblank (by omega) (by omega) behind size
        obtain ⟨k', hsame⟩ := hreach.same behind k
        refine ⟨k', ?_⟩
        rw [← hsame, parseLoop_next, hcut, afterForward_cut]
        · rw [hcut]
          exact hgo
        · rw [hcut, afterForward_cut]
          exact hstatus

/-! ### The length read from a blank line -/

/-- At a blank line that ends the message the length is read from the memory behind it. -/
theorem forward_blank {q : RedisParser} (h : q.AtBlank)
    (hend : q.msgidx + q.scanned + q.search.1 + 2 = q.msgbuf.length) (behind : List Byte) :
    forward behind q = parseLineAs (atoi behind) { q with scanned := q.scanned + q.search.1 } := by
  have hblank : ∀ c ∈ q.line ++ [CR, LF], isSpace c = true := by
    intro c hc
    rcases List.mem_append.mp hc with hline | hcrlf
    · exact h.blank c hline
    · rcases List.mem_pair.mp hcrlf with rfl | rfl <;> decide
  have hdrop : (q.msgbuf ++ behind).drop q.msgidx = q.line ++ [CR, LF] ++ behind := by
    rw [drop_eq_line h.found, hend, List.drop_length]
    simp only [List.nil_append, List.append_assoc, List.cons_append]
  rw [forward_crlf (by omega) h.status, parseCrlf_found h.found, hdrop, atoi_blank hblank]

/-- Read as -1, the line makes the reply nil. -/
theorem frozen_negative {q : RedisParser} (hcmd : q.cmd = 36 ∨ q.cmd = 42) (h : Pending q) :
    (parseLineAs (-1) q).1 = 1 ∧ Frozen q.cur .nil (afterForward (parseLineAs (-1) q)) := by
  have heq : parseLineAs (-1) q =
      (1, ({ q with msgidx := q.msgidx + q.scanned + 2 } : RedisParser).setCur .setNull) := by
    unfold parseLineAs
    rcases hcmd with hcmd | hcmd <;> simp [hcmd]
  rw [heq]
  refine ⟨rfl, frozen_finish ?_ ?_ h.nleft⟩
  · exact Reply.typeAt_update_self (f := Reply.setNull) (fun _ => rfl) (h.valid _ List.mem_cons_self)
  · exact fun other hother => (List.rel_of_pairwise_cons h.apart hother).2

/-- Read as 0, the line makes the reply a string or an array. -/
theorem frozen_zero {q : RedisParser} (hcmd : q.cmd = 36 ∨ q.cmd = 42) (h : Pending q) :
    ((parseLineAs 0 q).1 = 0 ∨ (parseLineAs 0 q).1 = 1) ∧
      Frozen q.cur (if q.cmd = 36 then .string else .array) (afterForward (parseLineAs 0 q)) := by
  have hothers : ∀ other ∈ q.readList, ¬ other <+: q.cur :=
    fun other hother => (List.rel_of_pairwise_cons h.apart hother).2
  have hvalid := h.valid _ List.mem_cons_self
  rcases hcmd with hcmd | hcmd
  · have heq : parseLineAs 0 q =
        (0, { ({ q with msgidx := q.msgidx + q.scanned + 2 } : RedisParser).setCur
          (.setString q.msgidx 0) with status := .getCr }) := by
      unfold parseLineAs
      simp [hcmd]
    rw [heq, if_pos hcmd]
    refine ⟨.inl rfl, ?_, .inr (.inr ⟨rfl, .inl rfl, hothers, h.nleft⟩)⟩
    exact Reply.typeAt_update_self (f := Reply.setString q.msgidx 0) (fun _ => rfl) hvalid
  · have heq : parseLineAs 0 q =
        (1, { ({ q with msgidx := q.msgidx + q.scanned + 2 } : RedisParser).setCur
          (.setArray 0) with nleft := toInt q.nleft }) := by
      unfold parseLineAs
      simp [hcmd, RedisParser.setCur]
    rw [heq, if_neg (by rw [hcmd]; decide)]
    refine ⟨.inr rfl, frozen_finish ?_ hothers ?_⟩
    · exact Reply.typeAt_update_self (f := Reply.setArray 0) (fun _ => rfl) hvalid
    · simp only [RedisParser.setCur]
      rw [h.nleft]
      exact Int.bmod_bmod

theorem frozen_start {path : List Nat} {t : ReplyType} {behind : List Byte} {p : RedisParser}
    (hgo : (forward behind p).1 = 0 ∨ (forward behind p).1 = 1)
    (h : Frozen path t (afterForward (forward behind p))) :
    Frozen path t (parseLoop behind p).2 := by
  rw [parseLoop, if_pos hgo]
  split
  · exact frozen_loop behind _ h
  · exact h

/-! ### Independence of the split -/

/-- However the bytes are cut, and whatever lies in memory behind them, the calls report the same as
one call on all bytes. -/
def SplitIndependent (bytes : List Byte) : Prop :=
  ∀ (behind : Nat → List Byte) (behind' : List Byte) (chunks : List (List Byte)),
    chunks.flatten = bytes →
      SameOutcome (appendAll behind chunks redisParserInit)
        (redisParserAppendMessage behind' bytes redisParserInit)

theorem meetsBlank_refresh {trace : List Byte} {p : RedisParser} (h : MeetsBlank trace p)
    (size : Nat) : MeetsBlank trace (p.ext [] size) := by
  induction h with
  | here hblank => exact .here (AtBlank.ext hblank [] size)
  | @later p hgo hstatus hmeets ih =>
      by_cases hblank : p.AtBlank
      · exact .here (AtBlank.ext hblank [] size)
      have hwait : (forward trace p).1 ≠ 2 := by omega
      have hsame := forward_ext hwait hblank trace [] size
      refine .later (by rw [hsame]; exact hgo) ?_ ?_
      · rw [hsame, afterForward_ext]
        exact hstatus
      · rw [hsame, afterForward_ext]
        exact ih

theorem splitIndependent_of_not_meetsBlank {bytes : List Byte} (hlen : bytes.length < 2 ^ 64)
    (h : ¬ MeetsBlank [] (redisParserInit.ext bytes 0)) : SplitIndependent bytes := by
  intro behind behind' chunks hflat
  have hstatus : redisParserInit.status ≠ .parseEnd := by decide
  obtain ⟨size, hcall⟩ := append_report behind' bytes hstatus
  rw [hcall]
  cases chunks with
  | nil =>
      subst hflat
      have hwait : forward behind' (redisParserInit.ext [] size) =
          (2, redisParserInit.ext [] size) := forward_out (Nat.le_refl 0)
      rw [List.flatten_nil, parseLoop, hwait]
      exact ⟨rfl, rfl, rfl, fun _ => rfl⟩
  | cons chunk chunks =>
      have hnone : ¬ MeetsBlank [] (redisParserInit.ext bytes size) := by
        intro hmeets
        have hmeets := meetsBlank_refresh hmeets 0
        rw [ext_ext, List.append_nil] at hmeets
        exact h hmeets
      subst hflat
      refine appendAll_report behind chunks chunk redisParserInit hstatus hnone ?_ behind'
      simpa [redisParserInit] using hlen

/-- The first piece ends with the blank line: what is read from the memory behind it stays. -/
theorem frozen_of_reaches {bytes m more : List Byte} {q : RedisParser} {t : ReplyType}
    (behind : List Byte) (hreach : Reaches (redisParserInit.ext bytes 0) q m more)
    (hread : ∀ u : RedisParser, u.cmd = q.cmd → Pending u →
      ((parseLineAs (atoi behind) u).1 = 0 ∨ (parseLineAs (atoi behind) u).1 = 1) ∧
        Frozen u.cur t (afterForward (parseLineAs (atoi behind) u))) :
    Frozen q.cur t (appendAll (fun _ => behind) [m, more] redisParserInit).2.2 := by
  have hq := hreach.pending (pending_init bytes 0)
  have hloop : ∀ size, Frozen q.cur t (parseLoop behind (redisParserInit.ext m size)).2 := by
    intro size
    obtain ⟨k, hsame⟩ := hreach.same behind size
    have hsame : parseLoop behind (redisParserInit.ext m size) = parseLoop behind (q.cut m k) :=
      hsame
    have hcut : q.cut m k = { q with bufsize := k } := by
      rw [RedisParser.cut, ← hreach.msgbuf_blank]
    have hline := forward_blank (q := { q with bufsize := k })
      ⟨hreach.blank.status, hreach.blank.cmd, hreach.blank.found, hreach.blank.blank⟩
      (hreach.line_end.trans (by rw [hreach.msgbuf_blank])) behind
    obtain ⟨hgo, hfrozen⟩ := hread
      { q with bufsize := k, scanned := q.scanned + q.search.1 } rfl ⟨hq.nleft, hq.apart, hq.valid⟩
    rw [hsame, hcut]
    exact frozen_start (by rw [hline]; exact hgo) (by rw [hline]; exact hfrozen)
  have hcall : Frozen q.cur t (redisParserAppendMessage behind m redisParserInit).2.2 :=
    hloop _
  rw [appendAll]
  dsimp only
  split
  · exact frozen_appendAll _ _ _ hcall
  · exact hcall

theorem not_meetsBlank_of_splitIndependent {bytes : List Byte} (h : SplitIndependent bytes) :
    ¬ MeetsBlank [] (redisParserInit.ext bytes 0) := by
  intro hmeets
  obtain ⟨q, m, more, hreach⟩ := meetsBlank_reaches hmeets
  have hcmd := hreach.blank.cmd
  have hflat : [m, more].flatten = bytes := by
    rw [List.flatten_cons, List.flatten_cons, List.flatten_nil, List.append_nil]
    exact hreach.msgbuf.symm
  -- nothing behind the first piece, and "-1" behind it
  have hzero := frozen_of_reaches [] hreach fun u hu hp => by
    have hread := frozen_zero (hu ▸ hcmd) hp
    rw [hu] at hread
    exact hread
  have hnegative := frozen_of_reaches [45, 49] hreach fun u hu hp =>
    (frozen_negative (hu ▸ hcmd) hp).imp_left .inr
  have htype := hzero.type
  rw [(h (fun _ => []) [] _ hflat).reply, ← (h (fun _ => [45, 49]) [] _ hflat).reply,
    hnegative.type] at htype
  split at htype <;> simp at htype

/-- The calls on the pieces of a message report the same as one call on all of it, whatever the
pieces and the memory behind them, exactly when the parser, on its way through the message, does not
come to the length line of a string or an array that consists of blanks. -/
theorem split_independent (bytes : List Byte) (hlen : bytes.length < 2 ^ 64) :
    SplitIndependent bytes ↔ ¬ MeetsBlank [] (redisParserInit.ext bytes 0) :=
  ⟨not_meetsBlank_of_splitIndependent, splitIndependent_of_not_meetsBlank hlen⟩

/-- The bytes `+OK CR LF` are read in the same way however they are cut. -/
theorem status_split_independent :
    [43, 79, 75, 13, 10].length < 2 ^ 64 ∧ SplitIndependent [43, 79, 75, 13, 10] := by
  refine ⟨by decide, (split_independent _ (by decide)).mpr fun h => ?_⟩
  cases h with
  | here hblank => exact absurd hblank.status (by decide)
  | later hgo hstatus hmeets =>
      cases hmeets with
      | here hblank => exact absurd hblank.cmd (by decide +kernel)
      | later hgo' hstatus' hmeets' => exact hstatus' (by decide +kernel)

/-- The bytes `$ CR LF 1 CR LF` are a reply when they arrive together, and an error when the first
line arrives alone. -/
theorem blank_length_depends_on_split :
    ¬ ∀ bytes : List Byte, bytes.length < 2 ^ 64 → SplitIndependent bytes := by
  intro h
  have hcode := (h [36, 13, 10, 49, 13, 10] (by decide) (fun _ => []) []
    [[36, 13, 10], [49, 13, 10]] rfl).code
  have hpieces : (appendAll (fun _ => []) [[36, 13, 10], [49, 13, 10]] redisParserInit).1 = -2 := by
    decide +kernel
  have hwhole : (redisParserAppendMessage [] [36, 13, 10, 49, 13, 10] redisParserInit).1 = 1 := by
    decide +kernel
  rw [hpieces, hwhole] at hcode
  exact absurd hcode (by decide)

end Workflow.Redis
