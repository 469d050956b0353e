/-
Module: Workflow.Proofs.RedisState
Layer: Proofs
Purpose: The state of the Redis parser between its passes, against the tree of replies. The leaves of
  the tree, from left to right, are those that have been filled, the one that is being parsed and the
  ones on the list of those still to be read, in this order.
Trusted boundary: none
Main exports: Reply.leaves, Reply.unstarted, Reply.leaves_update, Tracked, Reached, StateInvariant,
  redis_state
-/
import Workflow.Proofs.RedisRoundTrip
import Mathlib.Data.List.Nodup

namespace Workflow.Redis

open Workflow.Lib

/-! ### The leaves of a tree of replies -/

namespace Reply

mutual

/-- The paths of the replies without elements, from left to right. -/
def leaves : Reply → List (List Nat)
  | ⟨_, _, _, _, []⟩ => [[]]
  | ⟨_, _, _, _, e :: es⟩ => leavesFrom 0 (e :: es)

/-- The leaves of elements that are numbered from `i` on. -/
def leavesFrom (i : Nat) : List Reply → List (List Nat)
  | [] => []
  | e :: es => (leaves e).map (i :: ·) ++ leavesFrom (i + 1) es

end

theorem leaves_nil {r : Reply} (h : r.element = []) : leaves r = [[]] := by
  obtain ⟨_, _, _, _, element⟩ := r
  subst h
  rfl

theorem leaves_cons {r : Reply} (h : r.element ≠ []) : leaves r = leavesFrom 0 r.element := by
  obtain ⟨_, _, _, _, element⟩ := r
  cases element with
  | nil => exact absurd rfl h
  | cons e es => rfl

theorem mem_leavesFrom {es : List Reply} {i : Nat} {path : List Nat} (h : path ∈ leavesFrom i es) :
    ∃ j e rest, path = (i + j) :: rest ∧ es[j]? = some e ∧ rest ∈ leaves e := by
  induction es generalizing i with
  | nil => exact absurd h List.not_mem_nil
  | cons e es ih =>
      rcases List.mem_append.mp h with hfirst | hrest
      · obtain ⟨rest, hrest, rfl⟩ := List.mem_map.mp hfirst
        exact ⟨0, e, rest, rfl, rfl, hrest⟩
      · obtain ⟨j, e', rest, rfl, he, hmem⟩ := ih hrest
        exact ⟨j + 1, e', rest, by rw [Nat.add_assoc, Nat.add_comm 1], he, hmem⟩

/-- There is a reply without elements at every leaf. -/
theorem get?_of_mem_leaves {path : List Nat} {r : Reply} (h : path ∈ leaves r) :
    ∃ x, get? path r = some x ∧ x.element = [] := by
  induction path generalizing r with
  | nil =>
      refine ⟨r, rfl, ?_⟩
      by_contra hne
      rw [leaves_cons hne] at h
      obtain ⟨j, e, rest, hpath, -, -⟩ := mem_leavesFrom h
      cases hpath
  | cons i path ih =>
      by_cases hne : r.element = []
      · rw [leaves_nil hne] at h
        cases List.mem_singleton.mp h
      · rw [leaves_cons hne] at h
        obtain ⟨j, e, rest, hpath, he, hmem⟩ := mem_leavesFrom h
        rw [Nat.zero_add] at hpath
        cases hpath
        obtain ⟨x, hx, hleaf⟩ := ih hmem
        exact ⟨x, by rw [get?, he]; exact hx, hleaf⟩

mutual

theorem leaves_nodup : (r : Reply) → (leaves r).Nodup
  | ⟨_, _, _, _, []⟩ => List.nodup_singleton _
  | ⟨_, _, _, _, e :: es⟩ => leavesFrom_nodup 0 (e :: es)

theorem leavesFrom_nodup (i : Nat) : (es : List Reply) → (leavesFrom i es).Nodup
  | [] => List.nodup_nil
  | e :: es => by
      rw [leavesFrom, List.nodup_append]
      refine ⟨(leaves_nodup e).map fun a b h => (List.cons.inj h).2, leavesFrom_nodup (i + 1) es, ?_⟩
      intro a ha b hb heq
      obtain ⟨rest, -, rfl⟩ := List.mem_map.mp ha
      obtain ⟨j, _, rest', rfl, -, -⟩ := mem_leavesFrom hb
      have hhead := (List.cons.inj heq).1
      omega

end

/-- What an update of a leaf does to the leaves: those of the new reply take its place. -/
def grow (f : Reply → Reply) (path : List Nat) (x : Reply) (q : List Nat) : List (List Nat) :=
  if q = path then (leaves (f x)).map (path ++ ·) else [q]

theorem grow_cons (f : Reply → Reply) (path : List Nat) (x : Reply) (i j : Nat) (q : List Nat) :
    grow f (i :: path) x (j :: q) = if j = i then (grow f path x q).map (i :: ·) else [j :: q] := by
  unfold grow
  by_cases hij : j = i
  · subst hij
    by_cases hq : q = path
    · subst hq
      simp
    · simp [hq]
  · simp [hij]

theorem leavesFrom_modify {f : Reply → Reply} {path : List Nat} {x e : Reply} {i k : Nat}
    {es : List Reply} (he : es[i]? = some e)
    (ih : leaves (update f path e) = (leaves e).flatMap (grow f path x)) :
    leavesFrom k (es.modify i (update f path)) =
      (leavesFrom k es).flatMap (grow f ((k + i) :: path) x) := by
  induction es generalizing i k with
  | nil => cases he
  | cons e' es ih' =>
      cases i with
      | zero =>
          cases he
          have hother : (leavesFrom (k + 1) es).flatMap (grow f (k :: path) x) =
              leavesFrom (k + 1) es := by
            have hsame : ∀ q ∈ leavesFrom (k + 1) es, grow f (k :: path) x q = [q] := by
              intro q hq
              obtain ⟨j, _, rest, rfl, -, -⟩ := mem_leavesFrom hq
              rw [grow_cons, if_neg (by omega)]
            rw [List.flatMap_congr hsame, List.flatMap_singleton']
          have hfirst : ((leaves e).map (k :: ·)).flatMap (grow f (k :: path) x) =
              (leaves (update f path e)).map (k :: ·) := by
            rw [List.flatMap_map, ih, List.map_flatMap]
            refine List.flatMap_congr fun q _ => ?_
            rw [grow_cons, if_pos rfl]
          rw [List.modify_zero_cons, leavesFrom, leavesFrom, List.flatMap_append]
          exact congrArg₂ (· ++ ·) hfirst.symm hother.symm
      | succ i =>
          have hfirst : ((leaves e').map (k :: ·)).flatMap (grow f ((k + (i + 1)) :: path) x) =
              (leaves e').map (k :: ·) := by
            rw [List.flatMap_map]
            have hsame : ∀ q ∈ leaves e', grow f ((k + (i + 1)) :: path) x (k :: q) = [k :: q] := by
              intro q _
              rw [grow_cons, if_neg (by omega)]
            rw [List.flatMap_congr hsame]
            exact List.map_eq_flatMap.symm
          rw [List.modify_succ_cons, leavesFrom, leavesFrom, List.flatMap_append, hfirst,
            ih' he, Nat.add_right_comm k 1 i, Nat.add_assoc k i 1]

theorem leaves_update {f : Reply → Reply} {path : List Nat} {r x : Reply}
    (hget : get? path r = some x) (hleaf : x.element = []) :
    leaves (update f path r) = (leaves r).flatMap (grow f path x) := by
  induction path generalizing r with
  | nil =>
      cases hget
      rw [leaves_nil hleaf, List.flatMap_singleton, grow, if_pos rfl, update]
      simp
  | cons i path ih =>
      rw [get?, Option.bind_eq_some_iff] at hget
      obtain ⟨e, he, hx⟩ := hget
      have hne : r.element ≠ [] := by
        intro hnil
        rw [hnil] at he
        cases he
      have hmodified : (update f (i :: path) r).element = r.element.modify i (update f path) := rfl
      have hne' : (update f (i :: path) r).element ≠ [] := by
        rw [hmodified]
        intro hnil
        exact hne (List.length_eq_zero_iff.mp (by rw [← List.length_modify, hnil]; rfl))
      rw [leaves_cons hne, leaves_cons hne', hmodified, leavesFrom_modify he (ih hx), Nat.zero_add]

/-- An update of a leaf in the middle of the leaves. -/
theorem leaves_update_middle {f : Reply → Reply} {path : List Nat} {r x : Reply}
    {before after : List (List Nat)} (hleaves : leaves r = before ++ path :: after)
    (hget : get? path r = some x) (hleaf : x.element = []) :
    leaves (update f path r) = before ++ (leaves (f x)).map (path ++ ·) ++ after := by
  have hnodup := leaves_nodup r
  rw [hleaves, List.nodup_append] at hnodup
  obtain ⟨-, htail, hapart⟩ := hnodup
  have hbefore : before.flatMap (grow f path x) = before := by
    have hsame : ∀ q ∈ before, grow f path x q = [q] := fun q hq =>
      if_neg fun heq => hapart q hq path List.mem_cons_self heq
    rw [List.flatMap_congr hsame, List.flatMap_singleton']
  have hafter : after.flatMap (grow f path x) = after := by
    have hsame : ∀ q ∈ after, grow f path x q = [q] := fun q hq =>
      if_neg fun heq : q = path => (List.nodup_cons.mp htail).1 (heq ▸ hq)
    rw [List.flatMap_congr hsame, List.flatMap_singleton']
  rw [leaves_update hget hleaf, hleaves, List.flatMap_append, List.flatMap_cons, hbefore, hafter,
    grow, if_pos rfl, List.append_assoc]

/-! ### The elements that have not been started -/

/-- The elements to the right of a path, in every array that the path goes through, innermost first. -/
def unstarted : List Nat → Reply → List (List Nat)
  | [], _ => []
  | i :: path, r =>
      (r.element[i]?.elim [] (unstarted path)).map (i :: ·) ++
        (List.range' (i + 1) (r.element.length - (i + 1))).map fun j => [j]

/-- Writing to the current element changes nothing to the right of it. -/
theorem unstarted_update (f : Reply → Reply) (path : List Nat) (r : Reply) :
    unstarted path (update f path r) = unstarted path r := by
  induction path generalizing r with
  | nil => rfl
  | cons i path ih =>
      simp only [unstarted, update, List.getElem?_modify_eq, List.length_modify]
      cases r.element[i]? with
      | none => rfl
      | some e => simp only [Option.map_eq_map, Option.map_some, Option.elim_some, ih]

/-- In a new array all elements behind the first are to the right of it. -/
theorem unstarted_enter {n : Nat} (path : List Nat) {r x : Reply} (hget : get? path r = some x) :
    unstarted (path ++ [0]) (update (setArray n) path r) =
      (List.range (n - 1)).map (fun i => path ++ [i + 1]) ++ unstarted path r := by
  induction path generalizing r with
  | nil =>
      have hnone : ∀ e : Option Reply, e.elim [] (unstarted []) = [] := by
        intro e
        cases e <;> rfl
      have hright : unstarted [] r = [] := rfl
      rw [List.nil_append, update, hright, List.append_nil, unstarted, hnone, List.map_nil,
        List.nil_append, setArray, List.length_replicate, List.range'_eq_map_range, List.map_map]
      refine List.map_congr_left fun i _ => ?_
      simp only [Function.comp_apply, List.nil_append, Nat.zero_add, Nat.add_comm]
  | cons i path ih =>
      rw [get?, Option.bind_eq_some_iff] at hget
      obtain ⟨e, he, hx⟩ := hget
      simp only [List.cons_append, unstarted, update, List.getElem?_modify_eq, List.length_modify, he,
        Option.map_eq_map, Option.map_some, Option.elim_some, ih hx, List.map_append, List.map_map,
        List.append_assoc]
      rfl

/-- The next element to the right has what is left on its right. -/
theorem unstarted_next {path next : List Nat} {r : Reply} {rest : List (List Nat)}
    (h : unstarted path r = next :: rest) : unstarted next r = rest := by
  induction path generalizing r next rest with
  | nil => cases h
  | cons i path ih =>
      rw [unstarted] at h
      cases hinner : r.element[i]?.elim [] (unstarted path) with
      | cons next' rest' =>
          rw [hinner, List.map_cons, List.cons_append] at h
          obtain ⟨rfl, rfl⟩ := List.cons.inj h
          cases he : r.element[i]? with
          | none =>
              rw [he] at hinner
              cases hinner
          | some e =>
              rw [he, Option.elim_some] at hinner
              rw [unstarted, he, Option.elim_some, ih hinner]
      | nil =>
          rw [hinner, List.map_nil, List.nil_append] at h
          cases hlen : r.element.length - (i + 1) with
          | zero =>
              rw [hlen] at h
              cases h
          | succ k =>
              rw [hlen, List.range'_succ, List.map_cons] at h
              obtain ⟨rfl, rfl⟩ := List.cons.inj h
              have hnone : r.element[i + 1]?.elim [] (unstarted []) = [] := by
                cases r.element[i + 1]? <;> rfl
              have hk : r.element.length - (i + 1 + 1) = k := by omega
              rw [unstarted, hnone, List.map_nil, List.nil_append, hk]

/-- Writing to a reply leaves those that are apart from it. -/
theorem get?_update_of_apart {f : Reply → Reply} {target path : List Nat} (h : Apart target path)
    (r : Reply) : get? path (update f target r) = get? path r := by
  induction target generalizing path r with
  | nil => exact absurd List.nil_prefix h.1
  | cons i target ih =>
      cases path with
      | nil => exact absurd List.nil_prefix h.2
      | cons j path =>
          simp only [get?, update, List.getElem?_modify]
          split
          · rename_i hij
            subst hij
            have hapart : Apart target path :=
              ⟨fun hp => h.1 ((List.prefix_cons_inj i).mpr hp),
                fun hp => h.2 ((List.prefix_cons_inj i).mpr hp)⟩
            cases r.element[i]? with
            | none => rfl
            | some e => exact ih hapart e
          · cases r.element[j]? <;> rfl

theorem leaves_setArray {n : Nat} (hpos : 0 < n) (x : Reply) :
    leaves (x.setArray n) = (List.range n).map fun i => [i] := by
  have hfrom : ∀ k i, leavesFrom i (List.replicate k replyInit) =
      (List.range k).map fun j => [i + j] := by
    intro k
    induction k with
    | zero => exact fun _ => rfl
    | succ k ih =>
        intro i
        rw [List.replicate_succ, leavesFrom, ih, List.range_succ_eq_map, List.map_cons, List.map_map]
        simp only [leaves, replyInit, List.map_cons, List.map_nil, List.singleton_append,
          Nat.add_zero]
        congr 1
        refine List.map_congr_left fun j _ => ?_
        simp only [Function.comp_apply]
        congr 1
        omega
  have hne : (x.setArray n).element ≠ [] := by
    intro hnil
    have hlen := congrArg List.length hnil
    rw [setArray, List.length_replicate] at hlen
    exact absurd hlen (Nat.pos_iff_ne_zero.mp hpos)
  rw [leaves_cons hne, setArray, hfrom]
  simp only [Nat.zero_add]

end Reply

/-! ### States -/

/-- The parser with the member `findidx`, the number of elements that were announced so far, and the
replies that were filled, in this order. -/
structure Tracked where
  parser : RedisParser
  findidx : Nat
  announced : Nat
  filled : List (List Nat)

namespace Tracked

/-- `redis_parser_init`. -/
def init : Tracked where
  parser := redisParserInit
  findidx := 0
  announced := 0
  filled := []

/-- The bytes of another call. -/
def append (s : Tracked) (buf : List Byte) (bufsize : Nat) : Tracked :=
  { s with parser := s.parser.ext buf bufsize }

/-- `findidx` behind a pass: the command sets it, and the search for the line end moves it. -/
def nextFindidx (s : Tracked) : Nat :=
  if s.parser.msgidx ≥ s.parser.msgbuf.length then s.findidx
  else
    match s.parser.status with
    | .getCmd =>
        if isCmd (s.parser.msgbuf.getD s.parser.msgidx 0) then s.parser.msgidx + 1 else s.findidx
    | .untilCrlf => s.findidx + (searchCrlf s.parser.msgbuf s.findidx).1
    | _ => s.findidx

/-- A pass of the loop. -/
def pass (behind : List Byte) (s : Tracked) : Tracked where
  parser := afterForward (forward behind s.parser)
  findidx := s.nextFindidx
  announced := s.announced + announces behind s.parser
  filled := if (forward behind s.parser).1 = 1 then s.filled ++ [s.parser.cur] else s.filled

end Tracked

/-- The states of `redis_parser_append_message` calls: a pass returns no error, and a call does
nothing once the reply is complete. -/
inductive Reached : Tracked → Prop where
  | init : Reached .init
  | append {s : Tracked} (h : Reached s) (hstatus : s.parser.status ≠ .parseEnd) (buf : List Byte)
      (bufsize : Nat) : Reached (s.append buf bufsize)
  | pass {s : Tracked} (h : Reached s) (hstatus : s.parser.status ≠ .parseEnd) (behind : List Byte)
      (hok : 0 ≤ (forward behind s.parser).1) : Reached (s.pass behind)

/-- What is said of a state. While the reply is not complete, the leaves of the tree are those that
were filled, the current one and the ones on the list. -/
structure StateInvariant (s : Tracked) : Prop where
  nleft : s.parser.status ≠ .parseEnd → s.parser.nleft = 1 + s.parser.readList.length
  readList : s.parser.status ≠ .parseEnd →
    s.parser.readList = s.parser.reply.unstarted s.parser.cur
  fresh : s.parser.status ≠ .parseEnd → ∀ path ∈ s.parser.readList,
    s.parser.reply.get? path = some replyInit
  leaves : s.parser.status ≠ .parseEnd →
    s.parser.reply.leaves = s.filled ++ s.parser.cur :: s.parser.readList
  msgidx : s.parser.msgidx ≤ s.parser.msgbuf.length
  findidx : s.findidx ≤ s.parser.msgbuf.length
  ended : s.parser.status = .parseEnd ↔ ∀ path ∈ s.parser.reply.leaves, path ∈ s.filled

/-! ### The tree -/

/-- A parser in the middle of a reply, with the number of elements announced and the replies filled.
Behind the last reply the list is empty, so `nleft` is an `int` as long as fewer than `2 ^ 31` elements
were announced. -/
structure Tree (p : RedisParser) (announced : Nat) (filled : List (List Nat)) : Prop where
  pending : Pending p
  few : p.readList.length + 1 ≤ max 1 announced
  readList : p.readList = p.reply.unstarted p.cur
  fresh : ∀ path ∈ p.readList, p.reply.get? path = some replyInit
  leaves : p.reply.leaves = filled ++ p.cur :: p.readList

namespace Tree

variable {p q : RedisParser} {announced n : Nat} {filled : List (List Nat)}

theorem init : Tree redisParserInit 0 [] where
  pending := pending_init [] 0
  few := Nat.le_refl 1
  readList := rfl
  fresh := fun _ h => absurd h List.not_mem_nil
  leaves := rfl

/-- The current reply is there and has no elements. -/
theorem current (h : Tree p announced filled) :
    ∃ x, p.reply.get? p.cur = some x ∧ x.element = [] := by
  refine Reply.get?_of_mem_leaves ?_
  rw [h.leaves]
  exact List.mem_append_right _ List.mem_cons_self

/-- The replies on the list are not touched by a write to the current one. -/
theorem fresh_update (h : Tree p announced filled) (f : Reply → Reply) :
    ∀ path ∈ p.readList, (p.reply.update f p.cur).get? path = some replyInit := by
  intro path hpath
  have hapart := (List.pairwise_cons.mp h.pending.apart).1 path hpath
  rw [Reply.get?_update_of_apart hapart]
  exact h.fresh path hpath

theorem change (h : Tree p announced filled) (hchange : Change p q n) :
    Tree q (announced + n) filled := by
  have hpending := pending_effect hchange.effect h.pending
  obtain ⟨x, hget, hleaf⟩ := h.current
  have hfew := h.few
  cases hchange with
  | keep reply cur readList nleft =>
      refine ⟨hpending, ?_, ?_, ?_, ?_⟩
      · rw [readList]
        exact hfew
      · rw [readList, reply, cur]
        exact h.readList
      · rw [readList, reply]
        exact h.fresh
      · rw [readList, reply, cur]
        exact h.leaves
  | write f reply cur readList nleft leaf =>
      refine ⟨hpending, ?_, ?_, ?_, ?_⟩
      · rw [readList]
        exact hfew
      · rw [readList, reply, cur, Reply.unstarted_update]
        exact h.readList
      · rw [readList, reply]
        exact h.fresh_update f
      · rw [readList, reply, cur, Reply.leaves_update_middle h.leaves hget hleaf,
          Reply.leaves_nil (leaf x hleaf), List.map_singleton, List.append_nil, List.append_assoc]
        rfl
  | enter n pos reply cur readList nleft =>
      have hlist : q.cur :: q.readList = (List.range n).map (fun i => p.cur ++ [i]) ++ p.readList := by
        rw [cur, readList, enter_children pos]
      refine ⟨hpending, ?_, ?_, ?_, ?_⟩
      · rw [readList]
        simp only [List.length_append, List.length_map, List.length_range]
        omega
      · rw [readList, reply, cur, Reply.unstarted_enter p.cur hget, ← h.readList]
      · rw [readList, reply]
        intro path hpath
        rcases List.mem_append.mp hpath with hchild | hrest
        · obtain ⟨i, hi, rfl⟩ := List.mem_map.mp hchild
          have hin : i + 1 < n := by
            have := List.mem_range.mp hi
            omega
          rw [Reply.get?_append, Reply.get?_update_self, hget]
          simp [Reply.get?, Reply.setArray, hin]
        · exact h.fresh_update _ path hrest
      · rw [hlist, reply, Reply.leaves_update_middle h.leaves hget hleaf, Reply.leaves_setArray pos,
          List.map_map, List.append_assoc]
        rfl

/-- What the loop does when the current reply has been filled. -/
theorem finish (h : Tree p announced filled) (hsmall : announced < 2 ^ 31) :
    ((finishOne p).status = .parseEnd ∧ (finishOne p).reply.leaves = filled ++ [p.cur]) ∨
      ((finishOne p).status = .getCmd ∧ Tree (finishOne p) announced (filled ++ [p.cur])) := by
  have hfew := h.few
  have hleft : toInt (p.nleft - 1) = p.readList.length := by
    rw [finishOne_nleft h.pending.nleft]
    exact toInt_of_lt (by omega)
  cases hlist : p.readList with
  | nil =>
      left
      rw [hlist] at hleft
      have hend : finishOne p = { p with
          nleft := toInt (p.nleft - 1), cur := p.cur, readList := [], parseSucc := true,
          status := .parseEnd } := by
        unfold finishOne
        dsimp only
        rw [hleft, hlist]
        rfl
      rw [hend, h.leaves, hlist]
      exact ⟨rfl, rfl⟩
  | cons next rest =>
      right
      rw [hlist] at hleft
      have hnext : finishOne p = { p with
          nleft := toInt (p.nleft - 1), cur := next, readList := rest, status := .getCmd } := by
        unfold finishOne
        dsimp only
        rw [if_pos (by rw [hleft]; simp), hlist]
        rfl
      have hapart := h.pending.apart
      have hvalid := h.pending.valid
      have hunstarted := h.readList
      rw [hlist] at hapart hvalid hunstarted hfew
      rw [hnext]
      refine ⟨rfl, ⟨?_, hapart.tail, fun path hpath => hvalid path (List.mem_cons_of_mem _ hpath)⟩,
        ?_, ?_, ?_, ?_⟩
      · rw [hleft]
        exact (toInt_of_lt (by rw [List.length_cons] at hfew ⊢; omega)).symm
      · rw [List.length_cons] at hfew
        simp only
        omega
      · exact (Reply.unstarted_next hunstarted.symm).symm
      · exact fun path hpath => h.fresh path (by rw [hlist]; exact List.mem_cons_of_mem _ hpath)
      · rw [List.append_assoc, ← hlist]
        exact h.leaves

end Tree

/-! ### The indices -/

theorem searchCrlf_le {m : List Byte} {f : Nat} (h : f ≤ m.length) :
    f + (searchCrlf m f).1 ≤ m.length := by
  induction f using searchCrlf.induct m with
  | case1 f hin hfound =>
      rw [searchCrlf, if_pos hin, if_pos hfound]
      exact h
  | case2 f hin hfound ih =>
      rw [searchCrlf, if_pos hin, if_neg hfound]
      have hrest := ih (Nat.le_of_lt hin)
      simp only
      omega
  | case3 f hout =>
      rw [searchCrlf, if_neg hout]
      exact h

/-- The indices of a state: both lie in the message, and while a line is read `scanned` is their
difference. -/
structure Indices (s : Tracked) : Prop where
  msgidx : s.parser.msgidx ≤ s.parser.msgbuf.length
  findidx : s.findidx ≤ s.parser.msgbuf.length
  scanned : s.parser.status = .untilCrlf → s.parser.msgidx + s.parser.scanned = s.findidx

theorem nextFindidx_le {s : Tracked} (h : Indices s) : s.nextFindidx ≤ s.parser.msgbuf.length := by
  unfold Tracked.nextFindidx
  split
  · exact h.findidx
  · rename_i hin
    cases s.parser.status with
    | getCmd =>
        dsimp only
        split
        · omega
        · exact h.findidx
    | untilCrlf => exact searchCrlf_le h.findidx
    | getCr | getLf | getNchar | parseEnd => exact h.findidx

/-- A line that is not the last of its reply is left for another status. -/
theorem parseLineAs_outcome (n : Int) (p : RedisParser) :
    (parseLineAs n p).1 ≤ 1 ∧ ((parseLineAs n p).1 = 0 → (parseLineAs n p).2.status ≠ .untilCrlf) := by
  unfold parseLineAs
  dsimp only
  repeat' split
  all_goals exact ⟨by simp, by simp [enterArray]⟩

/-- While a line is read, `findidx` is where the search for its end goes on. -/
theorem forward_scanned {behind : List Byte} {s : Tracked} (h : Indices s)
    (hstatus : (forward behind s.parser).2.status = .untilCrlf)
    (hok : 0 ≤ (forward behind s.parser).1) (hone : (forward behind s.parser).1 ≠ 1) :
    (forward behind s.parser).2.msgidx + (forward behind s.parser).2.scanned = s.nextFindidx := by
  unfold Tracked.nextFindidx
  rcases Nat.lt_or_ge s.parser.msgidx s.parser.msgbuf.length with hin | hout
  · rw [if_neg (Nat.not_le.mpr hin)]
    cases hnow : s.parser.status with
    | getCmd =>
        rw [forward, if_neg (Nat.not_le.mpr hin), hnow] at hok ⊢
        simp only [parseCmd] at hok ⊢
        split at hok
        · rename_i hcmd
          rw [if_pos hcmd, if_pos hcmd]
          rfl
        · have hneg : (0 : Int) ≤ -2 := hok
          omega
    | untilCrlf =>
        rw [forward_crlf hin hnow] at hstatus hok hone ⊢
        cases hfound : s.parser.search.2 with
        | true =>
            rw [parseCrlf_found hfound] at hstatus hok hone
            generalize hline : parseLineAs _ _ = r at hstatus hok hone
            obtain ⟨hle, hleft⟩ : r.1 ≤ 1 ∧ (r.1 = 0 → r.2.status ≠ .untilCrlf) :=
              hline ▸ parseLineAs_outcome _ _
            exact absurd hstatus (hleft (by omega))
        | false =>
            rw [parseCrlf_wait hfound]
            dsimp only
            rw [RedisParser.search, h.scanned hnow, ← h.scanned hnow, Nat.add_assoc]
    | getCr =>
        rw [forward, if_neg (Nat.not_le.mpr hin), hnow] at hstatus
        simp only [parseCr] at hstatus
        split at hstatus <;> simp_all
    | getLf =>
        rw [forward, if_neg (Nat.not_le.mpr hin), hnow] at hstatus
        simp only [parseLf] at hstatus
        split at hstatus <;> simp_all
    | getNchar =>
        rw [forward_nchar hin hnow, parseNchar] at hstatus
        split at hstatus <;> simp_all
    | parseEnd =>
        rw [forward, if_neg (Nat.not_le.mpr hin), hnow] at hstatus
        simp_all
  · rw [if_pos hout, forward_out hout]
    rw [forward_out hout] at hstatus
    exact h.scanned hstatus

theorem Indices.pass {behind : List Byte} {s : Tracked} (h : Indices s)
    (hok : 0 ≤ (forward behind s.parser).1) : Indices (s.pass behind) := by
  have hbuf : (afterForward (forward behind s.parser)).msgbuf = s.parser.msgbuf := by
    rw [afterForward_msgbuf]
    exact (forward_moves behind s.parser).1
  refine ⟨?_, ?_, fun hstatus => ?_⟩
  · simp only [Tracked.pass, hbuf, afterForward_msgidx]
    exact forward_msgidx_le behind h.msgidx
  · simp only [Tracked.pass, hbuf]
    exact nextFindidx_le h
  · simp only [Tracked.pass] at hstatus ⊢
    unfold afterForward at hstatus ⊢
    split at hstatus
    · unfold finishOne at hstatus
      dsimp only at hstatus
      split at hstatus <;> cases hstatus
    · rename_i hone
      rw [if_neg hone]
      exact forward_scanned h hstatus hok hone

/-! ### Runs -/

/-- What holds along a run in which fewer than `2 ^ 31` elements are announced. -/
structure Along (s : Tracked) : Prop where
  indices : Indices s
  tree : s.parser.status ≠ .parseEnd → Tree s.parser s.announced s.filled
  complete : s.parser.status = .parseEnd → s.parser.reply.leaves = s.filled

theorem Along.pass {behind : List Byte} {s : Tracked} (h : Along s)
    (hstatus : s.parser.status ≠ .parseEnd) (hok : 0 ≤ (forward behind s.parser).1)
    (hsmall : (s.pass behind).announced < 2 ^ 31) : Along (s.pass behind) := by
  obtain ⟨hchange, hcur⟩ := forward_change behind s.parser
  have htree := (h.tree hstatus).change hchange
  have hopen := (forward_code behind hstatus).2
  by_cases hone : (forward behind s.parser).1 = 1
  · have hpass : s.pass behind =
        { parser := finishOne (forward behind s.parser).2
          findidx := s.nextFindidx
          announced := s.announced + announces behind s.parser
          filled := s.filled ++ [(forward behind s.parser).2.cur] } := by
      simp only [Tracked.pass, afterForward, if_pos hone, hcur hone]
    have hindices := h.indices.pass hok
    rw [hpass] at hsmall hindices ⊢
    rcases htree.finish hsmall with ⟨hend, hleaves⟩ | ⟨hnext, htree⟩
    · exact ⟨hindices, fun hne => absurd hend hne, fun _ => hleaves⟩
    · refine ⟨hindices, fun _ => htree, fun hend => ?_⟩
      rw [hnext] at hend
      cases hend
  · have hpass : s.pass behind =
        { parser := (forward behind s.parser).2
          findidx := s.nextFindidx
          announced := s.announced + announces behind s.parser
          filled := s.filled } := by
      simp only [Tracked.pass, afterForward, if_neg hone]
    have hindices := h.indices.pass hok
    rw [hpass] at hindices ⊢
    exact ⟨hindices, fun _ => htree, fun hend => absurd hend hopen⟩

theorem Along.append {s : Tracked} (h : Along s) (hstatus : s.parser.status ≠ .parseEnd)
    (buf : List Byte) (bufsize : Nat) : Along (s.append buf bufsize) := by
  have hlen : s.parser.msgbuf.length ≤ (s.append buf bufsize).parser.msgbuf.length := by
    simp only [Tracked.append, RedisParser.ext, List.length_append]
    omega
  have htree := h.tree hstatus
  exact ⟨⟨Nat.le_trans h.indices.msgidx hlen, Nat.le_trans h.indices.findidx hlen,
    h.indices.scanned⟩,
    fun _ => ⟨⟨htree.pending.nleft, htree.pending.apart, htree.pending.valid⟩, htree.few,
      htree.readList, htree.fresh, htree.leaves⟩, h.complete⟩

theorem Reached.along {s : Tracked} (h : Reached s) (hfew : s.announced < 2 ^ 31) : Along s := by
  induction h with
  | init =>
      exact ⟨⟨Nat.le_refl 0, Nat.le_refl 0, fun h => by cases h⟩, fun _ => Tree.init,
        fun h => by cases h⟩
  | append hreached hstatus buf bufsize ih => exact (ih hfew).append hstatus buf bufsize
  | pass hreached hstatus behind hok ih =>
      exact (ih (Nat.lt_of_le_of_lt (Nat.le_add_right _ _) hfew)).pass hstatus hok hfew

/-- The loop of a call leaves a state of the run. -/
theorem parseLoop_reached (behind : List Byte) (p : RedisParser) {s : Tracked} (h : Reached s)
    (hp : s.parser = p) (hstatus : p.status ≠ .parseEnd) (hok : 0 ≤ (parseLoop behind p).1) :
    ∃ t, Reached t ∧ t.parser = (parseLoop behind p).2 := by
  induction p using parseLoop.induct behind generalizing s with
  | case1 p hgo hnext ih =>
      rw [parseLoop_next hgo hnext] at hok ⊢
      subst hp
      exact ih (h.pass hstatus behind (by omega)) rfl hnext hok
  | case2 p hgo hnext =>
      rw [parseLoop, if_pos hgo, if_neg hnext]
      subst hp
      exact ⟨_, h.pass hstatus behind (by omega), rfl⟩
  | case3 p hgo htwo =>
      rw [parseLoop, if_neg hgo, if_pos htwo]
      subst hp
      refine ⟨_, h.pass hstatus behind (by omega), ?_⟩
      simp only [Tracked.pass, afterForward, if_neg (fun h1 => hgo (.inr h1))]
  | case4 p hgo htwo =>
      rw [parseLoop, if_neg hgo, if_neg htwo] at hok
      have hcode := (forward_code behind hstatus).1
      omega

/-- The calls without an error leave a state of the run. -/
theorem appendAll_reached (behind : Nat → List Byte) (chunks : List (List Byte)) {s : Tracked}
    (h : Reached s) (hok : 0 ≤ (appendAll behind chunks s.parser).1) :
    ∃ t, Reached t ∧ t.parser = (appendAll behind chunks s.parser).2.2 := by
  induction chunks generalizing s with
  | nil => exact ⟨s, h, rfl⟩
  | cons chunk chunks ih =>
      by_cases hstatus : s.parser.status = .parseEnd
      · have hcall : redisParserAppendMessage (behind chunks.length) chunk s.parser =
            (1, 0, s.parser) := by
          rw [redisParserAppendMessage, if_pos hstatus]
        rw [appendAll_stop hcall Int.one_ne_zero]
        exact ⟨s, h, rfl⟩
      · obtain ⟨size, hcall⟩ := append_report (behind chunks.length) chunk hstatus
        have hnext := h.append hstatus chunk size
        by_cases hcode : (parseLoop (behind chunks.length) (s.parser.ext chunk size)).1 = 0
        · rw [appendAll_wait hcall hcode] at hok ⊢
          obtain ⟨t, ht, heq⟩ := parseLoop_reached (behind chunks.length) _ hnext rfl hstatus
            (Int.le_of_eq hcode.symm)
          have heq : t.parser = (report s.parser chunk
            (parseLoop (behind chunks.length) (s.parser.ext chunk size))).2.2 := heq
          rw [← heq] at hok ⊢
          exact ih ht hok
        · rw [appendAll_stop hcall hcode] at hok ⊢
          exact parseLoop_reached (behind chunks.length) _ hnext rfl hstatus hok

theorem StateInvariant.of_along {s : Tracked} (h : Along s) (hfew : s.announced < 2 ^ 31) :
    StateInvariant s := by
  refine ⟨fun hstatus => ?_, fun hstatus => (h.tree hstatus).readList,
    fun hstatus => (h.tree hstatus).fresh, fun hstatus => (h.tree hstatus).leaves,
    h.indices.msgidx, h.indices.findidx, fun hend => ?_, fun hall => ?_⟩
  · have htree := h.tree hstatus
    have hlen := htree.few
    have hint : toInt ((s.parser.readList.length + 1 : Nat) : Int) =
        ((s.parser.readList.length + 1 : Nat) : Int) := toInt_of_lt (by omega)
    rw [htree.pending.nleft]
    push_cast at hint
    rw [hint, Int.add_comm]
  · rw [h.complete hend]
    exact fun path hpath => hpath
  · -- the current reply is a leaf that has not been filled
    by_contra hstatus
    have hleaves := (h.tree hstatus).leaves
    have hnodup := Reply.leaves_nodup s.parser.reply
    have hmem : s.parser.cur ∈ s.parser.reply.leaves := by
      rw [hleaves]
      exact List.mem_append_right _ List.mem_cons_self
    rw [hleaves, List.nodup_append] at hnodup
    exact hnodup.2.2 _ (hall _ hmem) _ List.mem_cons_self rfl

/-- In every state of a run without an error in which fewer than `2 ^ 31` elements are announced, the
counter, the list, the indices and the current element are what the tree says; and every sequence of
calls without an error ends in such a state. -/
theorem redis_state :
    (∀ s, Reached s → s.announced < 2 ^ 31 → StateInvariant s) ∧
      ∀ behind chunks, 0 ≤ (appendAll behind chunks redisParserInit).1 →
        ∃ s, Reached s ∧ s.parser = (appendAll behind chunks redisParserInit).2.2 :=
  ⟨fun _ h hfew => .of_along (h.along hfew) hfew,
    fun behind chunks hok => appendAll_reached behind chunks Reached.init hok⟩

/-- `n` passes with nothing behind the bytes. -/
def Tracked.passes (s : Tracked) : Nat → Tracked
  | 0 => s
  | n + 1 => (s.passes n).pass []

theorem Reached.passes {s : Tracked} (h : Reached s) {n : Nat}
    (hok : ∀ k < n, (s.passes k).parser.status ≠ .parseEnd ∧
      0 ≤ (forward [] (s.passes k).parser).1) : Reached (s.passes n) := by
  induction n with
  | zero => exact h
  | succ n ih =>
      obtain ⟨hstatus, hforward⟩ := hok n (Nat.lt_succ_self n)
      exact .pass (ih fun k hk => hok k (Nat.lt_succ_of_lt hk)) hstatus [] hforward

/-- An array of two, whose first element is an array of two and whose first element is a number: the
second element of the inner array is the current one, and the one of the outer array waits. -/
theorem redis_state_nested :
    ∃ s, Reached s ∧ StateInvariant s ∧ s.filled = [[0, 0]] ∧ s.parser.cur = [0, 1] ∧
      s.parser.readList = [[1]] := by
  have hreach : Reached ((Tracked.init.append
      [42, 50, 13, 10, 42, 50, 13, 10, 58, 49, 13, 10] 16).passes 6) :=
    .passes (.append .init (by decide) _ _) (by decide +kernel)
  exact ⟨_, hreach, redis_state.1 _ hreach (by decide +kernel), by decide +kernel,
    by decide +kernel, by decide +kernel⟩

end Workflow.Redis
