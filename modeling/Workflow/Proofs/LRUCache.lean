/-
Module: Workflow.Proofs.LRUCache
Layer: Proofs
Purpose: The cache of LRUCache.h in every run. `Mapped` says what the map leads to, and `Cached` adds
  the order of the releases; every call keeps them, and none of them fails.
Trusted boundary: none
Main exports: Mapped, Mapped.dropWhile, Cached, Cached.put, CacheInvariant, lru_invariant
-/
import Workflow.Proofs.LRUHandles

namespace Workflow.Util

open Workflow.Lib

variable {κ ν : Type} {c : LRUCache κ ν} {held idle busy : List Nat} {id : Nat}

/-! ### The map -/

variable [DecidableEq κ]

/-- The map leads to the handles in the cache, each under its key. -/
structure Mapped (c : LRUCache κ ν) : Prop where
  lookup : ∀ k id, c.cacheMap.lookup k = some id ↔ c.entry id = some (k, true)
  keys : c.size = c.cacheMap.keys.length

omit [DecidableEq κ] in
theorem Counted.setMap (hc : Counted c held idle busy) (map : AList fun _ : κ => Nat) :
    Counted { c with cacheMap := map } held idle busy :=
  ⟨hc.rings, hc.size, hc.listed, hc.refs, hc.unheld, hc.inHand, hc.alive, hc.kept, hc.fresh,
    hc.gone, hc.once⟩

omit [DecidableEq κ] in
theorem Counted.setMaxSize (hc : Counted c held idle busy) (maxSize : Nat) :
    Counted { c with maxSize := maxSize } held idle busy :=
  ⟨hc.rings, hc.size, hc.listed, hc.refs, hc.unheld, hc.inHand, hc.alive, hc.kept, hc.fresh,
    hc.gone, hc.once⟩

omit [DecidableEq κ] in
theorem Counted.mem_iff_entry (hc : Counted c held idle busy) :
    id ∈ idle ++ busy ↔ ∃ k, c.entry id = some (k, true) := by
  rw [hc.listed]
  constructor
  · rintro ⟨h, hheap, hin⟩
    exact ⟨h.key, by rw [LRUCache.entry, hheap, Option.map_some, hin]⟩
  · rintro ⟨k, hentry⟩
    obtain ⟨h, hheap, heq⟩ := Option.map_eq_some_iff.mp hentry
    exact ⟨h, hheap, (Prod.mk.inj heq).2⟩

theorem Mapped.mem_lists (hm : Mapped c) (hc : Counted c held idle busy) {k : κ}
    (hlookup : c.cacheMap.lookup k = some id) : id ∈ idle ++ busy :=
  hc.mem_iff_entry.mpr ⟨k, (hm.lookup k id).mp hlookup⟩

/-- A key goes from the map and its handle from the cache. -/
theorem Mapped.eraseNode (hm : Mapped c) (hc : Counted c held idle busy) {k : κ}
    (hlookup : c.cacheMap.lookup k = some id) :
    ∃ c', LRUCache.eraseNode { c with cacheMap := c.cacheMap.erase k } id = some c' ∧
      Counted c' held (idle.erase id) (busy.erase id) ∧ Mapped c' ∧ c'.maxSize = c.maxSize ∧
      c'.next = c.next := by
  have hid := hm.mem_lists hc hlookup
  obtain ⟨c', herase, hc', hmap, hmax, hnext, hentry⟩ := (hc.setMap (c.cacheMap.erase k)).eraseNode hid
  refine ⟨c', herase, hc', ⟨fun k' x => ?_, ?_⟩, hmax, hnext⟩
  · rw [hmap, hentry]
    show (c.cacheMap.erase k).lookup k' = some x ↔ x ≠ id ∧ c.entry x = some (k', true)
    rw [← hm.lookup k' x]
    rcases eq_or_ne k' k with rfl | hne
    · rw [AList.lookup_erase]
      simp only [reduceCtorEq, false_iff, not_and]
      intro hx hsame
      exact hx (Option.some.inj (hsame.symm.trans hlookup))
    · rw [AList.lookup_erase_ne hne]
      refine ⟨fun hsome => ⟨?_, hsome⟩, And.right⟩
      rintro rfl
      have hkey := ((hm.lookup k' x).mp hsome).symm.trans ((hm.lookup k x).mp hlookup)
      exact hne (Prod.mk.inj (Option.some.inj hkey)).1
  · have hkey : k ∈ c.cacheMap.keys := by
      rw [← AList.mem_keys, ← AList.lookup_isSome, hlookup]
      rfl
    have hpos := List.length_pos_of_mem hkey
    have hkeys := hm.keys
    have hlen : (idle.erase id).length + (busy.erase id).length = idle.length + busy.length - 1 := by
      have hdisjoint := List.disjoint_of_nodup_append hc.rings.nodup
      by_cases hidle : id ∈ idle
      · have := List.length_pos_of_mem hidle
        rw [List.erase_of_not_mem (hdisjoint hidle), List.length_erase_of_mem hidle]
        omega
      · have hbusy : id ∈ busy := (List.mem_append.mp hid).resolve_left hidle
        have := List.length_pos_of_mem hbusy
        rw [List.erase_of_not_mem hidle, List.length_erase_of_mem hbusy]
        omega
    rw [hmap, hc'.size, hlen]
    show _ = (c.cacheMap.erase k).keys.length
    rw [AList.keys_erase, List.length_erase_of_mem hkey, ← hkeys, hc.size]

/-- The first idle handle goes. -/
theorem Mapped.dropOldest (hm : Mapped c) (hc : Counted c held (id :: idle) busy) :
    ∃ c', c.dropOldest = some c' ∧ Counted c' held idle busy ∧ Mapped c' ∧
      c'.maxSize = c.maxSize ∧ c'.next = c.next := by
  have hid : id ∈ (id :: idle) ++ busy := by simp
  obtain ⟨h, hheap, hin, href⟩ := hc.cached hid
  have hone : h.ref = 1 := by rw [href, hc.unheld id List.mem_cons_self]
  have hlookup : c.cacheMap.lookup h.key = some id := by
    rw [hm.lookup, LRUCache.entry, hheap, Option.map_some, hin]
  have hbusy : busy.erase id = busy :=
    List.erase_of_not_mem (List.disjoint_of_nodup_append hc.rings.nodup List.mem_cons_self)
  obtain ⟨c', herase, hc', hm', hmax, hnext⟩ := hm.eraseNode hc hlookup
  rw [List.erase_cons_head, hbusy] at hc'
  refine ⟨c', ?_, hc', hm', hmax, hnext⟩
  rw [LRUCache.dropOldest, hc.rings.next_notUse]
  show ((c.heap id).bind fun h => if h.ref = 1 then _ else none) = some c'
  rw [hheap, Option.bind_some, if_pos hone, herase]

/-- A loop that drops handles while `p` holds of the size. -/
theorem Mapped.dropWhile (more : LRUCache κ ν → Bool) (p : Nat → Bool) (hm : Mapped c)
    (hc : Counted c held idle busy)
    (hmore : ∀ c' : LRUCache κ ν, c'.maxSize = c.maxSize → more c' = p c'.size) {fuel : Nat}
    (hfuel : idle.length < fuel) :
    ∃ c' k, LRUCache.dropWhile more fuel c = some c' ∧ k ≤ idle.length ∧
      Counted c' held (idle.drop k) busy ∧ Mapped c' ∧ c'.maxSize = c.maxSize ∧
      c'.next = c.next ∧ (p c'.size = false ∨ idle.drop k = []) ∧
      (0 < k → p (c'.size + 1) = true) := by
  induction idle generalizing c fuel with
  | nil =>
      obtain ⟨fuel, rfl⟩ : ∃ more, fuel = more + 1 := ⟨fuel - 1, by omega⟩
      refine ⟨c, 0, ?_, Nat.le_refl 0, hc, hm, rfl, rfl, .inr rfl, fun h => absurd h (by decide)⟩
      rw [LRUCache.dropWhile, hc.rings.next_notUse, if_neg (by simp)]
  | cons id idle ih =>
      obtain ⟨fuel, rfl⟩ : ∃ more, fuel = more + 1 := ⟨fuel - 1, by omega⟩
      have hnext : c.links.next .notUse = some (.handle id) := hc.rings.next_notUse
      cases hp : p c.size with
      | false =>
          refine ⟨c, 0, ?_, Nat.zero_le _, hc, hm, rfl, rfl, .inl hp, fun h => absurd h (by decide)⟩
          rw [LRUCache.dropWhile, hmore c rfl, hp, if_neg (by simp)]
      | true =>
          obtain ⟨c₁, hdrop, hc₁, hm₁, hmax₁, hnext₁⟩ := hm.dropOldest hc
          obtain ⟨c', k, hrest, hk, hc', hm', hmax', hnext', hstop, hlast⟩ := ih hm₁ hc₁
            (fun c' hc' => hmore c' (hc'.trans hmax₁)) (Nat.lt_of_succ_lt_succ hfuel)
          refine ⟨c', k + 1, ?_, Nat.succ_le_succ hk, hc', hm', hmax'.trans hmax₁,
            hnext'.trans hnext₁, hstop, fun _ => ?_⟩
          · rw [LRUCache.dropWhile, hmore c rfl, hp, hnext, if_pos ⟨rfl, by simp⟩, hdrop,
              Option.bind_some, hrest]
          · rcases Nat.eq_zero_or_pos k with rfl | hpos
            · rw [List.drop_zero] at hc'
              rw [hc'.size, ← hp, hc.size, List.length_cons]
              congr 1
              omega
            · exact hlast hpos

/-- More fuel does not change a result. -/
theorem dropWhile_mono {more : LRUCache κ ν → Bool} {fuel fuel' : Nat} {c c' : LRUCache κ ν}
    (hle : fuel ≤ fuel') (h : LRUCache.dropWhile more fuel c = some c') :
    LRUCache.dropWhile more fuel' c = some c' := by
  induction fuel generalizing fuel' c with
  | zero => cases h
  | succ fuel ih =>
      obtain ⟨fuel', rfl⟩ : ∃ more, fuel' = more + 1 := ⟨fuel' - 1, by omega⟩
      rw [LRUCache.dropWhile] at h ⊢
      split at h
      · rename_i hgo
        rw [if_pos hgo]
        obtain ⟨c₁, hdrop, hrest⟩ := Option.bind_eq_some_iff.mp h
        rw [hdrop, Option.bind_some]
        exact ih (Nat.le_of_succ_le_succ hle) hrest
      · rename_i hstop
        rw [if_neg hstop]
        exact h

/-- The handles of a list without the one that has the key. -/
def LRUCache.without (c : LRUCache κ ν) (key : κ) (ids : List Nat) : List Nat :=
  match c.cacheMap.lookup key with
  | some old => ids.erase old
  | none => ids

/-- `put` up to the eviction. -/
theorem Mapped.replaceHandle (hm : Mapped c) (hc : Counted c held idle busy) (key : κ) (value : ν) :
    ∃ c', c.replaceHandle key value = some c' ∧
      Counted c' (c.next :: held) (c.without key idle) (c.without key (busy ++ [c.next])) ∧
      Mapped c' ∧ c'.maxSize = c.maxSize := by
  obtain ⟨c₁, hinsert, hc₁, hmap₁, hmax₁, hentry₁⟩ := hc.insertHandle key value
  have hnew : ∀ k, c.cacheMap.lookup k ≠ some c.next := by
    intro k hlookup
    obtain ⟨h, hheap, -⟩ := (hc.listed c.next).mp (hm.mem_lists hc hlookup)
    exact absurd (hc.fresh c.next h hheap) (Nat.lt_irrefl _)
  have hkeys := hm.keys
  unfold LRUCache.without
  cases hlookup : c.cacheMap.lookup key with
  | none =>
      refine ⟨{ c₁ with cacheMap := c₁.cacheMap.insert key c.next }, ?_, hc₁.setMap _, ⟨?_, ?_⟩, hmax₁⟩
      · have hkeep : c₁.eraseOld key = some c₁ := by rw [LRUCache.eraseOld, hmap₁, hlookup]
        rw [LRUCache.replaceHandle, hinsert, Option.bind_some, hkeep]
        rfl
      · intro k x
        show (c₁.cacheMap.insert key c.next).lookup k = some x ↔ c₁.entry x = some (k, true)
        rw [hentry₁, ← hm.lookup k x, hmap₁]
        rcases eq_or_ne k key with rfl | hne
        · rw [AList.lookup_insert, hlookup]
          simp [eq_comm]
        · rw [AList.lookup_insert_ne hne]
          have hx : c.cacheMap.lookup k = some x → x ≠ c.next := fun hsome heq =>
            hnew k (heq ▸ hsome)
          simp only [hne, and_false, false_or]
          exact ⟨fun hsome => ⟨hx hsome, hsome⟩, And.right⟩
      · show c₁.size = (c₁.cacheMap.insert key c.next).keys.length
        have hnot : key ∉ c.cacheMap.keys := by
          rw [← AList.mem_keys, ← AList.lookup_eq_none]
          exact hlookup
        rw [hmap₁, AList.keys_insert, List.length_cons, List.erase_of_not_mem hnot, ← hkeys, hc₁.size,
          hc.size, List.length_append, List.length_singleton]
        omega
  | some old =>
      have hold := hm.mem_lists hc hlookup
      have hold₁ : old ∈ idle ++ (busy ++ [c.next]) := by
        rw [← List.append_assoc]
        exact List.mem_append_left _ hold
      obtain ⟨c₂, herase, hc₂, hmap₂, hmax₂, -, hentry₂⟩ := hc₁.eraseNode hold₁
      refine ⟨{ c₂ with cacheMap := c₂.cacheMap.insert key c.next }, ?_, hc₂.setMap _, ⟨?_, ?_⟩,
        hmax₂.trans hmax₁⟩
      · have hkeep : c₁.eraseOld key = some c₂ := by
          rw [LRUCache.eraseOld, hmap₁, hlookup]
          exact herase
        rw [LRUCache.replaceHandle, hinsert, Option.bind_some, hkeep]
        rfl
      · intro k x
        show (c₂.cacheMap.insert key c.next).lookup k = some x ↔ c₂.entry x = some (k, true)
        have hne₀ : c.next ≠ old := fun heq => hnew key (heq ▸ hlookup)
        rw [hentry₂, hentry₁, ← hm.lookup k x, hmap₂, hmap₁]
        rcases eq_or_ne k key with rfl | hne
        · rw [AList.lookup_insert, hlookup]
          constructor
          · intro hsome
            obtain rfl := Option.some.inj hsome
            exact ⟨hne₀, .inl ⟨rfl, rfl⟩⟩
          · rintro ⟨hx, ⟨rfl, -⟩ | ⟨-, hsame⟩⟩
            · rfl
            · exact absurd (Option.some.inj hsame).symm hx
        · rw [AList.lookup_insert_ne hne]
          have hx : c.cacheMap.lookup k = some x → x ≠ c.next := fun hsome heq =>
            hnew k (heq ▸ hsome)
          have hx' : c.cacheMap.lookup k = some x → x ≠ old := by
            rintro hsome rfl
            have hkey := ((hm.lookup k x).mp hsome).symm.trans ((hm.lookup key x).mp hlookup)
            exact hne (Prod.mk.inj (Option.some.inj hkey)).1
          simp only [hne, and_false, false_or]
          exact ⟨fun hsome => ⟨hx' hsome, hx hsome, hsome⟩, fun h => h.2.2⟩
      · show c₂.size = (c₂.cacheMap.insert key c.next).keys.length
        have hkey : key ∈ c.cacheMap.keys := by
          rw [← AList.mem_keys, ← AList.lookup_isSome, hlookup]
          rfl
        have hpos := List.length_pos_of_mem hkey
        rw [← hkeys, hc.size] at hpos
        have hlen : (idle.erase old).length + ((busy ++ [c.next]).erase old).length =
            idle.length + busy.length := by
          have hdisjoint := List.disjoint_of_nodup_append hc₁.rings.nodup
          by_cases hidle : old ∈ idle
          · have := List.length_pos_of_mem hidle
            rw [List.erase_of_not_mem (hdisjoint hidle), List.length_erase_of_mem hidle,
              List.length_append, List.length_singleton]
            omega
          · have hbusy : old ∈ busy ++ [c.next] := (List.mem_append.mp hold₁).resolve_left hidle
            rw [List.erase_of_not_mem hidle, List.length_erase_of_mem hbusy, List.length_append,
              List.length_singleton]
            omega
        rw [hmap₂, hmap₁, AList.keys_insert, List.length_cons, List.length_erase_of_mem hkey, ← hkeys,
          hc₂.size, hlen, hc.size]
        omega

/-- The eviction drops the idle handles from the front until the size fits or none is left. -/
theorem Mapped.evict (hm : Mapped c) (hc : Counted c held idle busy) {fuel : Nat}
    (hfuel : idle.length < fuel) :
    ∃ c' k, c.evict fuel = some c' ∧ k ≤ idle.length ∧ Counted c' held (idle.drop k) busy ∧
      Mapped c' ∧ c'.maxSize = c.maxSize ∧ (c.maxSize = 0 → k = 0) ∧
      (0 < c.maxSize → c'.size ≤ c.maxSize ∨ idle.drop k = []) ∧
      (0 < k → c.maxSize < c'.size + 1) := by
  unfold LRUCache.evict
  by_cases hmax : 0 < c.maxSize
  · obtain ⟨c', k, hdrop, hk, hc', hm', hmax', -, hstop, hlast⟩ :=
      hm.dropWhile (fun c => c.maxSize < c.size) (fun size => c.maxSize < size) hc
        (fun c' hc' => by rw [hc']) hfuel
    rw [if_pos hmax]
    refine ⟨c', k, hdrop, hk, hc', hm', hmax', fun hzero => by omega, fun _ => ?_, fun hpos => ?_⟩
    · simpa using hstop
    · simpa using hlast hpos
  · rw [if_neg hmax]
    exact ⟨c, 0, rfl, Nat.zero_le _, hc, hm, rfl, fun _ => rfl, fun h => absurd h hmax,
      fun h => absurd h (by decide)⟩

/-! ### Whole calls -/

/-- The cache and its callers. Idle handles stand in the order of their releases. -/
structure Cached (u : LRUUse κ ν) (idle busy : List Nat) : Prop where
  counted : Counted u.cache u.held idle busy
  mapped : Mapped u.cache
  order : idle.Pairwise fun a b => u.releasedAt a < u.releasedAt b
  past : ∀ id ∈ idle, u.releasedAt id < u.clock

variable {u u' : LRUUse κ ν}

theorem cached_create : Cached (LRUUse.create κ ν) [] [] where
  counted := counted_create
  mapped := ⟨by simp [LRUUse.create, LRUCache.create, LRUCache.entry], rfl⟩
  order := List.Pairwise.nil
  past := by simp

omit [DecidableEq κ] in
/-- Fewer idle handles are still in order. -/
theorem order_sublist {released : Nat → Nat} {ids ids' : List Nat} (hsub : ids'.Sublist ids)
    {clock : Nat} (horder : ids.Pairwise fun a b => released a < released b)
    (hpast : ∀ id ∈ ids, released id < clock) :
    (ids'.Pairwise fun a b => released a < released b) ∧ ∀ id ∈ ids', released id < clock :=
  ⟨horder.sublist hsub, fun id hid => hpast id (hsub.subset hid)⟩

theorem without_sublist (c : LRUCache κ ν) (key : κ) (ids : List Nat) :
    (c.without key ids).Sublist ids := by
  unfold LRUCache.without
  split
  · exact List.erase_sublist
  · exact List.Sublist.refl ids

/-- `put` on a whole. -/
theorem Cached.put (hu : Cached u idle busy) (key : κ) (value : ν) {fuel : Nat}
    (hfuel : idle.length < fuel) :
    ∃ u' k, u.exec fuel (.put key value) = some u' ∧
      k ≤ (u.cache.without key idle).length ∧
      Cached u' ((u.cache.without key idle).drop k)
        (u.cache.without key (busy ++ [u.cache.next])) ∧
      (u.cache.maxSize = 0 → k = 0) ∧
      (0 < u.cache.maxSize → u'.cache.size ≤ u.cache.maxSize ∨
        (u.cache.without key idle).drop k = []) ∧
      (0 < k → u.cache.maxSize < u'.cache.size + 1) := by
  have hsub := without_sublist u.cache key idle
  obtain ⟨c₁, hreplace, hc₁, hm₁, hmax₁⟩ := hu.mapped.replaceHandle hu.counted key value
  obtain ⟨c₂, k, hevict, hk, hc₂, hm₂, -, hzero, hstop, hlast⟩ :=
    hm₁.evict hc₁ (Nat.lt_of_le_of_lt hsub.length_le hfuel)
  rw [hmax₁] at hzero hstop hlast
  obtain ⟨horder, hpast⟩ := order_sublist ((List.drop_sublist k _).trans hsub) hu.order hu.past
  refine ⟨{ u with cache := c₂, held := u.cache.next :: u.held }, k, ?_, hk, ?_, hzero, hstop, hlast⟩
  · rw [LRUUse.exec, LRUCache.put, hreplace, Option.bind_some, hevict]
    rfl
  · exact ⟨hc₂, hm₂, horder, hpast⟩

theorem Cached.get (hu : Cached u idle busy) (key : κ) (fuel : Nat) :
    ∃ u' idle' busy', u.exec fuel (.get key) = some u' ∧ Cached u' idle' busy' := by
  cases hlookup : u.cache.cacheMap.lookup key with
  | none =>
      refine ⟨u, idle, busy, ?_, hu⟩
      rw [LRUUse.exec, LRUCache.get, hlookup]
      rfl
  | some id =>
      have hid := hu.mapped.mem_lists hu.counted hlookup
      obtain ⟨c', busy', href, hc', hmap, hentry, hsize⟩ := hu.counted.ref hid
      obtain ⟨horder, hpast⟩ := order_sublist List.erase_sublist hu.order hu.past
      refine ⟨{ u with cache := c', held := id :: u.held }, idle.erase id, busy', ?_,
        ⟨hc', ⟨?_, ?_⟩, horder, hpast⟩⟩
      · rw [LRUUse.exec, LRUCache.get, hlookup]
        show ((u.cache.ref id).map _).map _ = _
        rw [href]
        rfl
      · intro k x
        show c'.cacheMap.lookup k = some x ↔ c'.entry x = some (k, true)
        rw [hmap, hentry]
        exact hu.mapped.lookup k x
      · show c'.size = c'.cacheMap.keys.length
        rw [hmap, hsize]
        exact hu.mapped.keys

theorem Cached.del (hu : Cached u idle busy) (key : κ) (fuel : Nat) :
    ∃ u' idle' busy', u.exec fuel (.del key) = some u' ∧ Cached u' idle' busy' := by
  cases hlookup : u.cache.cacheMap.lookup key with
  | none =>
      refine ⟨u, idle, busy, ?_, hu⟩
      rw [LRUUse.exec, LRUCache.del, hlookup]
      rfl
  | some id =>
      obtain ⟨c', herase, hc', hm', -⟩ := hu.mapped.eraseNode hu.counted hlookup
      obtain ⟨horder, hpast⟩ := order_sublist (List.erase_sublist (a := id)) hu.order hu.past
      refine ⟨{ u with cache := c' }, idle.erase id, busy.erase id, ?_, ⟨hc', hm', horder, hpast⟩⟩
      rw [LRUUse.exec, LRUCache.del, hlookup]
      show (LRUCache.eraseNode _ id).map _ = _
      rw [herase]
      rfl

theorem Cached.prune (hu : Cached u idle busy) {fuel : Nat} (hfuel : idle.length < fuel) :
    ∃ u', u.exec fuel .prune = some u' ∧ Cached u' [] busy := by
  obtain ⟨c', k, hdrop, -, hc', hm', -, -, hstop, -⟩ :=
    hu.mapped.dropWhile (fun _ => true) (fun _ => true) hu.counted (fun _ _ => rfl) hfuel
  have hnil : idle.drop k = [] := by simpa using hstop
  rw [hnil] at hc'
  refine ⟨{ u with cache := c' }, ?_, ⟨hc', hm', List.Pairwise.nil, by simp⟩⟩
  rw [LRUUse.exec, LRUCache.prune, hdrop]
  rfl

theorem Cached.release (hu : Cached u idle busy) (hid : id ∈ u.held) (fuel : Nat) :
    ∃ u' idle' busy', u.exec fuel (.release (some id)) = some u' ∧ Cached u' idle' busy' := by
  obtain ⟨c', idle', busy', hunref, hc', hmap, hsize, hentry, hlist⟩ := hu.counted.release hid
  -- a held handle is not idle, so its new time disturbs no other one
  have hnot : id ∉ idle := fun hmem => by
    have := hu.counted.unheld id hmem
    have := List.count_pos_iff.mpr hid
    omega
  have hsame : ∀ x ∈ idle, Function.update u.releasedAt id u.clock x = u.releasedAt x :=
    fun x hx => Function.update_of_ne (fun (heq : x = id) => hnot (heq ▸ hx)) _ _
  have horder : idle.Pairwise fun a b => Function.update u.releasedAt id u.clock a <
      Function.update u.releasedAt id u.clock b := by
    refine hu.order.imp_of_mem fun ha hb hlt => ?_
    rw [hsame _ ha, hsame _ hb]
    exact hlt
  refine ⟨⟨c', u.held.erase id, Function.update u.releasedAt id u.clock, u.clock + 1⟩, idle', busy',
    ?_, ⟨hc', ⟨fun k x => ?_, ?_⟩, ?_, fun x hx => ?_⟩⟩
  · rw [LRUUse.exec, if_pos hid, LRUCache.release, hunref]
    rfl
  · show c'.cacheMap.lookup k = some x ↔ c'.entry x = some (k, true)
    rw [hmap, hentry]
    exact hu.mapped.lookup k x
  · show c'.size = c'.cacheMap.keys.length
    rw [hmap, hsize]
    exact hu.mapped.keys
  · rcases hlist with rfl | rfl
    · exact horder
    · rw [List.pairwise_append]
      refine ⟨horder, List.pairwise_singleton _ _, fun a ha b hb => ?_⟩
      obtain rfl := List.mem_singleton.mp hb
      show Function.update u.releasedAt b u.clock a < Function.update u.releasedAt b u.clock b
      rw [hsame a ha, Function.update_self]
      exact hu.past a ha
  · have hold : ∀ x ∈ idle, Function.update u.releasedAt id u.clock x < u.clock + 1 :=
      fun x hx => hsame x hx ▸ Nat.lt_succ_of_lt (hu.past x hx)
    rcases hlist with rfl | rfl
    · exact hold x hx
    · rcases List.mem_append.mp hx with hx | hx
      · exact hold x hx
      · obtain rfl := List.mem_singleton.mp hx
        show Function.update u.releasedAt x u.clock x < u.clock + 1
        rw [Function.update_self]
        exact Nat.lt_succ_self _

/-- Every call that its caller may make returns and keeps the invariant. -/
theorem Cached.exec_total (hu : Cached u idle busy) {op : LRUOp κ ν}
    (hheld : ∀ id, op = .release (some id) → id ∈ u.held) :
    ∃ fuel u' idle' busy', u.exec fuel op = some u' ∧ Cached u' idle' busy' := by
  cases op with
  | get key => exact ⟨0, hu.get key 0⟩
  | put key value =>
      obtain ⟨u', k, hexec, -, hu', -⟩ := hu.put key value (Nat.lt_succ_self _)
      exact ⟨_, u', _, _, hexec, hu'⟩
  | del key => exact ⟨0, hu.del key 0⟩
  | prune =>
      obtain ⟨u', hexec, hu'⟩ := hu.prune (Nat.lt_succ_self _)
      exact ⟨_, u', _, _, hexec, hu'⟩
  | setMaxSize maxSize =>
      exact ⟨0, _, idle, busy, rfl,
        ⟨hu.counted.setMaxSize maxSize, ⟨hu.mapped.lookup, hu.mapped.keys⟩, hu.order, hu.past⟩⟩
  | release handle =>
      cases handle with
      | none => exact ⟨0, u, idle, busy, rfl, hu⟩
      | some id => exact ⟨0, hu.release (hheld id rfl) 0⟩

/-- More fuel does not change what a call does. -/
theorem exec_mono {fuel fuel' : Nat} {op : LRUOp κ ν} (hle : fuel ≤ fuel')
    (h : u.exec fuel op = some u') : u.exec fuel' op = some u' := by
  cases op with
  | put key value =>
      simp only [LRUUse.exec, LRUCache.put, Option.map_map, Option.map_eq_some_iff,
        Option.bind_eq_some_iff] at h ⊢
      obtain ⟨c', ⟨c, hreplace, hevict⟩, heq⟩ := h
      refine ⟨c', ⟨c, hreplace, ?_⟩, heq⟩
      unfold LRUCache.evict at hevict ⊢
      split at hevict
      · rename_i hmax
        rw [if_pos hmax]
        exact dropWhile_mono hle hevict
      · rename_i hmax
        rw [if_neg hmax]
        exact hevict
  | prune =>
      simp only [LRUUse.exec, LRUCache.prune, Option.map_eq_some_iff] at h ⊢
      obtain ⟨c', hdrop, heq⟩ := h
      exact ⟨c', dropWhile_mono hle hdrop, heq⟩
  | release handle =>
      cases handle with
      | none => exact h
      | some id => exact h
  | get key => exact h
  | del key => exact h
  | setMaxSize maxSize => exact h

theorem Cached.exec {fuel : Nat} {op : LRUOp κ ν} (hu : Cached u idle busy)
    (h : u.exec fuel op = some u') : ∃ idle' busy', Cached u' idle' busy' := by
  have hheld : ∀ id, op = .release (some id) → id ∈ u.held := by
    rintro id rfl
    by_contra hnot
    rw [LRUUse.exec, if_neg hnot] at h
    cases h
  obtain ⟨fuel', u'', idle', busy', hexec, hu'⟩ := hu.exec_total hheld
  have hsame := exec_mono (Nat.le_max_left fuel fuel') h
  rw [exec_mono (Nat.le_max_right fuel fuel') hexec] at hsame
  obtain rfl := Option.some.inj hsame
  exact ⟨idle', busy', hu'⟩

/-! ### The cache in every run -/

/-- The handle is in the map. -/
def LRUCache.InMap (c : LRUCache κ ν) (id : Nat) : Prop :=
  ∃ key, c.cacheMap.lookup key = some id

/-- What is true of the cache between two calls. `idle` are the handles behind `not_use_` and `busy`
those behind `in_use_`. -/
structure CacheInvariant (u : LRUUse κ ν) (idle busy : List Nat) : Prop where
  notUse : IsList u.cache.links .notUse (idle.map .handle)
  inUse : IsList u.cache.links .inUse (busy.map .handle)
  sizeKeys : u.cache.size = u.cache.cacheMap.keys.length
  sizeLists : u.cache.size = idle.length + busy.length
  idleIff : ∀ id, id ∈ idle ↔ u.cache.InMap id ∧ u.held.count id = 0
  busyIff : ∀ id, id ∈ busy ↔ u.cache.InMap id ∧ 0 < u.held.count id
  refs : ∀ key id, u.cache.cacheMap.lookup key = some id →
    ∃ h, u.cache.heap id = some h ∧ h.key = key ∧ h.ref = 1 + u.held.count id
  order : idle.Pairwise fun a b => u.releasedAt a < u.releasedAt b
  deletedOnce : u.cache.deleted.Nodup
  deletedIff : ∀ id, id ∈ u.cache.deleted ↔
    id < u.cache.next ∧ ¬ u.cache.InMap id ∧ u.held.count id = 0

theorem Cached.inMap_iff (hu : Cached u idle busy) :
    u.cache.InMap id ↔ id ∈ idle ++ busy := by
  rw [hu.counted.mem_iff_entry, LRUCache.InMap]
  exact exists_congr fun key => hu.mapped.lookup key id

theorem Cached.invariant (hu : Cached u idle busy) : CacheInvariant u idle busy where
  notUse := hu.counted.rings.notUse
  inUse := hu.counted.rings.inUse
  sizeKeys := hu.mapped.keys
  sizeLists := hu.counted.size
  idleIff := by
    intro id
    rw [hu.inMap_iff]
    constructor
    · exact fun hid => ⟨List.mem_append_left busy hid, hu.counted.unheld id hid⟩
    · exact fun ⟨hid, hzero⟩ => (hu.counted.mem_idle_iff hid).mpr hzero
  busyIff := by
    intro id
    rw [hu.inMap_iff]
    constructor
    · exact fun hid => ⟨List.mem_append_right idle hid, hu.counted.inHand id hid⟩
    · rintro ⟨hid, hpos⟩
      refine (List.mem_append.mp hid).resolve_left fun hidle => ?_
      have := hu.counted.unheld id hidle
      omega
  refs := by
    intro key id hlookup
    obtain ⟨h, hheap, hin, href⟩ := hu.counted.cached (hu.mapped.mem_lists hu.counted hlookup)
    have hentry := (hu.mapped.lookup key id).mp hlookup
    rw [LRUCache.entry, hheap, Option.map_some] at hentry
    exact ⟨h, hheap, (Prod.mk.inj (Option.some.inj hentry)).1, href⟩
  order := hu.order
  deletedOnce := hu.counted.once
  deletedIff := by
    intro id
    rw [hu.counted.gone, hu.inMap_iff, hu.counted.listed]
    refine and_congr_right fun _ => ?_
    constructor
    · intro hnone
      refine ⟨by simp [hnone], List.count_eq_zero.mpr fun hheld => ?_⟩
      obtain ⟨h, hheap⟩ := hu.counted.alive id hheld
      cases hnone.symm.trans hheap
    · rintro ⟨hout, hzero⟩
      cases hheap : u.cache.heap id with
      | none => rfl
      | some h =>
          cases hin : h.inCache with
          | true => exact absurd ⟨h, hheap, hin⟩ hout
          | false =>
              have := hu.counted.kept id h hheap hin
              omega

/-- The cache after any sequence of calls in which handles are released at most once each. A `put`
takes idle handles from the front of `not_use_`, as many as it has to and no other ones, and no call
fails. -/
theorem lru_invariant (h : Reachable (LRUUse.machine κ ν) (fun _ _ => True) u) :
    ∃ idle busy, CacheInvariant u idle busy ∧
      (∀ fuel key value u', u.exec fuel (.put key value) = some u' →
        ∃ k, CacheInvariant u' ((u.cache.without key idle).drop k)
            (u.cache.without key (busy ++ [u.cache.next])) ∧
          (u.cache.maxSize = 0 → k = 0) ∧
          (0 < u.cache.maxSize → u'.cache.size ≤ u.cache.maxSize ∨
            (u.cache.without key idle).drop k = []) ∧
          (0 < k → u.cache.maxSize < u'.cache.size + 1)) ∧
      ∀ op, (∀ id, op = .release (some id) → id ∈ u.held) → ∃ fuel u', u.exec fuel op = some u' := by
  obtain ⟨idle, busy, hu⟩ : ∃ idle busy, Cached u idle busy := by
    refine h.invariant (P := fun u => ∃ idle busy, Cached u idle busy) ?_ ?_
    · rintro u rfl
      exact ⟨[], [], cached_create⟩
    · rintro u op u' ⟨idle, busy, hu⟩ - ⟨fuel, hexec⟩
      exact hu.exec hexec
  refine ⟨idle, busy, hu.invariant, ?_, ?_⟩
  · intro fuel key value u' hexec
    obtain ⟨u'', k, hput, -, hu'', hzero, hstop, hlast⟩ := hu.put key value
      (Nat.lt_succ_of_le (Nat.le_max_right fuel idle.length))
    have hsame := exec_mono (Nat.le_succ_of_le (Nat.le_max_left fuel idle.length)) hexec
    rw [hput] at hsame
    obtain rfl := Option.some.inj hsame
    exact ⟨k, hu''.invariant, hzero, hstop, hlast⟩
  · intro op hheld
    obtain ⟨fuel, u', -, -, hexec, -⟩ := hu.exec_total hheld
    exact ⟨fuel, u', hexec⟩

/-- A cache of one entry: the second `put` evicts the first entry, which was released. -/
theorem lru_invariant_evicts : ∃ u : LRUUse Nat Nat,
    Reachable (LRUUse.machine Nat Nat) (fun _ _ => True) u ∧ u.cache.deleted = [0] ∧
      ∃ idle busy, CacheInvariant u idle busy := by
  have hrun : (runChecked LRUUse.exec (fun _ _ => True) 3 (LRUUse.create Nat Nat)
      [.setMaxSize 1, .put 5 50, .release (some 0), .put 6 60]).map
        (fun u => u.cache.deleted) = some [0] := by decide +kernel
  obtain ⟨u, hrun, hdeleted⟩ := Option.map_eq_some_iff.mp hrun
  have hreach := runChecked_reachable (.init rfl) hrun
  obtain ⟨idle, busy, hinv, -⟩ := lru_invariant hreach
  exact ⟨u, hreach, hdeleted, idle, busy, hinv⟩

end Workflow.Util
