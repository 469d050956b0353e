/-
Module: Workflow.Proofs.LRUValues
Layer: Proofs
Purpose: What the calls of the LRU cache leave alone: no handle gets another value, and no key leads to
  another handle, unless it is put; a handle may be deleted, and a key may go.
Trusted boundary: none
Main exports: Keeps, keeps_get, keeps_release, keeps_del, keeps_put, Counted.setValue
-/
import Workflow.Proofs.LRUCache

namespace Workflow.Util

open Workflow.Lib

variable {κ ν : Type} {c c' c'' : LRUCache κ ν} {P : Nat → Prop} {Q : κ → Prop} {id : Nat}

variable [DecidableEq κ]

/-- Among the handles with `P` and the keys with `Q`, what is left is as it was. -/
structure Keeps (P : Nat → Prop) (Q : κ → Prop) (c c' : LRUCache κ ν) : Prop where
  value : ∀ id h', P id → c'.heap id = some h' → ∃ h, c.heap id = some h ∧ h'.value = h.value
  map : ∀ k id, Q k → c'.cacheMap.lookup k = some id → c.cacheMap.lookup k = some id

theorem Keeps.refl (c : LRUCache κ ν) : Keeps P Q c c :=
  ⟨fun _ h' _ hheap => ⟨h', hheap, rfl⟩, fun _ _ _ hlookup => hlookup⟩

theorem Keeps.trans (h : Keeps P Q c c') (h' : Keeps P Q c' c'') : Keeps P Q c c'' := by
  constructor
  · intro id g hP hheap
    obtain ⟨g', hheap', hvalue⟩ := h'.value id g hP hheap
    obtain ⟨g'', hheap'', hvalue'⟩ := h.value id g' hP hheap'
    exact ⟨g'', hheap'', hvalue.trans hvalue'⟩
  · exact fun k id hQ hlookup => h.map k id hQ (h'.map k id hQ hlookup)

/-- Only the rings, the size or the list of deleted handles changes. -/
theorem keeps_of_eq (hheap : c'.heap = c.heap) (hmap : c'.cacheMap = c.cacheMap) : Keeps P Q c c' :=
  ⟨fun _ h' _ hheap' => ⟨h', hheap ▸ hheap', rfl⟩, fun _ _ _ hlookup => hmap ▸ hlookup⟩

/-- A handle is stored again with the value it had. -/
theorem keeps_store {h h' : LRUHandle κ ν} (hheap : c.heap id = some h) (hvalue : h'.value = h.value) :
    Keeps P Q c (c.store id (some h')) := by
  refine ⟨fun x g _ hg => ?_, fun _ _ _ hlookup => hlookup⟩
  by_cases hx : x = id
  · rw [hx, store_heap_self] at hg
    cases hg
    exact ⟨h, hx ▸ hheap, hvalue⟩
  · rw [store_heap_of_ne hx] at hg
    exact ⟨g, hg, rfl⟩

/-- A handle that is deleted changes no value. -/
theorem keeps_store_none (c : LRUCache κ ν) (id : Nat) : Keeps P Q c (c.store id none) := by
  refine ⟨fun x g _ hg => ?_, fun _ _ _ hlookup => hlookup⟩
  by_cases hx : x = id
  · rw [hx, store_heap_self] at hg
    cases hg
  · rw [store_heap_of_ne hx] at hg
    exact ⟨g, hg, rfl⟩

/-- A key that leaves the map takes no value along. -/
theorem keeps_erase (c : LRUCache κ ν) (key : κ) :
    Keeps P Q c { c with cacheMap := c.cacheMap.erase key } := by
  refine ⟨fun _ h' _ hheap => ⟨h', hheap, rfl⟩, fun k id _ hlookup => ?_⟩
  by_cases hk : k = key
  · have hgone : (c.cacheMap.erase key).lookup key = none := AList.lookup_erase key c.cacheMap
    rw [hk] at hlookup
    cases hgone.symm.trans hlookup
  · have hsame : (c.cacheMap.erase key).lookup k = c.cacheMap.lookup k := AList.lookup_erase_ne hk
    exact hsame ▸ hlookup

omit [DecidableEq κ] in
/-- Moving a handle between the lists touches neither values nor keys. -/
theorem keeps_moveTo {list : LRUNode} (h : c.moveTo list id = some c') :
    c'.heap = c.heap ∧ c'.cacheMap = c.cacheMap := by
  obtain ⟨d, hremove, happend⟩ := Option.bind_eq_some_iff.mp h
  obtain ⟨links, -, rfl⟩ := Option.map_eq_some_iff.mp hremove
  obtain ⟨links', -, rfl⟩ := Option.map_eq_some_iff.mp happend
  exact ⟨rfl, rfl⟩

omit [DecidableEq κ] in
/-- Another reference leaves the map as it is, and the value of the handle. -/
theorem ref_cases (h : c.ref id = some c') :
    ∃ (g : LRUHandle κ ν) (d : LRUCache κ ν), c.heap id = some g ∧ d.heap = c.heap ∧
      d.cacheMap = c.cacheMap ∧
      c' = d.store id (some { g with ref := g.ref + 1 }) := by
  obtain ⟨g, hheap, h⟩ := Option.bind_eq_some_iff.mp h
  obtain ⟨d, hmove, rfl⟩ := Option.map_eq_some_iff.mp h
  have hsame : d.heap = c.heap ∧ d.cacheMap = c.cacheMap := by
    split at hmove
    · exact keeps_moveTo hmove
    · cases hmove
      exact ⟨rfl, rfl⟩
  exact ⟨g, d, hheap, hsame.1, hsame.2, rfl⟩

/-- `LRUCache::ref` keeps the values. -/
theorem keeps_ref (h : c.ref id = some c') : Keeps P Q c c' := by
  obtain ⟨g, d, hheap, hsame, hmap, rfl⟩ := ref_cases h
  have hheap' : d.heap id = some g := by rw [hsame, hheap]
  exact (keeps_of_eq hsame hmap).trans (keeps_store hheap' rfl)

/-- `LRUCache::unref` keeps those of the handles that are left. -/
theorem keeps_unref (h : c.unref id = some c') : Keeps P Q c c' := by
  obtain ⟨g, hheap, h⟩ := Option.bind_eq_some_iff.mp h
  split at h
  · cases h
  split at h
  · split at h
    · cases h
    · cases h
      exact (keeps_store_none c id).trans (keeps_of_eq rfl rfl)
  · have hstore : Keeps P Q c (c.store id (some { g with ref := g.ref - 1 })) :=
      keeps_store hheap rfl
    split at h
    · obtain ⟨hsame, hmap⟩ := keeps_moveTo h
      exact hstore.trans (keeps_of_eq hsame hmap)
    · cases h
      exact hstore

theorem keeps_eraseNode (h : c.eraseNode id = some c') : Keeps P Q c c' := by
  obtain ⟨g, hheap, h⟩ := Option.bind_eq_some_iff.mp h
  split at h
  · obtain ⟨d, hremove, hunref⟩ := Option.bind_eq_some_iff.mp h
    obtain ⟨links, -, rfl⟩ := Option.map_eq_some_iff.mp hremove
    have hlinks : Keeps P Q c { c with links := links } := keeps_of_eq rfl rfl
    have hout : Keeps P Q { c with links := links } _ :=
      keeps_store hheap (show ({ g with inCache := false } : LRUHandle κ ν).value = g.value from rfl)
    have hunref' := keeps_unref (P := P) (Q := Q) hunref
    exact (hlinks.trans hout).trans ⟨hunref'.value, hunref'.map⟩
  · cases h

theorem keeps_dropOldest (h : c.dropOldest = some c') : Keeps P Q c c' := by
  unfold LRUCache.dropOldest at h
  split at h
  · obtain ⟨g, -, h⟩ := Option.bind_eq_some_iff.mp h
    split at h
    · exact (keeps_erase c g.key).trans (keeps_eraseNode h)
    · cases h
  · cases h

/-- However many handles the loop drops, those that are left keep their values. -/
theorem keeps_dropWhile {more : LRUCache κ ν → Bool} {fuel : Nat}
    (h : LRUCache.dropWhile more fuel c = some c') : Keeps P Q c c' := by
  induction fuel generalizing c with
  | zero => cases h
  | succ fuel ih =>
      rw [LRUCache.dropWhile] at h
      split at h
      · obtain ⟨d, hdrop, hrest⟩ := Option.bind_eq_some_iff.mp h
        exact (keeps_dropOldest hdrop).trans (ih hrest)
      · cases h
        exact Keeps.refl _

/-- Looking a key up changes no value. -/
theorem keeps_get {key : κ} {handle : Option Nat} (h : c.get key = some (c', handle)) :
    Keeps P Q c c' := by
  unfold LRUCache.get at h
  split at h
  · obtain ⟨d, href, heq⟩ := Option.map_eq_some_iff.mp h
    cases heq
    exact keeps_ref href
  · cases h
    exact Keeps.refl c

theorem get_cacheMap {key : κ} {handle : Option Nat} (h : c.get key = some (c', handle)) :
    c'.cacheMap = c.cacheMap := by
  unfold LRUCache.get at h
  split at h
  · obtain ⟨d, href, heq⟩ := Option.map_eq_some_iff.mp h
    cases heq
    obtain ⟨g, e, -, -, hmap, rfl⟩ := ref_cases href
    exact hmap
  · cases h
    rfl

theorem keeps_release {handle : Option Nat} (h : c.release handle = some c') : Keeps P Q c c' := by
  cases handle with
  | none =>
      cases h
      exact Keeps.refl c
  | some id => exact keeps_unref h

/-- Deleting a key changes no value. -/
theorem keeps_del {key : κ} (h : c.del key = some c') : Keeps P Q c c' := by
  unfold LRUCache.del at h
  split at h
  · exact (keeps_erase c key).trans (keeps_eraseNode h)
  · cases h
    exact Keeps.refl c

/-- A new handle has a value of its own; the others keep theirs. -/
theorem keeps_insertHandle {key : κ} {value : ν} (h : c.insertHandle key value = some c') :
    Keeps (· ≠ c.next) Q c c' := by
  obtain ⟨links, -, rfl⟩ := Option.map_eq_some_iff.mp h
  refine ⟨fun id g hid hg => ⟨g, ?_, rfl⟩, fun _ _ _ hlookup => hlookup⟩
  rwa [← store_heap_of_ne hid (some { key := key, value := value, ref := 2, inCache := true })]

theorem keeps_eraseOld {key : κ} (h : c.eraseOld key = some c') : Keeps P Q c c' := by
  unfold LRUCache.eraseOld at h
  split at h
  · exact keeps_eraseNode h
  · cases h
    exact Keeps.refl c

/-- Every other key leads where it did. -/
theorem keeps_insert (c : LRUCache κ ν) (key : κ) (id : Nat) :
    Keeps P (· ≠ key) c { c with cacheMap := c.cacheMap.insert key id } := by
  refine ⟨fun _ h' _ hheap => ⟨h', hheap, rfl⟩, fun k id' hk hlookup => ?_⟩
  have hsame : (c.cacheMap.insert key id).lookup k = c.cacheMap.lookup k := AList.lookup_insert_ne hk
  exact hsame ▸ hlookup

theorem keeps_evict {fuel : Nat} (h : c.evict fuel = some c') : Keeps P Q c c' := by
  unfold LRUCache.evict at h
  split at h
  · exact keeps_dropWhile h
  · cases h
    exact Keeps.refl c

/-- `put` changes nothing but the new handle and its key. -/
theorem keeps_put {fuel : Nat} {key : κ} {value : ν} {handle : Option Nat}
    (h : c.put fuel key value = some (c', handle)) : Keeps (· ≠ c.next) (· ≠ key) c c' := by
  obtain ⟨d, hput, heq⟩ := Option.map_eq_some_iff.mp h
  cases heq
  obtain ⟨e, hreplace, hevict⟩ := Option.bind_eq_some_iff.mp hput
  obtain ⟨f, hinsert, hreplace⟩ := Option.bind_eq_some_iff.mp hreplace
  obtain ⟨g, herase, rfl⟩ := Option.map_eq_some_iff.mp hreplace
  have hnew : Keeps (· ≠ c.next) (· ≠ key) c g :=
    (keeps_insertHandle hinsert).trans (keeps_eraseOld herase)
  exact hnew.trans ((keeps_insert g key c.next).trans (keeps_evict hevict))

/-! ### Another value -/

variable {held idle busy : List Nat}

omit [DecidableEq κ] in
/-- The value of a handle is no matter of the counts. -/
theorem Counted.setValue {h : LRUHandle κ ν} (hc : Counted c held idle busy)
    (hheap : c.heap id = some h) (value : ν) :
    Counted (c.store id (some { h with value := value })) held idle busy := by
  refine hc.touch hheap rfl hc.rings hc.size (fun x => ?_) (hc.refs id h hheap) (fun _ _ => rfl)
    (hc.unheld id) (hc.inHand id) (fun _ _ => Iff.rfl) (fun _ _ => Iff.rfl) (hc.kept id h hheap) rfl rfl
  split
  · rename_i hx
    rw [hx, hc.listed]
    constructor
    · rintro ⟨g, hg, hin⟩
      exact Option.some.inj (hheap.symm.trans hg) ▸ hin
    · exact fun hin => ⟨h, hheap, hin⟩
  · exact Iff.rfl

omit [DecidableEq κ] in
/-- A new value leaves all that the lists are about as it is. -/
theorem entry_setValue {h : LRUHandle κ ν} (hheap : c.heap id = some h) (value : ν) :
    (c.store id (some { h with value := value })).entry = c.entry := by
  funext x
  rw [LRUCache.entry, LRUCache.entry]
  by_cases hx : x = id
  · rw [hx, store_heap_self, hheap]
    rfl
  · rw [store_heap_of_ne hx]

/-- The value of a handle may be changed in place. -/
theorem Cached.setValue {u : LRUUse κ ν} {h : LRUHandle κ ν} (hu : Cached u idle busy)
    (hheap : u.cache.heap id = some h) (value : ν) :
    Cached { u with cache := u.cache.store id (some { h with value := value }) } idle busy where
  counted := hu.counted.setValue hheap value
  mapped := by
    refine ⟨fun k x => ?_, hu.mapped.keys⟩
    rw [entry_setValue hheap value]
    exact hu.mapped.lookup k x
  order := hu.order
  past := hu.past

end Workflow.Util
