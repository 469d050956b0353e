/-
Module: Workflow.Proofs.LRUHandles
Layer: Proofs
Purpose: The handles of LRUCache.h. `Counted` relates the two rings, the reference counts and the
  handles that callers hold, and says nothing of the map; `ref`, `unref`, `erase_node` and making a
  handle keep it.
Trusted boundary: none
Main exports: Rings, Counted, Counted.touch, Counted.delete, Counted.ref, Counted.release,
  Counted.eraseNode, Counted.insertHandle
-/
import Workflow.Util.LRUCache
import Mathlib.Data.List.Nodup

namespace Workflow.Util

open Workflow.Lib

/-! ### The rings -/

/-- The handles behind the two sentinels. -/
structure Rings (links : Links LRUNode) (idle busy : List Nat) : Prop where
  notUse : IsList links .notUse (idle.map .handle)
  inUse : IsList links .inUse (busy.map .handle)
  nodup : (idle ++ busy).Nodup

namespace Rings

variable {links : Links LRUNode} {idle busy : List Nat} {id : Nat}

theorem mem_handle {id : Nat} {ids : List Nat} :
    LRUNode.handle id ∈ ids.map LRUNode.handle ↔ id ∈ ids := by
  simp

/-- No node of one ring is in the other one. -/
theorem disjoint (h : Rings links idle busy) :
    ∀ x ∈ LRUNode.inUse :: busy.map .handle, x ∉ LRUNode.notUse :: idle.map .handle := by
  have hids := List.disjoint_of_nodup_append h.nodup
  intro x hx hx'
  cases x with
  | notUse => simp at hx
  | inUse => simp at hx'
  | handle id =>
      simp only [List.mem_cons, reduceCtorEq, false_or, mem_handle] at hx hx'
      exact hids hx' hx

theorem init : Rings (initListHead (initListHead
    { next := fun _ => none, prev := fun _ => none } .notUse) .inUse) [] [] where
  notUse := by
    refine (initListHead_isList { next := fun _ => none, prev := fun _ => none }
      LRUNode.notUse).congr (fun x hx => ?_) fun x hx => ?_
    · obtain rfl := List.mem_singleton.mp hx
      rfl
    · obtain rfl := List.mem_singleton.mp hx
      rfl
  inUse := initListHead_isList _ _
  nodup := List.nodup_nil

theorem erase_handle {ids : List Nat} (h : ids.Nodup) {before after : List Nat}
    (hsplit : ids = before ++ id :: after) : ids.erase id = before ++ after := by
  subst hsplit
  have hnot : id ∉ before := fun hmem =>
    List.disjoint_of_nodup_append h hmem List.mem_cons_self
  rw [List.erase_append_right _ hnot, List.erase_cons_head]

/-- `list_remove` of a handle behind `not_use_`. -/
theorem remove_notUse (h : Rings links idle busy) (hid : id ∈ idle) :
    ∃ links', listDel links (.handle id) = some links' ∧
      Rings links' (idle.erase id) busy := by
  obtain ⟨before, after, hsplit⟩ := List.append_of_mem hid
  have hlist := h.notUse
  have herase := erase_handle h.nodup.of_append_left hsplit
  rw [hsplit, List.map_append, List.map_cons] at hlist
  obtain ⟨links', hdel, hlist', -⟩ := listDel_isList hlist
  refine ⟨links', hdel, ⟨?_, ?_, ?_⟩⟩
  · rw [herase, List.map_append]
    exact hlist'
  · exact listDel_other h.notUse (mem_handle.mpr hid) hdel h.inUse h.disjoint
  · exact h.nodup.sublist ((List.erase_sublist).append_right busy)

/-- `list_remove` of a handle behind `in_use_`. -/
theorem remove_inUse (h : Rings links idle busy) (hid : id ∈ busy) :
    ∃ links', listDel links (.handle id) = some links' ∧
      Rings links' idle (busy.erase id) := by
  obtain ⟨before, after, hsplit⟩ := List.append_of_mem hid
  have hlist := h.inUse
  have herase := erase_handle h.nodup.of_append_right hsplit
  rw [hsplit, List.map_append, List.map_cons] at hlist
  obtain ⟨links', hdel, hlist', -⟩ := listDel_isList hlist
  refine ⟨links', hdel, ⟨?_, ?_, ?_⟩⟩
  · exact listDel_other h.inUse (mem_handle.mpr hid) hdel h.notUse
      fun x hx hx' => h.disjoint x hx' hx
  · rw [herase, List.map_append]
    exact hlist'
  · exact h.nodup.sublist ((List.erase_sublist).append_left idle)

/-- `list_append` behind `not_use_`. -/
theorem append_notUse (h : Rings links idle busy) (hid : id ∉ idle ++ busy) :
    ∃ links', listAddTail links (.handle id) .notUse = some links' ∧
      Rings links' (idle ++ [id]) busy := by
  rw [List.mem_append, not_or] at hid
  obtain ⟨links', hadd, hlist, -⟩ := listAddTail_isList h.notUse
    (show LRUNode.handle id ∉ LRUNode.notUse :: idle.map LRUNode.handle by simp [hid.1])
  refine ⟨links', hadd, ⟨?_, ?_, ?_⟩⟩
  · rw [List.map_append]
    exact hlist
  · refine listAddTail_other h.notUse hadd h.inUse fun x hx hx' => ?_
    rcases List.mem_cons.mp hx' with rfl | hx'
    · simp [hid.2] at hx
    · exact h.disjoint x hx hx'
  · rw [List.append_assoc, List.singleton_append, List.nodup_middle]
    rw [List.nodup_cons, List.mem_append, not_or]
    exact ⟨hid, h.nodup⟩

/-- `list_append` behind `in_use_`. -/
theorem append_inUse (h : Rings links idle busy) (hid : id ∉ idle ++ busy) :
    ∃ links', listAddTail links (.handle id) .inUse = some links' ∧
      Rings links' idle (busy ++ [id]) := by
  have hnot := hid
  rw [List.mem_append, not_or] at hid
  obtain ⟨links', hadd, hlist, -⟩ := listAddTail_isList h.inUse
    (show LRUNode.handle id ∉ LRUNode.inUse :: busy.map LRUNode.handle by simp [hid.2])
  refine ⟨links', hadd, ⟨?_, ?_, ?_⟩⟩
  · refine listAddTail_other h.inUse hadd h.notUse fun x hx hx' => ?_
    rcases List.mem_cons.mp hx' with rfl | hx'
    · simp [hid.1] at hx
    · exact h.disjoint x hx' hx
  · rw [List.map_append]
    exact hlist
  · rw [← List.append_assoc]
    refine List.Nodup.append h.nodup (List.nodup_singleton id) ?_
    intro x hx hx'
    exact hnot (List.mem_singleton.mp hx' ▸ hx)

/-- The first handle behind `not_use_`. -/
theorem next_notUse (h : Rings links idle busy) :
    links.next .notUse = some ((idle.map LRUNode.handle).headD .notUse) :=
  h.notUse.next_head

theorem notMem_of_mem_idle (h : Rings links idle busy) (hid : id ∈ idle) :
    id ∉ idle.erase id ++ busy := by
  rw [List.mem_append, not_or]
  exact ⟨h.nodup.of_append_left.not_mem_erase, List.disjoint_of_nodup_append h.nodup hid⟩

theorem notMem_of_mem_busy (h : Rings links idle busy) (hid : id ∈ busy) :
    id ∉ idle ++ busy.erase id := by
  rw [List.mem_append, not_or]
  exact ⟨fun hidle => List.disjoint_of_nodup_append h.nodup hidle hid,
    h.nodup.of_append_right.not_mem_erase⟩

end Rings

/-! ### Reference counts -/

variable {κ ν : Type} {c : LRUCache κ ν} {held idle busy : List Nat} {id : Nat}
  {h : LRUHandle κ ν}

/-- What the map is about: the key of a handle, and whether it is in the cache. -/
def LRUCache.entry (c : LRUCache κ ν) (id : Nat) : Option (κ × Bool) :=
  (c.heap id).map fun h => (h.key, h.inCache)

/-- The rings are `idle` and `busy`, and `held` are the handles that callers hold. -/
structure Counted (c : LRUCache κ ν) (held idle busy : List Nat) : Prop where
  rings : Rings c.links idle busy
  size : c.size = idle.length + busy.length
  listed : ∀ id, id ∈ idle ++ busy ↔ ∃ h, c.heap id = some h ∧ h.inCache = true
  refs : ∀ id h, c.heap id = some h → h.ref = (if h.inCache then 1 else 0) + held.count id
  unheld : ∀ id ∈ idle, held.count id = 0
  inHand : ∀ id ∈ busy, 0 < held.count id
  alive : ∀ id ∈ held, ∃ h, c.heap id = some h
  kept : ∀ id h, c.heap id = some h → h.inCache = false → 0 < held.count id
  fresh : ∀ id h, c.heap id = some h → id < c.next
  gone : ∀ id, id ∈ c.deleted ↔ id < c.next ∧ c.heap id = none
  once : c.deleted.Nodup

theorem counted_create : Counted (LRUCache.create κ ν) [] [] [] where
  rings := Rings.init
  size := rfl
  listed := by simp [LRUCache.create]
  refs := by simp [LRUCache.create]
  unheld := by simp
  inHand := by simp
  alive := by simp
  kept := by simp [LRUCache.create]
  fresh := by simp [LRUCache.create]
  gone := by simp [LRUCache.create]
  once := List.nodup_nil

theorem Counted.mem_idle_iff (hc : Counted c held idle busy) (hid : id ∈ idle ++ busy) :
    id ∈ idle ↔ held.count id = 0 := by
  constructor
  · exact hc.unheld id
  · intro hzero
    rcases List.mem_append.mp hid with hidle | hbusy
    · exact hidle
    · have hpos := hc.inHand id hbusy
      omega

/-- A handle in the cache has one reference more than it is held. -/
theorem Counted.cached (hc : Counted c held idle busy) (hid : id ∈ idle ++ busy) :
    ∃ h, c.heap id = some h ∧ h.inCache = true ∧ h.ref = 1 + held.count id := by
  obtain ⟨h, hheap, hin⟩ := (hc.listed id).mp hid
  refine ⟨h, hheap, hin, ?_⟩
  rw [hc.refs id h hheap, if_pos hin]

theorem store_heap_self (h : Option (LRUHandle κ ν)) : (c.store id h).heap id = h :=
  Function.update_self _ _ _

theorem store_heap_of_ne {id' : Nat} (hne : id' ≠ id) (h : Option (LRUHandle κ ν)) :
    (c.store id h).heap id' = c.heap id' :=
  Function.update_of_ne hne _ _

/-- One handle is replaced by `h'`, and the rings and what is held change for it only. -/
theorem Counted.touch {c' : LRUCache κ ν} {h' : LRUHandle κ ν} {held' idle' busy' : List Nat}
    (hc : Counted c held idle busy) (hheap : c.heap id = some h)
    (hheap' : c'.heap = Function.update c.heap id (some h')) (hrings : Rings c'.links idle' busy')
    (hsize : c'.size = idle'.length + busy'.length)
    (hlisted : ∀ x, x ∈ idle' ++ busy' ↔ if x = id then h'.inCache = true else x ∈ idle ++ busy)
    (href : h'.ref = (if h'.inCache then 1 else 0) + held'.count id)
    (hheld : ∀ x ≠ id, held'.count x = held.count x)
    (hunheld : id ∈ idle' → held'.count id = 0) (hinHand : id ∈ busy' → 0 < held'.count id)
    (hidle : ∀ x ≠ id, x ∈ idle' ↔ x ∈ idle) (hbusy : ∀ x ≠ id, x ∈ busy' ↔ x ∈ busy)
    (hkept : h'.inCache = false → 0 < held'.count id) (hnext : c'.next = c.next)
    (hdeleted : c'.deleted = c.deleted) : Counted c' held' idle' busy' := by
  have hself : c'.heap id = some h' := by rw [hheap', Function.update_self]
  have hother : ∀ x ≠ id, c'.heap x = c.heap x := fun x hx => by
    rw [hheap', Function.update_of_ne hx]
  refine ⟨hrings, hsize, fun x => ?_, fun x g hg => ?_, fun x hx => ?_, fun x hx => ?_,
    fun x hx => ?_, fun x g hg hout => ?_, fun x g hg => ?_, fun x => ?_, hdeleted ▸ hc.once⟩
  · rw [hlisted x]
    split
    · rename_i heq
      simp [heq, hself]
    · rename_i hne
      rw [hother x hne, hc.listed x]
  · rcases eq_or_ne x id with rfl | hne
    · obtain rfl := Option.some.inj (hself.symm.trans hg)
      exact href
    · rw [hheld x hne]
      exact hc.refs x g (hother x hne ▸ hg)
  · rcases eq_or_ne x id with rfl | hne
    · exact hunheld hx
    · rw [hheld x hne]
      exact hc.unheld x ((hidle x hne).mp hx)
  · rcases eq_or_ne x id with rfl | hne
    · exact hinHand hx
    · rw [hheld x hne]
      exact hc.inHand x ((hbusy x hne).mp hx)
  · rcases eq_or_ne x id with rfl | hne
    · exact ⟨h', hself⟩
    · rw [hother x hne]
      refine hc.alive x (List.count_pos_iff.mp ?_)
      rw [← hheld x hne]
      exact List.count_pos_iff.mpr hx
  · rcases eq_or_ne x id with rfl | hne
    · obtain rfl := Option.some.inj (hself.symm.trans hg)
      exact hkept hout
    · rw [hheld x hne]
      exact hc.kept x g (hother x hne ▸ hg) hout
  · rw [hnext]
    rcases eq_or_ne x id with rfl | hne
    · exact hc.fresh x h hheap
    · exact hc.fresh x g (hother x hne ▸ hg)
  · rw [hdeleted, hnext, hc.gone x]
    rcases eq_or_ne x id with rfl | hne
    · simp [hheap, hself]
    · rw [hother x hne]

/-- A handle outside of the cache that nobody holds any more is deleted. -/
theorem Counted.delete {c' : LRUCache κ ν} {held' idle' busy' : List Nat}
    (hc : Counted c held idle busy) (hheap : c.heap id = some h)
    (hheap' : c'.heap = Function.update c.heap id none) (hrings : Rings c'.links idle' busy')
    (hsize : c'.size = idle'.length + busy'.length) (hzero : held'.count id = 0)
    (hheld : ∀ x ≠ id, held'.count x = held.count x) (hnot : id ∉ idle' ++ busy')
    (hidle : ∀ x ≠ id, x ∈ idle' ↔ x ∈ idle) (hbusy : ∀ x ≠ id, x ∈ busy' ↔ x ∈ busy)
    (hnext : c'.next = c.next) (hdeleted : c'.deleted = c.deleted ++ [id]) :
    Counted c' held' idle' busy' := by
  have hself : c'.heap id = none := by rw [hheap', Function.update_self]
  have hother : ∀ x ≠ id, c'.heap x = c.heap x := fun x hx => by
    rw [hheap', Function.update_of_ne hx]
  have hne : ∀ x g, c'.heap x = some g → x ≠ id := by
    rintro x g hg rfl
    cases hself.symm.trans hg
  refine ⟨hrings, hsize, fun x => ?_, fun x g hg => ?_, fun x hx => ?_, fun x hx => ?_,
    fun x hx => ?_, fun x g hg hout => ?_, fun x g hg => ?_, fun x => ?_, ?_⟩
  · rcases eq_or_ne x id with rfl | hne
    · simp only [hnot, hself, reduceCtorEq, false_and, exists_false]
    · rw [List.mem_append, hidle x hne, hbusy x hne, ← List.mem_append, hc.listed x, hother x hne]
  · rw [hheld x (hne x g hg)]
    exact hc.refs x g (hother x (hne x g hg) ▸ hg)
  · have hx' : x ≠ id := fun heq => hnot (heq ▸ List.mem_append_left busy' hx)
    rw [hheld x hx']
    exact hc.unheld x ((hidle x hx').mp hx)
  · have hx' : x ≠ id := fun heq => hnot (heq ▸ List.mem_append_right idle' hx)
    rw [hheld x hx']
    exact hc.inHand x ((hbusy x hx').mp hx)
  · have hpos := List.count_pos_iff.mpr hx
    have hx' : x ≠ id := by
      rintro rfl
      omega
    rw [hother x hx']
    refine hc.alive x (List.count_pos_iff.mp ?_)
    rwa [← hheld x hx']
  · rw [hheld x (hne x g hg)]
    exact hc.kept x g (hother x (hne x g hg) ▸ hg) hout
  · rw [hnext]
    exact hc.fresh x g (hother x (hne x g hg) ▸ hg)
  · rw [hdeleted, hnext, List.mem_append, List.mem_singleton, hc.gone x]
    rcases eq_or_ne x id with rfl | hne
    · simp [hself, hc.fresh x h hheap]
    · rw [hother x hne]
      simp [hne]
  · rw [hdeleted]
    refine List.Nodup.append hc.once (List.nodup_singleton id) ?_
    intro x hx hx'
    rw [List.mem_singleton.mp hx', hc.gone id, hheap] at hx
    cases hx.2

/-- A reference count is no matter of the map. -/
theorem entry_of_ref {c' : LRUCache κ ν} {ref : Nat} (hheap : c.heap id = some h)
    (hheap' : c'.heap = Function.update c.heap id (some { h with ref := ref })) :
    c'.entry = c.entry := by
  funext x
  rw [LRUCache.entry, LRUCache.entry, hheap']
  rcases eq_or_ne x id with rfl | hne
  · rw [Function.update_self, hheap]
    rfl
  · rw [Function.update_of_ne hne]

/-- One more handle is held: `ref` of a handle in the cache. -/
theorem Counted.ref (hc : Counted c held idle busy) (hid : id ∈ idle ++ busy) :
    ∃ c' busy', c.ref id = some c' ∧ Counted c' (id :: held) (idle.erase id) busy' ∧
      c'.cacheMap = c.cacheMap ∧ c'.entry = c.entry ∧ c'.size = c.size := by
  obtain ⟨h, hheap, hin, href⟩ := hc.cached hid
  have hnodup := hc.rings.nodup.of_append_left
  -- the rings after the move, if there is one
  obtain ⟨links, busy', hmove, hrings, hlen, hmem⟩ : ∃ links busy',
      (if h.inCache ∧ h.ref = 1 then c.moveTo .inUse id else some c) =
        some { c with links := links } ∧ Rings links (idle.erase id) busy' ∧
      (idle.erase id).length + busy'.length = idle.length + busy.length ∧
      (∀ x, x ∈ busy' ↔ x ∈ busy ∨ x = id) := by
    by_cases hidle : id ∈ idle
    · have hone : h.ref = 1 := by rw [href, hc.unheld id hidle]
      obtain ⟨links₁, hdel, hrings₁⟩ := hc.rings.remove_notUse hidle
      obtain ⟨links₂, hadd, hrings₂⟩ := hrings₁.append_inUse (hc.rings.notMem_of_mem_idle hidle)
      refine ⟨links₂, busy ++ [id], ?_, hrings₂, ?_, by simp⟩
      · rw [if_pos ⟨hin, hone⟩]
        simp [LRUCache.moveTo, LRUCache.listRemove, LRUCache.listAppend, hdel, hadd]
      · have := List.length_pos_of_mem hidle
        rw [List.length_erase_of_mem hidle, List.length_append, List.length_singleton]
        omega
    · have hbusy : id ∈ busy := (List.mem_append.mp hid).resolve_left hidle
      have hmore : ¬ (h.inCache ∧ h.ref = 1) := by
        have := hc.inHand id hbusy
        omega
      rw [List.erase_of_not_mem hidle]
      refine ⟨c.links, busy, by rw [if_neg hmore], hc.rings, rfl, fun x => ?_⟩
      constructor
      · exact .inl
      · rintro (hx | rfl)
        · exact hx
        · exact hbusy
  refine ⟨{ c with links := links }.store id (some { h with ref := h.ref + 1 }), busy', ?_, ?_, rfl,
    entry_of_ref hheap rfl, rfl⟩
  · rw [LRUCache.ref, hheap, Option.bind_some, hmove]
    rfl
  · refine hc.touch hheap rfl hrings (hc.size.trans hlen.symm) (fun x => ?_) ?_ (fun x hx => ?_) ?_
      ?_ (fun x hx => ?_) (fun x hx => ?_) ?_ rfl rfl
    · split
      · rename_i heq
        simp [heq, hmem, hin]
      · rename_i hne
        simp [hmem, hne, List.mem_erase_of_ne hne]
    · rw [if_pos hin, List.count_cons_self]
      show h.ref + 1 = _
      omega
    · exact List.count_cons_of_ne hx.symm
    · exact fun hidle => absurd hidle hnodup.not_mem_erase
    · intro _
      rw [List.count_cons_self]
      exact Nat.succ_pos _
    · exact List.mem_erase_of_ne hx
    · simp [hmem, hx]
    · intro hout
      rw [hin] at hout
      cases hout

/-- A held handle is given back: `unref`. It goes to the end of the idle ones if it is in the cache
and nobody else holds it. -/
theorem Counted.release (hc : Counted c held idle busy) (hid : id ∈ held) :
    ∃ c' idle' busy', c.unref id = some c' ∧ Counted c' (held.erase id) idle' busy' ∧
      c'.cacheMap = c.cacheMap ∧ c'.size = c.size ∧
      (∀ k x, c'.entry x = some (k, true) ↔ c.entry x = some (k, true)) ∧
      (idle' = idle ∨ idle' = idle ++ [id]) := by
  obtain ⟨h, hheap⟩ := hc.alive id hid
  have href := hc.refs id h hheap
  have hpos : 0 < held.count id := List.count_pos_iff.mpr hid
  have hcount : (held.erase id).count id = held.count id - 1 := List.count_erase_self
  have hothers : ∀ x ≠ id, (held.erase id).count x = held.count x := fun x hx =>
    List.count_erase_of_ne hx
  have hne : ¬ h.ref = 0 := by omega
  cases hin : h.inCache with
  | false =>
      rw [hin] at href
      have hnot : id ∉ idle ++ busy := by
        rw [hc.listed id]
        rintro ⟨g, hg, hyes⟩
        rw [← Option.some.inj (hheap.symm.trans hg), hin] at hyes
        cases hyes
      simp only [Bool.false_eq_true, if_false, Nat.zero_add] at href
      by_cases hlast : h.ref - 1 = 0
      · refine ⟨c.delete id, idle, busy, ?_, ?_, rfl, rfl, fun k x => ?_, .inl rfl⟩
        · rw [LRUCache.unref, hheap, Option.bind_some, if_neg hne, if_pos hlast, hin]
          rfl
        · exact hc.delete hheap rfl hc.rings hc.size (by omega) hothers hnot (fun _ _ => Iff.rfl)
            (fun _ _ => Iff.rfl) rfl rfl
        · rcases eq_or_ne x id with rfl | hx
          · simp [LRUCache.entry, LRUCache.delete, store_heap_self, hheap, hin]
          · simp [LRUCache.entry, LRUCache.delete, store_heap_of_ne hx]
      · refine ⟨c.store id (some { h with ref := h.ref - 1 }), idle, busy, ?_, ?_, rfl, rfl,
          fun k x => ?_, .inl rfl⟩
        · rw [LRUCache.unref, hheap, Option.bind_some, if_neg hne, if_neg hlast]
          simp only [hin, Bool.false_eq_true, false_and, if_false]
        · refine hc.touch hheap rfl hc.rings hc.size (fun x => ?_) ?_ hothers ?_ ?_
            (fun _ _ => Iff.rfl) (fun _ _ => Iff.rfl) ?_ rfl rfl
          · split
            · rename_i heq
              simp only [heq, hnot, hin, Bool.false_eq_true]
            · rfl
          · simp only [hin, Bool.false_eq_true, if_false]
            omega
          · exact fun hidle => absurd (List.mem_append_left busy hidle) hnot
          · exact fun hbusy => absurd (List.mem_append_right idle hbusy) hnot
          · intro _
            omega
        · rw [entry_of_ref hheap rfl]
  | true =>
      rw [hin, if_pos rfl] at href
      have hlisted : id ∈ idle ++ busy := (hc.listed id).mpr ⟨h, hheap, hin⟩
      have hidle : id ∉ idle := fun hmem => by
        have := hc.unheld id hmem
        omega
      have hbusy : id ∈ busy := (List.mem_append.mp hlisted).resolve_left hidle
      have hlast : ¬ h.ref - 1 = 0 := by omega
      by_cases hone : h.ref - 1 = 1
      · obtain ⟨links₁, hdel, hrings₁⟩ := hc.rings.remove_inUse hbusy
        obtain ⟨links₂, hadd, hrings₂⟩ := hrings₁.append_notUse (hc.rings.notMem_of_mem_busy hbusy)
        refine ⟨{ c.store id (some { h with ref := h.ref - 1 }) with links := links₂ },
          idle ++ [id],
          busy.erase id, ?_, ?_, rfl, rfl, fun k x => ?_, .inr rfl⟩
        · rw [LRUCache.unref, hheap, Option.bind_some, if_neg hne, if_neg hlast, if_pos ⟨hin, hone⟩]
          simp [LRUCache.moveTo, LRUCache.listRemove, LRUCache.listAppend, LRUCache.store, hdel,
            hadd]
        · refine hc.touch hheap rfl hrings₂ ?_ (fun x => ?_) ?_ hothers ?_ ?_ (fun x hx => ?_)
            (fun x hx => List.mem_erase_of_ne hx) ?_ rfl rfl
          · have := List.length_pos_of_mem hbusy
            rw [List.length_append, List.length_singleton, List.length_erase_of_mem hbusy]
            show c.size = _
            rw [hc.size]
            omega
          · split
            · rename_i heq
              simp [heq, hin]
            · rename_i hx
              simp [hx, List.mem_erase_of_ne hx]
          · simp only [hin, if_true]
            omega
          · intro _
            omega
          · exact fun hmem => absurd hmem hc.rings.nodup.of_append_right.not_mem_erase
          · simp [hx]
          · intro hout
            rw [hin] at hout
            cases hout
        · rw [entry_of_ref hheap rfl]
      · refine ⟨c.store id (some { h with ref := h.ref - 1 }), idle, busy, ?_, ?_, rfl, rfl,
          fun k x => ?_, .inl rfl⟩
        · rw [LRUCache.unref, hheap, Option.bind_some, if_neg hne, if_neg hlast]
          simp only [hin, hone, and_false, if_false]
        · refine hc.touch hheap rfl hc.rings hc.size (fun x => ?_) ?_ hothers ?_ ?_
            (fun _ _ => Iff.rfl) (fun _ _ => Iff.rfl) ?_ rfl rfl
          · split
            · rename_i heq
              simp only [heq, hlisted, hin]
            · rfl
          · simp only [hin, if_true]
            omega
          · exact fun hmem => absurd hmem hidle
          · intro _
            omega
          · intro hout
            rw [hin] at hout
            cases hout
        · rw [entry_of_ref hheap rfl]

/-- A handle leaves the cache: `erase_node`. It is deleted at once if nobody holds it. -/
theorem Counted.eraseNode (hc : Counted c held idle busy) (hid : id ∈ idle ++ busy) :
    ∃ c', c.eraseNode id = some c' ∧ Counted c' held (idle.erase id) (busy.erase id) ∧
      c'.cacheMap = c.cacheMap ∧ c'.maxSize = c.maxSize ∧ c'.next = c.next ∧
      ∀ k x, c'.entry x = some (k, true) ↔ x ≠ id ∧ c.entry x = some (k, true) := by
  obtain ⟨h, hheap, hin, href⟩ := hc.cached hid
  have hnodup := hc.rings.nodup
  have hdisjoint := List.disjoint_of_nodup_append hnodup
  have hnotIdle : id ∉ idle.erase id := hnodup.of_append_left.not_mem_erase
  have hnotBusy : id ∉ busy.erase id := hnodup.of_append_right.not_mem_erase
  have hnot : id ∉ idle.erase id ++ busy.erase id := by
    rw [List.mem_append, not_or]
    exact ⟨hnotIdle, hnotBusy⟩
  -- the ring that it is in
  obtain ⟨links, hdel, hrings, hlen⟩ : ∃ links, listDel c.links (.handle id) = some links ∧
      Rings links (idle.erase id) (busy.erase id) ∧
      c.size - 1 = (idle.erase id).length + (busy.erase id).length := by
    rw [hc.size]
    by_cases hidle : id ∈ idle
    · obtain ⟨links, hdel, hrings⟩ := hc.rings.remove_notUse hidle
      have hpos := List.length_pos_of_mem hidle
      rw [List.erase_of_not_mem (hdisjoint hidle), List.length_erase_of_mem hidle]
      exact ⟨links, hdel, hrings, by omega⟩
    · have hbusy : id ∈ busy := (List.mem_append.mp hid).resolve_left hidle
      obtain ⟨links, hdel, hrings⟩ := hc.rings.remove_inUse hbusy
      have hpos := List.length_pos_of_mem hbusy
      rw [List.erase_of_not_mem hidle, List.length_erase_of_mem hbusy]
      exact ⟨links, hdel, hrings, by omega⟩
  have hunref : c.eraseNode id = ({ c with
      links := links
      heap := Function.update c.heap id (some { h with inCache := false })
      size := c.size - 1 } : LRUCache κ ν).unref id := by
    rw [LRUCache.eraseNode, hheap, Option.bind_some, if_pos hin, LRUCache.listRemove, hdel]
    rfl
  have hne : ¬ h.ref = 0 := by omega
  rw [hunref, LRUCache.unref]
  dsimp only
  rw [Function.update_self, Option.bind_some, if_neg hne]
  by_cases hlast : h.ref - 1 = 0
  · rw [if_pos hlast]
    refine ⟨_, rfl, ?_, rfl, rfl, rfl, fun k x => ?_⟩
    · refine hc.delete hheap ?_ hrings hlen (by omega) (fun _ _ => rfl) hnot
        (fun x hx => List.mem_erase_of_ne hx) (fun x hx => List.mem_erase_of_ne hx) rfl rfl
      exact Function.update_idem _ _ _
    · rcases eq_or_ne x id with rfl | hx
      · simp [LRUCache.entry, LRUCache.delete, store_heap_self]
      · simp [LRUCache.entry, LRUCache.delete, store_heap_of_ne hx, hx]
  · rw [if_neg hlast, if_neg (by simp)]
    refine ⟨_, rfl, ?_, rfl, rfl, rfl, fun k x => ?_⟩
    · refine hc.touch hheap (show _ = Function.update c.heap id
        (some (LRUHandle.mk h.key h.value (h.ref - 1) false)) from ?_) hrings hlen (fun x => ?_) ?_
        (fun _ _ => rfl) ?_ ?_ (fun x hx => List.mem_erase_of_ne hx)
        (fun x hx => List.mem_erase_of_ne hx) ?_ rfl rfl
      · exact Function.update_idem _ _ _
      · split
        · rename_i heq
          simp only [heq, hnot, Bool.false_eq_true]
        · rename_i hx
          simp [List.mem_erase_of_ne hx]
      · simp only [Bool.false_eq_true, if_false]
        omega
      · exact fun hmem => absurd hmem hnotIdle
      · exact fun hmem => absurd hmem hnotBusy
      · intro _
        omega
    · rcases eq_or_ne x id with rfl | hx
      · simp [LRUCache.entry, store_heap_self]
      · simp [LRUCache.entry, store_heap_of_ne hx, hx]

/-- A new handle is made, held by the caller. -/
theorem Counted.insertHandle (hc : Counted c held idle busy) (key : κ) (value : ν) :
    ∃ c', c.insertHandle key value = some c' ∧
      Counted c' (c.next :: held) idle (busy ++ [c.next]) ∧ c'.cacheMap = c.cacheMap ∧
      c'.maxSize = c.maxSize ∧
      ∀ k x, c'.entry x = some (k, true) ↔
        (x = c.next ∧ k = key) ∨ (x ≠ c.next ∧ c.entry x = some (k, true)) := by
  have hnone : c.heap c.next = none := by
    cases hheap : c.heap c.next with
    | none => rfl
    | some h => exact absurd (hc.fresh c.next h hheap) (Nat.lt_irrefl _)
  have hcount : held.count c.next = 0 := by
    rw [List.count_eq_zero]
    intro hmem
    obtain ⟨h, hheap⟩ := hc.alive c.next hmem
    cases hnone.symm.trans hheap
  have hnot : c.next ∉ idle ++ busy := by
    rw [hc.listed]
    rintro ⟨h, hheap, -⟩
    cases hnone.symm.trans hheap
  have hnotIdle : c.next ∉ idle := fun hmem => hnot (List.mem_append_left busy hmem)
  obtain ⟨links, hadd, hrings⟩ := hc.rings.append_inUse hnot
  have hothers : ∀ x ≠ c.next, (c.next :: held).count x = held.count x := fun x hx =>
    List.count_cons_of_ne hx.symm
  refine ⟨{ c.store c.next (some ⟨key, value, 2, true⟩) with
    size := c.size + 1, next := c.next + 1, links := links }, ?_, ?_, rfl, rfl, fun k x => ?_⟩
  · simp [LRUCache.insertHandle, LRUCache.listAppend, LRUCache.store, hadd]
  · refine ⟨hrings, ?_, fun x => ?_, fun x g hg => ?_, fun x hx => ?_, fun x hx => ?_,
      fun x hx => ?_, fun x g hg hout => ?_, fun x g hg => ?_, fun x => ?_, hc.once⟩
    · show c.size + 1 = _
      rw [List.length_append, List.length_singleton, hc.size]
      omega
    · rcases eq_or_ne x c.next with rfl | hx
      · simp [store_heap_self]
      · rw [store_heap_of_ne hx, ← hc.listed x]
        simp [hx]
    · rcases eq_or_ne x c.next with rfl | hx
      · obtain rfl := Option.some.inj ((store_heap_self _).symm.trans hg)
        rw [List.count_cons_self, hcount]
        rfl
      · rw [hothers x hx]
        exact hc.refs x g ((store_heap_of_ne hx _).symm.trans hg)
    · have hne : x ≠ c.next := fun heq => hnotIdle (heq ▸ hx)
      rw [hothers x hne]
      exact hc.unheld x hx
    · rw [List.mem_append, List.mem_singleton] at hx
      rcases hx with hx | rfl
      · exact Nat.lt_of_lt_of_le (hc.inHand x hx) (List.count_le_count_cons)
      · rw [List.count_cons_self]
        exact Nat.succ_pos _
    · rcases eq_or_ne x c.next with rfl | hne
      · exact ⟨_, store_heap_self _⟩
      · rw [store_heap_of_ne hne]
        exact hc.alive x (List.mem_of_ne_of_mem hne hx)
    · rcases eq_or_ne x c.next with rfl | hne
      · obtain rfl := Option.some.inj ((store_heap_self _).symm.trans hg)
        cases hout
      · rw [hothers x hne]
        exact hc.kept x g ((store_heap_of_ne hne _).symm.trans hg) hout
    · rcases eq_or_ne x c.next with rfl | hne
      · exact Nat.lt_succ_self _
      · exact Nat.lt_succ_of_lt (hc.fresh x g ((store_heap_of_ne hne _).symm.trans hg))
    · show x ∈ c.deleted ↔ x < c.next + 1 ∧ _
      rw [hc.gone x]
      rcases eq_or_ne x c.next with rfl | hne
      · simp [store_heap_self]
      · rw [store_heap_of_ne hne]
        exact and_congr_left fun _ => by omega
  · rcases eq_or_ne x c.next with rfl | hx
    · simp only [LRUCache.entry, store_heap_self, Option.map_some, Option.some.injEq, Prod.mk.injEq,
        and_true, true_and, ne_eq, not_true_eq_false, false_and, or_false]
      exact eq_comm
    · simp [LRUCache.entry, store_heap_of_ne hx, hx]

end Workflow.Util
