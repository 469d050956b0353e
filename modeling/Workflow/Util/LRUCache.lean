/-
Module: Workflow.Util.LRUCache
Layer: Util
Purpose: The cache of LRUCache.h. Handles are numbered as they are allocated, the two rings are
  intrusive lists behind their sentinels, and the map is an association list without double keys. A
  failed assertion and a use of a handle that is deleted are `none`. `LRUUse` also keeps what the
  callers hold: the handles that were returned and not released, and when handles were released. `ref`
  is an `int` in the source and a number here: fewer than 2^31 - 1 handles of an entry are outstanding.
Trusted boundary: human-reviewed model
Main exports: LRUHandle, LRUNode, LRUCache, LRUCache.get, LRUCache.put, LRUCache.del,
  LRUCache.prune, LRUCache.release, LRUOp, LRUUse, LRUUse.exec
-/
import Workflow.Lib.IntrusiveList
import Workflow.Lib.Run
import Mathlib.Data.List.AList

namespace Workflow.Util

open Workflow.Lib

/-- `LRUHandle`, without its links. -/
structure LRUHandle (κ ν : Type) where
  key : κ
  value : ν
  ref : Nat
  inCache : Bool

/-- A node of a ring: one of the sentinels, or a handle. -/
inductive LRUNode where
  | notUse
  | inUse
  | handle (id : Nat)
deriving DecidableEq

/-- The cache. `heap` are the handles that are not deleted, `next` is the number of the next one, and
`deleted` are the handles on whose value the deleter was called, in order. -/
structure LRUCache (κ ν : Type) where
  maxSize : Nat
  size : Nat
  links : Links LRUNode
  cacheMap : AList fun _ : κ => Nat
  heap : Nat → Option (LRUHandle κ ν)
  next : Nat
  deleted : List Nat

namespace LRUCache

variable {κ ν : Type} [DecidableEq κ]

/-- The constructor. -/
def create (κ ν : Type) : LRUCache κ ν where
  maxSize := 0
  size := 0
  links := initListHead (initListHead { next := fun _ => none, prev := fun _ => none } .notUse) .inUse
  cacheMap := ∅
  heap := fun _ => none
  next := 0
  deleted := []

def store (c : LRUCache κ ν) (id : Nat) (h : Option (LRUHandle κ ν)) : LRUCache κ ν :=
  { c with heap := Function.update c.heap id h }

/-- `list_remove`. -/
def listRemove (c : LRUCache κ ν) (id : Nat) : Option (LRUCache κ ν) :=
  (listDel c.links (.handle id)).map fun links => { c with links := links }

/-- `list_append`. -/
def listAppend (c : LRUCache κ ν) (list : LRUNode) (id : Nat) : Option (LRUCache κ ν) :=
  (listAddTail c.links (.handle id) list).map fun links => { c with links := links }

/-- `list_remove` and then `list_append`. -/
def moveTo (c : LRUCache κ ν) (list : LRUNode) (id : Nat) : Option (LRUCache κ ν) :=
  (c.listRemove id).bind fun c => c.listAppend list id

/-- `ref`. -/
def ref (c : LRUCache κ ν) (id : Nat) : Option (LRUCache κ ν) :=
  (c.heap id).bind fun h =>
    (if h.inCache ∧ h.ref = 1 then c.moveTo .inUse id else some c).map fun c =>
      c.store id (some { h with ref := h.ref + 1 })

/-- The deleter and `delete e`. -/
def delete (c : LRUCache κ ν) (id : Nat) : LRUCache κ ν :=
  { c.store id none with deleted := c.deleted ++ [id] }

/-- `unref`. -/
def unref (c : LRUCache κ ν) (id : Nat) : Option (LRUCache κ ν) :=
  (c.heap id).bind fun h =>
    if h.ref = 0 then none
    else if h.ref - 1 = 0 then if h.inCache then none else some (c.delete id)
    else
      let c := c.store id (some { h with ref := h.ref - 1 })
      if h.inCache ∧ h.ref - 1 = 1 then c.moveTo .notUse id else some c

/-- `erase_node`. -/
def eraseNode (c : LRUCache κ ν) (id : Nat) : Option (LRUCache κ ν) :=
  (c.heap id).bind fun h =>
    if h.inCache then
      (c.listRemove id).bind fun c =>
        unref { c.store id (some { h with inCache := false }) with size := c.size - 1 } id
    else none

/-- The body of the loops in `prune` and `put`: the first handle behind `not_use_` goes. -/
def dropOldest (c : LRUCache κ ν) : Option (LRUCache κ ν) :=
  match c.links.next .notUse with
  | some (.handle id) =>
      (c.heap id).bind fun h =>
        if h.ref = 1 then eraseNode { c with cacheMap := c.cacheMap.erase h.key } id else none
  | _ => none

/-- A loop that drops handles while there is one behind `not_use_` and `more` holds. -/
def dropWhile (more : LRUCache κ ν → Bool) : Nat → LRUCache κ ν → Option (LRUCache κ ν)
  | 0, _ => none
  | fuel + 1, c =>
      if more c ∧ c.links.next .notUse ≠ some .notUse then
        c.dropOldest.bind fun c => dropWhile more fuel c
      else some c

/-- `prune`. -/
def prune (fuel : Nat) (c : LRUCache κ ν) : Option (LRUCache κ ν) :=
  dropWhile (fun _ => true) fuel c

/-- `release`; the null handle is ignored. -/
def release (c : LRUCache κ ν) : Option Nat → Option (LRUCache κ ν)
  | some id => c.unref id
  | none => some c

/-- `get`. -/
def get (c : LRUCache κ ν) (key : κ) : Option (LRUCache κ ν × Option Nat) :=
  match c.cacheMap.lookup key with
  | some id => (c.ref id).map fun c => (c, some id)
  | none => some (c, none)

/-- `put` up to the search in the map: the handle `c.next` is made, with one reference for the cache
and one for the caller. -/
def insertHandle (c : LRUCache κ ν) (key : κ) (value : ν) : Option (LRUCache κ ν) :=
  let h := { key := key, value := value, ref := 2, inCache := true }
  listAppend { c.store c.next (some h) with size := c.size + 1, next := c.next + 1 } .inUse c.next

/-- A handle that has the key already leaves the cache. -/
def eraseOld (c : LRUCache κ ν) (key : κ) : Option (LRUCache κ ν) :=
  match c.cacheMap.lookup key with
  | some old => c.eraseNode old
  | none => some c

/-- `put` up to the eviction. -/
def replaceHandle (c : LRUCache κ ν) (key : κ) (value : ν) : Option (LRUCache κ ν) :=
  (c.insertHandle key value).bind fun c' =>
    (c'.eraseOld key).map fun c' => { c' with cacheMap := c'.cacheMap.insert key c.next }

/-- The eviction in `put`. -/
def evict (fuel : Nat) (c : LRUCache κ ν) : Option (LRUCache κ ν) :=
  if c.maxSize > 0 then dropWhile (fun c => c.maxSize < c.size) fuel c else some c

/-- `put`. -/
def put (fuel : Nat) (c : LRUCache κ ν) (key : κ) (value : ν) :
    Option (LRUCache κ ν × Option Nat) :=
  ((c.replaceHandle key value).bind fun c => c.evict fuel).map fun c' => (c', some c.next)

/-- `del`. -/
def del (c : LRUCache κ ν) (key : κ) : Option (LRUCache κ ν) :=
  match c.cacheMap.lookup key with
  | some node => eraseNode { c with cacheMap := c.cacheMap.erase key } node
  | none => some c

end LRUCache

/-- What callers do. -/
inductive LRUOp (κ ν : Type) where
  | get (key : κ)
  | put (key : κ) (value : ν)
  | del (key : κ)
  | prune
  | setMaxSize (maxSize : Nat)
  | release (handle : Option Nat)

/-- The cache, the handles that are held (once for each time they were returned), and for each handle
the time of its last release. -/
structure LRUUse (κ ν : Type) where
  cache : LRUCache κ ν
  held : List Nat
  releasedAt : Nat → Nat
  clock : Nat

namespace LRUUse

variable {κ ν : Type} [DecidableEq κ]

def create (κ ν : Type) : LRUUse κ ν where
  cache := .create κ ν
  held := []
  releasedAt := fun _ => 0
  clock := 0

/-- What a call returned is held from now on. -/
def hold (u : LRUUse κ ν) : LRUCache κ ν × Option Nat → LRUUse κ ν
  | (c, handle) => { u with cache := c, held := handle.toList ++ u.held }

/-- One call. A handle is released only while it is held. -/
def exec (fuel : Nat) (u : LRUUse κ ν) : LRUOp κ ν → Option (LRUUse κ ν)
  | .get key => (u.cache.get key).map u.hold
  | .put key value => (u.cache.put fuel key value).map u.hold
  | .del key => (u.cache.del key).map fun c => { u with cache := c }
  | .prune => (u.cache.prune fuel).map fun c => { u with cache := c }
  | .setMaxSize maxSize => some { u with cache := { u.cache with maxSize := maxSize } }
  | .release none => (u.cache.release none).map fun c => { u with cache := c }
  | .release (some id) =>
      if id ∈ u.held then
        (u.cache.release (some id)).map fun c =>
          { cache := c
            held := u.held.erase id
            releasedAt := Function.update u.releasedAt id u.clock
            clock := u.clock + 1 }
      else none

/-- All runs of an empty cache. -/
def machine (κ ν : Type) [DecidableEq κ] : Machine (LRUUse κ ν) (LRUOp κ ν) :=
  .ofFunction (.create κ ν) exec

end LRUUse

end Workflow.Util
