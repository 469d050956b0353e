/-
Module: Workflow.Manager.DnsCache
Layer: Manager
Purpose: `DnsCache` on top of the `LRUCache`. An entry that has expired is returned as before for some
  time, during which one caller is to refresh it: `get_inner` gives that caller nothing and moves the
  stored time. Times are whole seconds of a clock that is an input; each call is one step, with the
  section under the mutex.
Trusted boundary: human-reviewed model
Main exports: DnsCacheValue, GetType, DnsCache, getInner, put, DnsOp, perform, DnsCall, found, trace
-/
import Workflow.Util.LRUCache
import Workflow.Lib.CString

namespace Workflow.Dns

open Workflow.Lib
open Workflow.Util

/-- `CONFIDENT_INC`. -/
def confidentInc : Int := 10

/-- `TTL_INC`. -/
def ttlInc : Int := 10

/-- `INT64_MAX`. -/
def int64Max : Int := 2 ^ 63 - 1

/-- `GET_TYPE_TTL` and `GET_TYPE_CONFIDENT`. -/
inductive GetType where
  | ttl
  | confident
deriving DecidableEq

/-- `struct DnsCacheValue`. -/
structure DnsCacheValue (α : Type) where
  addrinfo : α
  confidentTime : Int
  expireTime : Int

/-- The time that `get_inner` tests. -/
def DnsCacheValue.time {α : Type} (v : DnsCacheValue α) : GetType → Int
  | .ttl => v.expireTime
  | .confident => v.confidentTime

/-- `expire_time += TTL_INC` or `confident_time += CONFIDENT_INC`. -/
def DnsCacheValue.extend {α : Type} (v : DnsCacheValue α) : GetType → DnsCacheValue α
  | .ttl => { v with expireTime := v.expireTime + ttlInc }
  | .confident => { v with confidentTime := v.confidentTime + confidentInc }

/-- `DnsCache::HostPort`. -/
abbrev HostPort := List Byte × UInt16

/-- The cache with the handles that its callers hold. -/
abbrev DnsCache (α : Type) := LRUUse HostPort (DnsCacheValue α)

namespace DnsCache

variable {α : Type}

/-- Another value in a handle. -/
def setValue (u : DnsCache α) (id : Nat) (h : LRUHandle HostPort (DnsCacheValue α))
    (value : DnsCacheValue α) : DnsCache α :=
  { u with cache := u.cache.store id (some { h with value := value }) }

/-- `get_inner`: the handle that it returns. The test of the time is made again under the mutex. -/
def getInner (fuel : Nat) (u : DnsCache α) (hostPort : HostPort) (type : GetType) (curTime : Int) :
    Option (DnsCache α × Option Nat) := do
  let (cache, handle) ← u.cache.get hostPort
  let u := u.hold (cache, handle)
  match handle with
  | none => some (u, none)
  | some id => do
      let h ← u.cache.heap id
      if curTime > h.value.time type then
        let u ← LRUUse.exec fuel (setValue u id h (h.value.extend type)) (.release (some id))
        some (u, none)
      else some (u, some id)

/-- The value that `put` makes. A `unsigned int` of -1 is `2 ^ 32 - 1`. -/
def putValue (addrinfo : α) (dnsTtlDefault dnsTtlMin : UInt32) (curTime : Int) : DnsCacheValue α :=
  let dnsTtlMin := if dnsTtlMin > dnsTtlDefault then dnsTtlDefault else dnsTtlMin
  { addrinfo := addrinfo
    confidentTime := if dnsTtlMin = -1 then int64Max else curTime + dnsTtlMin.toNat
    expireTime := if dnsTtlDefault = -1 then int64Max else curTime + dnsTtlDefault.toNat }

/-- `put`. -/
def put (fuel : Nat) (u : DnsCache α) (hostPort : HostPort) (addrinfo : α)
    (dnsTtlDefault dnsTtlMin : UInt32) (curTime : Int) : Option (DnsCache α) :=
  LRUUse.exec fuel u (.put hostPort (putValue addrinfo dnsTtlDefault dnsTtlMin curTime))

end DnsCache

/-- The calls: `get_ttl` and `get_confident` are `getInner` with their type. -/
inductive DnsOp (α : Type) where
  | get (hostPort : HostPort)
  | getInner (type : GetType) (hostPort : HostPort) (curTime : Int)
  | put (hostPort : HostPort) (addrinfo : α) (dnsTtlDefault dnsTtlMin : UInt32) (curTime : Int)
  | del (hostPort : HostPort)
  | release (handle : Option Nat)

/-- A call of `get_inner` that has found the key in the cache: its time, the time that it has tested,
and whether it has returned `NULL`. -/
structure DnsCall where
  curTime : Int
  expires : Int
  null : Bool
deriving DecidableEq

namespace DnsCache

variable {α : Type}

/-- The value that is cached for a key. -/
def valueOf (u : DnsCache α) (hostPort : HostPort) : Option (DnsCacheValue α) := do
  let id ← u.cache.cacheMap.lookup hostPort
  let h ← u.cache.heap id
  some h.value

/-- One call, with what `getInner` returns. -/
def perform (fuel : Nat) (u : DnsCache α) : DnsOp α → Option (DnsCache α × Option Nat)
  | .get hostPort => (LRUUse.exec fuel u (.get hostPort)).map (·, none)
  | .getInner type hostPort curTime => getInner fuel u hostPort type curTime
  | .put hostPort addrinfo dnsTtlDefault dnsTtlMin curTime =>
      (put fuel u hostPort addrinfo dnsTtlDefault dnsTtlMin curTime).map (·, none)
  | .del hostPort => (LRUUse.exec fuel u (.del hostPort)).map (·, none)
  | .release handle => (LRUUse.exec fuel u (.release handle)).map (·, none)

/-- The call, if it is one of this type for this key and the key is in the cache. -/
def found (type : GetType) (hostPort : HostPort) (u : DnsCache α) (result : Option Nat) :
    DnsOp α → Option DnsCall
  | .getInner type' hostPort' curTime =>
      if type' = type ∧ hostPort' = hostPort then
        (valueOf u hostPort).map fun v => ⟨curTime, v.time type, decide (result = none)⟩
      else none
  | _ => none

/-- The calls of one type that have found a key, over a sequence of calls. -/
def trace (fuel : Nat) (type : GetType) (hostPort : HostPort) :
    DnsCache α → List (DnsOp α) → Option (List DnsCall)
  | _, [] => some []
  | u, op :: ops => do
      let (t, result) ← perform fuel u op
      let rest ← trace fuel type hostPort t ops
      some ((found type hostPort u result op).toList ++ rest)

/-- All runs of an empty cache. -/
def machine (α : Type) : Machine (DnsCache α) (DnsOp α) :=
  .ofFunction (.create HostPort (DnsCacheValue α)) fun fuel u op => (perform fuel u op).map Prod.fst

end DnsCache

end Workflow.Dns
