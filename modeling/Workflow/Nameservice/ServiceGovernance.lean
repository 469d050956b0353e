/-
Module: Workflow.Nameservice.ServiceGovernance
Layer: Model
Purpose: `WFServiceGovernance` (WFServiceGovernance.cc): the registered servers, their reference
  counts, and the circuit breaker, whose list is linked through the server objects themselves.
  Server objects live in a heap; using a freed object or a NULL pointer is undefined behaviour, the
  result `none`. That each operation runs alone is an assumption: the locks see to it but for `select`,
  which counts a reference, a plain `int`, under the read lock, so that two of them may lose one.
Trusted boundary: human-reviewed model
Main exports: EndpointAddress, Governance, addServer, removeServer, enableServer, disableServer,
  select, success, failed, checkBreaker, Op, System, System.exec
-/
import Workflow.Lib.IntrusiveList
import Workflow.Lib.Loop
import Workflow.Lib.Run

namespace Workflow.Nameservice

open Workflow.Lib

/-- The nodes of the breaker list: its head and the entries of the servers. -/
inductive Node where
  | head
  | server (i : Nat)
deriving DecidableEq

/-- `EndpointAddress`. The links of its `entry` are kept in `Governance.links`. -/
structure EndpointAddress where
  address : String
  failCount : UInt32
  ref : UInt32
  brokenTimeout : Int
  maxFails : UInt32
  maxFails_pos : 0 < maxFails

/-- The constructor of `EndpointAddress`; `max_fails = 0` means 1. -/
def EndpointAddress.new (address : String) (maxFails : UInt32) : EndpointAddress where
  address := address
  failCount := 0
  ref := 1
  brokenTimeout := 0
  maxFails := if maxFails = 0 then 1 else maxFails
  maxFails_pos := by
    split
    · decide
    · rename_i h
      rw [UInt32.lt_iff_toNat_lt]
      have hne : maxFails.toNat ≠ 0 := fun h0 => h (UInt32.toNat_inj.mp h0)
      simpa using Nat.pos_of_ne_zero hne

/-- `WFServiceGovernance` and the server objects it points to, which are numbered; `fresh` and the
later ones were never allocated. -/
structure Governance where
  heap : Nat → Option EndpointAddress
  links : Links Node
  servers : List Nat
  serverMap : String → List Nat
  nalives : Int32
  fresh : Nat
  mttrSecond : UInt32
  tryAnother : Bool

namespace Governance

/-- The constructor. -/
def new (mttrSecond : UInt32) (tryAnother : Bool) : Governance where
  heap := fun _ => none
  links := initListHead ⟨fun _ => none, fun _ => none⟩ .head
  servers := []
  serverMap := fun _ => []
  nalives := 0
  fresh := 0
  mttrSecond := mttrSecond
  tryAnother := tryAnother

/-- The server object `i` is now `a`. -/
def put (g : Governance) (i : Nat) (a : EndpointAddress) : Governance :=
  { g with heap := Function.update g.heap i (some a) }

/-- Write to a server object. -/
def modify (g : Governance) (i : Nat) (f : EndpointAddress → EndpointAddress) : Option Governance :=
  (g.heap i).map fun a => g.put i (f a)

/-- `delete server`. The links go with the object. -/
def delete (g : Governance) (i : Nat) : Governance :=
  { g with
    heap := Function.update g.heap i none
    links := (g.links.setNext (.server i) none).setPrev (.server i) none }

/-- `--server->ref`, and `delete server` at zero. -/
def unref (g : Governance) (i : Nat) : Option Governance := do
  let a ← g.heap i
  if a.ref - 1 = 0 then return g.delete i
  else g.modify i fun a => { a with ref := a.ref - 1 }

/-- `recover_one_server`. -/
def recoverOneServer (g : Governance) : Governance :=
  { g with nalives := g.nalives + 1 }

/-- `fuse_one_server`. -/
def fuseOneServer (g : Governance) : Governance :=
  { g with nalives := g.nalives - 1 }

/-! ### The breaker -/

/-- `list_del(&addr->entry.list); addr->entry.list.next = NULL;`. -/
def unlink (g : Governance) (i : Nat) : Option Governance := do
  let links ← listDel g.links (.server i)
  return { g with links := links.setNext (.server i) none }

def recoverServerFromBreaker (g : Governance) (i : Nat) : Option Governance := do
  let g ← g.modify i fun a => { a with failCount := 0 }
  if (g.links.next (.server i)).isSome then
    let g ← g.unlink i
    return g.recoverOneServer
  else
    return g

def fuseServerToBreaker (now : Int) (g : Governance) (i : Nat) : Option Governance := do
  if (g.links.next (.server i)).isNone then
    let g ← g.modify i fun a => { a with brokenTimeout := now + g.mttrSecond.toNat }
    let links ← listAddTail g.links (.server i) .head
    return ({ g with links := links } : Governance).fuseOneServer
  else
    return g

/-- `remove_server_from_breaker`: the entry keeps its own links. -/
def removeServerFromBreaker (g : Governance) (i : Nat) : Option Governance := do
  let links ← listDel g.links (.server i)
  return { g with links := links }

/-- A server that timed out gets one more chance. -/
def reviveServer (g : Governance) (i : Nat) : Option Governance := do
  let a ← g.heap i
  if a.maxFails ≤ a.failCount then
    let g ← g.modify i fun a => { a with failCount := a.maxFails - 1 }
    return g.recoverOneServer
  else
    return g

/-- The body of the loop of `check_breaker`. -/
def checkServer (now : Int) (g : Governance) (i : Nat) : Option Governance := do
  let a ← g.heap i
  if a.brokenTimeout ≤ now then
    let g ← g.reviveServer i
    g.unlink i
  else
    return g

/-- One pass of `list_for_each_safe(pos, tmp, &this->breaker_list)`. -/
def checkBreakerStep (now : Int) :
    Governance × Node × Option Node → Step (Governance × Node × Option Node) (Option Governance)
  | (g, .head, _) => .done (some g)
  | (g, .server i, tmp) =>
      match checkServer now g i, tmp with
      | some g', some pos => .next (g', pos, g'.links.next pos)
      | _, _ => .done none

/-- `check_breaker` at the time `now`. -/
def checkBreaker (fuel : Nat) (now : Int) (g : Governance) : Option Governance :=
  if listEmpty g.links .head then some g
  else do
    let pos ← g.links.next .head
    (← loop (checkBreakerStep now) fuel (g, pos, g.links.next pos))

/-! ### Registration -/

def addServerLocked (g : Governance) (i : Nat) : Option Governance := do
  let a ← g.heap i
  return ({ g with
    serverMap := Function.update g.serverMap a.address (g.serverMap a.address ++ [i])
    servers := g.servers ++ [i] } : Governance).recoverOneServer

/-- `new EndpointAddress(address, params)`. -/
def alloc (g : Governance) (a : EndpointAddress) : Governance :=
  { g.put g.fresh a with fresh := g.fresh + 1 }

/-- `add_server(address, params)`. -/
def addServer (g : Governance) (address : String) (maxFails : UInt32) : Option Governance :=
  (g.alloc (.new address maxFails)).addServerLocked g.fresh

/-- A server that is removed leaves the count of living servers or the breaker. -/
def retireServer (g : Governance) (i : Nat) : Option Governance := do
  let a ← g.heap i
  if a.failCount < a.maxFails then return g.fuseOneServer
  else g.removeServerFromBreaker i

/-- The loop that compacts `servers`: the servers with another address stay, in their order. -/
def keepOthers (g : Governance) (address : String) : List Nat → Option (List Nat)
  | [] => some []
  | i :: rest => do
      let a ← g.heap i
      let kept ← g.keepOthers address rest
      return if a.address ≠ address then i :: kept else kept

def removeServerLocked (g : Governance) (address : String) : Option Governance := do
  let removeList := g.serverMap address
  let g ← removeList.foldlM retireServer g
  let servers ← g.keepOthers address g.servers
  removeList.foldlM unref
    { g with serverMap := Function.update g.serverMap address [], servers := servers }

/-- `remove_server(address)`. -/
def removeServer (g : Governance) (address : String) : Option Governance :=
  g.removeServerLocked address

/-- `replace_server(address, params)`: the new server is added first, and goes with the old ones. -/
def replaceServer (g : Governance) (address : String) (maxFails : UInt32) : Option Governance := do
  let g ← g.addServer address maxFails
  g.removeServerLocked address

def enableServer (g : Governance) (address : String) : Option Governance :=
  (g.serverMap address).foldlM recoverServerFromBreaker g

/-- What `disable_server` does to one server. -/
def disableOne (now : Int) (g : Governance) (i : Nat) : Option Governance := do
  let g ← g.modify i fun a => { a with failCount := a.maxFails }
  fuseServerToBreaker now g i

def disableServer (now : Int) (g : Governance) (address : String) : Option Governance :=
  (g.serverMap address).foldlM (disableOne now) g

/-! ### Selection -/

/-- `first_strategy`, which `another_strategy` calls too, with the number that `rand()` gives. -/
def firstStrategy (g : Governance) (rand : Nat) : Option Nat :=
  g.servers[rand % g.servers.length % 2 ^ 32]?

/-- The server that `select` takes. -/
def selectAddr (g : Governance) (rand another : Nat) : Option Nat := do
  let first ← g.firstStrategy rand
  let a ← g.heap first
  if a.maxFails ≤ a.failCount ∧ g.tryAnother then g.firstStrategy another
  else return first

/-- `select(uri, tracing, &addr)`; the second component is the selected server. -/
def select (fuel : Nat) (now : Int) (rand another : Nat) (g : Governance) :
    Option (Governance × Option Nat) :=
  if g.servers.length % 2 ^ 32 = 0 then some (g, none)
  else do
    let g ← g.checkBreaker fuel now
    if g.nalives = 0 then return (g, none)
    else
      let i ← g.selectAddr rand another
      let g ← g.modify i fun a => { a with ref := a.ref + 1 }
      return (g, some i)

def success (g : Governance) (i : Nat) : Option Governance := do
  let g ← g.recoverServerFromBreaker i
  g.unref i

def failed (now : Int) (g : Governance) (i : Nat) : Option Governance := do
  let a ← g.heap i
  if a.ref - 1 = 0 then return g.delete i
  else
    let g ← g.modify i fun a => { a with ref := a.ref - 1, failCount := a.failCount + 1 }
    if a.failCount + 1 = a.maxFails then fuseServerToBreaker now g i
    else return g

end Governance

/-! ### The system -/

/-- The operations, with the clock and the random numbers that they read. -/
inductive Op where
  | addServer (address : String) (maxFails : UInt32)
  | removeServer (address : String)
  | replaceServer (address : String) (maxFails : UInt32)
  | enableServer (address : String)
  | disableServer (address : String) (now : Int)
  | select (now : Int) (rand another : Nat)
  | success (i : Nat)
  | failed (i : Nat) (now : Int)
  | checkBreaker (now : Int)

/-- A governance and the selections for which neither `success` nor `failed` was called yet. -/
structure System where
  gov : Governance
  outstanding : Nat → Nat

namespace System

def new (mttrSecond : UInt32) (tryAnother : Bool) : System where
  gov := .new mttrSecond tryAnother
  outstanding := fun _ => 0

/-- Take one selection back; only an outstanding one can be. -/
def settle (s : System) (i : Nat) (gov : Option Governance) : Option System :=
  if s.outstanding i = 0 then none
  else gov.map fun g =>
    { gov := g, outstanding := Function.update s.outstanding i (s.outstanding i - 1) }

/-- One operation. -/
def exec (fuel : Nat) (s : System) : Op → Option System
  | .addServer address maxFails =>
      (s.gov.addServer address maxFails).map fun g => { s with gov := g }
  | .removeServer address => (s.gov.removeServer address).map fun g => { s with gov := g }
  | .replaceServer address maxFails =>
      (s.gov.replaceServer address maxFails).map fun g => { s with gov := g }
  | .enableServer address => (s.gov.enableServer address).map fun g => { s with gov := g }
  | .disableServer address now => (s.gov.disableServer now address).map fun g => { s with gov := g }
  | .select now rand another =>
      (s.gov.select fuel now rand another).map fun
        | (g, none) => { s with gov := g }
        | (g, some i) =>
            { gov := g, outstanding := Function.update s.outstanding i (s.outstanding i + 1) }
  | .success i => s.settle i (s.gov.success i)
  | .failed i now => s.settle i (s.gov.failed now i)
  | .checkBreaker now => (s.gov.checkBreaker fuel now).map fun g => { s with gov := g }

/-- All runs from an empty governance. -/
def machine (mttrSecond : UInt32) (tryAnother : Bool) : Machine System Op :=
  .ofFunction (.new mttrSecond tryAnother) exec

end System

end Workflow.Nameservice
