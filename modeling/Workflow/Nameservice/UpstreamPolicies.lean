/-
Module: Workflow.Nameservice.UpstreamPolicies
Layer: Model
Purpose: The upstream policies (UpstreamPolicies.cc): `UPSGroupPolicy`, which keeps the servers in
  groups of main and backup servers, and its classes `UPSWeightedRandomPolicy`,
  `UPSConsistentHashPolicy` and `UPSManualPolicy`. The part inherited from `WFServiceGovernance` is
  a `Governance` whose `servers` are the main servers. A virtual function goes by the `strategy` of
  the object. As there, using a freed object or a NULL address is undefined behaviour, `none`.
Trusted boundary: human-reviewed model
Main exports: UPSAddrParams, EndpointGroup, Strategy, UPSGroupPolicy, addServer, removeServer,
  replaceServer, isAlive, getOne, checkAndGet, select, UPSOp, UPSSystem, UPSSystem.exec
-/
import Workflow.Nameservice.ServiceGovernance

namespace Workflow.Nameservice

open Workflow.Lib

/-! ### Data -/

/-- The part of `AddressParams` that the policies read. -/
structure AddressParams where
  maxFails : UInt32
  weight : UInt16
  serverType : Int32
  groupId : Int32

/-- `VIRTUAL_GROUP_SIZE`. -/
def virtualGroupSize : Nat := 16

/-- `UPSAddrParams`. Its `group` is the group of `groupId`. -/
structure UPSAddrParams where
  weight : UInt16
  serverType : Int16
  groupId : Int32
  consistentHash : List UInt32
  weight_pos : 0 < weight
  groupId_ge : -1 ≤ groupId
  length_consistentHash : consistentHash.length = virtualGroupSize

theorem uint16_pos_of_ne_zero {w : UInt16} (h : w ≠ 0) : 0 < w := by
  rw [UInt16.lt_iff_toNat_lt]
  have hne : w.toNat ≠ 0 := fun hzero => h (UInt16.toNat_inj.mp hzero)
  simpa using Nat.pos_of_ne_zero hne

theorem default_weight_pos (w : UInt16) : 0 < if w = 0 then 1 else w := by
  split
  · decide
  · rename_i h
    exact uint16_pos_of_ne_zero h

theorem default_groupId_ge (id : Int32) : -1 ≤ if id < 0 then -1 else id := by
  split
  · decide
  · rename_i h
    rw [Int32.le_iff_toInt_le]
    rw [Int32.lt_iff_toInt_lt] at h
    have hneg : (-1 : Int32).toInt = -1 := by decide
    have hzero : (0 : Int32).toInt = 0 := by decide
    omega

/-- The constructor of `UPSAddrParams`; `stdHash` is `std::hash<std::string>`. -/
def UPSAddrParams.new (stdHash : String → UInt64) (params : AddressParams) (address : String) :
    UPSAddrParams where
  weight := if params.weight = 0 then 1 else params.weight
  serverType := params.serverType.toInt16
  groupId := if params.groupId < 0 then -1 else params.groupId
  consistentHash := (List.range virtualGroupSize).map fun i =>
    (stdHash (address ++ "|v" ++ toString i)).toUInt32
  weight_pos := default_weight_pos params.weight
  groupId_ge := default_groupId_ge params.groupId
  length_consistentHash := by rw [List.length_map, List.length_range]

theorem UPSAddrParams.consistentHash_ne_nil (params : UPSAddrParams) :
    params.consistentHash ≠ [] := by
  intro hnil
  have hlength := params.length_consistentHash
  rw [hnil] at hlength
  cases hlength

instance : Inhabited UPSAddrParams where
  default := .new (fun _ => 0) ⟨0, 0, 0, 0⟩ ""

/-- `EndpointGroup`, without the random numbers it shuffles with. -/
structure EndpointGroup where
  mains : List Nat
  backups : List Nat
  nalives : Int32
  weight : Int32

/-- The constructor of `EndpointGroup`. -/
def EndpointGroup.new : EndpointGroup := ⟨[], [], 0, 0⟩

/-- The parts of the URI that the routes read. -/
structure ParsedURI where
  path : Option String
  query : Option String
  fragment : Option String

/-- `upstream_route_t`, given the parts of a URI. -/
abbrev Route := String → String → String → UInt32

def Route.ofURI (route : Route) (uri : ParsedURI) : UInt32 :=
  route (uri.path.getD "") (uri.query.getD "") (uri.fragment.getD "")

/-- `default_consistent_hash`. -/
def defaultConsistentHash (stdHash : String → UInt64) : Route := fun path query fragment =>
  (stdHash (path ++ query ++ fragment)).toUInt32

/-- The class of a policy, with the fields of its own. An empty `std::function` is `none`. -/
inductive Strategy where
  | weightedRandom
  | consistentHash (consistentHash : Option Route)
  | manual (manualSelect : Route) (tryAnotherSelect : Option Route)

/-- `UPSGroupPolicy` and the fields of `UPSWeightedRandomPolicy`. `params i` are the parameters of
the server object `i`, to be read as long as it lives. `groups` is the map of the groups by id; a
group that the map does not have yet is the new one that `add_server_locked` makes for it. -/
structure UPSGroupPolicy where
  gov : Governance
  params : Nat → UPSAddrParams
  groups : Int32 → EndpointGroup
  strategy : Strategy
  totalWeight : Int32
  availableWeight : Int32

namespace UPSGroupPolicy

/-- The constructors. -/
def new (strategy : Strategy) (mttrSecond : UInt32) (tryAnother : Bool) : UPSGroupPolicy where
  gov := .new mttrSecond tryAnother
  params := fun _ => default
  groups := fun _ => .new
  strategy := strategy
  totalWeight := 0
  availableWeight := 0

/-- `server_type == 0`. -/
def isMain (p : UPSGroupPolicy) (i : Nat) : Bool := (p.params i).serverType = 0

def groupIdOf (p : UPSGroupPolicy) (i : Nat) : Int32 := (p.params i).groupId

/-- `params->weight` as an int. -/
def weightOf (p : UPSGroupPolicy) (i : Nat) : Int32 := .ofNat (p.params i).weight.toNat

/-- `params->group`. -/
def groupOf (p : UPSGroupPolicy) (i : Nat) : EndpointGroup := p.groups (p.groupIdOf i)

/-- Write to a group. -/
def setGroup (p : UPSGroupPolicy) (id : Int32) (group : EndpointGroup) : UPSGroupPolicy :=
  { p with groups := Function.update p.groups id group }

/-- Write to `params->group`. -/
def setGroupOf (p : UPSGroupPolicy) (i : Nat) (group : EndpointGroup) : UPSGroupPolicy :=
  p.setGroup (p.groupIdOf i) group

/-! ### The hooks -/

/-- What `UPSWeightedRandomPolicy` adds to `available_weight` when a server recovers, and takes back
when it is fused; `nalives` is the number of the other living servers of its group. -/
def weightChange (p : UPSGroupPolicy) (i : Nat) (nalives : Int32) : Int32 :=
  (if nalives = 0 ∧ 0 < p.groupIdOf i then (p.groupOf i).weight else 0) +
    if p.groupIdOf i < 0 ∧ p.isMain i then p.weightOf i else 0

/-- `recover_one_server`. -/
def recoverOneServer (p : UPSGroupPolicy) (i : Nat) : UPSGroupPolicy :=
  let group := p.groupOf i
  let p' := { p with gov := p.gov.recoverOneServer }.setGroupOf i
    { group with nalives := group.nalives + 1 }
  match p.strategy with
  | .weightedRandom =>
      { p' with availableWeight := p.availableWeight + p.weightChange i group.nalives }
  | _ => p'

/-- `fuse_one_server`. -/
def fuseOneServer (p : UPSGroupPolicy) (i : Nat) : UPSGroupPolicy :=
  let group := p.groupOf i
  let p' := { p with gov := p.gov.fuseOneServer }.setGroupOf i
    { group with nalives := group.nalives - 1 }
  match p.strategy with
  | .weightedRandom =>
      { p' with availableWeight := p.availableWeight - p.weightChange i (group.nalives - 1) }
  | _ => p'

/-! ### The breaker, with these hooks -/

def recoverServerFromBreaker (p : UPSGroupPolicy) (i : Nat) : Option UPSGroupPolicy := do
  let gov ← p.gov.modify i fun a => { a with failCount := 0 }
  if (gov.links.next (.server i)).isSome then
    let gov ← gov.unlink i
    return { p with gov := gov }.recoverOneServer i
  else
    return { p with gov := gov }

def fuseServerToBreaker (now : Int) (p : UPSGroupPolicy) (i : Nat) : Option UPSGroupPolicy := do
  if (p.gov.links.next (.server i)).isNone then
    let gov ← p.gov.modify i fun a => { a with brokenTimeout := now + p.gov.mttrSecond.toNat }
    let links ← listAddTail gov.links (.server i) .head
    return { p with gov := { gov with links := links } }.fuseOneServer i
  else
    return p

/-- A server that timed out gets one more chance. -/
def reviveServer (p : UPSGroupPolicy) (i : Nat) : Option UPSGroupPolicy := do
  let a ← p.gov.heap i
  if a.maxFails ≤ a.failCount then
    let gov ← p.gov.modify i fun a => { a with failCount := a.maxFails - 1 }
    return { p with gov := gov }.recoverOneServer i
  else
    return p

/-- The body of the loop of `check_breaker`. -/
def checkServer (now : Int) (p : UPSGroupPolicy) (i : Nat) : Option UPSGroupPolicy := do
  let a ← p.gov.heap i
  if a.brokenTimeout ≤ now then
    let p ← p.reviveServer i
    let gov ← p.gov.unlink i
    return { p with gov := gov }
  else
    return p

/-- One pass of `list_for_each_safe(pos, tmp, &this->breaker_list)`. -/
def checkBreakerStep (now : Int) :
    UPSGroupPolicy × Node × Option Node →
      Step (UPSGroupPolicy × Node × Option Node) (Option UPSGroupPolicy)
  | (p, .head, _) => .done (some p)
  | (p, .server i, tmp) =>
      match checkServer now p i, tmp with
      | some p', some pos => .next (p', pos, p'.gov.links.next pos)
      | _, _ => .done none

/-- `check_breaker` at the time `now`. -/
def checkBreaker (fuel : Nat) (now : Int) (p : UPSGroupPolicy) : Option UPSGroupPolicy :=
  if listEmpty p.gov.links .head then some p
  else do
    let pos ← p.gov.links.next .head
    (← loop (checkBreakerStep now) fuel (p, pos, p.gov.links.next pos))

/-! ### Registration -/

/-- What `add_server_locked` does to the group, after the hook. -/
def enterGroup (p : UPSGroupPolicy) (i : Nat) : UPSGroupPolicy :=
  let group := p.groupOf i
  p.setGroupOf i <|
    if p.isMain i then
      { group with mains := group.mains ++ [i], weight := group.weight + p.weightOf i }
    else { group with backups := group.backups ++ [i] }

/-- What `remove_server_locked` does to the group, after the hook. -/
def leaveGroup (p : UPSGroupPolicy) (i : Nat) : UPSGroupPolicy :=
  let group := p.groupOf i
  p.setGroupOf i <|
    if p.isMain i then
      { group with mains := group.mains.erase i, weight := group.weight - p.weightOf i }
    else { group with backups := group.backups.erase i }

/-- `UPSGroupPolicy::add_server_locked`. -/
def addToGroup (p : UPSGroupPolicy) (i : Nat) : Option UPSGroupPolicy := do
  let a ← p.gov.heap i
  let gov := { p.gov with
    serverMap := Function.update p.gov.serverMap a.address (p.gov.serverMap a.address ++ [i])
    servers := if p.isMain i then p.gov.servers ++ [i] else p.gov.servers }
  return (({ p with gov := gov }).recoverOneServer i).enterGroup i

/-- `add_server_locked`. -/
def addServerLocked (p : UPSGroupPolicy) (i : Nat) : Option UPSGroupPolicy := do
  let p ← p.addToGroup i
  match p.strategy with
  | .weightedRandom =>
      return if p.isMain i then { p with totalWeight := p.totalWeight + p.weightOf i } else p
  | _ => return p

/-- `new EndpointAddress(address, new UPSAddrParams(params, address))`. -/
def alloc (stdHash : String → UInt64) (p : UPSGroupPolicy) (address : String)
    (params : AddressParams) : UPSGroupPolicy :=
  { p with
    gov := p.gov.alloc (.new address params.maxFails)
    params := Function.update p.params p.gov.fresh (.new stdHash params address) }

/-- `add_server(address, params)`. -/
def addServer (stdHash : String → UInt64) (p : UPSGroupPolicy) (address : String)
    (params : AddressParams) : Option UPSGroupPolicy :=
  (p.alloc stdHash address params).addServerLocked p.gov.fresh

/-- What the loop of `UPSGroupPolicy::remove_server_locked` does to one server. -/
def retireServer (p : UPSGroupPolicy) (i : Nat) : Option UPSGroupPolicy := do
  let a ← p.gov.heap i
  if a.failCount < a.maxFails then return (p.fuseOneServer i).leaveGroup i
  else
    let gov ← p.gov.removeServerFromBreaker i
    return { p with gov := gov }.leaveGroup i

/-- `UPSGroupPolicy::remove_server_locked`. -/
def removeFromGroups (p : UPSGroupPolicy) (address : String) :
    Option (UPSGroupPolicy × Int32) := do
  let removeList := p.gov.serverMap address
  let p ← removeList.foldlM retireServer p
  let servers ← p.gov.keepOthers address p.gov.servers
  let gov ← removeList.foldlM Governance.unref
    { p.gov with serverMap := Function.update p.gov.serverMap address [], servers := servers }
  return ({ p with gov := gov }, .ofNat (p.gov.servers.length - servers.length))

/-- What the loop of `UPSWeightedRandomPolicy::remove_server_locked` does to one server. -/
def dropWeight (p : UPSGroupPolicy) (i : Nat) : Option UPSGroupPolicy := do
  let _ ← p.gov.heap i
  return if p.isMain i then { p with totalWeight := p.totalWeight - p.weightOf i } else p

/-- `remove_server_locked`, with the number it returns. -/
def removeServerLocked (p : UPSGroupPolicy) (address : String) :
    Option (UPSGroupPolicy × Int32) :=
  match p.strategy with
  | .weightedRandom => do
      let p ← (p.gov.serverMap address).foldlM dropWeight p
      p.removeFromGroups address
  | _ => p.removeFromGroups address

/-- `remove_server(address)`. -/
def removeServer (p : UPSGroupPolicy) (address : String) : Option (UPSGroupPolicy × Int32) :=
  p.removeServerLocked address

/-- `replace_server(address, params)`: the new server is made first and added last. -/
def replaceServer (stdHash : String → UInt64) (p : UPSGroupPolicy) (address : String)
    (params : AddressParams) : Option (UPSGroupPolicy × Int32) := do
  let i := p.gov.fresh
  let (p, ret) ← (p.alloc stdHash address params).removeServerLocked address
  let p ← p.addServerLocked i
  return (p, ret)

def enableServer (p : UPSGroupPolicy) (address : String) : Option UPSGroupPolicy :=
  (p.gov.serverMap address).foldlM recoverServerFromBreaker p

/-- What `disable_server` does to one server. -/
def disableOne (now : Int) (p : UPSGroupPolicy) (i : Nat) : Option UPSGroupPolicy := do
  let gov ← p.gov.modify i fun a => { a with failCount := a.maxFails }
  fuseServerToBreaker now { p with gov := gov } i

def disableServer (now : Int) (p : UPSGroupPolicy) (address : String) : Option UPSGroupPolicy :=
  (p.gov.serverMap address).foldlM (disableOne now) p

def success (p : UPSGroupPolicy) (i : Nat) : Option UPSGroupPolicy := do
  let p ← p.recoverServerFromBreaker i
  let gov ← p.gov.unref i
  return { p with gov := gov }

def failed (now : Int) (p : UPSGroupPolicy) (i : Nat) : Option UPSGroupPolicy := do
  let a ← p.gov.heap i
  if a.ref - 1 = 0 then return { p with gov := p.gov.delete i }
  else
    let gov ← p.gov.modify i fun a => { a with ref := a.ref - 1, failCount := a.failCount + 1 }
    if a.failCount + 1 = a.maxFails then fuseServerToBreaker now { p with gov := gov } i
    else return { p with gov := gov }

/-! ### Selection -/

/-- `std::shuffle` with the numbers of one call. -/
structure Shuffle where
  run : List Nat → List Nat
  perm : ∀ servers, (run servers).Perm servers

/-- The random numbers of one selection: what `rand()` gives in `first_strategy` and in
`another_strategy`, and the shuffles, by the place of their call. -/
structure Draws where
  first : Nat
  another : Nat
  shuffle : Nat → Shuffle

/-- The first server of a list that is not fused and not in the selection history. -/
def findAvailable (p : UPSGroupPolicy) (history : List Nat) : List Nat → Option (Option Nat)
  | [] => some none
  | i :: rest => do
      let a ← p.gov.heap i
      if a.failCount < a.maxFails ∧ i ∉ history then return some i
      else p.findAvailable history rest

/-- `EndpointGroup::get_one`; `none` in the second component is NULL. -/
def getOne (p : UPSGroupPolicy) (id : Int32) (history : List Nat)
    (shuffleMains shuffleBackups : Shuffle) : Option (UPSGroupPolicy × Option Nat) :=
  let group := p.groups id
  if group.nalives = 0 then some (p, none)
  else do
    let mains := shuffleMains.run group.mains
    match ← p.findAvailable history mains with
    | some i =>
        return (p.setGroup id { group with mains := mains }, some i)
    | none =>
        let backups := shuffleBackups.run group.backups
        let addr ← p.findAvailable history backups
        return (p.setGroup id { group with mains := mains, backups := backups }, addr)

/-- `EndpointGroup::get_one_backup`. -/
def getOneBackup (p : UPSGroupPolicy) (id : Int32) (history : List Nat) (shuffle : Shuffle) :
    Option (UPSGroupPolicy × Option Nat) :=
  let group := p.groups id
  if group.nalives = 0 then some (p, none)
  else do
    let backups := shuffle.run group.backups
    let addr ← p.findAvailable history backups
    return (p.setGroup id { group with backups := backups }, addr)

def isAlive (p : UPSGroupPolicy) (i : Nat) : Option Bool := do
  let a ← p.gov.heap i
  return (p.groupIdOf i < 0 ∧ a.failCount < a.maxFails) ∨
    (0 ≤ p.groupIdOf i ∧ 0 < (p.groupOf i).nalives)

/-- `check_and_get(addr, true, tracing)`. -/
def checkAndGetAvailable (p : UPSGroupPolicy) (addr : Option Nat) (history : List Nat)
    (shuffleMains shuffleBackups : Shuffle) : Option (UPSGroupPolicy × Option Nat) := do
  let i ← addr
  let _ ← p.gov.heap i
  if p.groupIdOf i = -1 then return (p, none)
  else p.getOne (p.groupIdOf i) history shuffleMains shuffleBackups

/-- `check_and_get(addr, false, tracing)`. -/
def checkAndGet (p : UPSGroupPolicy) (addr : Option Nat) (history : List Nat)
    (shuffleMains shuffleBackups : Shuffle) : Option (UPSGroupPolicy × Option Nat) := do
  let i ← addr
  let a ← p.gov.heap i
  if a.maxFails ≤ a.failCount ∧ 0 ≤ p.groupIdOf i then
    let (p, tmp) ← p.getOne (p.groupIdOf i) history shuffleMains shuffleBackups
    return (p, tmp <|> addr)
  else
    return (p, addr)

/-- One virtual node of the loop of `consistent_hash_with_group`. -/
def nearer (hash : UInt32) (i : Nat) (best : UInt32 × Option Nat) (node : UInt32) :
    UInt32 × Option Nat :=
  let dis := min (hash - node) (node - hash)
  if dis < best.1 then (dis, some i) else best

/-- The loop of `consistent_hash_with_group` over the main servers. -/
def nearest (p : UPSGroupPolicy) (hash : UInt32) (best : UInt32 × Option Nat) :
    List Nat → Option (UInt32 × Option Nat)
  | [] => some best
  | i :: rest => do
      if ← p.isAlive i then
        p.nearest hash ((p.params i).consistentHash.foldl (nearer hash i) best) rest
      else
        p.nearest hash best rest

def consistentHashWithGroup (p : UPSGroupPolicy) (hash : UInt32)
    (shuffleMains shuffleBackups : Shuffle) : Option (UPSGroupPolicy × Option Nat) := do
  let best ← p.nearest hash (-1, none) p.gov.servers
  match best.2 with
  | none => return (p, none)
  | some i => p.checkAndGet (some i) [] shuffleMains shuffleBackups

/-- `select_history_weight`. -/
def selectHistoryWeight (p : UPSGroupPolicy) (history : List Nat) : Option Int32 :=
  history.foldlM (fun ret i => (p.gov.heap i).map fun _ => ret + p.weightOf i) 0

/-- The loop of `UPSWeightedRandomPolicy::first_strategy`; `none` in the result is its end. -/
def scanWeights (p : UPSGroupPolicy) (history : List Nat) (x : Int) (s : Int32) :
    List Nat → Option (Option Nat)
  | [] => some none
  | i :: rest =>
      if i ∈ history then p.scanWeights history x s rest
      else do
        let _ ← p.gov.heap i
        let s := s + p.weightOf i
        if x < s.toInt then return some i
        else p.scanWeights history x s rest

/-- `UPSWeightedRandomPolicy::first_strategy` with the number that `rand()` gives. -/
def firstWeighted (p : UPSGroupPolicy) (history : List Nat) (rand : Nat) : Option Nat := do
  let tempWeight := p.totalWeight - (← p.selectHistoryWeight history)
  let x : Int := if 0 < tempWeight then (rand : Int) % tempWeight.toInt else 0
  match ← p.scanWeights history x 0 p.gov.servers with
  | some i => return i
  | none => p.gov.servers.getLast?

/-- The loop of `UPSWeightedRandomPolicy::another_strategy`. -/
def scanAlive (p : UPSGroupPolicy) (x : Int) (s : Int32) (addr : Option Nat) :
    List Nat → Option (Option Nat)
  | [] => some addr
  | i :: rest => do
      if ← p.isAlive i then
        let s := s + p.weightOf i
        if x < s.toInt then return some i
        else p.scanAlive x s (some i) rest
      else
        p.scanAlive x s addr rest

/-- `UPSWeightedRandomPolicy::another_strategy`. -/
def anotherWeighted (p : UPSGroupPolicy) (history : List Nat) (rand : Nat)
    (shuffleMains shuffleBackups : Shuffle) : Option (UPSGroupPolicy × Option Nat) :=
  if p.availableWeight = 0 then some (p, none)
  else do
    let x := (rand : Int).tmod p.availableWeight.toInt
    let addr ← p.scanAlive x 0 none p.gov.servers
    p.checkAndGet addr history shuffleMains shuffleBackups

/-- `UPSManualPolicy::first_strategy`. -/
def firstManual (p : UPSGroupPolicy) (idx : UInt32) : Option Nat :=
  p.gov.servers[if p.gov.servers.length ≤ idx.toNat then idx.toNat % p.gov.servers.length
    else idx.toNat]?

section Select

variable (stdHash : String → UInt64)

/-- `first_strategy`. -/
def firstStrategy (p : UPSGroupPolicy) (uri : ParsedURI) (history : List Nat) (draws : Draws) :
    Option (UPSGroupPolicy × Option Nat) :=
  match p.strategy with
  | .weightedRandom => do
      let i ← p.firstWeighted history draws.first
      return (p, some i)
  | .consistentHash route =>
      p.consistentHashWithGroup ((route.getD (defaultConsistentHash stdHash)).ofURI uri)
        (draws.shuffle 0) (draws.shuffle 1)
  | .manual manualSelect _ => do
      let i ← p.firstManual (manualSelect.ofURI uri)
      return (p, some i)

/-- `another_strategy`; `UPSConsistentHashPolicy` has the inherited one, which is the first. -/
def anotherStrategy (p : UPSGroupPolicy) (uri : ParsedURI) (history : List Nat) (draws : Draws) :
    Option (UPSGroupPolicy × Option Nat) :=
  match p.strategy with
  | .weightedRandom =>
      p.anotherWeighted history draws.another (draws.shuffle 4) (draws.shuffle 5)
  | .consistentHash route =>
      p.consistentHashWithGroup ((route.getD (defaultConsistentHash stdHash)).ofURI uri)
        (draws.shuffle 4) (draws.shuffle 5)
  | .manual _ tryAnotherSelect =>
      p.consistentHashWithGroup ((tryAnotherSelect.getD (defaultConsistentHash stdHash)).ofURI uri)
        (draws.shuffle 4) (draws.shuffle 5)

/-- `first_strategy`, the group of a fused server, and `another_strategy`. -/
def selectMain (p : UPSGroupPolicy) (uri : ParsedURI) (history : List Nat) (draws : Draws) :
    Option (UPSGroupPolicy × Option Nat) := do
  let (p, first) ← p.firstStrategy stdHash uri history draws
  match first with
  | none =>
      if p.gov.tryAnother then p.anotherStrategy stdHash uri history draws else return (p, none)
  | some i =>
      let a ← p.gov.heap i
      if a.maxFails ≤ a.failCount then
        let (p, addr) ← p.checkAndGetAvailable (some i) history (draws.shuffle 2) (draws.shuffle 3)
        if addr.isNone ∧ p.gov.tryAnother then p.anotherStrategy stdHash uri history draws
        else return (p, addr)
      else return (p, some i)

/-- The server that `select` takes; the last resort is a backup server without a group. -/
def selectAddr (p : UPSGroupPolicy) (uri : ParsedURI) (history : List Nat) (draws : Draws) :
    Option (UPSGroupPolicy × Option Nat) := do
  let (p, addr) ← p.selectMain stdHash uri history draws
  match addr with
  | some i => return (p, some i)
  | none => p.getOneBackup (-1) history (draws.shuffle 6)

/-- `select(uri, tracing, &addr)`; the second component is the selected server. -/
def select (fuel : Nat) (now : Int) (p : UPSGroupPolicy) (uri : ParsedURI) (history : List Nat)
    (draws : Draws) : Option (UPSGroupPolicy × Option Nat) :=
  if p.gov.servers.length % 2 ^ 32 = 0 then some (p, none)
  else do
    let p ← p.checkBreaker fuel now
    if p.gov.nalives = 0 then return (p, none)
    else
      let (p, addr) ← p.selectAddr stdHash uri history draws
      match addr with
      | none => return (p, none)
      | some i =>
          let gov ← p.gov.modify i fun a => { a with ref := a.ref + 1 }
          return ({ p with gov := gov }, some i)

end Select

end UPSGroupPolicy

/-! ### The system -/

/-- The operations, with the clock, the selection history and the random numbers that they read. -/
inductive UPSOp where
  | addServer (address : String) (params : AddressParams)
  | removeServer (address : String)
  | replaceServer (address : String) (params : AddressParams)
  | enableServer (address : String)
  | disableServer (address : String) (now : Int)
  | select (now : Int) (uri : ParsedURI) (history : List Nat) (draws : UPSGroupPolicy.Draws)
  | success (i : Nat)
  | failed (i : Nat) (now : Int)
  | checkBreaker (now : Int)

/-- A policy and the selections for which neither `success` nor `failed` was called yet. -/
structure UPSSystem where
  policy : UPSGroupPolicy
  outstanding : Nat → Nat

namespace UPSSystem

def new (strategy : Strategy) (mttrSecond : UInt32) (tryAnother : Bool) : UPSSystem where
  policy := .new strategy mttrSecond tryAnother
  outstanding := fun _ => 0

/-- Take one selection back; only an outstanding one can be. -/
def settle (s : UPSSystem) (i : Nat) (policy : Option UPSGroupPolicy) : Option UPSSystem :=
  if s.outstanding i = 0 then none
  else policy.map fun p =>
    { policy := p, outstanding := Function.update s.outstanding i (s.outstanding i - 1) }

/-- One operation. -/
def exec (stdHash : String → UInt64) (fuel : Nat) (s : UPSSystem) : UPSOp → Option UPSSystem
  | .addServer address params =>
      (s.policy.addServer stdHash address params).map fun p => { s with policy := p }
  | .removeServer address =>
      (s.policy.removeServer address).map fun (p, _) => { s with policy := p }
  | .replaceServer address params =>
      (s.policy.replaceServer stdHash address params).map fun (p, _) => { s with policy := p }
  | .enableServer address => (s.policy.enableServer address).map fun p => { s with policy := p }
  | .disableServer address now =>
      (s.policy.disableServer now address).map fun p => { s with policy := p }
  | .select now uri history draws =>
      (s.policy.select stdHash fuel now uri history draws).map fun
        | (p, none) => { s with policy := p }
        | (p, some i) =>
            { policy := p, outstanding := Function.update s.outstanding i (s.outstanding i + 1) }
  | .success i => s.settle i (s.policy.success i)
  | .failed i now => s.settle i (s.policy.failed now i)
  | .checkBreaker now => (s.policy.checkBreaker fuel now).map fun p => { s with policy := p }

/-- All runs from an empty policy. -/
def machine (stdHash : String → UInt64) (strategy : Strategy) (mttrSecond : UInt32)
    (tryAnother : Bool) : Machine UPSSystem UPSOp :=
  .ofFunction (.new strategy mttrSecond tryAnother) (exec stdHash)

end UPSSystem

end Workflow.Nameservice
