/-
Module: Workflow.Nameservice.VnswrrPolicy
Layer: Model
Purpose: `UPSVNSWRRPolicy` (UpstreamPolicies.cc), smooth weighted round robin over virtual nodes: a
  weighted random policy with a schedule of positions in `servers`, generated when the servers
  change. Indexing outside a vector and a division by zero are undefined behaviour, `none`.
Trusted boundary: human-reviewed model
Main exports: UPSVNSWRRPolicy, initVirtualNodes, init, firstStrategy, VnswrrOp, exec, run
-/
import Workflow.Nameservice.UpstreamPolicies

namespace Workflow.Nameservice

/-- `UPSVNSWRRPolicy`; the part of `UPSWeightedRandomPolicy` is `policy`. -/
structure UPSVNSWRRPolicy where
  policy : UPSGroupPolicy
  preGeneratedVec : List UInt64
  currentWeightVec : List UInt64
  curIdx : UInt64

namespace UPSVNSWRRPolicy

/-- The constructor; `try_another` is false. -/
def new (mttrSecond : UInt32) : UPSVNSWRRPolicy where
  policy := .new .weightedRandom mttrSecond false
  preGeneratedVec := []
  currentWeightVec := []
  curIdx := 0

/-! ### The schedule -/

/-- The position of the first largest element, as `std::max_element` finds it. -/
def maxElement (weights : List UInt64) : Nat :=
  weights.findIdx fun x => weights.all fun y => y ≤ x

/-- `current_weight_vec[j] += params->weight` for the server at `j`. -/
def addWeight (p : UPSGroupPolicy) (weights : List UInt64) (j : Nat) : Option (List UInt64) := do
  let i ← p.gov.servers[j]?
  let _ ← p.gov.heap i
  let x ← weights[j]?
  return weights.set j (x + .ofNat (p.params i).weight.toNat)

/-- The body of the loop of `init_virtual_nodes`; `loop` is its local vector of that name. -/
def virtualNode (loop : List Nat) (v : UPSVNSWRRPolicy) (i : Nat) : Option UPSVNSWRRPolicy := do
  let weights ← (List.range v.policy.gov.servers.length).foldlM (addWeight v.policy)
    v.currentWeightVec
  let biggest := maxElement weights
  if i < v.preGeneratedVec.length then
    let k ← loop[i]?
    let x ← weights[k]?
    return { v with
      preGeneratedVec := v.preGeneratedVec.set i (.ofNat biggest)
      currentWeightVec := weights.set k (x - v.policy.totalWeight.toInt64.toUInt64) }
  else none

def initVirtualNodes (v : UPSVNSWRRPolicy) : Option UPSVNSWRRPolicy :=
  let s := v.preGeneratedVec.length
  if v.policy.totalWeight ≤ .ofNat s then some v
  else
    -- `resize(s)` leaves the schedule at the length it has, and nothing is put into `loop`.
    let e := v.policy.totalWeight.toInt64.toUInt64 - .ofNat s
    (List.range' s (e.toNat - s)).foldlM (virtualNode []) v

/-- `init`, with the number that `rand()` gives. -/
def init (rand : Nat) (v : UPSVNSWRRPolicy) : Option UPSVNSWRRPolicy :=
  if v.policy.totalWeight ≤ 0 then some v
  else
    initVirtualNodes { v with
      preGeneratedVec := []
      currentWeightVec := List.replicate v.policy.gov.servers.length 0
      curIdx := .ofNat (rand % v.policy.totalWeight.toInt.toNat) }

/-! ### Selection -/

/-- An int as the index of a vector. -/
def asIndex (x : Int32) : Nat := x.toInt64.toUInt64.toNat

/-- The loop of `first_strategy`, with `n` passes left and the counter at `i`. -/
def findNode (history : List Nat) :
    Nat → Nat → UPSVNSWRRPolicy → Int32 → Option (UPSVNSWRRPolicy × Int32)
  | 0, _, v, idx => some (v, idx)
  | n + 1, i, v, _ => do
      let size := v.preGeneratedVec.length
      let v ← if size ≤ v.curIdx.toNat ∧ .ofNat size < v.policy.totalWeight then v.initVirtualNodes
        else some v
      if v.preGeneratedVec.length = 0 then none
      else
        let idx := .ofNat ((v.curIdx + .ofNat i).toNat % v.preGeneratedVec.length)
        let pos ← v.preGeneratedVec[asIndex idx]?
        let server ← v.policy.gov.servers[asIndex pos.toInt64.toInt32]?
        if server ∈ history then findNode history n (i + 1) v idx else return (v, idx)

/-- `first_strategy`. -/
def firstStrategy (history : List Nat) (v : UPSVNSWRRPolicy) : Option (Nat × UPSVNSWRRPolicy) := do
  let (v, idx) ← findNode history v.policy.totalWeight.toInt.toNat 0 v v.curIdx.toInt64.toInt32
  let server ← v.policy.gov.servers[asIndex idx]?
  return (server, { v with curIdx := idx.toInt64.toUInt64 })

/-- The servers that `n` consecutive calls of `first_strategy` return, with an empty history. -/
def calls : Nat → UPSVNSWRRPolicy → Option (List Nat × UPSVNSWRRPolicy)
  | 0, v => some ([], v)
  | n + 1, v => do
      let (server, v) ← firstStrategy [] v
      let (servers, v) ← calls n v
      return (server :: servers, v)

end UPSVNSWRRPolicy

/-! ### The system -/

/-- The operations that change the servers, with the number that `rand()` gives. -/
inductive VnswrrOp where
  | addServer (address : String) (params : AddressParams) (rand : Nat)
  | removeServer (address : String) (rand : Nat)

namespace UPSVNSWRRPolicy

/-- One operation: that of the weighted random policy, then `init`. -/
def exec (stdHash : String → UInt64) (v : UPSVNSWRRPolicy) : VnswrrOp → Option UPSVNSWRRPolicy
  | .addServer address params rand => do
      let p ← v.policy.addServer stdHash address params
      init rand { v with policy := p }
  | .removeServer address rand => do
      let (p, _) ← v.policy.removeServer address
      init rand { v with policy := p }

/-- The operations one after the other, from an empty policy. -/
def run (stdHash : String → UInt64) (mttrSecond : UInt32) (ops : List VnswrrOp) :
    Option UPSVNSWRRPolicy :=
  ops.foldlM (exec stdHash) (new mttrSecond)

end UPSVNSWRRPolicy

end Workflow.Nameservice
