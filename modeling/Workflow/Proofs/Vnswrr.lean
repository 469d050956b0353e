/-
Module: Workflow.Proofs.Vnswrr
Layer: Proofs
Purpose: The schedule of `UPSVNSWRRPolicy` is never generated: as soon as a main server is added,
  `init_virtual_nodes` writes outside the schedule, so there is no defined run to a state with a
  main server.
Trusted boundary: none
Main exports: registeredMains, Scheduled, foldlM_exec_undefined, never_scheduled
-/
import Workflow.Nameservice.VnswrrPolicy
import Workflow.Proofs.UpstreamRegistration

namespace Workflow.Nameservice

variable {stdHash : String → UInt64} {mttrSecond : UInt32}

/-! ### What the schedule should be -/

/-- What one operation does to the addresses and weights of the registered main servers. -/
def registerMains (stdHash : String → UInt64) (mains : List (String × Nat)) :
    VnswrrOp → List (String × Nat)
  | .addServer address params _ =>
      let given := UPSAddrParams.new stdHash params address
      if given.serverType = 0 then mains ++ [(address, given.weight.toNat)] else mains
  | .removeServer address _ => mains.filter fun main => main.1 ≠ address

/-- The main servers that are registered after the operations. -/
def registeredMains (stdHash : String → UInt64) (ops : List VnswrrOp) : List (String × Nat) :=
  ops.foldl (registerMains stdHash) []

/-- The total main weight after the operations. -/
def mainWeightAfter (stdHash : String → UInt64) (ops : List VnswrrOp) : Nat :=
  ((registeredMains stdHash ops).map Prod.snd).sum

/-- The schedule of a policy of the total main weight `w` is right: it has the length `w` and each
position as often as its weight says, and `w` consecutive calls of `first_strategy`, after any
number of calls, return each main server as often. -/
structure UPSVNSWRRPolicy.Fair (v : UPSVNSWRRPolicy) (w : Nat) : Prop where
  length : v.preGeneratedVec.length = w
  count : ∀ j i, v.policy.gov.servers[j]? = some i →
    v.preGeneratedVec.count (.ofNat j) = (v.policy.params i).weight.toNat
  calls : ∀ n, ∃ before v₁ servers v₂, v.calls n = some (before, v₁) ∧
    v₁.calls w = some (servers, v₂) ∧
    ∀ i ∈ v.policy.gov.servers, servers.count i = (v.policy.params i).weight.toNat

/-- The operations are defined and lead to a right schedule. -/
def Scheduled (stdHash : String → UInt64) (mttrSecond : UInt32) (ops : List VnswrrOp) : Prop :=
  ∃ v, UPSVNSWRRPolicy.run stdHash mttrSecond ops = some v ∧ v.Fair (mainWeightAfter stdHash ops)

/-- The operation adds a main server. -/
def VnswrrOp.AddsMain (stdHash : String → UInt64) : VnswrrOp → Prop
  | .addServer address params _ => (UPSAddrParams.new stdHash params address).serverType = 0
  | .removeServer .. => False

theorem registerMains_subset {mains : List (String × Nat)} {op : VnswrrOp}
    (h : ¬ op.AddsMain stdHash) : registerMains stdHash mains op ⊆ mains := by
  cases op with
  | addServer address params rand =>
      have hbackup : ¬ (UPSAddrParams.new stdHash params address).serverType = 0 := h
      simp [registerMains, hbackup]
  | removeServer address rand => exact List.filter_subset_self _

theorem foldl_registerMains_subset {ops : List VnswrrOp} (h : ∀ op ∈ ops, ¬ op.AddsMain stdHash)
    (mains : List (String × Nat)) : ops.foldl (registerMains stdHash) mains ⊆ mains := by
  induction ops generalizing mains with
  | nil => exact List.Subset.refl _
  | cons op ops ih =>
      rw [List.foldl_cons]
      exact List.Subset.trans (ih (fun op hop => h op (List.mem_cons_of_mem _ hop)) _)
        (registerMains_subset (h op List.mem_cons_self))

/-- A main server can be registered only after it was added. -/
theorem exists_addsMain {ops : List VnswrrOp} (h : 0 < mainWeightAfter stdHash ops) :
    ∃ op ∈ ops, op.AddsMain stdHash := by
  by_contra hnone
  push Not at hnone
  have hempty : registeredMains stdHash ops = [] :=
    List.subset_nil.mp (foldl_registerMains_subset hnone [])
  simp [mainWeightAfter, hempty] at h

/-! ### Before the first main server -/

namespace UPSGroupPolicy

variable {p p' : UPSGroupPolicy} {i : Nat}

/-- A weighted random policy in which only backup servers are registered. -/
structure OnlyBackups (p : UPSGroupPolicy) : Prop where
  strategy : p.strategy = .weightedRandom
  totalWeight : p.totalWeight = 0
  backup : ∀ address, ∀ i ∈ p.gov.serverMap address, p.isMain i = false
  old : ∀ address, ∀ i ∈ p.gov.serverMap address, i < p.gov.fresh

theorem retireServer_kept (h : p.retireServer i = some p') : Kept p p' := by
  obtain ⟨a, _, h⟩ := Option.bind_eq_some_iff.mp h
  split at h
  · cases h
    rw [fuseOneServer_eq]
    exact ⟨⟨rfl, rfl, rfl, fun _ => rfl⟩, rfl, rfl, rfl⟩
  · obtain ⟨g, hremove, h⟩ := Option.bind_eq_some_iff.mp h
    obtain ⟨links, _, hremove⟩ := Option.bind_eq_some_iff.mp hremove
    cases hremove
    cases h
    exact ⟨⟨rfl, rfl, rfl, fun _ => rfl⟩, rfl, rfl, rfl⟩

theorem foldlM_retireServer_kept {ids : List Nat} (h : ids.foldlM retireServer p = some p') :
    Kept p p' := by
  induction ids generalizing p with
  | nil =>
      cases h
      exact .refl _
  | cons i ids ih =>
      rw [List.foldlM_cons] at h
      obtain ⟨p₁, hfirst, hrest⟩ := Option.bind_eq_some_iff.mp h
      exact (retireServer_kept hfirst).trans (ih hrest)

theorem foldlM_unref_fresh {g g' : Governance} {ids : List Nat}
    (h : ids.foldlM Governance.unref g = some g') : g'.fresh = g.fresh := by
  induction ids generalizing g with
  | nil =>
      cases h
      rfl
  | cons i ids ih =>
      rw [List.foldlM_cons] at h
      obtain ⟨g₁, hfirst, hrest⟩ := Option.bind_eq_some_iff.mp h
      rw [ih hrest, (Governance.unref_frame hfirst).2.2.1]

/-- Backup servers have no part in `total_weight`. -/
theorem foldlM_dropWeight_backups {p p' : UPSGroupPolicy} {ids : List Nat}
    (hids : ∀ i ∈ ids, p.isMain i = false) (h : ids.foldlM dropWeight p = some p') : p' = p := by
  induction ids with
  | nil =>
      cases h
      rfl
  | cons i ids ih =>
      rw [List.foldlM_cons] at h
      obtain ⟨p₁, hfirst, hrest⟩ := Option.bind_eq_some_iff.mp h
      obtain ⟨a, _, hfirst⟩ := Option.bind_eq_some_iff.mp hfirst
      rw [hids i List.mem_cons_self] at hfirst
      cases hfirst
      exact ih (fun j hj => hids j (List.mem_cons_of_mem _ hj)) hrest

theorem OnlyBackups.removeServer (h : p.OnlyBackups) {address : String} {ret : Int32}
    (hremove : p.removeServer address = some (p', ret)) : p'.OnlyBackups := by
  unfold UPSGroupPolicy.removeServer removeServerLocked at hremove
  simp only [h.strategy] at hremove
  obtain ⟨p₁, hdrop, hgroups⟩ := Option.bind_eq_some_iff.mp hremove
  rw [foldlM_dropWeight_backups (h.backup address) hdrop] at hgroups
  obtain ⟨p₂, hretire, hkeep⟩ := Option.bind_eq_some_iff.mp hgroups
  obtain ⟨servers, _, hrest⟩ := Option.bind_eq_some_iff.mp hkeep
  obtain ⟨g, hunref, hsome⟩ := Option.bind_eq_some_iff.mp hrest
  cases hsome
  have hkept := foldlM_retireServer_kept hretire
  have hmap := Governance.foldlM_unref_serverMap hunref
  have hfresh := foldlM_unref_fresh hunref
  have hmem : ∀ other, ∀ i ∈ g.serverMap other, i ∈ p.gov.serverMap other := by
    intro other i hi
    rw [hmap, ← hkept.refs.serverMap] at *
    rcases eq_or_ne other address with rfl | hne
    · simp at hi
    · simpa [hne] using hi
  refine ⟨hkept.strategy.trans h.strategy, hkept.totalWeight.trans h.totalWeight,
    fun other i hi => ?_, fun other i hi => ?_⟩
  · simpa [isMain, hkept.params] using h.backup other i (hmem other i hi)
  · rw [hfresh, hkept.refs.fresh]
    exact h.old other i (hmem other i hi)

/-- A new server of a policy with backup servers only: `total_weight` is its part. -/
theorem OnlyBackups.addServer (h : p.OnlyBackups) (stdHash : String → UInt64) (address : String)
    (params : AddressParams) :
    ∃ p', p.addServer stdHash address params = some p' ∧ p'.strategy = .weightedRandom ∧
      p'.params = Function.update p.params p.gov.fresh (.new stdHash params address) ∧
      p'.gov.serverMap =
        Function.update p.gov.serverMap address (p.gov.serverMap address ++ [p.gov.fresh]) ∧
      p'.gov.fresh = p.gov.fresh + 1 ∧
      p'.totalWeight = .ofNat (if (UPSAddrParams.new stdHash params address).serverType = 0 then
        (UPSAddrParams.new stdHash params address).weight.toNat else 0) := by
  have ha : (p.alloc stdHash address params).gov.heap p.gov.fresh =
      some (.new address params.maxFails) := Function.update_self ..
  obtain ⟨total, htotal, hadd⟩ := addServerLocked_eq ha
  refine ⟨_, hadd, ?_⟩
  rw [recoverOneServer_eq]
  refine ⟨h.strategy, rfl, rfl, rfl, ?_⟩
  have hzero : (p.alloc stdHash address params).totalWeight = 0 := h.totalWeight
  rw [htotal h.strategy, hzero, Int32.zero_add]
  simp [mainWeight, isMain, weight, UPSGroupPolicy.alloc]

/-- A backup server keeps the policy without main servers. -/
theorem OnlyBackups.addBackup (h : p.OnlyBackups) {address : String} {params : AddressParams}
    (hbackup : ¬ (UPSAddrParams.new stdHash params address).serverType = 0)
    (hadd : p.addServer stdHash address params = some p') : p'.OnlyBackups := by
  obtain ⟨q, hq, hstrategy, hparams, hmap, hfresh, htotal⟩ := h.addServer stdHash address params
  obtain rfl : p' = q := Option.some.inj (hadd.symm.trans hq)
  have hcases : ∀ other, ∀ i ∈ p'.gov.serverMap other,
      i ∈ p.gov.serverMap other ∨ i = p.gov.fresh := by
    intro other i hi
    rw [hmap] at hi
    rcases eq_or_ne other address with rfl | hne
    · simpa using hi
    · exact Or.inl (by simpa [hne] using hi)
  refine ⟨hstrategy, ?_, fun other i hi => ?_, fun other i hi => ?_⟩
  · rw [htotal, if_neg hbackup]
    rfl
  · rcases hcases other i hi with hold | rfl
    · have hne : i ≠ p.gov.fresh := (h.old other i hold).ne
      simpa [isMain, hparams, hne] using h.backup other i hold
    · simpa [isMain, hparams] using hbackup
  · rw [hfresh]
    rcases hcases other i hi with hold | rfl
    · exact Nat.lt_succ_of_lt (h.old other i hold)
    · exact Nat.lt_succ_self _

end UPSGroupPolicy

/-! ### The first main server -/

namespace UPSVNSWRRPolicy

variable {v v' : UPSVNSWRRPolicy}

/-- The first write to the schedule is outside of it. -/
theorem virtualNode_undefined (loop : List Nat) {i : Nat} (h : v.preGeneratedVec.length ≤ i) :
    virtualNode loop v i = none := by
  unfold virtualNode
  simp [Nat.not_lt.mpr h]

theorem toUInt64_ne_zero {w : Int32} (h : 0 < w) : w.toInt64.toUInt64 ≠ 0 := by
  intro hzero
  have hwide : w.toInt64 = 0 := by simpa using congrArg UInt64.toInt64 hzero
  have hnarrow : w = 0 := by simpa using congrArg Int64.toInt32 hwide
  rw [hnarrow] at h
  exact absurd h (by decide)

/-- As long as there is a main weight, `init` is undefined. -/
theorem init_undefined (rand : Nat) (h : 0 < v.policy.totalWeight) : init rand v = none := by
  unfold init
  rw [if_neg (Int32.not_le.mpr h)]
  unfold initVirtualNodes
  have hzero : Int32.ofNat ([] : List UInt64).length = 0 := rfl
  simp only [hzero]
  rw [if_neg (Int32.not_le.mpr h)]
  have hsub : v.policy.totalWeight.toInt64.toUInt64 - UInt64.ofNat ([] : List UInt64).length =
      v.policy.totalWeight.toInt64.toUInt64 := UInt64.sub_zero _
  rw [hsub]
  cases hcount : v.policy.totalWeight.toInt64.toUInt64.toNat with
  | zero => exact absurd (UInt64.toNat_inj.mp hcount) (toUInt64_ne_zero h)
  | succ n =>
      show ((List.range' 0 (n + 1)).foldlM (virtualNode []) _) = none
      rw [List.range'_succ, List.foldlM_cons, virtualNode_undefined [] (Nat.zero_le _)]
      rfl

theorem init_idle (rand : Nat) (h : v.policy.totalWeight = 0) : init rand v = some v := by
  unfold init
  rw [h]
  rfl

theorem ofNat_weight_pos (given : UPSAddrParams) : 0 < Int32.ofNat given.weight.toNat := by
  have hpos : 0 < given.weight.toNat := by simpa [UInt16.lt_iff_toNat_lt] using given.weight_pos
  have hlt := given.weight.toNat_lt
  rw [Int32.lt_iff_toInt_lt, Int32.toInt_ofNat_of_lt (by omega)]
  simpa using hpos

/-- Adding the first main server is undefined; other operations leave the policy without one. -/
theorem exec_cases (stdHash : String → UInt64) (h : v.policy.OnlyBackups) (op : VnswrrOp) :
    (op.AddsMain stdHash → exec stdHash v op = none) ∧
      (¬ op.AddsMain stdHash → ∀ v', exec stdHash v op = some v' → v'.policy.OnlyBackups) := by
  cases op with
  | addServer address params rand =>
      obtain ⟨p, hadd, -, -, -, -, htotal⟩ := h.addServer stdHash address params
      have hexec : exec stdHash v (.addServer address params rand) =
          init rand { v with policy := p } := by
        simp only [exec, hadd, Option.bind_eq_bind, Option.bind_some]
      refine ⟨fun hmain => ?_, fun hbackup v' hv' => ?_⟩
      · have hnew : (UPSAddrParams.new stdHash params address).serverType = 0 := hmain
        rw [if_pos hnew] at htotal
        rw [hexec]
        exact init_undefined rand (htotal ▸ ofNat_weight_pos _)
      · have hold := h.addBackup hbackup hadd
        rw [hexec, init_idle rand hold.totalWeight] at hv'
        cases hv'
        exact hold
  | removeServer address rand =>
      refine ⟨fun hmain => hmain.elim, fun _ v' hv' => ?_⟩
      obtain ⟨⟨p, ret⟩, hremove, hinit⟩ := Option.bind_eq_some_iff.mp hv'
      have hold := h.removeServer hremove
      have hidle := init_idle (v := { v with policy := p }) rand hold.totalWeight
      obtain rfl := Option.some.inj (hidle.symm.trans hinit)
      exact hold

/-- Operations of which one adds a main server cannot be run. -/
theorem foldlM_exec_undefined (h : v.policy.OnlyBackups) {ops : List VnswrrOp}
    (hmain : ∃ op ∈ ops, op.AddsMain stdHash) : ops.foldlM (exec stdHash) v = none := by
  induction ops generalizing v with
  | nil => simp at hmain
  | cons op ops ih =>
      obtain ⟨hfirst, hother⟩ := exec_cases stdHash h op
      rw [List.foldlM_cons]
      by_cases hadds : op.AddsMain stdHash
      · rw [hfirst hadds]
        rfl
      · have hrest : ∃ op ∈ ops, op.AddsMain stdHash := by
          obtain ⟨main, hmem, hmain⟩ := hmain
          rcases List.mem_cons.mp hmem with rfl | hmem
          · exact absurd hmain hadds
          · exact ⟨main, hmem, hmain⟩
        cases hexec : exec stdHash v op with
        | none => rfl
        | some v' => exact ih (hother hadds v' hexec) hrest

theorem new_onlyBackups (mttrSecond : UInt32) : (new mttrSecond).policy.OnlyBackups :=
  ⟨rfl, rfl, fun _ _ hi => absurd hi List.not_mem_nil, fun _ _ hi => absurd hi List.not_mem_nil⟩

end UPSVNSWRRPolicy

/-- Whatever the operations were, when they leave a main weight there is no right schedule: one of
the operations wrote outside of it. -/
theorem never_scheduled (mttrSecond : UInt32) (ops : List VnswrrOp)
    (h : 0 < mainWeightAfter stdHash ops) : ¬ Scheduled stdHash mttrSecond ops := by
  rintro ⟨v, hrun, -⟩
  rw [UPSVNSWRRPolicy.run, UPSVNSWRRPolicy.foldlM_exec_undefined
    (UPSVNSWRRPolicy.new_onlyBackups mttrSecond) (exists_addsMain h)] at hrun
  cases hrun

/-- A main server of weight 2, then one of weight 1, and the first is removed. -/
theorem never_scheduled_removed :
    mainWeightAfter (fun _ => 0) [.addServer "a" ⟨1, 2, 0, -1⟩ 0, .addServer "b" ⟨1, 1, 0, -1⟩ 1,
        .removeServer "a" 0] = 1 ∧
      ¬ Scheduled (fun _ => 0) 30 [.addServer "a" ⟨1, 2, 0, -1⟩ 0, .addServer "b" ⟨1, 1, 0, -1⟩ 1,
        .removeServer "a" 0] :=
  ⟨by decide +kernel, never_scheduled 30 _ (by decide +kernel)⟩

/-- One main server of weight 1: the schedule has room for no node, and node 0 is written. -/
theorem one_main_undefined :
    mainWeightAfter (fun _ => 0) [.addServer "a" ⟨1, 1, 0, -1⟩ 0] = 1 ∧
      UPSVNSWRRPolicy.run (fun _ => 0) 30 [.addServer "a" ⟨1, 1, 0, -1⟩ 0] = none ∧
      ¬ Scheduled (fun _ => 0) 30 [.addServer "a" ⟨1, 1, 0, -1⟩ 0] := by
  have hrun : UPSVNSWRRPolicy.run (fun _ => 0) 30 [.addServer "a" ⟨1, 1, 0, -1⟩ 0] = none := by
    rw [← Option.isNone_iff_eq_none]
    decide +kernel
  refine ⟨by decide +kernel, hrun, ?_⟩
  rintro ⟨v, hsome, -⟩
  rw [hrun] at hsome
  cases hsome

end Workflow.Nameservice
