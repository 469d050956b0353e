/-
Module: Workflow.Proofs.UpstreamRegistration
Layer: Proofs
Purpose: Adding and removing servers of an upstream policy. Both keep the registered servers, their
  references, the breaker list, the groups and the weights together, and leave the other servers as
  they are.
Trusted boundary: none
Main exports: addServerLocked_spec, addServer_spec, Removed, removeServerLocked_spec
-/
import Workflow.Proofs.UpstreamBreaker

namespace Workflow.Nameservice

open Workflow.Lib

namespace Governance

variable {g g' : Governance} {reg : Finset Nat} {breaker : List Nat} {i : Nat}

/-- The breaker does not depend on where the servers are registered. -/
theorem BreakerInv.reregister (h : BreakerInv g reg breaker) (servers : List Nat)
    (serverMap : String → List Nat) :
    BreakerInv { g with servers := servers, serverMap := serverMap } reg breaker :=
  ⟨h.list, h.registered, h.fused, h.unlinked, h.old, h.unused, h.nalives, h.small⟩

/-- A new object changes nothing for the breaker. -/
theorem BreakerInv.alloc (h : BreakerInv g reg breaker) (a : EndpointAddress) :
    BreakerInv (g.alloc a) reg breaker := by
  have hne : ∀ j ∈ reg, j ≠ g.fresh := fun j hj heq => Nat.lt_irrefl _ (heq ▸ h.old j hj)
  refine ⟨h.list, h.registered, fun j hj => ?_, h.unlinked, fun j hj => ?_, fun j hj => ?_,
    h.nalives, h.small⟩
  · obtain ⟨b, hb, hiff⟩ := h.fused j hj
    exact ⟨b, by simp [Governance.alloc, hne j hj, hb], hiff⟩
  · exact Nat.lt_succ_of_lt (h.old j hj)
  · exact h.unused j (Nat.le_of_succ_le hj)

/-- A living server that is not registered becomes registered. -/
theorem BreakerInv.register {a : EndpointAddress} (h : BreakerInv g reg breaker) (hi : i ∉ reg)
    (ha : g.heap i = some a) (hfew : ¬ a.maxFails ≤ a.failCount) (hold : i < g.fresh)
    (hnext : g.links.next (.server i) = none) (hsmall : reg.card + 1 < 2 ^ 31) :
    BreakerInv g.recoverOneServer (insert i reg) breaker := by
  have hcard := Finset.card_insert_of_notMem hi
  refine ⟨h.list, fun j hj => Finset.mem_insert_of_mem (h.registered j hj), fun j hj => ?_,
    fun j hj hout => ?_, fun j hj => ?_, h.unused, ?_, by omega⟩
  · rcases Finset.mem_insert.mp hj with rfl | hj
    · exact ⟨a, ha, iff_of_false (mt (h.registered _) hi) hfew⟩
    · exact h.fused j hj
  · rcases Finset.mem_insert.mp hj with rfl | hj
    · exact hnext
    · exact h.unlinked j hj hout
  · rcases Finset.mem_insert.mp hj with rfl | hj
    · exact hold
    · exact h.old j hj
  · have hlen := h.length_le
    have hcount := h.nalives
    simp only [recoverOneServer]
    rw [int32_toInt_add_one] <;> omega

/-- A new object that nothing refers to yet. -/
theorem RefInv.alloc {out : Nat → Nat} (hinv : RefInv g out) (a : EndpointAddress) :
    RefInv (g.alloc a) out := by
  have hne : ∀ i, 0 < refs g.servers out i → i ≠ g.fresh := fun i hi heq =>
    Nat.lt_irrefl _ (heq ▸ hinv.old i hi)
  have hmem : ∀ i ∈ g.servers, i ≠ g.fresh := fun i hi => hne i (by rw [refs_of_mem hi]; omega)
  refine ⟨hinv.nodup, fun address => ?_, fun i hi => ?_, fun i hi => ?_⟩
  · exact hinv.serverMap_eq (fun i hi => by simp [addressOf, Governance.alloc, hmem i hi]) address
  · obtain ⟨b, hb, hr⟩ := hinv.counted i hi
    exact ⟨b, by simp [Governance.alloc, hne i hi, hb], hr⟩
  · exact Nat.lt_succ_of_lt (hinv.old i hi)

/-- The new object becomes registered under its address. -/
theorem RefInv.register {out : Nat → Nat} {a : EndpointAddress} (hinv : RefInv g out)
    (hi : i ∉ g.servers) (ha : g.heap i = some a) (hr : a.ref = 1) (hout : out i = 0)
    (hold : i < g.fresh) :
    RefInv { g with
      serverMap := Function.update g.serverMap a.address (g.serverMap a.address ++ [i])
      servers := g.servers ++ [i] } out := by
  have hne : ∀ j ∈ g.servers, j ≠ i := fun j hj heq => hi (heq ▸ hj)
  have hrefs : ∀ j, j ≠ i → refs (g.servers ++ [i]) out j = refs g.servers out j := by
    intro j hji
    simp [refs, hji]
  refine ⟨?_, fun address => ?_, fun j hj => ?_, fun j hj => ?_⟩
  · exact List.nodup_append.mpr ⟨hinv.nodup, by simp, by simpa using hne⟩
  · have hmap := hinv.map address
    simp only [addressOf] at hmap
    rcases eq_or_ne address a.address with rfl | hadd
    · simp [addressOf, hmap, ha]
    · simp [addressOf, hmap, ha, hadd, hadd.symm]
  · rcases eq_or_ne j i with rfl | hji
    · exact ⟨a, ha, by simp [refs, hr, hout]⟩
    · simp only [hrefs j hji] at hj ⊢
      exact hinv.counted j hj
  · rcases eq_or_ne j i with rfl | hji
    · exact hold
    · rw [hrefs j hji] at hj
      exact hinv.old j hj

/-! ### Removal, wherever the servers are registered -/

theorem retireServer_heap (h : g.retireServer i = some g') : g'.heap = g.heap := by
  obtain ⟨a, _, h⟩ := Option.bind_eq_some_iff.mp h
  split at h
  · cases h
    rfl
  · obtain ⟨links, _, h⟩ := Option.bind_eq_some_iff.mp h
    cases h
    rfl

theorem retireServer_servers (g : Governance) (servers : List Nat) (i : Nat) :
    { g with servers := servers }.retireServer i =
      (g.retireServer i).map fun g => { g with servers := servers } := by
  unfold retireServer removeServerFromBreaker
  cases g.heap i with
  | none => rfl
  | some a =>
      simp only [Option.bind_eq_bind, Option.bind_some]
      split
      · rfl
      · cases listDel g.links (.server i) <;> rfl

theorem unref_servers (g : Governance) (servers : List Nat) (i : Nat) :
    { g with servers := servers }.unref i =
      (g.unref i).map fun g => { g with servers := servers } := by
  unfold unref modify
  cases g.heap i with
  | none => rfl
  | some a =>
      simp only [Option.bind_eq_bind, Option.bind_some]
      split <;> rfl

theorem foldlM_servers {f : Governance → Nat → Option Governance} (servers : List Nat)
    (hf : ∀ g i, f { g with servers := servers } i = (f g i).map fun g => { g with servers := servers })
    (ids : List Nat) (h : ids.foldlM f g = some g') :
    ids.foldlM f { g with servers := servers } = some { g' with servers := servers } := by
  induction ids generalizing g with
  | nil =>
      cases h
      rfl
  | cons i ids ih =>
      rw [List.foldlM_cons] at h ⊢
      obtain ⟨g₁, hfirst, hrest⟩ := Option.bind_eq_some_iff.mp h
      rw [hf, hfirst]
      exact ih hrest

theorem unref_next (h : g.unref i = some g') {j : Nat} (hj : j ≠ i) :
    g'.links.next (.server j) = g.links.next (.server j) := by
  obtain ⟨a, ha, h⟩ := Option.bind_eq_some_iff.mp h
  split at h
  · cases h
    exact Links.setNext_next_of_ne _ _ fun heq => hj (Node.server.inj heq)
  · obtain ⟨b, _, rfl⟩ := modify_eq_some h
    rfl

theorem foldlM_unref_serverMap {ids : List Nat} (h : ids.foldlM unref g = some g') :
    g'.serverMap = g.serverMap := by
  induction ids generalizing g with
  | nil =>
      cases h
      rfl
  | cons i ids ih =>
      rw [List.foldlM_cons] at h
      obtain ⟨g₁, hfirst, hrest⟩ := Option.bind_eq_some_iff.mp h
      rw [ih hrest, (unref_frame hfirst).2.1]

theorem foldlM_unref_next {ids : List Nat} (h : ids.foldlM unref g = some g') {j : Nat}
    (hj : j ∉ ids) : g'.links.next (.server j) = g.links.next (.server j) := by
  induction ids generalizing g with
  | nil =>
      cases h
      rfl
  | cons i ids ih =>
      rw [List.foldlM_cons] at h
      obtain ⟨g₁, hfirst, hrest⟩ := Option.bind_eq_some_iff.mp h
      rw [List.mem_cons, not_or] at hj
      rw [ih hrest hj.2, unref_next hfirst hj.1]

/-- The links of servers that are not registered stay. -/
theorem retireServer_next (h : BreakerInv g reg breaker) (hi : i ∈ reg)
    (hretire : g.retireServer i = some g') {j : Nat} (hj : j ∉ reg) :
    g'.links.next (.server j) = g.links.next (.server j) := by
  obtain ⟨a, ha, hiff⟩ := h.fused i hi
  unfold retireServer removeServerFromBreaker at hretire
  simp only [ha, Option.bind_eq_bind, Option.bind_some] at hretire
  split at hretire
  · cases hretire
    rfl
  · rename_i hfused
    obtain ⟨before, after, rfl⟩ := List.append_of_mem (hiff.mpr (UInt32.not_lt.mp hfused))
    have hlist := h.list
    rw [List.map_append, List.map_cons] at hlist
    obtain ⟨links, hdel, -, hframe⟩ := listDel_isList hlist
    rw [hdel] at hretire
    cases hretire
    refine hframe _ fun hmem => hj (h.registered j ?_)
    simp only [List.mem_cons, reduceCtorEq, List.mem_append, server_mem_map, false_or] at hmem ⊢
    tauto

end Governance

namespace UPSGroupPolicy

variable {clean : Prop} {p p' : UPSGroupPolicy} {reg breaker : List Nat} {i : Nat}
  {living : Nat → Bool} {out : Nat → Nat}

/-! ### Adding a server -/

/-- Only the parameters of registered servers count. -/
theorem GroupInv.reparam (h : GroupInv clean p reg living) (hgroups : p'.groups = p.groups)
    (hstrategy : p'.strategy = p.strategy) (havailable : p'.availableWeight = p.availableWeight)
    (hparams : ∀ i ∈ reg, p'.params i = p.params i) : GroupInv clean p' reg living := by
  have hisMain : ∀ i ∈ reg, p'.isMain i = p.isMain i := fun i hi => by
    simp [isMain, hparams i hi]
  have hgroupId : ∀ i ∈ reg, p'.groupIdOf i = p.groupIdOf i := fun i hi => by
    simp [groupIdOf, hparams i hi]
  have hweight : ∀ i ∈ reg, p'.weight i = p.weight i := fun i hi => by
    simp [UPSGroupPolicy.weight, hparams i hi]
  refine ⟨fun id => ?_, fun id => ?_, fun id => ?_, fun id => ?_, fun hclean i hi => ?_,
    fun hclean hweighted => ?_⟩
  · rw [hgroups, List.filter_congr fun i hi => by rw [hisMain i hi, hgroupId i hi]]
    exact h.mains id
  · rw [hgroups, List.filter_congr fun i hi => by rw [hisMain i hi, hgroupId i hi]]
    exact h.backups id
  · rw [hgroups, h.nalives id, List.map_congr_left fun i hi => ?_]
    simp only [livingIn, hgroupId i hi]
  · rw [hgroups, h.weight id, List.map_congr_left fun i hi => ?_]
    simp only [weightIn, hisMain i hi, hgroupId i hi, hweight i hi]
  · rw [hisMain i hi, hgroupId i hi]
    exact h.ungrouped hclean i hi
  · rw [havailable, h.available hclean (hstrategy ▸ hweighted), List.map_congr_left fun i hi => ?_]
    simp only [livingWeight, hisMain i hi, hweight i hi]

/-- The groups do not depend on `total_weight`. -/
theorem GroupInv.withTotal (h : GroupInv clean p reg living) (total : Int32) :
    GroupInv clean { p with totalWeight := total } reg living :=
  ⟨h.mains, h.backups, h.nalives, h.weight, h.ungrouped, h.available⟩

theorem MainInv.reparam (p : UPSGroupPolicy) (hservers : p'.gov.servers = reg.filter p.isMain)
    (hparams : p'.params = p.params)
    (htotal : p'.strategy = .weightedRandom → p'.totalWeight = .ofNat (reg.map p.mainWeight).sum) :
    MainInv p' reg := by
  have hisMain : p'.isMain = p.isMain := by
    funext j
    simp [isMain, hparams]
  have hweight : p'.mainWeight = p.mainWeight := by
    funext j
    simp [mainWeight, weight, hisMain, hparams]
  exact ⟨hisMain ▸ hservers, hweight ▸ htotal⟩

/-- Entering a group changes the group and the hook's counts. -/
theorem entered_kept (p : UPSGroupPolicy) (i : Nat) :
    ((p.recoverOneServer i).enterGroup i).gov = p.gov.recoverOneServer ∧
      ((p.recoverOneServer i).enterGroup i).params = p.params ∧
      ((p.recoverOneServer i).enterGroup i).strategy = p.strategy ∧
      ((p.recoverOneServer i).enterGroup i).totalWeight = p.totalWeight := by
  rw [recoverOneServer_eq]
  exact ⟨rfl, rfl, rfl, rfl⟩

/-- A server object that is there is added to its group and to `total_weight`. -/
theorem addServerLocked_eq {a : EndpointAddress} (ha : p.gov.heap i = some a) :
    ∃ total, (p.strategy = .weightedRandom → total = p.totalWeight + .ofNat (p.mainWeight i)) ∧
      p.addServerLocked i = some
        { (({ p with gov := { p.gov with
              serverMap := Function.update p.gov.serverMap a.address
                (p.gov.serverMap a.address ++ [i])
              servers := if p.isMain i then p.gov.servers ++ [i] else p.gov.servers } }
            ).recoverOneServer i).enterGroup i with totalWeight := total } := by
  have hzero : Int32.ofNat 0 = 0 := rfl
  unfold addServerLocked addToGroup
  simp only [ha, Option.bind_eq_bind, Option.bind_some, Option.pure_def]
  generalize hq : UPSGroupPolicy.mk _ _ _ _ _ _ = q
  obtain ⟨-, hparams, hstrategy, htotal⟩ := entered_kept q i
  generalize (q.recoverOneServer i).enterGroup i = r at *
  obtain ⟨gov, params, groups, strategy, total, available⟩ := r
  subst hq hparams hstrategy htotal
  cases hweighted : p.strategy with
  | weightedRandom =>
      refine ⟨p.totalWeight + .ofNat (p.mainWeight i), fun _ => rfl, ?_⟩
      cases hmain : p.isMain i with
      | true =>
          have hnew : (p.params i).serverType = 0 := of_decide_eq_true hmain
          simp [mainWeight, isMain, weightOf, weight, hnew]
      | false =>
          have hnew : ¬ (p.params i).serverType = 0 := of_decide_eq_false hmain
          simp [mainWeight, isMain, hnew, hzero]
  | consistentHash route => exact ⟨p.totalWeight, fun h => by simp at h, rfl⟩
  | manual manualSelect tryAnotherSelect => exact ⟨p.totalWeight, fun h => by simp at h, rfl⟩

/-- A new object without registration. -/
theorem PolicyInv.alloc (h : PolicyInv clean p reg breaker) (stdHash : String → UInt64)
    (address : String) (params : AddressParams) :
    PolicyInv clean (p.alloc stdHash address params) reg breaker := by
  have hne : ∀ j ∈ reg, j ≠ p.gov.fresh := fun j hj heq =>
    Nat.lt_irrefl _ (heq ▸ h.breaker.old j (List.mem_toFinset.mpr hj))
  have hparams : ∀ j ∈ reg, (p.alloc stdHash address params).params j = p.params j := fun j hj => by
    simp [UPSGroupPolicy.alloc, hne j hj]
  refine ⟨h.nodup, h.breaker.alloc _, ?_, ?_, fun hweighted => ?_⟩
  · have hmoved : GroupInv clean (p.alloc stdHash address params) reg p.gov.living :=
      h.groups.reparam rfl rfl rfl hparams
    refine hmoved.congr fun j hj => ?_
    simp [UPSGroupPolicy.alloc, Governance.alloc, Governance.living, hne j hj]
  · exact h.main.servers.trans (List.filter_congr fun j hj => by simp [isMain, hparams j hj])
  · refine (h.main.total hweighted).trans ?_
    rw [List.map_congr_left fun j hj => ?_]
    simp [mainWeight, isMain, weight, hparams j hj]

/-- A server object with no failures and no reference yet is registered. -/
theorem addServerLocked_spec {a : EndpointAddress} (h : PolicyInv clean p reg breaker)
    (hi : i ∉ reg) (ha : p.gov.heap i = some a) (hfew : a.failCount = 0) (hold : i < p.gov.fresh)
    (hnext : p.gov.links.next (.server i) = none) (hsmall : reg.length + 1 < 2 ^ 31)
    (hfree : clean → p.isMain i → p.groupIdOf i < 0) :
    ∃ p', p.addServerLocked i = some p' ∧ PolicyInv clean p' (reg ++ [i]) breaker ∧
      p'.params = p.params ∧ p'.strategy = p.strategy ∧
      p'.gov = { p.gov with
        serverMap := Function.update p.gov.serverMap a.address (p.gov.serverMap a.address ++ [i])
        servers := if p.isMain i then p.gov.servers ++ [i] else p.gov.servers }.recoverOneServer := by
  obtain ⟨total, htotal, hadd⟩ := addServerLocked_eq ha
  obtain ⟨g, hg⟩ : ∃ g, g = { p.gov with
      serverMap := Function.update p.gov.serverMap a.address (p.gov.serverMap a.address ++ [i])
      servers := if p.isMain i then p.gov.servers ++ [i] else p.gov.servers } := ⟨_, rfl⟩
  rw [← hg] at hadd ⊢
  obtain ⟨hgov, hparams, hstrategy, -⟩ := entered_kept { p with gov := g } i
  have hentered := (h.groups.withGov g).enter hi hfree
  have hliving : ∀ j, g.recoverOneServer.living j = Function.update p.gov.living i true j := by
    intro j
    rcases eq_or_ne j i with rfl | hne
    · simp [hg, Governance.recoverOneServer, Governance.living, ha, hfew, a.maxFails_pos]
    · simp [hg, Governance.recoverOneServer, Governance.living, hne]
  refine ⟨_, hadd, ⟨?_, ?_, ?_, ?_⟩, hparams, hstrategy, hgov⟩
  · exact List.nodup_append.mpr ⟨h.nodup, by simp, by
      rintro j hj k hk rfl
      exact hi (List.mem_singleton.mp hk ▸ hj)⟩
  · have hbreaker := (h.breaker.reregister g.servers g.serverMap).register
      (mt List.mem_toFinset.mp hi) ha (by simp [hfew, UInt32.not_le.mpr a.maxFails_pos]) hold hnext
      (by rwa [List.toFinset_card_of_nodup h.nodup])
    have hreg : (reg ++ [i]).toFinset = insert i reg.toFinset := by
      ext j
      simp
    rw [hreg]
    simp only [hgov]
    rw [hg] at hbreaker ⊢
    exact hbreaker
  · refine (hentered.withTotal total).congr fun j _ => ?_
    simp only [hgov]
    exact hliving j
  · refine .reparam p ?_ hparams fun hweighted => ?_
    · simp only [hgov]
      rw [hg, List.filter_append, ← h.main.servers]
      cases hmain : p.isMain i <;> simp [Governance.recoverOneServer, hmain]
    · have hold := h.main.total (hstrategy.symm.trans hweighted)
      simp only [htotal (hstrategy.symm.trans hweighted), hold, List.map_append, List.sum_append,
        Int32.ofNat_add, List.map_cons, List.map_nil, List.sum_cons, List.sum_nil, Nat.add_zero]

section Add

variable (stdHash : String → UInt64) (address : String) (params : AddressParams)

theorem addServer_spec (h : PolicyInv clean p reg breaker)
    (href : { p.gov with servers := reg }.RefInv out) (hsmall : reg.length + 1 < 2 ^ 31)
    (hfree : clean → (UPSAddrParams.new stdHash params address).serverType = 0 →
      (UPSAddrParams.new stdHash params address).groupId < 0) :
    ∃ p', p.addServer stdHash address params = some p' ∧
      PolicyInv clean p' (reg ++ [p.gov.fresh]) breaker ∧
      { p'.gov with servers := reg ++ [p.gov.fresh] }.RefInv out ∧
      p'.params = Function.update p.params p.gov.fresh (.new stdHash params address) ∧
      p'.strategy = p.strategy := by
  have hnew : p.gov.fresh ∉ reg := fun hin =>
    Nat.lt_irrefl _ (h.breaker.old _ (List.mem_toFinset.mpr hin))
  have hnone : out p.gov.fresh = 0 := by
    by_contra hpos
    exact Nat.lt_irrefl _ (href.old p.gov.fresh (by unfold Governance.refs; omega))
  obtain ⟨p', hadd, h', hparams, hstrategy, hgov⟩ := addServerLocked_spec
    (h.alloc stdHash address params) hnew
    (Function.update_self ..) rfl (Nat.lt_succ_self _) (h.breaker.unused _ le_rfl) hsmall (by
      simpa [alloc, isMain, groupIdOf] using hfree)
  refine ⟨p', hadd, h', ?_, hparams, hstrategy⟩
  have hreg := (href.alloc (.new address params.maxFails)).register (i := p.gov.fresh) hnew
    (Function.update_self ..) rfl hnone (Nat.lt_succ_self _)
  refine Governance.RefInv.sameRefs ?_ hreg
  rw [hgov]
  exact ⟨rfl, rfl, rfl, fun _ => rfl⟩

end Add

/-! ### Removing servers -/

theorem toFinset_erase (h : reg.Nodup) (i : Nat) :
    (reg.erase i).toFinset = reg.toFinset.erase i := by
  ext j
  simp [h.mem_erase_iff]

/-- A registered server leaves its group, the count of living servers or the breaker. -/
theorem retireServer_spec (hnodup : reg.Nodup) (hbreaker : p.gov.BreakerInv reg.toFinset breaker)
    (hgroups : p.GroupInv clean reg p.gov.living) (hi : i ∈ reg) :
    ∃ p' breaker', p.retireServer i = some p' ∧ p.gov.retireServer i = some p'.gov ∧
      p'.gov.BreakerInv (reg.erase i).toFinset breaker' ∧
      p'.GroupInv clean (reg.erase i) p'.gov.living ∧ Kept p p' := by
  have hreg := List.mem_toFinset.mpr hi
  obtain ⟨a, ha, _⟩ := hbreaker.fused i hreg
  obtain ⟨g, breaker', hretire, hbreaker'⟩ := Governance.retireServer_spec hbreaker hreg
  have hheap := Governance.retireServer_heap hretire
  have hhook : (if a.failCount < a.maxFails then p.fuseOneServer i else p) = p.hook i false := by
    by_cases hlive : a.failCount < a.maxFails <;>
      simp [UPSGroupPolicy.hook, Governance.living, ha, hlive]
  obtain ⟨hparams, hstrategy, htotal⟩ := p.hook_kept i false
  refine ⟨{ p.hook i false with gov := g }.leaveGroup i, breaker', ?_, hretire, ?_, ?_,
    ⟨Governance.retireServer_sameRefs hretire, hparams, hstrategy, htotal⟩⟩
  · rw [retireServer_eq p ha, hretire, Option.map_some, hhook]
  · rw [toFinset_erase hnodup]
    exact hbreaker'
  · have hleft := ((hgroups.hook hnodup hi false).withGov g).leave hi (Function.update_self ..)
    refine hleft.congr fun j hj => ?_
    have hne : j ≠ i := (hnodup.mem_erase_iff.mp hj).1
    rw [Function.update_of_ne hne]
    exact congrArg (fun o => Option.any _ o) (congrFun hheap j)

theorem foldlM_retireServer_spec {ids : List Nat} (hids : ∀ i ∈ ids, i ∈ reg) (hdistinct : ids.Nodup)
    (hnodup : reg.Nodup) (hbreaker : p.gov.BreakerInv reg.toFinset breaker)
    (hgroups : p.GroupInv clean reg p.gov.living) :
    ∃ p' breaker', ids.foldlM retireServer p = some p' ∧
      ids.foldlM Governance.retireServer p.gov = some p'.gov ∧
      p'.gov.BreakerInv (reg.diff ids).toFinset breaker' ∧
      p'.GroupInv clean (reg.diff ids) p'.gov.living ∧ Kept p p' ∧ p'.gov.heap = p.gov.heap ∧
      ∀ j ∉ reg, p'.gov.links.next (.server j) = p.gov.links.next (.server j) := by
  induction ids generalizing p reg breaker with
  | nil => exact ⟨p, breaker, rfl, rfl, hbreaker, hgroups, .refl p, rfl, fun _ _ => rfl⟩
  | cons i ids ih =>
      obtain ⟨hi, hdistinct⟩ := List.nodup_cons.mp hdistinct
      have hmem := hids i List.mem_cons_self
      obtain ⟨p₁, breaker₁, hfirst, hgov₁, hbreaker₁, hgroups₁, hkept₁⟩ :=
        retireServer_spec hnodup hbreaker hgroups hmem
      have hids' : ∀ j ∈ ids, j ∈ reg.erase i := fun j hj =>
        hnodup.mem_erase_iff.mpr ⟨fun heq => hi (heq ▸ hj), hids j (List.mem_cons_of_mem i hj)⟩
      obtain ⟨p', breaker', hrest, hgov, hbreaker', hgroups', hkept, hheap, hnext⟩ :=
        ih hids' hdistinct (hnodup.erase i) hbreaker₁ hgroups₁
      rw [List.diff_cons]
      refine ⟨p', breaker', ?_, ?_, hbreaker', hgroups', hkept₁.trans hkept, ?_, fun j hj => ?_⟩
      · rw [List.foldlM_cons, hfirst]
        exact hrest
      · rw [List.foldlM_cons, hgov₁]
        exact hgov
      · rw [hheap, Governance.retireServer_heap hgov₁]
      · rw [hnext j fun hin => hj (List.mem_of_mem_erase hin),
          Governance.retireServer_next hbreaker (List.mem_toFinset.mpr hmem) hgov₁
            (mt List.mem_toFinset.mp hj)]

/-- What is left after the servers with `address` were removed. -/
structure Removed (p p' : UPSGroupPolicy) (address : String) (reg : List Nat) : Prop where
  params : p'.params = p.params
  strategy : p'.strategy = p.strategy
  fresh : p'.gov.fresh = p.gov.fresh
  serverMap : p'.gov.serverMap = Function.update p.gov.serverMap address []
  servers : p'.gov.servers = p.gov.servers.filter fun i => ¬ p.gov.addressOf i = some address
  heap : ∀ j ∉ p.gov.serverMap address, p'.gov.heap j = p.gov.heap j
  next : ∀ j ∉ reg, p'.gov.links.next (.server j) = p.gov.links.next (.server j)

/-- The registered servers without those of an address. -/
def others (p : UPSGroupPolicy) (reg : List Nat) (address : String) : List Nat :=
  reg.filter fun i => ¬ p.gov.addressOf i = some address

theorem removeFromGroups_spec (address : String) (hbreaker : p.gov.BreakerInv reg.toFinset breaker)
    (hgroups : p.GroupInv clean reg p.gov.living) (hservers : p.gov.servers = reg.filter p.isMain)
    (htotal : p.strategy = .weightedRandom →
      p.totalWeight = .ofNat ((p.others reg address).map p.mainWeight).sum)
    (href : { p.gov with servers := reg }.RefInv out) :
    ∃ p' breaker', p.removeFromGroups address =
        some (p', .ofNat (p.gov.servers.length - p'.gov.servers.length)) ∧
      PolicyInv clean p' (p.others reg address) breaker' ∧
      { p'.gov with servers := p.others reg address }.RefInv out ∧ Removed p p' address reg := by
  have hnodup : reg.Nodup := href.nodup
  have hmem : ∀ i, i ∈ p.gov.serverMap address ↔ i ∈ reg ∧ p.gov.addressOf i = some address :=
    fun i => href.mem_serverMap
  have hdistinct : (p.gov.serverMap address).Nodup := by
    rw [show p.gov.serverMap address = _ from href.map address]
    exact hnodup.filter _
  have hdiff : reg.diff (p.gov.serverMap address) = p.others reg address := by
    rw [hnodup.sdiff_eq_filter]
    refine List.filter_congr fun i hi => ?_
    simp [hmem, hi]
  obtain ⟨p₁, breaker', hretire, hgov, hbreaker₁, hgroups₁, hkept, hheap, hnext⟩ :=
    foldlM_retireServer_spec (fun i hi => ((hmem i).mp hi).1) hdistinct hnodup hbreaker hgroups
  rw [hdiff] at hbreaker₁ hgroups₁
  have haddress : ∀ i, p₁.gov.addressOf i = p.gov.addressOf i := hkept.refs.addressOf
  have halive : ∀ i ∈ reg, ∃ a, p₁.gov.heap i = some a := fun i hi => by
    obtain ⟨a, ha, _⟩ := hbreaker.fused i (List.mem_toFinset.mpr hi)
    exact ⟨a, hheap ▸ ha⟩
  have hservers₁ : p₁.gov.servers = reg.filter p.isMain := hkept.refs.servers.trans hservers
  -- the main servers that stay, and in the governance of all servers those that stay
  obtain ⟨kept, hkeep⟩ := Governance.keepOthers_isSome address fun i (hi : i ∈ p₁.gov.servers) =>
    halive i (List.mem_of_mem_filter (hservers₁ ▸ hi))
  obtain ⟨all, hall⟩ := Governance.keepOthers_isSome (g := { p₁.gov with servers := reg }) address
    halive
  have hkeptEq := Governance.keepOthers_eq hkeep
  have hallEq : all = p.others reg address := by
    rw [Governance.keepOthers_eq hall]
    exact List.filter_congr fun i _ => by rw [← haddress i]; rfl
  have hcounted : Governance.Counted { p₁.gov with
      serverMap := Function.update p₁.gov.serverMap address [], servers := kept }
      (Governance.refs reg out) := hkept.refs.counted href.counted
  have hpos : ∀ i ∈ p.gov.serverMap address, 0 < Governance.refs reg out i := fun i hi => by
    rw [Governance.refs_of_mem ((hmem i).mp hi).1]
    omega
  have hgone : ∀ i ∈ p.gov.serverMap address, i ∉ (p.others reg address).toFinset := by
    intro i hi hin
    have hother := List.mem_filter.mp (List.mem_toFinset.mp hin)
    simp [((hmem i).mp hi).2] at hother
  obtain ⟨g, hunref, hbreaker₂⟩ := Governance.foldlM_unref_spec hdistinct hpos hcounted hgone
    (hbreaker₁.reregister _ _)
  obtain ⟨-, hservers', hmap', hfresh', hheap'⟩ :=
    Governance.foldlM_unref hdistinct hpos hcounted hunref
  simp only at hservers' hmap' hfresh'
  have hremoved : { p.gov with servers := reg }.removeServerLocked address =
      some { g with servers := p.others reg address } := by
    unfold Governance.removeServerLocked
    simp only [Governance.foldlM_servers reg (fun g i => Governance.retireServer_servers g reg i)
      _ hgov, Option.bind_eq_bind, Option.bind_some, hall]
    rw [← hallEq]
    exact Governance.foldlM_servers all (fun g i => Governance.unref_servers g all i) _ hunref
  have hstay : ∀ j ∈ p.others reg address, j ∉ p.gov.serverMap address := fun j hj hin =>
    hgone j hin (List.mem_toFinset.mpr hj)
  have hkeptMain : kept = (p.others reg address).filter p.isMain := by
    rw [hkeptEq, hservers₁, others, List.filter_filter, List.filter_filter]
    exact List.filter_congr fun i _ => by rw [haddress i, Bool.and_comm]
  refine ⟨{ p₁ with gov := g }, breaker', ?_, ⟨hnodup.filter _, hbreaker₂, ?_, ?_⟩,
    href.removeServerLocked hremoved, ⟨hkept.params, hkept.strategy, hfresh'.trans hkept.refs.fresh,
      by rw [hmap', hkept.refs.serverMap], ?_, fun j hj => ?_, fun j hj => ?_⟩⟩
  · unfold removeFromGroups
    simp only [hretire, hkeep, Option.bind_eq_bind, Option.bind_some]
    rw [show List.foldlM Governance.unref _ _ = some g from hunref, Option.bind_some, hservers',
      hkept.refs.servers]
    rfl
  · refine (hgroups₁.withGov g).congr fun j hj => ?_
    exact congrArg (fun o => Option.any _ o) (hheap' j (hstay j hj))
  · refine .reparam p (hservers'.trans hkeptMain) hkept.params fun hweighted => ?_
    exact hkept.totalWeight.trans (htotal (hkept.strategy.symm.trans hweighted))
  · rw [hservers', hkeptEq, hkept.refs.servers]
    exact List.filter_congr fun i _ => by rw [haddress i]
  · exact (hheap' j hj).trans (congrFun hheap j)
  · rw [Governance.foldlM_unref_next hunref fun hin => hj ((hmem j).mp hin).1]
    exact hnext j hj

/-- `UPSWeightedRandomPolicy` first takes the weights of the servers from the total. -/
theorem foldlM_dropWeight {ids : List Nat} (h : ∀ i ∈ ids, ∃ a, p.gov.heap i = some a) :
    ids.foldlM dropWeight p =
      some { p with totalWeight := p.totalWeight - .ofNat (ids.map p.mainWeight).sum } := by
  have hzero : Int32.ofNat 0 = 0 := rfl
  induction ids generalizing p with
  | nil => simp [hzero]
  | cons i ids ih =>
      obtain ⟨a, ha⟩ := h i List.mem_cons_self
      have hdrop : p.dropWeight i =
          some { p with totalWeight := p.totalWeight - .ofNat (p.mainWeight i) } := by
        unfold dropWeight
        cases hmain : p.isMain i <;> simp [ha, mainWeight, weightOf, weight, hmain, hzero]
      have hrest := ih (p := { p with totalWeight := p.totalWeight - .ofNat (p.mainWeight i) })
        fun j hj => h j (List.mem_cons_of_mem i hj)
      rw [List.foldlM_cons, hdrop]
      refine hrest.trans ?_
      rw [List.map_cons, List.sum_cons, Int32.ofNat_add, ← Int32.sub_sub]
      rfl

/-- `remove_server(address)`: the servers with other addresses stay as they are. -/
theorem removeServerLocked_spec (address : String) (h : PolicyInv clean p reg breaker)
    (href : { p.gov with servers := reg }.RefInv out) :
    ∃ p' breaker', p.removeServerLocked address =
        some (p', .ofNat (p.gov.servers.length - p'.gov.servers.length)) ∧
      PolicyInv clean p' (p.others reg address) breaker' ∧
      { p'.gov with servers := p.others reg address }.RefInv out ∧ Removed p p' address reg := by
  have hmap : p.gov.serverMap address = reg.filter fun i => p.gov.addressOf i = some address :=
    href.map address
  have halive : ∀ i ∈ p.gov.serverMap address, ∃ a, p.gov.heap i = some a := fun i hi => by
    rw [hmap] at hi
    exact (h.breaker.fused i (List.mem_toFinset.mpr (List.mem_of_mem_filter hi))).imp
      fun _ ha => ha.1
  have hsum : (reg.map p.mainWeight).sum = ((p.others reg address).map p.mainWeight).sum +
      ((p.gov.serverMap address).map p.mainWeight).sum := by
    have hperm := List.filter_append_perm (fun i => decide (p.gov.addressOf i = some address)) reg
    rw [← (hperm.map p.mainWeight).sum_eq, List.map_append, List.sum_append, hmap, others,
      Nat.add_comm]
    simp only [decide_not]
  cases hstrategy : p.strategy with
  | weightedRandom =>
      have hdrop := foldlM_dropWeight halive
      rw [h.main.total hstrategy, hsum, Int32.ofNat_add, Int32.add_sub_cancel] at hdrop
      obtain ⟨total, htotal⟩ : ∃ total, total =
          Int32.ofNat ((p.others reg address).map p.mainWeight).sum := ⟨_, rfl⟩
      rw [← htotal] at hdrop
      obtain ⟨p', breaker', hremove, h', href', hremoved⟩ := removeFromGroups_spec
        (p := { p with totalWeight := total }) address h.breaker (h.groups.withTotal _)
        h.main.servers (fun _ => htotal) href
      refine ⟨p', breaker', ?_, h', href', ⟨hremoved.params, hremoved.strategy, hremoved.fresh,
        hremoved.serverMap, hremoved.servers, hremoved.heap, hremoved.next⟩⟩
      unfold removeServerLocked
      simp only [hstrategy, hdrop, Option.bind_eq_bind, Option.bind_some]
      rw [hstrategy] at hremove
      exact hremove
  | _ =>
      have hother : p.strategy ≠ .weightedRandom := by simp [hstrategy]
      obtain ⟨p', breaker', hremove, hrest⟩ := removeFromGroups_spec address h.breaker h.groups
        h.main.servers (fun hweighted => absurd hweighted hother) href
      refine ⟨p', breaker', ?_, hrest⟩
      unfold removeServerLocked
      simp only [hstrategy]
      exact hremove

/-! ### Replacing servers -/

/-- What there is after `replace_server(address, params)`. -/
structure Replaced (stdHash : String → UInt64) (p p' : UPSGroupPolicy) (address : String)
    (given : AddressParams) : Prop where
  heap : p'.gov.heap p.gov.fresh = some (.new address given.maxFails)
  params : p'.params = Function.update p.params p.gov.fresh (.new stdHash given address)
  strategy : p'.strategy = p.strategy
  serverMap : p'.gov.serverMap = Function.update p.gov.serverMap address [p.gov.fresh]
  servers : p'.gov.servers = (p.gov.servers.filter fun i => ¬ p.gov.addressOf i = some address) ++
    if (UPSAddrParams.new stdHash given address).serverType = 0 then [p.gov.fresh] else []
  others : ∀ j, j ≠ p.gov.fresh → j ∉ p.gov.serverMap address → p'.gov.heap j = p.gov.heap j

section Replace

variable (stdHash : String → UInt64) (address : String) (params : AddressParams)

theorem replaceServer_spec (h : PolicyInv clean p reg breaker)
    (href : { p.gov with servers := reg }.RefInv out) (hsmall : reg.length + 1 < 2 ^ 31)
    (hfree : clean → (UPSAddrParams.new stdHash params address).serverType = 0 →
      (UPSAddrParams.new stdHash params address).groupId < 0) :
    ∃ p' breaker', p.replaceServer stdHash address params = some (p', .ofNat
        (p.gov.servers.filter fun i => p.gov.addressOf i = some address).length) ∧
      PolicyInv clean p' (p.others reg address ++ [p.gov.fresh]) breaker' ∧
      { p'.gov with servers := p.others reg address ++ [p.gov.fresh] }.RefInv out ∧
      Replaced stdHash p p' address params := by
  have hnew : p.gov.fresh ∉ reg := fun hin =>
    Nat.lt_irrefl _ (h.breaker.old _ (List.mem_toFinset.mpr hin))
  have hnone : out p.gov.fresh = 0 := by
    by_contra hpos
    exact Nat.lt_irrefl _ (href.old p.gov.fresh (by unfold Governance.refs; omega))
  have hnotIn : p.gov.fresh ∉ p.gov.serverMap address := fun hin =>
    hnew (href.mem_serverMap.mp hin).1
  have haddress : ∀ j, j ≠ p.gov.fresh →
      (p.alloc stdHash address params).gov.addressOf j = p.gov.addressOf j := fun j hne => by
    simp [alloc, Governance.alloc, Governance.addressOf, hne]
  have hothers : (p.alloc stdHash address params).others reg address = p.others reg address :=
    List.filter_congr fun j hj => by rw [haddress j fun heq => hnew (heq ▸ hj)]
  have hrefNew : { (p.alloc stdHash address params).gov with servers := reg }.RefInv out :=
    href.alloc (.new address params.maxFails)
  obtain ⟨p₁, breaker', hremove, h₁, href₁, hremoved⟩ := removeServerLocked_spec address
    (h.alloc stdHash address params) hrefNew
  rw [hothers] at h₁ href₁
  have hheap : p₁.gov.heap p.gov.fresh = some (.new address params.maxFails) :=
    (hremoved.heap _ hnotIn).trans (Function.update_self ..)
  have hparam : p₁.params p.gov.fresh = .new stdHash params address := by
    rw [hremoved.params]
    exact Function.update_self ..
  have hout : p.gov.fresh ∉ p.others reg address := fun hin => hnew (List.mem_of_mem_filter hin)
  have hlen : (p.others reg address).length ≤ reg.length := List.length_filter_le ..
  have hold : p.gov.fresh < p₁.gov.fresh := by
    rw [hremoved.fresh]
    exact Nat.lt_succ_self _
  have hnext : p₁.gov.links.next (.server p.gov.fresh) = none :=
    (hremoved.next _ hnew).trans (h.breaker.unused _ le_rfl)
  have hfree₁ : clean → p₁.isMain p.gov.fresh → p₁.groupIdOf p.gov.fresh < 0 := by
    simpa [isMain, groupIdOf, hparam] using hfree
  obtain ⟨p', hadd, h', hparams', hstrategy', hgov⟩ := addServerLocked_spec h₁ hout hheap rfl hold hnext
    (by omega) hfree₁
  have hservers₁ : p₁.gov.servers = p.gov.servers.filter fun i => ¬ p.gov.addressOf i = some address := by
    rw [hremoved.servers]
    refine List.filter_congr fun j hj => ?_
    have hmem : j ∈ reg := List.mem_of_mem_filter (h.main.servers ▸ hj)
    rw [haddress j fun heq => hnew (heq ▸ hmem)]
  have hret : p.gov.servers.length - p₁.gov.servers.length =
      (p.gov.servers.filter fun i => p.gov.addressOf i = some address).length := by
    have hsplit := p.gov.servers.length_eq_length_filter_add
      fun i => decide (p.gov.addressOf i = some address)
    rw [hservers₁]
    simp only [decide_not]
    omega
  refine ⟨p', breaker', ?_, h', ?_, ⟨?_, ?_, hstrategy'.trans hremoved.strategy, ?_, ?_,
    fun j hne hj => ?_⟩⟩
  · unfold replaceServer
    simp only [hremove, Option.bind_eq_bind, Option.bind_some, hadd, Option.pure_def]
    rw [← hret]
    rfl
  · have hreg := href₁.register hout hheap rfl hnone hold
    refine Governance.RefInv.sameRefs ?_ hreg
    rw [hgov]
    exact ⟨rfl, rfl, rfl, fun _ => rfl⟩
  · rw [hgov]
    exact hheap
  · rw [hparams', hremoved.params]
    rfl
  · rw [hgov]
    show Function.update p₁.gov.serverMap address (p₁.gov.serverMap address ++ [p.gov.fresh]) = _
    rw [hremoved.serverMap]
    simp [alloc, Governance.alloc]
  · rw [hgov]
    show (if p₁.isMain p.gov.fresh then p₁.gov.servers ++ [p.gov.fresh] else p₁.gov.servers) = _
    rw [hservers₁, isMain, hparam]
    by_cases hmain : (UPSAddrParams.new stdHash params address).serverType = 0 <;> simp [hmain]
  · rw [hgov]
    refine (hremoved.heap j hj).trans ?_
    simp [alloc, Governance.alloc, hne]

end Replace

end UPSGroupPolicy

end Workflow.Nameservice
