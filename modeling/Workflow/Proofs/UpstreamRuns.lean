/-
Module: Workflow.Proofs.UpstreamRuns
Layer: Proofs
Purpose: Whole runs of an upstream policy. In every run in which no operation brings a removed
  server back into the breaker, the registered servers, their references, the breaker list, the
  groups and the weights fit together in every state.
Trusted boundary: none
Main exports: Governance.registered, StepOk, Inv, exec_inv, reachable_inv
-/
import Workflow.Proofs.UpstreamRegistration
import Workflow.Proofs.UpstreamSelect

namespace Workflow.Nameservice

open Workflow.Lib

namespace Governance

variable {g g' : Governance} {breaker : List Nat} {i : Nat}

/-- The registered servers, oldest first. -/
def registered (g : Governance) : List Nat :=
  (List.range g.fresh).filter fun i => (g.addressOf i).any fun address => i ∈ g.serverMap address

/-- The registered servers are those that registrations and references are about. -/
theorem RefInv.registered_perm {out : Nat → Nat} {reg : List Nat}
    (h : { g with servers := reg }.RefInv out) : reg.Perm g.registered := by
  refine (List.perm_ext_iff_of_nodup h.nodup (List.nodup_range.filter _)).mpr fun i => ?_
  simp only [List.mem_filter, List.mem_range, Option.any_eq_true, decide_eq_true_eq]
  constructor
  · intro hi
    obtain ⟨a, ha, _⟩ := h.heap_of_mem hi
    have haddress : g.addressOf i = some a.address := by
      rw [addressOf, show g.heap i = some a from ha, Option.map_some]
    exact ⟨h.old i (by rw [refs_of_mem hi]; omega), a.address, haddress,
      h.mem_serverMap.mpr ⟨hi, haddress⟩⟩
  · rintro ⟨_, address, _, hmem⟩
    exact (h.mem_serverMap.mp hmem).1

/-! ### Operations that do not depend on where the servers are registered -/

theorem fuseServerToBreaker_servers (now : Int) (g : Governance) (servers : List Nat) (i : Nat) :
    fuseServerToBreaker now { g with servers := servers } i =
      (fuseServerToBreaker now g i).map fun g => { g with servers := servers } := by
  unfold fuseServerToBreaker modify
  cases (g.links.next (.server i)).isNone with
  | true =>
      cases g.heap i with
      | none => rfl
      | some a =>
          simp only [Option.map_some, Option.bind_eq_bind, Option.bind_some, put_links]
          cases listAddTail g.links (.server i) .head <;> rfl
  | false => rfl

theorem failed_servers (now : Int) (g : Governance) (servers : List Nat) (i : Nat) :
    failed now { g with servers := servers } i =
      (failed now g i).map fun g => { g with servers := servers } := by
  unfold failed
  cases ha : g.heap i with
  | none => rfl
  | some a =>
      simp only [Option.bind_eq_bind, Option.bind_some]
      split
      · rfl
      · rw [modify_of_heap (g := { g with servers := servers }) ha, modify_of_heap ha]
        simp only [Option.bind_some]
        split
        · exact fuseServerToBreaker_servers now
            (g.put i { a with ref := a.ref - 1, failCount := a.failCount + 1 }) servers i
        · rfl

theorem FailedOk.reregister {servers servers' : List Nat} (hmem : i ∈ servers ↔ i ∈ servers')
    (h : { g with servers := servers }.FailedOk i) : { g with servers := servers' }.FailedOk i := by
  unfold FailedOk at h ⊢
  simp only [← hmem]
  exact h

end Governance

namespace UPSGroupPolicy

variable {clean : Prop} {p p' : UPSGroupPolicy} {reg breaker : List Nat} {i : Nat}
  {out : Nat → Nat}

/-- A change of the governance that leaves the living servers alone. -/
theorem PolicyInv.withGov (h : PolicyInv clean p reg breaker) {g : Governance}
    {breaker' : List Nat} (hbreaker : g.BreakerInv reg.toFinset breaker')
    (hliving : ∀ j ∈ reg, g.living j = p.gov.living j) (hservers : g.servers = p.gov.servers) :
    PolicyInv clean { p with gov := g } reg breaker' :=
  ⟨h.nodup, hbreaker, (h.groups.withGov g).congr hliving, hservers.trans h.main.servers,
    h.main.total⟩

/-! ### The end of a selection -/

/-- Taking back a reference does not change who lives. -/
theorem unref_living {g g' : Governance} (h : g.unref i = some g')
    (hlast : i ∈ reg → ∃ a, g'.heap i = some a) {j : Nat} (hj : j ∈ reg) :
    g'.living j = g.living j := by
  rcases eq_or_ne j i with rfl | hne
  · obtain ⟨a, ha, _⟩ := Option.bind_eq_some_iff.mp h
    rw [Governance.unref_of_heap ha] at h
    obtain rfl := Option.some.inj h
    obtain ⟨b, hb⟩ := hlast hj
    split at hb
    · simp [Governance.delete] at hb
    · rename_i hmore
      simp [hmore, Governance.living, ha]
  · obtain ⟨-, -, -, hheap⟩ := Governance.unref_frame h
    simp [Governance.living, hheap j hne]

theorem Kept.refInv (hk : Kept p p') (href : { p.gov with servers := reg }.RefInv out) :
    { p'.gov with servers := reg }.RefInv out := by
  refine Governance.RefInv.sameRefs ?_ href
  exact ⟨rfl, hk.refs.serverMap, hk.refs.fresh, hk.refs.heap⟩

/-- A server that is not registered and not linked only loses its failures. -/
theorem recoverServerFromBreaker_unlinked (h : PolicyInv clean p reg breaker) (hi : i ∉ reg)
    {a : EndpointAddress} (ha : p.gov.heap i = some a)
    (hnext : p.gov.links.next (.server i) = none) :
    ∃ p', p.recoverServerFromBreaker i = some p' ∧ PolicyInv clean p' reg breaker ∧ Kept p p' := by
  have hmodify := Governance.modify_of_heap ha fun a => { a with failCount := 0 }
  refine ⟨{ p with gov := p.gov.put i { a with failCount := 0 } }, ?_, h.withGov ?_ ?_ rfl,
    ⟨Governance.modify_sameRefs hmodify fun _ => rfl, rfl, rfl, rfl⟩⟩
  · unfold recoverServerFromBreaker
    rw [hmodify]
    simp [hnext]
  · exact h.breaker.put fun hin => absurd (List.mem_toFinset.mp hin) hi
  · intro j hj
    have hne : j ≠ i := fun heq => hi (heq ▸ hj)
    simp [Governance.living, hne]

theorem success_spec (h : PolicyInv clean p reg breaker)
    (href : { p.gov with servers := reg }.RefInv out) (hpos : 0 < out i)
    (hok : i ∈ reg ∨ p.gov.links.next (.server i) = none) :
    ∃ p' breaker', p.success i = some p' ∧ PolicyInv clean p' reg breaker' ∧
      { p'.gov with servers := reg }.RefInv (Function.update out i (out i - 1)) ∧
      p'.params = p.params ∧ p'.strategy = p.strategy := by
  have hrecover : ∃ p₁ breaker', p.recoverServerFromBreaker i = some p₁ ∧
      PolicyInv clean p₁ reg breaker' ∧ Kept p p₁ := by
    by_cases hmem : i ∈ reg
    · exact recoverServerFromBreaker_spec h hmem
    · obtain ⟨a, ha, _⟩ := href.counted i (by rwa [Governance.refs_of_notMem hmem])
      obtain ⟨p₁, hp₁⟩ := recoverServerFromBreaker_unlinked h hmem ha (hok.resolve_left hmem)
      exact ⟨p₁, breaker, hp₁⟩
  obtain ⟨p₁, breaker', hrecover, h₁, hkept⟩ := hrecover
  have href₁ := hkept.refInv href
  obtain ⟨a, ha, hr⟩ := href₁.counted i (by unfold Governance.refs; omega)
  have hmore : i ∈ reg → ¬ a.ref - 1 = 0 := fun hi => by
    rw [Governance.refs_of_mem hi] at hr
    rw [Governance.sub_one_eq_zero_iff hr (by omega)]
    omega
  obtain ⟨g, hunref, hbreaker⟩ := h₁.breaker.unref ha fun hi => hmore (List.mem_toFinset.mp hi)
  obtain ⟨hservers, -, -, -⟩ := Governance.unref_frame hunref
  refine ⟨{ p₁ with gov := g }, breaker', ?_, h₁.withGov hbreaker (fun j hj => ?_) hservers, ?_,
    hkept.params, hkept.strategy⟩
  · unfold success
    rw [hrecover]
    simp [hunref]
  · refine unref_living hunref (fun hi => ?_) hj
    obtain ⟨b, hb, _⟩ := hbreaker.fused i (List.mem_toFinset.mpr hi)
    exact ⟨b, hb⟩
  · refine href₁.unref hpos ?_
    rw [Governance.unref_servers, hunref]
    rfl

theorem failed_gov {now : Int} (h : failed now p i = some p') :
    p.gov.failed now i = some p'.gov ∧ p'.params = p.params ∧ p'.strategy = p.strategy := by
  unfold failed at h
  unfold Governance.failed
  obtain ⟨a, ha, h⟩ := Option.bind_eq_some_iff.mp h
  simp only [ha, Option.bind_eq_bind, Option.bind_some]
  split at h
  · rename_i hlast
    cases h
    exact ⟨if_pos hlast, rfl, rfl⟩
  · rename_i hmore
    rw [if_neg hmore, Governance.modify_of_heap ha, Option.bind_some]
    rw [Governance.modify_of_heap ha, Option.bind_eq_bind, Option.bind_some] at h
    split at h
    · rename_i hmax
      rw [if_pos hmax]
      rw [fuseServerToBreaker_eq] at h
      obtain ⟨g, hg, rfl⟩ := Option.map_eq_some_iff.mp h
      refine ⟨hg, ?_⟩
      split
      · rw [fuseOneServer_eq]
        exact ⟨rfl, rfl⟩
      · exact ⟨rfl, rfl⟩
    · rename_i hmax
      cases h
      exact ⟨if_neg hmax, rfl, rfl⟩

theorem failed_spec (now : Int) (h : PolicyInv clean p reg breaker)
    (href : { p.gov with servers := reg }.RefInv out) (hpos : 0 < out i)
    (hok : { p.gov with servers := reg }.FailedOk i) :
    ∃ p' breaker', failed now p i = some p' ∧ PolicyInv clean p' reg breaker' := by
  obtain ⟨a, ha, hr⟩ : ∃ a, p.gov.heap i = some a ∧ a.ref.toNat = Governance.refs reg out i :=
    href.counted i (by unfold Governance.refs; omega)
  have hone := Governance.sub_one_eq_zero_iff hr (by unfold Governance.refs; omega)
  have hother : i ∉ reg → ∀ g : Governance, (∀ j ≠ i, g.heap j = p.gov.heap j) →
      ∀ j ∈ reg, g.living j = p.gov.living j := fun hi g hheap j hj => by
    have hne : j ≠ i := fun heq => hi (heq ▸ hj)
    simp [Governance.living, hheap j hne]
  simp only [Governance.FailedOk, ha] at hok
  unfold failed
  simp only [ha, Option.bind_eq_bind, Option.bind_some]
  by_cases hmem : i ∈ reg
  · rw [if_pos hmem] at hok
    rw [Governance.refs_of_mem hmem] at hone
    rw [if_neg (by rw [hone]; omega), Governance.modify_of_heap ha, Option.bind_some]
    have hreg := List.mem_toFinset.mpr hmem
    have hsucc := Governance.toNat_add_one hok
    split
    · rename_i hmax
      obtain ⟨p', breaker', hfuse, h', -⟩ := h.fuse (i := i)
        (a := { a with ref := a.ref - 1, failCount := a.failCount + 1 }) now hmem (by simp [hmax])
      exact ⟨p', breaker', hfuse, h'⟩
    · rename_i hmax
      have hne : a.failCount.toNat + 1 ≠ a.maxFails.toNat := fun heq =>
        hmax (UInt32.toNat_inj.mp (hsucc.trans heq))
      have hsame : a.maxFails ≤ a.failCount ↔ a.maxFails ≤ a.failCount + 1 := by
        simp only [UInt32.le_iff_toNat_le, hsucc]
        omega
      refine ⟨_, breaker, rfl, h.withGov ?_ (fun j hj => ?_) rfl⟩
      · refine h.breaker.put fun _ => ?_
        obtain ⟨b, hb, hiff⟩ := h.breaker.fused i hreg
        obtain rfl : a = b := Option.some.inj (ha.symm.trans hb)
        exact hiff.trans hsame
      · rcases eq_or_ne j i with rfl | hji
        · simp [Governance.living, ha, ← UInt32.not_le, hsame]
        · simp [Governance.living, hji]
  · rw [if_neg hmem] at hok
    have hnotReg : i ∉ reg.toFinset := mt List.mem_toFinset.mp hmem
    have hput := h.withGov (g := p.gov.put i { a with
      ref := a.ref - 1, failCount := a.failCount + 1 })
      (h.breaker.put fun hin => absurd hin hnotReg)
      (hother hmem _ fun j hne => by simp [hne]) rfl
    split
    · exact ⟨_, breaker, rfl, h.withGov (h.breaker.delete hnotReg)
        (hother hmem _ fun j hne => by simp [Governance.delete, hne]) rfl⟩
    · rename_i hnot
      rw [Governance.modify_of_heap ha, Option.bind_some]
      split
      · rename_i hmax
        have hlinked : p.gov.links.next (.server i) ≠ none := by
          rcases hok with hlast | hless | hlinked
          · exact absurd (by simp [hlast]) hnot
          · exact absurd hmax hless
          · exact hlinked
        refine ⟨_, breaker, ?_, hput⟩
        unfold fuseServerToBreaker
        rw [if_neg (by simpa using hlinked)]
        rfl
      · exact ⟨_, breaker, rfl, hput⟩

/-! ### Selection -/

theorem checkBreaker_mono {fuel fuel' : Nat} {now : Int} (hle : fuel ≤ fuel')
    (h : checkBreaker fuel now p = some p') : checkBreaker fuel' now p = some p' := by
  unfold checkBreaker at h ⊢
  split at h
  · rename_i hempty
    rw [if_pos hempty, h]
  · rename_i hempty
    rw [if_neg hempty]
    obtain ⟨pos, hpos, h⟩ := Option.bind_eq_some_iff.mp h
    obtain ⟨r, hloop, hr⟩ := Option.bind_eq_some_iff.mp h
    simp only [hpos, Option.bind_eq_bind, Option.bind_some]
    rw [loop_mono hle hloop, Option.bind_some, hr]

/-- What `check_breaker` leaves does not depend on the fuel. -/
theorem checkBreaker_unique {fuel fuel' : Nat} {now : Int} {p₁ p₂ : UPSGroupPolicy}
    (h : checkBreaker fuel now p = some p₁) (h' : checkBreaker fuel' now p = some p₂) : p₁ = p₂ := by
  have heq : some p₁ = some p₂ := by
    rw [← checkBreaker_mono (Nat.le_max_left fuel fuel') h,
      checkBreaker_mono (Nat.le_max_right fuel fuel') h']
  exact Option.some.inj heq

/-- Whatever fuel `check_breaker` had, it did its work. -/
theorem checkBreaker_inv {fuel : Nat} {now : Int} (h : PolicyInv clean p reg breaker)
    (hcheck : checkBreaker fuel now p = some p') :
    ∃ breaker', PolicyInv clean p' reg breaker' ∧ Kept p p' := by
  obtain ⟨fuel', q, breaker', hq, hinv, hkept⟩ := checkBreaker_spec now h
  obtain rfl := checkBreaker_unique hcheck hq
  exact ⟨breaker', hinv, hkept⟩

theorem Shuffled.kept (hs : Shuffled p p') : Kept p p' := by
  rw [hs.rest]
  exact ⟨.refl _, rfl, rfl, rfl⟩

/-- One more reference to a server does not matter to the breaker and the groups. -/
theorem PolicyInv.take (h : PolicyInv clean p reg breaker) {g : Governance}
    (hmodify : p.gov.modify i (fun a => { a with ref := a.ref + 1 }) = some g) :
    PolicyInv clean { p with gov := g } reg breaker := by
  obtain ⟨a, ha, rfl⟩ := Governance.modify_eq_some hmodify
  refine h.withGov (h.breaker.put fun hi => ?_) (fun j hj => ?_) rfl
  · obtain ⟨b, hb, hiff⟩ := h.breaker.fused i hi
    obtain rfl : a = b := Option.some.inj (ha.symm.trans hb)
    exact hiff
  · rcases eq_or_ne j i with rfl | hne
    · simp [Governance.living, ha]
    · simp [Governance.living, hne]

/-- What `select` does: it checks the breaker, shuffles, and may take a reference to a registered
server. -/
theorem select_cases {stdHash : String → UInt64} {fuel : Nat} {now : Int} {uri : ParsedURI}
    {history : List Nat} {draws : Draws} {x : Option Nat} (h : PolicyInv clean p reg breaker)
    (hselect : select stdHash fuel now p uri history draws = some (p', x)) :
    (x = none ∧ ∃ breaker', PolicyInv clean p' reg breaker' ∧ Kept p p') ∨
      ∃ i p₁ breaker', x = some i ∧ i ∈ reg ∧ PolicyInv clean p₁ reg breaker' ∧ Kept p p₁ ∧
        ∃ g, p₁.gov.modify i (fun a => { a with ref := a.ref + 1 }) = some g ∧
          p' = { p₁ with gov := g } := by
  unfold select at hselect
  split at hselect
  · cases hselect
    exact Or.inl ⟨rfl, breaker, h, .refl p⟩
  · rename_i hlen
    obtain ⟨p₁, hcheck, hselect⟩ := Option.bind_eq_some_iff.mp hselect
    obtain ⟨breaker', h₁, hkept⟩ := checkBreaker_inv h hcheck
    split at hselect
    · cases hselect
      exact Or.inl ⟨rfl, breaker', h₁, hkept⟩
    · have hne : p₁.gov.servers ≠ [] := by
        rw [hkept.refs.servers]
        rintro hnil
        simp [hnil] at hlen
      obtain ⟨⟨p₂, addr⟩, haddr, hselect⟩ := Option.bind_eq_some_iff.mp hselect
      have hout := selectAddr_outcome stdHash uri draws h₁ hne history
      rw [haddr] at hout
      have h₂ := h₁.shuffled hout.1
      have hkept₂ := hkept.trans hout.1.kept
      cases addr with
      | none =>
          cases hselect
          exact Or.inl ⟨rfl, breaker', h₂, hkept₂⟩
      | some i =>
          obtain ⟨g, hmodify, hselect⟩ := Option.bind_eq_some_iff.mp hselect
          cases hselect
          exact Or.inr ⟨i, p₂, breaker', rfl, (hout.2 i rfl).1, h₂, hkept₂, g, hmodify, rfl⟩

end UPSGroupPolicy

/-! ### Whole runs -/

/-- The condition on adding a server: no counter overflows, and, if `clean`, a main server is added
without a group. -/
def UPSGroupPolicy.AddOk (stdHash : String → UInt64) (clean : Bool) (p : UPSGroupPolicy)
    (address : String) (params : AddressParams) : Prop :=
  p.gov.registered.length + 1 < 2 ^ 31 ∧
    (clean = true → (UPSAddrParams.new stdHash params address).serverType = 0 →
      (UPSAddrParams.new stdHash params address).groupId < 0 ∧
        (p.gov.registered.map p.mainWeight).sum +
          (UPSAddrParams.new stdHash params address).weight.toNat < 2 ^ 31)

instance (stdHash : String → UInt64) (clean : Bool) (p : UPSGroupPolicy) (address : String)
    (params : AddressParams) : Decidable (p.AddOk stdHash clean address params) := by
  unfold UPSGroupPolicy.AddOk
  infer_instance

namespace UPSSystem

/-- The condition on a step: it does not bring a removed server back into the breaker (`success` and
`failed`), no counter overflows, and, if `clean`, no main server is added to a group. -/
def StepOk (stdHash : String → UInt64) (clean : Bool) (s : UPSSystem) : UPSOp → Prop
  | .addServer address params => s.policy.AddOk stdHash clean address params
  | .replaceServer address params => s.policy.AddOk stdHash clean address params
  | .select .. => ∀ i ∈ s.policy.gov.registered, s.outstanding i + 2 < 2 ^ 32
  | .success i => i ∈ s.policy.gov.registered ∨ s.policy.gov.links.next (.server i) = none
  | .failed i _ => { s.policy.gov with servers := s.policy.gov.registered }.FailedOk i
  | _ => True

instance (stdHash : String → UInt64) (clean : Bool) (s : UPSSystem) (op : UPSOp) :
    Decidable (s.StepOk stdHash clean op) := by
  cases op <;> unfold StepOk <;> infer_instance

/-- The invariant of all runs whose steps are fine. -/
def Inv (strategy : Strategy) (clean : Bool) (s : UPSSystem) : Prop :=
  s.policy.strategy = strategy ∧ ∃ reg breaker, s.policy.PolicyInv (clean = true) reg breaker ∧
    { s.policy.gov with servers := reg }.RefInv s.outstanding ∧
    (clean = true → (reg.map s.policy.mainWeight).sum < 2 ^ 31)

variable {stdHash : String → UInt64} {strategy : Strategy} {clean : Bool} {s t : UPSSystem}

theorem settle_eq_some {i : Nat} {policy : Option UPSGroupPolicy}
    (h : s.settle i policy = some t) :
    0 < s.outstanding i ∧ policy = some t.policy ∧
      t.outstanding = Function.update s.outstanding i (s.outstanding i - 1) := by
  unfold settle at h
  split at h
  · cases h
  · obtain ⟨p, hp, rfl⟩ := Option.map_eq_some_iff.mp h
    exact ⟨by omega, hp, rfl⟩

theorem mainWeight_of_params {p p' : UPSGroupPolicy} (h : p'.params = p.params) :
    p'.mainWeight = p.mainWeight := by
  funext i
  simp [UPSGroupPolicy.mainWeight, UPSGroupPolicy.isMain, UPSGroupPolicy.weight, h]

/-- An operation that only concerns the breaker. -/
theorem Inv.of_kept {reg breaker' : List Nat} {p : UPSGroupPolicy}
    (hstrategy : s.policy.strategy = strategy)
    (href : { s.policy.gov with servers := reg }.RefInv s.outstanding)
    (hbound : clean = true → (reg.map s.policy.mainWeight).sum < 2 ^ 31)
    (h' : p.PolicyInv (clean = true) reg breaker') (hk : s.policy.Kept p) :
    Inv strategy clean { s with policy := p } :=
  ⟨hk.strategy.trans hstrategy, reg, breaker', h', hk.refInv href, fun hclean => by
    rw [mainWeight_of_params hk.params]
    exact hbound hclean⟩

/-- What is registered, for the condition and for the invariant. -/
theorem AddOk.spec {p : UPSGroupPolicy} {reg : List Nat} {out : Nat → Nat} {address : String}
    {params : AddressParams} (href : { p.gov with servers := reg }.RefInv out)
    (hok : p.AddOk stdHash clean address params) :
    reg.length + 1 < 2 ^ 31 ∧
      (clean = true → (UPSAddrParams.new stdHash params address).serverType = 0 →
        (UPSAddrParams.new stdHash params address).groupId < 0 ∧
          (reg.map p.mainWeight).sum +
            (UPSAddrParams.new stdHash params address).weight.toNat < 2 ^ 31) := by
  have hperm := href.registered_perm
  rw [hperm.length_eq, (hperm.map _).sum_eq]
  exact hok

/-- The total weight after a new server came. -/
theorem sum_mainWeight_new {p p' : UPSGroupPolicy} {reg reg' : List Nat} {i : Nat}
    {new : UPSAddrParams} (hparams : p'.params = Function.update p.params i new) (hi : i ∉ reg')
    (hsub : reg'.Sublist reg) :
    ((reg' ++ [i]).map p'.mainWeight).sum ≤
      (reg.map p.mainWeight).sum + if new.serverType = 0 then new.weight.toNat else 0 := by
  have hold : reg'.map p'.mainWeight = reg'.map p.mainWeight := by
    refine List.map_congr_left fun j hj => ?_
    have hne : j ≠ i := fun heq => hi (heq ▸ hj)
    simp [UPSGroupPolicy.mainWeight, UPSGroupPolicy.isMain, UPSGroupPolicy.weight, hparams, hne]
  have hnew : p'.mainWeight i = if new.serverType = 0 then new.weight.toNat else 0 := by
    simp [UPSGroupPolicy.mainWeight, UPSGroupPolicy.isMain, UPSGroupPolicy.weight, hparams]
  have hle := (hsub.map p.mainWeight).sum_le_sum fun _ _ => Nat.zero_le _
  rw [List.map_append, List.sum_append, hold, List.map_cons, List.map_nil, List.sum_singleton, hnew]
  omega

theorem bound_new {p p' : UPSGroupPolicy} {reg reg' : List Nat} {i : Nat} {new : UPSAddrParams}
    (hparams : p'.params = Function.update p.params i new) (hi : i ∉ reg')
    (hsub : reg'.Sublist reg) (hbound : (reg.map p.mainWeight).sum < 2 ^ 31)
    (hok : new.serverType = 0 → (reg.map p.mainWeight).sum + new.weight.toNat < 2 ^ 31) :
    ((reg' ++ [i]).map p'.mainWeight).sum < 2 ^ 31 := by
  have hle := sum_mainWeight_new hparams hi hsub
  split at hle
  · rename_i hmain
    have := hok hmain
    omega
  · omega

/-- A fine step keeps the invariant. -/
theorem exec_inv {fuel : Nat} {op : UPSOp} (hinv : s.Inv strategy clean)
    (hok : s.StepOk stdHash clean op) (h : s.exec stdHash fuel op = some t) :
    t.Inv strategy clean := by
  obtain ⟨hstrategy, reg, breaker, hp, href, hbound⟩ := hinv
  have hids : ∀ address, ∀ i ∈ s.policy.gov.serverMap address, i ∈ reg := fun address i hi =>
    (href.mem_serverMap.mp hi).1
  have hfresh : s.policy.gov.fresh ∉ reg := fun hin =>
    Nat.lt_irrefl _ (hp.breaker.old _ (List.mem_toFinset.mpr hin))
  have hmem : ∀ i, i ∈ s.policy.gov.registered ↔ i ∈ reg := fun i =>
    href.registered_perm.mem_iff.symm
  cases op with
  | addServer address params =>
      obtain ⟨hsmall, hfree⟩ := AddOk.spec href hok
      obtain ⟨p, hadd, hp', href', hparams, hsame⟩ := UPSGroupPolicy.addServer_spec stdHash address
        params hp href hsmall fun hclean hmain => (hfree hclean hmain).1
      rw [exec, hadd, Option.map_some, Option.some.injEq] at h
      subst h
      exact ⟨hsame.trans hstrategy, _, breaker, hp', href', fun hclean => bound_new hparams hfresh (.refl _)
        (hbound hclean) fun hmain => (hfree hclean hmain).2⟩
  | removeServer address =>
      obtain ⟨p, breaker', hremove, hp', href', hremoved⟩ :=
        UPSGroupPolicy.removeServerLocked_spec address hp href
      rw [exec, UPSGroupPolicy.removeServer, hremove, Option.map_some, Option.some.injEq] at h
      subst h
      refine ⟨hremoved.strategy.trans hstrategy, _, breaker', hp', href', fun hclean => ?_⟩
      have hle := ((List.filter_sublist (l := reg) (p := fun i =>
        decide (¬ s.policy.gov.addressOf i = some address))).map s.policy.mainWeight).sum_le_sum
        fun _ _ => Nat.zero_le _
      rw [mainWeight_of_params hremoved.params]
      exact Nat.lt_of_le_of_lt hle (hbound hclean)
  | replaceServer address params =>
      obtain ⟨hsmall, hfree⟩ := AddOk.spec href hok
      obtain ⟨p, breaker', hreplace, hp', href', hreplaced⟩ := UPSGroupPolicy.replaceServer_spec
        stdHash address params hp href hsmall fun hclean hmain => (hfree hclean hmain).1
      rw [exec, hreplace, Option.map_some, Option.some.injEq] at h
      subst h
      exact ⟨hreplaced.strategy.trans hstrategy, _, breaker', hp', href', fun hclean =>
        bound_new hreplaced.params (fun hin => hfresh (List.mem_of_mem_filter hin))
          List.filter_sublist (hbound hclean) fun hmain => (hfree hclean hmain).2⟩
  | enableServer address =>
      obtain ⟨p, breaker', hfold, hp', hkept⟩ := UPSGroupPolicy.foldlM_spec
        UPSGroupPolicy.recoverServerFromBreaker_spec (hids address) hp
      rw [exec, UPSGroupPolicy.enableServer, hfold, Option.map_some, Option.some.injEq] at h
      subst h
      exact .of_kept hstrategy href hbound hp' hkept
  | disableServer address now =>
      obtain ⟨p, breaker', hfold, hp', hkept⟩ := UPSGroupPolicy.foldlM_spec
        (UPSGroupPolicy.disableOne_spec now) (hids address) hp
      rw [exec, UPSGroupPolicy.disableServer, hfold, Option.map_some, Option.some.injEq] at h
      subst h
      exact .of_kept hstrategy href hbound hp' hkept
  | select now uri history draws =>
      obtain ⟨⟨p, x⟩, hselect, rfl⟩ := Option.map_eq_some_iff.mp h
      rcases UPSGroupPolicy.select_cases hp hselect with
        ⟨rfl, breaker', hp', hkept⟩ | ⟨i, p₁, breaker', rfl, hi, hp₁, hkept, g, hmodify, rfl⟩
      · exact .of_kept hstrategy href hbound hp' hkept
      · have hlt := hok i ((hmem i).mpr hi)
        refine ⟨hkept.strategy.trans hstrategy, reg, breaker', hp₁.take hmodify, ?_,
          fun hclean => ?_⟩
        · obtain ⟨a, ha, rfl⟩ := Governance.modify_eq_some hmodify
          refine (hkept.refInv href).take hi (by omega) ?_
          exact Governance.modify_of_heap (g := { p₁.gov with servers := reg }) ha _
        · have hsame := mainWeight_of_params hkept.params
          show (reg.map p₁.mainWeight).sum < 2 ^ 31
          rw [hsame]
          exact hbound hclean
  | success i =>
      obtain ⟨hpos, hsuccess, hout⟩ := settle_eq_some h
      obtain ⟨p, breaker', hp, hp', href', hparams, hsame⟩ :=
        UPSGroupPolicy.success_spec hp href hpos (hok.imp (hmem i).mp id)
      obtain rfl := Option.some.inj (hsuccess.symm.trans hp)
      refine ⟨hsame.trans hstrategy, reg, breaker', hp', hout ▸ href', fun hclean => ?_⟩
      rw [mainWeight_of_params hparams]
      exact hbound hclean
  | failed i now =>
      obtain ⟨hpos, hfailed, hout⟩ := settle_eq_some h
      obtain ⟨p, breaker', hp, hp'⟩ := UPSGroupPolicy.failed_spec now hp href hpos
        (Governance.FailedOk.reregister (hmem i) hok)
      obtain rfl := Option.some.inj (hfailed.symm.trans hp)
      obtain ⟨hgov, hparams, hsame⟩ := UPSGroupPolicy.failed_gov hfailed
      refine ⟨hsame.trans hstrategy, reg, breaker', hp', ?_, fun hclean => ?_⟩
      · have hbase : Governance.failed now { s.policy.gov with servers := reg } i =
            some { t.policy.gov with servers := reg } := by
          rw [Governance.failed_servers, hgov, Option.map_some]
        rw [hout]
        exact href.failed hpos hbase
      · rw [mainWeight_of_params hparams]
        exact hbound hclean
  | checkBreaker now =>
      obtain ⟨p, hcheck, rfl⟩ := Option.map_eq_some_iff.mp h
      obtain ⟨breaker', hp', hkept⟩ := UPSGroupPolicy.checkBreaker_inv hp hcheck
      exact .of_kept hstrategy href hbound hp' hkept

theorem new_inv (strategy : Strategy) (mttrSecond : UInt32) (tryAnother clean : Bool) :
    (UPSSystem.new strategy mttrSecond tryAnother).Inv strategy clean := by
  obtain ⟨href, breaker, hbreaker⟩ := System.new_inv mttrSecond tryAnother
  refine ⟨rfl, [], breaker, ⟨List.nodup_nil, hbreaker, ?_, rfl, fun _ => rfl⟩, href, by simp⟩
  exact ⟨fun _ => .refl _, fun _ => .refl _, fun _ => rfl, fun _ => rfl, by simp, fun _ _ => rfl⟩

theorem reachable_inv {mttrSecond : UInt32} {tryAnother : Bool}
    (h : Reachable (machine stdHash strategy mttrSecond tryAnother) (StepOk stdHash clean) s) :
    s.Inv strategy clean := by
  refine Reachable.invariant (fun s hs => ?_) (fun s op t hinv hok hstep => ?_) h
  · obtain rfl : s = _ := hs
    exact new_inv strategy mttrSecond tryAnother clean
  · obtain ⟨fuel, hexec⟩ := hstep
    exact exec_inv hinv hok hexec

end UPSSystem

end Workflow.Nameservice
