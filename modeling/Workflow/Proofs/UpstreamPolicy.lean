/-
Module: Workflow.Proofs.UpstreamPolicy
Layer: Proofs
Purpose: What holds in every state of an upstream policy: the weights of the weighted random policy
  as long as no main server is added to a group, the effect of `replace_server`, and selections of
  living servers only.
Trusted boundary: none
Main exports: Weighed, weights_bookkept, Replacing, replaceServer_iff, select_living
-/
import Workflow.Proofs.UpstreamRuns

namespace Workflow.Nameservice

open Workflow.Lib

variable {stdHash : String → UInt64} {strategy : Strategy} {mttrSecond : UInt32}
  {tryAnother clean : Bool} {s : UPSSystem}

/-! ### The weights -/

namespace UPSGroupPolicy

/-- The weight of a main server for which `is_alive()` holds. -/
def aliveWeight (p : UPSGroupPolicy) (i : Nat) : Nat :=
  if p.isMain i ∧ p.isAlive i = some true then p.weight i else 0

/-- The counts and weights of a weighted random policy are those of its registered servers. -/
structure Weighed (p : UPSGroupPolicy) : Prop where
  total : p.totalWeight.toInt = (p.gov.registered.map p.mainWeight).sum
  nalives : ∀ id, (p.groups id).nalives.toInt =
    (p.gov.registered.filter fun i => p.groupIdOf i = id ∧ p.gov.living i).length
  weight : ∀ id, (p.groups id).weight.toInt = (p.gov.registered.map (p.weightIn id)).sum
  available : p.availableWeight.toInt = (p.gov.registered.map p.aliveWeight).sum

variable {p : UPSGroupPolicy} {reg breaker : List Nat}

/-- Without main servers in groups a main server is alive exactly when it lives. -/
theorem GroupInv.aliveWeight_eq (h : p.PolicyInv (clean = true) reg breaker) (hclean : clean = true)
    {i : Nat} (hi : i ∈ reg) : p.aliveWeight i = p.livingWeight p.gov.living i := by
  unfold aliveWeight livingWeight
  by_cases hmain : p.isMain i = true
  · have hfree := h.groups.ungrouped hclean i hi hmain
    obtain ⟨a, ha⟩ := h.heap_of_mem hi
    have hge : ¬ 0 ≤ p.groupIdOf i := Int32.not_le.mpr hfree
    have halive : p.isAlive i = some (p.gov.living i) := by
      simp [isAlive, Governance.living, ha, hfree, hge]
    simp [hmain, halive]
  · simp [hmain]

/-- The sum of 0s and 1s is a length. -/
theorem sum_livingIn (p : UPSGroupPolicy) (living : Nat → Bool) (id : Int32) (reg : List Nat) :
    (reg.map (p.livingIn living id)).sum =
      (reg.filter fun i => p.groupIdOf i = id ∧ living i).length := by
  induction reg with
  | nil => rfl
  | cons i reg ih =>
      rw [List.map_cons, List.sum_cons, ih, List.filter_cons]
      unfold livingIn
      split
      · rename_i hin
        simp [hin]
        omega
      · rename_i hout
        simp [hout]

end UPSGroupPolicy

/-- In every run in which main servers are added without a group, the weights are right in every
state. -/
theorem weights_bookkept
    (h : Reachable (UPSSystem.machine stdHash .weightedRandom mttrSecond tryAnother)
      (UPSSystem.StepOk stdHash true) s) : s.policy.Weighed := by
  obtain ⟨hstrategy, reg, breaker, hp, href, hbound⟩ := UPSSystem.reachable_inv h
  have hperm := href.registered_perm
  have hlt : ∀ f : Nat → Nat, (∀ i, f i ≤ s.policy.mainWeight i) → (reg.map f).sum < 2 ^ 31 :=
    fun f hle => Nat.lt_of_le_of_lt (List.sum_le_sum fun i _ => hle i) (hbound rfl)
  refine ⟨?_, fun id => ?_, fun id => ?_, ?_⟩
  · rw [hp.main.total hstrategy, Int32.toInt_ofNat_of_lt (hlt _ fun _ => Nat.le_refl _),
      (hperm.map _).sum_eq]
  · rw [hp.groups.nalives, Int32.toInt_ofNat_of_lt (hp.count_lt id), UPSGroupPolicy.sum_livingIn,
      (hperm.filter _).length_eq]
  · rw [hp.groups.weight, Int32.toInt_ofNat_of_lt (hlt _ fun i => ?_), (hperm.map _).sum_eq]
    unfold UPSGroupPolicy.weightIn UPSGroupPolicy.mainWeight
    split <;> split <;> simp_all
  · rw [hp.groups.available rfl hstrategy, Int32.toInt_ofNat_of_lt (hlt _ fun i => ?_),
      ← (hperm.map s.policy.aliveWeight).sum_eq,
      List.map_congr_left fun i hi => UPSGroupPolicy.GroupInv.aliveWeight_eq hp rfl hi]
    unfold UPSGroupPolicy.livingWeight UPSGroupPolicy.mainWeight
    split <;> split <;> simp_all

/-- A main server and a backup server without groups, of which the main one is fused. -/
theorem weights_bookkept_fused : ∃ s,
    Reachable (UPSSystem.machine (fun _ => 0) .weightedRandom 30 true)
      (UPSSystem.StepOk (fun _ => 0) true) s ∧
      s.policy.totalWeight = 5 ∧ s.policy.availableWeight = 0 ∧ s.policy.Weighed := by
  have hrun : (runChecked (UPSSystem.exec fun _ => 0) (UPSSystem.StepOk (fun _ => 0) true) 2
      (UPSSystem.new .weightedRandom 30 true)
      [.addServer "a" ⟨1, 5, 0, -1⟩, .addServer "b" ⟨1, 3, 1, -1⟩, .disableServer "a" 0]).map
      (fun s => (s.policy.totalWeight, s.policy.availableWeight)) = some (5, 0) := by
    decide +kernel
  obtain ⟨s, hs, heq⟩ := Option.map_eq_some_iff.mp hrun
  obtain ⟨htotal, havailable⟩ := Prod.mk.inj heq
  have hreach := runChecked_reachable (Reachable.init rfl) hs
  exact ⟨s, hreach, htotal, havailable, weights_bookkept hreach⟩

/-- A main server is added to group 0: `is_alive()` holds for it, but `available_weight` stays 0. -/
theorem weights_grouped_main : ∃ s,
    Reachable (UPSSystem.machine (fun _ => 0) .weightedRandom 30 true) (fun _ _ => True) s ∧
      s.policy.availableWeight = 0 ∧ s.policy.isAlive 0 = some true ∧ ¬ s.policy.Weighed := by
  have hrun : (runChecked (UPSSystem.exec fun _ => 0) (fun _ _ => True) 2
      (UPSSystem.new .weightedRandom 30 true) [.addServer "a" ⟨1, 1, 0, 0⟩]).map
      (fun s => (s.policy.availableWeight, s.policy.isAlive 0,
        (s.policy.gov.registered.map s.policy.aliveWeight).sum)) = some (0, some true, 1) := by
    decide +kernel
  obtain ⟨s, hs, heq⟩ := Option.map_eq_some_iff.mp hrun
  simp only [Prod.mk.injEq] at heq
  obtain ⟨havailable, halive, hsum⟩ := heq
  refine ⟨s, runChecked_reachable (Reachable.init rfl) hs, havailable, halive, fun hweighed => ?_⟩
  have hcount := hweighed.available
  rw [havailable, hsum] at hcount
  exact absurd hcount (by decide)

/-! ### Replacing a server -/

theorem Governance.registered_congr {g g' : Governance} (hfresh : g'.fresh = g.fresh)
    (hmap : g'.serverMap = g.serverMap) (haddress : ∀ i, g'.addressOf i = g.addressOf i) :
    g'.registered = g.registered := by
  unfold Governance.registered
  rw [hfresh, hmap]
  exact List.filter_congr fun i _ => by rw [haddress i]

namespace UPSGroupPolicy

/-- The order of the registered servers does not matter. -/
theorem Stray.perm {p : UPSGroupPolicy} {reg reg' history : List Nat} (hperm : reg.Perm reg')
    (h : p.Stray reg history) : p.Stray reg' history := by
  unfold Stray Stranded Spent Available at *
  simpa only [hperm.mem_iff] using h

/-- A selection is defined and returns no server, or a registered server that is not fused. -/
def SelectsLiving (stdHash : String → UInt64) (p : UPSGroupPolicy) (now : Int) (uri : ParsedURI)
    (history : List Nat) (draws : Draws) : Prop :=
  ∃ fuel p' addr, p.select stdHash fuel now uri history draws = some (p', addr) ∧
    ∀ i, addr = some i → i ∈ p'.gov.registered ∧
      ∃ a, p'.gov.heap i = some a ∧ a.failCount < a.maxFails

/-- There is nothing to select at the time `now`, or the weighted random policy cannot go wrong. -/
def SelectOk (p : UPSGroupPolicy) (now : Int) (history : List Nat) : Prop :=
  p.gov.servers.length % 2 ^ 32 = 0 ∨ ∀ fuel p', p.checkBreaker fuel now = some p' →
    p'.gov.nalives = 0 ∨ ¬ p'.Stray p'.gov.registered history

variable {p p₁ : UPSGroupPolicy} {reg breaker : List Nat} {out : Nat → Nat} {fuel : Nat} {now : Int}
  {history : List Nat}

/-- `++addr->ref` of the server that was selected, if there is one. -/
def takeRef (p : UPSGroupPolicy) : Option Nat → Option (UPSGroupPolicy × Option Nat)
  | none => some (p, none)
  | some i =>
      (p.gov.modify i fun a => { a with ref := a.ref + 1 }).map fun gov =>
        ({ p with gov := gov }, some i)

/-- A selection after `check_breaker`, with the fuel that `check_breaker` needs. -/
theorem select_eq (hlen : p.gov.servers.length % 2 ^ 32 ≠ 0) (hcheck : p.checkBreaker fuel now = some p₁)
    (hnalives : p₁.gov.nalives ≠ 0) (uri : ParsedURI) (draws : Draws) :
    p.select stdHash fuel now uri history draws =
      (p₁.selectAddr stdHash uri history draws).bind fun r => r.1.takeRef r.2 := by
  unfold select
  rw [if_neg hlen]
  simp only [hcheck, Option.bind_eq_bind, Option.bind_some, if_neg hnalives]
  congr 1
  funext r
  obtain ⟨p₂, addr⟩ := r
  cases addr with
  | none => rfl
  | some i =>
      simp only [takeRef]
      cases p₂.gov.modify i fun a => { a with ref := a.ref + 1 } <;> rfl

/-- Unless it goes wrong, a selection returns no server or a living one. -/
theorem selectsLiving_of_not_stray (hp₁ : p₁.PolicyInv clean reg breaker)
    (href₁ : { p₁.gov with servers := reg }.RefInv out) (hlen : p.gov.servers.length % 2 ^ 32 ≠ 0)
    (hcheck : p.checkBreaker fuel now = some p₁) (hne : p₁.gov.servers ≠ [])
    (hnalives : p₁.gov.nalives ≠ 0) (hfine : ¬ p₁.Stray reg history) (uri : ParsedURI)
    (draws : Draws) : p.SelectsLiving stdHash now uri history draws := by
  have hout := selectAddr_outcome stdHash uri draws hp₁ hne history
  refine ⟨fuel, ?_⟩
  rw [select_eq hlen hcheck hnalives]
  cases hselect : p₁.selectAddr stdHash uri history draws with
  | none =>
      rw [hselect] at hout
      exact absurd hout hfine
  | some r =>
      obtain ⟨p₂, addr⟩ := r
      rw [hselect] at hout
      obtain ⟨hshuffled, hliving⟩ := hout
      simp only [Option.bind_some]
      cases addr with
      | none => exact ⟨p₂, none, rfl, by simp⟩
      | some i =>
          obtain ⟨hi, hlive⟩ := hliving i rfl
          obtain ⟨a, ha⟩ := hp₁.heap_of_mem hi
          rw [← hshuffled.gov_eq] at ha href₁
          simp only [takeRef, Governance.modify_of_heap ha, Option.map_some]
          refine ⟨_, some i, rfl, ?_⟩
          rintro j ⟨⟩
          have hregistered : (p₂.gov.put i { a with ref := a.ref + 1 }).registered =
              p₂.gov.registered := by
            refine Governance.registered_congr rfl rfl fun j => ?_
            rcases eq_or_ne j i with rfl | hne
            · simp [Governance.addressOf, ha]
            · simp [Governance.addressOf, hne]
          refine ⟨?_, _, Function.update_self .., ?_⟩
          · rw [hregistered]
            exact href₁.registered_perm.mem_iff.mp hi
          · have hfew := hlive.resolve_right hfine
            rw [← hshuffled.gov_eq] at hfew
            simpa [Governance.living, ha] using hfew

/-- A selection that may go wrong does so with some numbers. -/
theorem Stray.not_selectsLiving (hp₁ : p₁.PolicyInv clean reg breaker)
    (hlen : p.gov.servers.length % 2 ^ 32 ≠ 0) (hcheck : p.checkBreaker fuel now = some p₁)
    (hne : p₁.gov.servers ≠ []) (hnalives : p₁.gov.nalives ≠ 0) (hbad : p₁.Stray reg history)
    (uri : ParsedURI) : ∃ draws, ¬ p.SelectsLiving stdHash now uri history draws := by
  obtain ⟨draws, hdraws⟩ := hbad.exists_draws stdHash uri hp₁
  refine ⟨draws, fun ⟨fuel', p', addr, hselect, hliving⟩ => ?_⟩
  obtain ⟨q, hcheck', -⟩ := Option.bind_eq_some_iff.mp (by rwa [select, if_neg hlen] at hselect)
  obtain rfl := checkBreaker_unique hcheck hcheck'
  rw [select_eq hlen hcheck' hnalives] at hselect
  obtain ⟨⟨p₂, found⟩, hfound, hselect⟩ := Option.bind_eq_some_iff.mp hselect
  obtain ⟨i, rfl, hdead⟩ := hdraws p₂ found hfound
  have hout := selectAddr_outcome stdHash uri draws hp₁ hne history
  rw [hfound] at hout
  obtain ⟨gov, hmodify, heq⟩ := Option.map_eq_some_iff.mp hselect
  obtain ⟨a, ha, rfl⟩ := Governance.modify_eq_some hmodify
  cases heq
  obtain ⟨-, b, hb, hfew⟩ := hliving i rfl
  have hb : some { a with ref := a.ref + 1 } = some b := by simpa using hb
  cases hb
  rw [← hout.1.gov_eq, Governance.living, ha] at hdead
  exact of_decide_eq_false hdead hfew

end UPSGroupPolicy

/-- A selection is always defined and returns no server, or a registered server that is not fused,
whatever the URI and the random numbers are, exactly if the policy cannot go wrong. -/
theorem select_living
    (h : Reachable (UPSSystem.machine stdHash strategy mttrSecond tryAnother)
      (UPSSystem.StepOk stdHash false) s) (now : Int) (history : List Nat) :
    (∀ uri draws, s.policy.SelectsLiving stdHash now uri history draws) ↔
      s.policy.SelectOk now history := by
  obtain ⟨-, reg, breaker, hp, href, -⟩ := UPSSystem.reachable_inv h
  by_cases hlen : s.policy.gov.servers.length % 2 ^ 32 = 0
  · refine iff_of_true (fun uri draws => ⟨0, s.policy, none, ?_, by simp⟩) (Or.inl hlen)
    rw [UPSGroupPolicy.select, if_pos hlen]
  · have hservers : ∀ p, s.policy.Kept p → p.gov.servers ≠ [] := by
      rintro p hkept hnil
      rw [← hkept.refs.servers, hnil] at hlen
      exact hlen rfl
    constructor
    · intro hall
      refine Or.inr fun fuel p hcheck => ?_
      obtain ⟨breaker', hp₁, hkept⟩ := UPSGroupPolicy.checkBreaker_inv hp hcheck
      by_contra hbad
      obtain ⟨hnalives, hbad⟩ := not_or.mp hbad
      have hperm := (hkept.refInv href).registered_perm
      obtain ⟨draws, hdraws⟩ := UPSGroupPolicy.Stray.not_selectsLiving hp₁ hlen hcheck
        (hservers p hkept) hnalives ((not_not.mp hbad).perm hperm.symm) ⟨none, none, none⟩
      exact hdraws (hall _ draws)
    · intro hok uri draws
      obtain ⟨fuel, p₁, breaker', hcheck, hp₁, hkept⟩ := UPSGroupPolicy.checkBreaker_spec now hp
      by_cases hnalives : p₁.gov.nalives = 0
      · refine ⟨fuel, p₁, none, ?_, by simp⟩
        unfold UPSGroupPolicy.select
        rw [if_neg hlen]
        simp only [hcheck, Option.bind_eq_bind, Option.bind_some, if_pos hnalives]
        rfl
      · have href₁ := hkept.refInv href
        refine UPSGroupPolicy.selectsLiving_of_not_stray hp₁ href₁ hlen hcheck
          (hservers p₁ hkept) hnalives (fun hbad => ?_) uri draws
        exact ((hok.resolve_left hlen) fuel p₁ hcheck).resolve_left hnalives
          (hbad.perm href₁.registered_perm)

/-- The fused main server of a weighted random policy is drawn, and the other one is handed out:
`another_strategy` only draws that one. -/
theorem select_living_another : ∃ s,
    Reachable (UPSSystem.machine (fun _ => 0) .weightedRandom 30 true)
      (UPSSystem.StepOk (fun _ => 0) false) s ∧ s.policy.gov.living 0 = false ∧
      ∀ uri draws, s.policy.SelectsLiving (fun _ => 0) 0 uri [] draws := by
  have hrun : ((runChecked (UPSSystem.exec fun _ => 0) (UPSSystem.StepOk (fun _ => 0) false) 2
      (UPSSystem.new .weightedRandom 30 true)
      [.addServer "a" ⟨1, 1, 0, -1⟩, .addServer "b" ⟨1, 1, 0, -1⟩, .disableServer "a" 0]).bind
      fun s => (s.policy.checkBreaker 3 0).map fun p => (s.policy.gov.living 0, p.aliveServers,
        p.gov.living 1)) = some (false, [1], true) := by
    decide +kernel
  obtain ⟨s, hs, hchecked⟩ := Option.bind_eq_some_iff.mp hrun
  obtain ⟨p, hcheck, heq⟩ := Option.map_eq_some_iff.mp hchecked
  simp only [Prod.mk.injEq] at heq
  obtain ⟨hfused, halive, hliving⟩ := heq
  have hreach := runChecked_reachable (Reachable.init rfl) hs
  refine ⟨s, hreach, hfused, (select_living hreach 0 []).mpr (Or.inr fun fuel p' hcheck' =>
    Or.inr ?_)⟩
  obtain rfl := UPSGroupPolicy.checkBreaker_unique hcheck hcheck'
  rintro ⟨-, ⟨j, hj, -⟩ | ⟨-, -, -, hnull | ⟨j, ⟨x, -, hdraw⟩, hdead, -⟩⟩⟩
  · exact absurd hj List.not_mem_nil
  · rw [halive] at hnull
    cases hnull
  · have hmem := UPSGroupPolicy.drawAt_or_mem (fun _ hk => hk) hdraw
    rw [halive, List.mem_singleton] at hmem
    rw [hmem, hliving] at hdead
    cases hdead

/-- When `check_breaker` leaves the policy in a state in which the selection is undefined, then
`select` is, with any fuel. -/
theorem UPSGroupPolicy.select_undefined {p p' : UPSGroupPolicy} {fuel : Nat} {now : Int}
    {uri : ParsedURI} {history : List Nat} {draws : Draws}
    (hcheck : p.checkBreaker fuel now = some p') (hlen : p.gov.servers.length % 2 ^ 32 ≠ 0)
    (hnalives : p'.gov.nalives ≠ 0) (hselect : p'.selectAddr stdHash uri history draws = none)
    (fuel' : Nat) : p.select stdHash fuel' now uri history draws = none := by
  unfold UPSGroupPolicy.select
  rw [if_neg hlen]
  cases hcheck' : p.checkBreaker fuel' now with
  | none => rfl
  | some q =>
      have heq : some q = some p' := by
        rw [← UPSGroupPolicy.checkBreaker_mono (Nat.le_max_left fuel' fuel) hcheck',
          UPSGroupPolicy.checkBreaker_mono (Nat.le_max_right fuel' fuel) hcheck]
      obtain rfl := Option.some.inj heq
      simp [hnalives, hselect]

/-- The only main server is in group 1 and fused, and there is a backup server without a group:
`available_weight` is -1, so `another_strategy` goes through the main servers, finds none alive, and
reads the parameters of the address NULL. -/
theorem select_null_address : ∃ s,
    Reachable (UPSSystem.machine (fun _ => 0) .weightedRandom 30 true) (fun _ _ => True) s ∧
      s.policy.gov.registered = [0, 1] ∧ s.policy.gov.nalives = 1 ∧
      s.policy.availableWeight = -1 ∧
      ∀ fuel, s.policy.select (fun _ => 0) fuel 0 ⟨none, none, none⟩ [] (.still 0 0) = none := by
  have hrun : ((runChecked (UPSSystem.exec fun _ => 0) (fun _ _ => True) 3
      (UPSSystem.new .weightedRandom 30 true)
      [.addServer "a" ⟨1, 1, 0, 1⟩, .addServer "b" ⟨1, 1, 1, -1⟩, .disableServer "a" 0]).bind
      (fun s => (s.policy.checkBreaker 3 0).map fun p => (s.policy.gov.registered,
        [s.policy.gov.nalives, s.policy.availableWeight, p.gov.nalives],
        [s.policy.gov.servers.length % 2 ^ 32 == 0,
          (p.selectAddr (fun _ => 0) ⟨none, none, none⟩ [] (.still 0 0)).isNone]))) =
      some ([0, 1], [1, -1, 1], [false, true]) := by
    decide +kernel
  obtain ⟨s, hs, hchecked⟩ := Option.bind_eq_some_iff.mp hrun
  obtain ⟨p, hcheck, heq⟩ := Option.map_eq_some_iff.mp hchecked
  simp only [Prod.mk.injEq, List.cons.injEq, and_true] at heq
  obtain ⟨hregistered, ⟨hnalives, havailable, hliving⟩, hservers, hselect⟩ := heq
  exact ⟨s, runChecked_reachable (Reachable.init rfl) hs, hregistered, hnalives, havailable,
    UPSGroupPolicy.select_undefined hcheck (by simpa using hservers)
      (by rw [hliving]; decide) (Option.isNone_iff_eq_none.mp hselect)⟩

end Workflow.Nameservice
