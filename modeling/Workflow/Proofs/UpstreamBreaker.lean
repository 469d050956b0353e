/-
Module: Workflow.Proofs.UpstreamBreaker
Layer: Proofs
Purpose: The circuit breaker of an upstream policy. Each operation is that of the governance with
  the hook of the policy, so the breaker list, the living servers of the groups and the counts stay
  in step.
Trusted boundary: none
Main exports: PolicyInv, Kept, recoverServerFromBreaker_spec, disableOne_spec, checkBreaker_spec
-/
import Workflow.Proofs.UpstreamGroups

namespace Workflow.Nameservice

open Workflow.Lib

namespace Governance

variable {g g' : Governance} {i : Nat}

/-- Writing to one server object decides whether it lives. -/
theorem living_of_update {a : EndpointAddress} (h : g'.heap = Function.update g.heap i (some a)) :
    g'.living = Function.update g.living i (a.failCount < a.maxFails) := by
  funext j
  rcases eq_or_ne j i with rfl | hne
  · simp [living, h]
  · simp [living, h, hne]

theorem unlink_eq_some (h : g.unlink i = some g') : g' = { g with links := g'.links } := by
  obtain ⟨links, _, h⟩ := Option.bind_eq_some_iff.mp h
  cases h
  rfl

/-- What the breaker does to a server object when it recovers. -/
theorem recoverServerFromBreaker_heap {a : EndpointAddress} (ha : g.heap i = some a)
    (h : g.recoverServerFromBreaker i = some g') :
    g'.heap = Function.update g.heap i (some { a with failCount := 0 }) := by
  unfold recoverServerFromBreaker at h
  rw [modify_of_heap ha, Option.bind_eq_bind, Option.bind_some] at h
  split at h
  · obtain ⟨g₁, hunlink, h⟩ := Option.bind_eq_some_iff.mp h
    cases h
    rw [recoverOneServer, unlink_eq_some hunlink]
    rfl
  · cases h
    rfl

/-- Being fused does not change the failures of a server. -/
theorem fuseServerToBreaker_heap {now : Int} {a : EndpointAddress} (ha : g.heap i = some a)
    (h : fuseServerToBreaker now g i = some g') :
    ∃ a', g'.heap = Function.update g.heap i (some a') ∧ a'.failCount = a.failCount ∧
      a'.maxFails = a.maxFails := by
  unfold fuseServerToBreaker at h
  split at h
  · rw [modify_of_heap ha, Option.bind_eq_bind, Option.bind_some] at h
    obtain ⟨links, _, h⟩ := Option.bind_eq_some_iff.mp h
    cases h
    exact ⟨_, rfl, rfl, rfl⟩
  · cases h
    exact ⟨a, by rw [← ha, Function.update_eq_self], rfl, rfl⟩

/-- What `check_breaker` does to a fused server that timed out. -/
theorem checkServer_heap {now : Int} {a : EndpointAddress} (ha : g.heap i = some a)
    (hfused : a.maxFails ≤ a.failCount) (htime : a.brokenTimeout ≤ now)
    (h : checkServer now g i = some g') :
    g'.heap = Function.update g.heap i (some { a with failCount := a.maxFails - 1 }) := by
  unfold checkServer reviveServer at h
  simp only [ha, htime, hfused, if_true, modify_of_heap ha, Option.bind_eq_bind,
    Option.bind_some, Option.pure_def] at h
  rw [unlink_eq_some h]
  rfl

/-- A registered server lives exactly when it is not in the breaker. -/
theorem BreakerInv.living_eq {reg : Finset Nat} {breaker : List Nat}
    (h : BreakerInv g reg breaker) (hi : i ∈ reg) : g.living i = decide (i ∉ breaker) := by
  obtain ⟨a, ha, hiff⟩ := h.fused i hi
  simp [living, ha, hiff, UInt32.not_le]

end Governance

namespace UPSGroupPolicy

variable {clean : Prop} {p p' : UPSGroupPolicy} {reg breaker : List Nat} {i : Nat}

/-- Registered servers, breaker list, groups and weights fit together. -/
structure PolicyInv (clean : Prop) (p : UPSGroupPolicy) (reg breaker : List Nat) : Prop where
  nodup : reg.Nodup
  breaker : p.gov.BreakerInv reg.toFinset breaker
  groups : p.GroupInv clean reg p.gov.living
  main : p.MainInv reg

/-- What the breaker does not change. -/
structure Kept (p p' : UPSGroupPolicy) : Prop where
  refs : p.gov.SameRefs p'.gov
  params : p'.params = p.params
  strategy : p'.strategy = p.strategy
  totalWeight : p'.totalWeight = p.totalWeight

theorem Kept.refl (p : UPSGroupPolicy) : Kept p p :=
  ⟨.refl _, rfl, rfl, rfl⟩

theorem Kept.trans {p₁ p₂ p₃ : UPSGroupPolicy} (h : Kept p₁ p₂) (h' : Kept p₂ p₃) : Kept p₁ p₃ :=
  ⟨h.refs.trans h'.refs, h'.params.trans h.params, h'.strategy.trans h.strategy,
    h'.totalWeight.trans h.totalWeight⟩

theorem MainInv.congr (h : MainInv p reg) (hservers : p'.gov.servers = p.gov.servers)
    (hparams : p'.params = p.params) (hstrategy : p'.strategy = p.strategy)
    (htotal : p'.totalWeight = p.totalWeight) : MainInv p' reg := by
  have hisMain : p'.isMain = p.isMain := by
    funext j
    simp [isMain, hparams]
  have hweight : p'.mainWeight = p.mainWeight := by
    funext j
    simp [mainWeight, weight, hisMain, hparams]
  refine ⟨?_, fun hweighted => ?_⟩
  · rw [hservers, h.servers, hisMain]
  · rw [htotal, hweight]
    exact h.total (hstrategy ▸ hweighted)

/-! ### The operations of the governance with the hooks -/

theorem withGov_recoverOneServer (p : UPSGroupPolicy) (g : Governance) (i : Nat) :
    { p with gov := g }.recoverOneServer i =
      { p.recoverOneServer i with gov := g.recoverOneServer } := by
  unfold recoverOneServer
  cases p.strategy <;> rfl

theorem withGov_fuseOneServer (p : UPSGroupPolicy) (g : Governance) (i : Nat) :
    { p with gov := g }.fuseOneServer i = { p.fuseOneServer i with gov := g.fuseOneServer } := by
  unfold fuseOneServer
  cases p.strategy <;> rfl

theorem recoverServerFromBreaker_eq (p : UPSGroupPolicy) (i : Nat) :
    p.recoverServerFromBreaker i = (p.gov.recoverServerFromBreaker i).map fun g =>
      { (if (p.gov.links.next (.server i)).isSome then p.recoverOneServer i else p) with gov := g } := by
  unfold recoverServerFromBreaker Governance.recoverServerFromBreaker Governance.modify
  cases p.gov.heap i with
  | none => rfl
  | some a =>
      simp only [Option.map_some, Option.bind_eq_bind, Option.bind_some, Governance.put_links]
      by_cases hlinked : (p.gov.links.next (.server i)).isSome = true
      · simp only [hlinked, if_true]
        cases (p.gov.put i { a with failCount := 0 }).unlink i with
        | none => rfl
        | some g => simp [withGov_recoverOneServer]
      · simp only [hlinked]
        rfl

theorem fuseServerToBreaker_eq (now : Int) (p : UPSGroupPolicy) (i : Nat) :
    fuseServerToBreaker now p i = (p.gov.fuseServerToBreaker now i).map fun g =>
      { (if (p.gov.links.next (.server i)).isNone then p.fuseOneServer i else p) with gov := g } := by
  unfold fuseServerToBreaker Governance.fuseServerToBreaker Governance.modify
  by_cases hfree : (p.gov.links.next (.server i)).isNone = true
  · simp only [hfree, if_true]
    cases p.gov.heap i with
    | none => rfl
    | some a =>
        simp only [Option.map_some, Option.bind_eq_bind, Option.bind_some, Governance.put_links]
        cases listAddTail p.gov.links (Node.server i) Node.head with
        | none => rfl
        | some links => simp [withGov_fuseOneServer]
  · simp only [hfree]
    rfl

theorem checkServer_eq (now : Int) (p : UPSGroupPolicy) {a : EndpointAddress}
    (ha : p.gov.heap i = some a) :
    checkServer now p i = (p.gov.checkServer now i).map fun g =>
      { (if a.brokenTimeout ≤ now ∧ a.maxFails ≤ a.failCount then p.recoverOneServer i else p) with
        gov := g } := by
  unfold checkServer Governance.checkServer reviveServer Governance.reviveServer Governance.modify
  simp only [ha, Option.bind_eq_bind, Option.bind_some, Option.map_some]
  by_cases htime : a.brokenTimeout ≤ now
  · by_cases hfused : a.maxFails ≤ a.failCount
    · simp only [htime, hfused, Option.pure_def, Option.bind_some,
        withGov_recoverOneServer, and_self, if_true]
      cases (p.gov.put i { a with failCount := a.maxFails - 1 }).recoverOneServer.unlink i <;> rfl
    · simp only [htime, hfused, if_true, Option.pure_def, Option.bind_some, and_false,
        if_false]
      cases p.gov.unlink i <;> rfl
  · simp only [htime, false_and, if_false]
    rfl

theorem retireServer_eq (p : UPSGroupPolicy) {a : EndpointAddress} (ha : p.gov.heap i = some a) :
    p.retireServer i = (p.gov.retireServer i).map fun g =>
      { (if a.failCount < a.maxFails then p.fuseOneServer i else p) with gov := g }.leaveGroup i := by
  unfold retireServer Governance.retireServer
  simp only [ha, Option.bind_eq_bind, Option.bind_some]
  by_cases hlive : a.failCount < a.maxFails
  · simp only [hlive, if_true]
    rw [show p.fuseOneServer i = { p.fuseOneServer i with gov := p.gov.fuseOneServer } from
      withGov_fuseOneServer p p.gov i]
    rfl
  · simp only [hlive, if_false]
    cases p.gov.removeServerFromBreaker i <;> rfl

/-! ### Their effect -/

/-- The hook that is called when server `i` comes to live, or not to live, as `b` says. -/
def hook (p : UPSGroupPolicy) (i : Nat) (b : Bool) : UPSGroupPolicy :=
  if p.gov.living i = b then p
  else if b then p.recoverOneServer i
  else p.fuseOneServer i

theorem hook_kept (p : UPSGroupPolicy) (i : Nat) (b : Bool) :
    (p.hook i b).params = p.params ∧ (p.hook i b).strategy = p.strategy ∧
      (p.hook i b).totalWeight = p.totalWeight := by
  unfold hook
  split
  · exact ⟨rfl, rfl, rfl⟩
  · split
    · rw [recoverOneServer_eq]
      exact ⟨rfl, rfl, rfl⟩
    · rw [fuseOneServer_eq]
      exact ⟨rfl, rfl, rfl⟩

theorem GroupInv.hook (h : GroupInv clean p reg p.gov.living) (hnodup : reg.Nodup) (hi : i ∈ reg)
    (b : Bool) : GroupInv clean (p.hook i b) reg (Function.update p.gov.living i b) := by
  unfold UPSGroupPolicy.hook
  split
  · rename_i hsame
    rwa [← hsame, Function.update_eq_self]
  · rename_i hdiffer
    cases b with
    | true => exact h.recover hnodup hi (Bool.not_eq_true _ ▸ hdiffer)
    | false => exact h.fuse hnodup hi (Bool.not_eq_false _ ▸ hdiffer)

/-- An operation of the governance that decides whether one server lives, with its hook. -/
theorem PolicyInv.hook (h : PolicyInv clean p reg breaker) (hi : i ∈ reg) {b : Bool}
    {g : Governance} {breaker' : List Nat} (hbreaker : g.BreakerInv reg.toFinset breaker')
    (hliving : g.living = Function.update p.gov.living i b)
    (hservers : g.servers = p.gov.servers) :
    PolicyInv clean { p.hook i b with gov := g } reg breaker' := by
  obtain ⟨hparams, hstrategy, htotal⟩ := p.hook_kept i b
  refine ⟨h.nodup, hbreaker, ?_, h.main.congr hservers hparams hstrategy htotal⟩
  have hgroups := (h.groups.hook h.nodup hi b).withGov g
  rwa [← hliving] at hgroups

theorem Kept.hook {g g' : Governance} (i : Nat) (b : Bool) (hrefs : g.SameRefs g') :
    Kept { p with gov := g } { p.hook i b with gov := g' } := by
  obtain ⟨hparams, hstrategy, htotal⟩ := p.hook_kept i b
  exact ⟨hrefs, hparams, hstrategy, htotal⟩

theorem recoverServerFromBreaker_spec (h : PolicyInv clean p reg breaker) (hi : i ∈ reg) :
    ∃ p' breaker', p.recoverServerFromBreaker i = some p' ∧ PolicyInv clean p' reg breaker' ∧
      Kept p p' := by
  have hreg := List.mem_toFinset.mpr hi
  obtain ⟨a, ha, _⟩ := h.breaker.fused i hreg
  obtain ⟨g, breaker', hrecover, hbreaker⟩ := Governance.recoverServerFromBreaker_spec h.breaker hreg
  have hliving := Governance.living_of_update (Governance.recoverServerFromBreaker_heap ha hrecover)
  simp only [a.maxFails_pos, decide_true] at hliving
  have hrefs := Governance.recoverServerFromBreaker_sameRefs hrecover
  -- the list tells that the server is fused exactly when its object does
  have hhook : (if (p.gov.links.next (.server i)).isSome then p.recoverOneServer i else p) =
      p.hook i true := by
    have hnext := h.breaker.next_isSome hreg
    unfold UPSGroupPolicy.hook
    rw [h.breaker.living_eq hreg]
    by_cases hmem : i ∈ breaker <;> simp [hnext, hmem]
  refine ⟨_, breaker', ?_, h.hook hi hbreaker hliving hrefs.servers, .hook i true hrefs⟩
  rw [recoverServerFromBreaker_eq, hrecover, Option.map_some, hhook]

/-- A registered server with many failures, `a`, is fused, unless it is. -/
theorem PolicyInv.fuse {a : EndpointAddress} (now : Int) (h : PolicyInv clean p reg breaker)
    (hi : i ∈ reg) (ha : a.maxFails ≤ a.failCount) :
    ∃ p' breaker', fuseServerToBreaker now { p with gov := p.gov.put i a } i = some p' ∧
      PolicyInv clean p' reg breaker' ∧ Kept { p with gov := p.gov.put i a } p' := by
  have hreg := List.mem_toFinset.mpr hi
  obtain ⟨g, breaker', hfuse, hbreaker⟩ := h.breaker.fuse now hreg ha
  have hrefs := Governance.fuseServerToBreaker_sameRefs hfuse
  have hliving : g.living = Function.update p.gov.living i false := by
    obtain ⟨a', hheap, hcount, hmax⟩ :=
      Governance.fuseServerToBreaker_heap (Function.update_self ..) hfuse
    rw [Governance.put_heap, Function.update_idem] at hheap
    rw [Governance.living_of_update hheap, hcount, hmax, decide_eq_false (UInt32.not_lt.mpr ha)]
  refine ⟨_, breaker', ?_, h.hook hi hbreaker hliving hrefs.servers, .hook i false hrefs⟩
  rw [fuseServerToBreaker_eq, hfuse, Option.map_some]
  have hnext := h.breaker.next_isSome hreg
  unfold UPSGroupPolicy.hook
  rw [h.breaker.living_eq hreg]
  by_cases hmem : i ∈ breaker
  · have hlinked : p.gov.links.next (.server i) ≠ none := Option.isSome_iff_ne_none.mp (hnext.mpr hmem)
    simp [hlinked, hmem]
  · have hfree := h.breaker.unlinked i hreg hmem
    simp [hfree, hmem, withGov_fuseOneServer]

theorem disableOne_spec (now : Int) (h : PolicyInv clean p reg breaker) (hi : i ∈ reg) :
    ∃ p' breaker', disableOne now p i = some p' ∧ PolicyInv clean p' reg breaker' ∧ Kept p p' := by
  obtain ⟨a, ha, _⟩ := h.breaker.fused i (List.mem_toFinset.mpr hi)
  obtain ⟨p', breaker', hfuse, h', hkept⟩ :=
    h.fuse (a := { a with failCount := a.maxFails }) now hi (UInt32.le_refl _)
  have hmodify := Governance.modify_of_heap ha fun a => { a with failCount := a.maxFails }
  have hput : Kept p { p with gov := p.gov.put i { a with failCount := a.maxFails } } :=
    ⟨Governance.modify_sameRefs hmodify fun _ => rfl, rfl, rfl, rfl⟩
  refine ⟨p', breaker', ?_, h', hput.trans hkept⟩
  unfold disableOne
  rw [hmodify]
  exact hfuse

/-- One pass of `check_breaker` keeps the server or recovers it. -/
theorem checkServer_spec (now : Int) {before after : List Nat}
    (h : PolicyInv clean p reg (before ++ i :: after)) :
    ∃ p' before', checkServer now p i = some p' ∧ PolicyInv clean p' reg (before' ++ after) ∧
      Kept p p' := by
  have hmem : i ∈ before ++ i :: after := by simp
  have hreg := h.breaker.registered i hmem
  have hi := List.mem_toFinset.mp hreg
  obtain ⟨a, ha, hiff⟩ := h.breaker.fused i hreg
  by_cases htime : a.brokenTimeout ≤ now
  · obtain ⟨g, before', hcheck, hbreaker⟩ := Governance.checkServer_spec now h.breaker
    have hrefs := Governance.checkServer_sameRefs hcheck
    have hfused := hiff.mp hmem
    have hdead : p.gov.living i = false := by
      rw [h.breaker.living_eq hreg]
      simp
    have hliving : g.living = Function.update p.gov.living i true := by
      rw [Governance.living_of_update (Governance.checkServer_heap ha hfused htime hcheck)]
      simp [UInt32.not_le.mp (not_le_sub_one a.maxFails_pos)]
    refine ⟨_, before', ?_, h.hook hi hbreaker hliving hrefs.servers, .hook i true hrefs⟩
    rw [checkServer_eq now p ha, hcheck, Option.map_some, UPSGroupPolicy.hook, hdead]
    simp [htime, hfused]
  · refine ⟨p, before ++ [i], ?_, by simpa using h, .refl p⟩
    unfold checkServer
    simp [ha, htime]

/-- From any place in the list, `list_for_each_safe` goes through the rest of it. -/
theorem loop_checkBreakerStep (now : Int) (before after : List Nat)
    (h : PolicyInv clean p reg (before ++ after)) (pos : Node)
    (hpos : pos = (after.map Node.server).headD .head) :
    ∃ fuel p' breaker', loop (checkBreakerStep now) fuel (p, pos, p.gov.links.next pos) =
        some (some p') ∧ PolicyInv clean p' reg breaker' ∧ Kept p p' := by
  induction after generalizing p before pos with
  | nil =>
      subst hpos
      exact ⟨1, p, before, rfl, by simpa using h, .refl p⟩
  | cons i after ih =>
      obtain rfl : pos = .server i := hpos
      obtain ⟨p₁, before', hcheck, h₁, hkept₁⟩ := checkServer_spec now h
      obtain ⟨fuel, p', breaker', hloop, h', hkept⟩ := ih before' h₁ _ rfl
      have hlist := h.breaker.list
      rw [List.map_append, List.map_cons] at hlist
      refine ⟨fuel + 1, p', breaker', ?_, h', hkept₁.trans hkept⟩
      rw [loop_next (t := (p₁, (after.map Node.server).headD .head,
        p₁.gov.links.next ((after.map Node.server).headD .head)))]
      · exact hloop
      · simp only [checkBreakerStep, hcheck, hlist.next_after]

theorem checkBreaker_spec (now : Int) (h : PolicyInv clean p reg breaker) :
    ∃ fuel p' breaker', checkBreaker fuel now p = some p' ∧ PolicyInv clean p' reg breaker' ∧
      Kept p p' := by
  obtain ⟨fuel, p', breaker', hloop, h', hkept⟩ := loop_checkBreakerStep now [] breaker h _ rfl
  by_cases hempty : listEmpty p.gov.links .head = true
  · exact ⟨0, p, breaker, if_pos hempty, h, .refl p⟩
  · refine ⟨fuel, p', breaker', ?_, h', hkept⟩
    unfold checkBreaker
    rw [if_neg hempty, h.breaker.list.next_head]
    simp only [Option.bind_eq_bind, Option.bind_some]
    rw [hloop]
    rfl

/-- Several registered servers, one after the other. -/
theorem foldlM_spec {f : UPSGroupPolicy → Nat → Option UPSGroupPolicy}
    (hf : ∀ {p breaker i}, PolicyInv clean p reg breaker → i ∈ reg →
      ∃ p' breaker', f p i = some p' ∧ PolicyInv clean p' reg breaker' ∧ Kept p p')
    {ids : List Nat} (hids : ∀ i ∈ ids, i ∈ reg) (h : PolicyInv clean p reg breaker) :
    ∃ p' breaker', ids.foldlM f p = some p' ∧ PolicyInv clean p' reg breaker' ∧ Kept p p' := by
  induction ids generalizing p breaker with
  | nil => exact ⟨p, breaker, rfl, h, .refl p⟩
  | cons i ids ih =>
      obtain ⟨p₁, breaker₁, hfirst, h₁, hkept₁⟩ := hf h (hids i List.mem_cons_self)
      obtain ⟨p', breaker', hrest, h', hkept⟩ :=
        ih (fun j hj => hids j (List.mem_cons_of_mem i hj)) h₁
      exact ⟨p', breaker', by rw [List.foldlM_cons, hfirst]; exact hrest, h', hkept₁.trans hkept⟩

end UPSGroupPolicy

end Workflow.Nameservice
