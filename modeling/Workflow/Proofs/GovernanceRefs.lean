/-
Module: Workflow.Proofs.GovernanceRefs
Layer: Proofs
Purpose: Who holds a server object. An object is referred to once by its registration and once by
  each outstanding selection; in every run its `ref` is that number as long as it is positive, so
  the object is alive. Operations of the breaker do not touch any of this (`SameRefs`).
Trusted boundary: none
Main exports: SameRefs, Counted, refs, RefInv, exec_refInv
-/
import Workflow.Nameservice.ServiceGovernance
import Mathlib.Data.List.Nodup

namespace Workflow.Nameservice

open Workflow.Lib

namespace Governance

/-- What registration and reference counting see of an object. -/
def refView (a : EndpointAddress) : String × UInt32 :=
  (a.address, a.ref)

/-- The same servers under the same addresses with the same references. -/
structure SameRefs (g g' : Governance) : Prop where
  servers : g'.servers = g.servers
  serverMap : g'.serverMap = g.serverMap
  fresh : g'.fresh = g.fresh
  heap : ∀ i, (g'.heap i).map refView = (g.heap i).map refView

theorem SameRefs.refl (g : Governance) : SameRefs g g :=
  ⟨rfl, rfl, rfl, fun _ => rfl⟩

theorem SameRefs.trans {g g' g'' : Governance} (h : SameRefs g g') (h' : SameRefs g' g'') :
    SameRefs g g'' :=
  ⟨h'.servers.trans h.servers, h'.serverMap.trans h.serverMap, h'.fresh.trans h.fresh,
    fun i => (h'.heap i).trans (h.heap i)⟩

@[simp] theorem put_heap (g : Governance) (i : Nat) (a : EndpointAddress) :
    (g.put i a).heap = Function.update g.heap i (some a) := rfl

@[simp] theorem put_links (g : Governance) (i : Nat) (a : EndpointAddress) :
    (g.put i a).links = g.links := rfl

@[simp] theorem put_servers (g : Governance) (i : Nat) (a : EndpointAddress) :
    (g.put i a).servers = g.servers := rfl

@[simp] theorem put_serverMap (g : Governance) (i : Nat) (a : EndpointAddress) :
    (g.put i a).serverMap = g.serverMap := rfl

@[simp] theorem put_nalives (g : Governance) (i : Nat) (a : EndpointAddress) :
    (g.put i a).nalives = g.nalives := rfl

@[simp] theorem put_fresh (g : Governance) (i : Nat) (a : EndpointAddress) :
    (g.put i a).fresh = g.fresh := rfl

@[simp] theorem put_put (g : Governance) (i : Nat) (a b : EndpointAddress) :
    (g.put i a).put i b = g.put i b := by
  simp [put]

/-- A server that is changed is there. -/
theorem modify_eq_some {g g' : Governance} {i : Nat} {f : EndpointAddress → EndpointAddress}
    (h : g.modify i f = some g') :
    ∃ a, g.heap i = some a ∧ g' = g.put i (f a) := by
  obtain ⟨a, ha, hg⟩ := Option.map_eq_some_iff.mp h
  exact ⟨a, ha, hg.symm⟩

/-- A server that is there can be changed. -/
theorem modify_of_heap {g : Governance} {i : Nat} {a : EndpointAddress} (h : g.heap i = some a)
    (f : EndpointAddress → EndpointAddress) :
    g.modify i f = some (g.put i (f a)) := by
  simp [modify, h]

/-! ### The breaker keeps registrations and references -/

/-- A change of anything but the counter and the address. -/
theorem modify_sameRefs {g g' : Governance} {i : Nat} {f : EndpointAddress → EndpointAddress}
    (h : g.modify i f = some g') (hf : ∀ a, refView (f a) = refView a) : SameRefs g g' := by
  obtain ⟨a, ha, rfl⟩ := modify_eq_some h
  refine ⟨rfl, rfl, rfl, fun j => ?_⟩
  rcases eq_or_ne j i with rfl | hne
  · simp [ha, hf]
  · simp [hne]

/-- Taking a server out of the breaker list. -/
theorem unlink_sameRefs {g g' : Governance} {i : Nat} (h : g.unlink i = some g') :
    SameRefs g g' := by
  obtain ⟨links, _, hg⟩ := Option.bind_eq_some_iff.mp h
  obtain rfl := Option.some.inj hg
  exact ⟨rfl, rfl, rfl, fun _ => rfl⟩

theorem recoverServerFromBreaker_sameRefs {g g' : Governance} {i : Nat}
    (h : g.recoverServerFromBreaker i = some g') : SameRefs g g' := by
  obtain ⟨g₁, hmod, h⟩ := Option.bind_eq_some_iff.mp h
  have h₁ : SameRefs g g₁ := modify_sameRefs hmod fun _ => rfl
  split at h
  · obtain ⟨g₂, hunlink, h⟩ := Option.bind_eq_some_iff.mp h
    obtain rfl := Option.some.inj h
    exact h₁.trans ((unlink_sameRefs hunlink).trans ⟨rfl, rfl, rfl, fun _ => rfl⟩)
  · obtain rfl := Option.some.inj h
    exact h₁

theorem fuseServerToBreaker_sameRefs {now : Int} {g g' : Governance} {i : Nat}
    (h : fuseServerToBreaker now g i = some g') : SameRefs g g' := by
  unfold fuseServerToBreaker at h
  split at h
  · obtain ⟨g₁, hmod, h⟩ := Option.bind_eq_some_iff.mp h
    obtain ⟨links, _, h⟩ := Option.bind_eq_some_iff.mp h
    obtain rfl := Option.some.inj h
    exact (modify_sameRefs hmod fun _ => rfl).trans ⟨rfl, rfl, rfl, fun _ => rfl⟩
  · obtain rfl := Option.some.inj h
    exact .refl _

theorem reviveServer_sameRefs {g g' : Governance} {i : Nat} (h : g.reviveServer i = some g') :
    SameRefs g g' := by
  obtain ⟨a, _, h⟩ := Option.bind_eq_some_iff.mp h
  split at h
  · obtain ⟨g₁, hmod, h⟩ := Option.bind_eq_some_iff.mp h
    obtain rfl := Option.some.inj h
    exact (modify_sameRefs hmod fun _ => rfl).trans ⟨rfl, rfl, rfl, fun _ => rfl⟩
  · obtain rfl := Option.some.inj h
    exact .refl _

theorem checkServer_sameRefs {now : Int} {g g' : Governance} {i : Nat}
    (h : checkServer now g i = some g') : SameRefs g g' := by
  obtain ⟨a, _, h⟩ := Option.bind_eq_some_iff.mp h
  split at h
  · obtain ⟨g₁, hrevive, hunlink⟩ := Option.bind_eq_some_iff.mp h
    exact (reviveServer_sameRefs hrevive).trans (unlink_sameRefs hunlink)
  · obtain rfl := Option.some.inj h
    exact .refl _

/-- Nothing that the breaker does touches a counter or an address. -/
theorem checkBreaker_sameRefs {fuel : Nat} {now : Int} {g g' : Governance}
    (h : checkBreaker fuel now g = some g') : SameRefs g g' := by
  unfold checkBreaker at h
  split at h
  · obtain rfl := Option.some.inj h
    exact .refl _
  · obtain ⟨pos, _, h⟩ := Option.bind_eq_some_iff.mp h
    obtain ⟨r, hloop, rfl⟩ := Option.bind_eq_some_iff.mp h
    refine loop_invariant (P := fun s => SameRefs g s.1)
      (Q := fun r => ∀ g', r = some g' → SameRefs g g') ?_ ?_ (SameRefs.refl g) hloop g' rfl
    · rintro ⟨g₁, node, tmp⟩ ⟨g₂, node', tmp'⟩ hg hstep
      unfold checkBreakerStep at hstep
      split at hstep
      · cases hstep
      · rename_i heq
        cases heq
        split at hstep
        · rename_i hcheck
          cases hstep
          exact hg.trans (checkServer_sameRefs hcheck)
        · cases hstep
    · rintro ⟨g₁, node, tmp⟩ r hg hstep g₂ rfl
      unfold checkBreakerStep at hstep
      split at hstep
      · rename_i heq
        cases heq
        cases hstep
        exact hg
      · split at hstep <;> cases hstep

theorem retireServer_sameRefs {g g' : Governance} {i : Nat} (h : g.retireServer i = some g') :
    SameRefs g g' := by
  obtain ⟨a, _, h⟩ := Option.bind_eq_some_iff.mp h
  split at h
  · obtain rfl := Option.some.inj h
    exact ⟨rfl, rfl, rfl, fun _ => rfl⟩
  · obtain ⟨links, _, h⟩ := Option.bind_eq_some_iff.mp h
    obtain rfl := Option.some.inj h
    exact ⟨rfl, rfl, rfl, fun _ => rfl⟩

theorem disableOne_sameRefs {now : Int} {g g' : Governance} {i : Nat}
    (h : disableOne now g i = some g') : SameRefs g g' := by
  obtain ⟨g₁, hmod, h⟩ := Option.bind_eq_some_iff.mp h
  exact (modify_sameRefs hmod fun _ => rfl).trans (fuseServerToBreaker_sameRefs h)

/-- A loop of such steps is such a step. -/
theorem foldlM_sameRefs {f : Governance → Nat → Option Governance}
    (hf : ∀ {g g' i}, f g i = some g' → SameRefs g g') {ids : List Nat} {g g' : Governance}
    (h : ids.foldlM f g = some g') : SameRefs g g' := by
  induction ids generalizing g with
  | nil =>
      obtain rfl := Option.some.inj h
      exact .refl _
  | cons i ids ih =>
      rw [List.foldlM_cons] at h
      obtain ⟨g₁, hfirst, hrest⟩ := Option.bind_eq_some_iff.mp h
      exact (hf hfirst).trans (ih hrest)

/-! ### References -/

/-- Every object that is still referred to is alive and counts its references. -/
def Counted (g : Governance) (refs : Nat → Nat) : Prop :=
  ∀ i, 0 < refs i → ∃ a, g.heap i = some a ∧ a.ref.toNat = refs i

/-- An object is referred to by its registration and by outstanding selections. -/
def refs (servers : List Nat) (outstanding : Nat → Nat) (i : Nat) : Nat :=
  (if i ∈ servers then 1 else 0) + outstanding i

def addressOf (g : Governance) (i : Nat) : Option String :=
  (g.heap i).map EndpointAddress.address

/-- Registrations and references fit together. -/
structure RefInv (g : Governance) (outstanding : Nat → Nat) : Prop where
  nodup : g.servers.Nodup
  map : ∀ address, g.serverMap address = g.servers.filter fun i => g.addressOf i = some address
  counted : Counted g (refs g.servers outstanding)
  old : ∀ i, 0 < refs g.servers outstanding i → i < g.fresh

/-- The addresses are the same. -/
theorem SameRefs.addressOf {g g' : Governance} (h : SameRefs g g') (i : Nat) :
    g'.addressOf i = g.addressOf i := by
  have hheap := congrArg (Option.map Prod.fst) (h.heap i)
  simpa [Governance.addressOf, Option.map_map, Function.comp_def, refView] using hheap

/-- What was counted is still counted. -/
theorem SameRefs.counted {g g' : Governance} (h : SameRefs g g') {r : Nat → Nat}
    (hc : Counted g r) : Counted g' r := by
  intro i hi
  obtain ⟨a, ha, hr⟩ := hc i hi
  have hheap := h.heap i
  rw [ha] at hheap
  obtain ⟨a', ha', hview⟩ := Option.map_eq_some_iff.mp hheap
  refine ⟨a', ha', ?_⟩
  rw [← hr]
  exact congrArg (fun v => UInt32.toNat v.2) hview

/-- The invariant only looks at what such a step leaves alone. -/
theorem RefInv.sameRefs {g g' : Governance} {out : Nat → Nat} (h : SameRefs g g')
    (hi : RefInv g out) : RefInv g' out := by
  refine ⟨h.servers ▸ hi.nodup, fun address => ?_, ?_, fun i hr => ?_⟩
  · rw [h.serverMap, h.servers, hi.map]
    simp only [h.addressOf]
  · rw [h.servers]
    exact h.counted hi.counted
  · rw [h.fresh]
    rw [h.servers] at hr
    exact hi.old i hr

/-- A registered server is held once by the registration. -/
theorem refs_of_mem {servers : List Nat} {i : Nat} (h : i ∈ servers) (out : Nat → Nat) :
    refs servers out i = 1 + out i := by
  simp [refs, h]

/-- A server that is not registered is held by those who use it alone. -/
theorem refs_of_notMem {servers : List Nat} {i : Nat} (h : i ∉ servers) (out : Nat → Nat) :
    refs servers out i = out i := by
  simp [refs, h]

/-- A registered server is there. -/
theorem RefInv.heap_of_mem {g : Governance} {out : Nat → Nat} (h : RefInv g out) {i : Nat}
    (hi : i ∈ g.servers) : ∃ a, g.heap i = some a ∧ a.ref.toNat = 1 + out i := by
  rw [← refs_of_mem hi]
  exact h.counted i (by rw [refs_of_mem hi]; omega)

/-- The map depends on the addresses of registered servers only. -/
theorem RefInv.serverMap_eq {g g' : Governance} {out : Nat → Nat} (hinv : RefInv g out)
    (h : ∀ i ∈ g.servers, g'.addressOf i = g.addressOf i) (address : String) :
    g.serverMap address = g.servers.filter fun i => g'.addressOf i = some address := by
  rw [hinv.map]
  exact List.filter_congr fun i hi => by rw [h i hi]

/-- The map knows exactly the registered servers, each under its address. -/
theorem RefInv.mem_serverMap {g : Governance} {out : Nat → Nat} (h : RefInv g out) {i : Nat}
    {address : String} :
    i ∈ g.serverMap address ↔ i ∈ g.servers ∧ g.addressOf i = some address := by
  simp [h.map address]

/-- Taking back one reference. -/
theorem unref_of_heap {g : Governance} {i : Nat} {a : EndpointAddress} (h : g.heap i = some a) :
    g.unref i = some (if a.ref - 1 = 0 then g.delete i
      else g.put i { a with ref := a.ref - 1 }) := by
  unfold unref
  simp only [h, Option.bind_eq_bind, Option.bind_some]
  split
  · rfl
  · exact modify_of_heap h _

/-- The counter reaches zero with the last holder. -/
theorem sub_one_eq_zero_iff {r : UInt32} {n : Nat} (h : r.toNat = n) (hpos : 0 < n) :
    r - 1 = 0 ↔ n = 1 := by
  rw [← UInt32.toNat_inj, UInt32.toNat_sub, h]
  have hlt : n < 2 ^ 32 := h ▸ r.toNat_lt
  simp
  omega

theorem toNat_sub_one {r : UInt32} {n : Nat} (h : r.toNat = n) (hpos : 0 < n) :
    (r - 1).toNat = n - 1 := by
  have hlt : n < 2 ^ 32 := h ▸ r.toNat_lt
  rw [UInt32.toNat_sub, h]
  simp
  omega

theorem toNat_add_one {r : UInt32} (h : r.toNat + 1 < 2 ^ 32) : (r + 1).toNat = r.toNat + 1 := by
  rw [UInt32.toNat_add]
  simp
  omega

/-- An object that gives back one reference counts the others, or is deleted with the last one. -/
theorem unref_counted {g g' : Governance} {i : Nat} {r : Nat → Nat} (hc : Counted g r)
    (hpos : 0 < r i) (h : g.unref i = some g') :
    Counted g' (Function.update r i (r i - 1)) := by
  obtain ⟨a, ha, hr⟩ := hc i hpos
  rw [unref_of_heap ha, Option.some.injEq] at h
  subst h
  intro j hj
  rcases eq_or_ne j i with rfl | hne
  · rw [Function.update_self] at hj ⊢
    rw [if_neg (by rw [sub_one_eq_zero_iff hr hpos]; omega)]
    exact ⟨_, Function.update_self .., toNat_sub_one hr hpos⟩
  · rw [Function.update_of_ne hne] at hj ⊢
    obtain ⟨b, hb, hrb⟩ := hc j hj
    refine ⟨b, ?_, hrb⟩
    split
    · simp [delete, hne, hb]
    · simp [hne, hb]

/-- Giving one server back leaves the registration and the other servers as they are. -/
theorem unref_frame {g g' : Governance} {i : Nat} (h : g.unref i = some g') :
    g'.servers = g.servers ∧ g'.serverMap = g.serverMap ∧ g'.fresh = g.fresh ∧
      ∀ j ≠ i, g'.heap j = g.heap j := by
  obtain ⟨a, ha, _⟩ := Option.bind_eq_some_iff.mp h
  rw [unref_of_heap ha, Option.some.injEq] at h
  subst h
  split
  · exact ⟨rfl, rfl, rfl, fun j hne => by simp [delete, hne]⟩
  · exact ⟨rfl, rfl, rfl, fun j hne => by simp [hne]⟩

/-! ### The operations keep registrations and references -/

/-- One user less. -/
theorem refs_update (servers : List Nat) {out : Nat → Nat} {i : Nat} (h : 0 < out i) :
    refs servers (Function.update out i (out i - 1)) =
      Function.update (refs servers out) i (refs servers out i - 1) := by
  funext j
  rcases eq_or_ne j i with rfl | hne
  · simp only [refs, Function.update_self]
    omega
  · simp [refs, hne]

/-- One outstanding selection is taken back. -/
theorem RefInv.unref {g g' : Governance} {out : Nat → Nat} {i : Nat} (hinv : RefInv g out)
    (hpos : 0 < out i) (h : g.unref i = some g') :
    RefInv g' (Function.update out i (out i - 1)) := by
  obtain ⟨hservers, hmap, hfresh, hheap⟩ := unref_frame h
  have hrefs : 0 < refs g.servers out i := by
    unfold refs
    omega
  have hcounted := unref_counted hinv.counted hrefs h
  rw [← refs_update _ hpos] at hcounted
  -- a registered object stays: the registration is one more reference
  have haddress : ∀ j ∈ g.servers, g'.addressOf j = g.addressOf j := by
    intro j hj
    rcases eq_or_ne j i with rfl | hne
    · obtain ⟨a, ha, hr⟩ := hinv.heap_of_mem hj
      rw [unref_of_heap ha, if_neg (by rw [sub_one_eq_zero_iff hr (by omega)]; omega),
        Option.some.injEq] at h
      simp [← h, addressOf, ha]
    · simp [addressOf, hheap j hne]
  refine ⟨hservers ▸ hinv.nodup, fun address => ?_, hservers ▸ hcounted, fun j hj => ?_⟩
  · rw [hmap, hservers]
    exact hinv.serverMap_eq haddress address
  · rw [hservers, refs_update _ hpos] at hj
    rw [hfresh]
    refine hinv.old j ?_
    rcases eq_or_ne j i with rfl | hne
    · exact hrefs
    · rwa [Function.update_of_ne hne] at hj

/-- `success` gives the server back. -/
theorem RefInv.success {g g' : Governance} {out : Nat → Nat} {i : Nat} (hinv : RefInv g out)
    (hpos : 0 < out i) (h : g.success i = some g') :
    RefInv g' (Function.update out i (out i - 1)) := by
  obtain ⟨g₁, hrecover, hunref⟩ := Option.bind_eq_some_iff.mp h
  exact (hinv.sameRefs (recoverServerFromBreaker_sameRefs hrecover)).unref hpos hunref

/-- `failed` takes the reference back like `success`; the rest is a matter of the breaker. -/
theorem failed_unref {now : Int} {g g' : Governance} {i : Nat} (h : failed now g i = some g') :
    ∃ g₁, g.unref i = some g₁ ∧ SameRefs g₁ g' := by
  obtain ⟨a, ha, h⟩ := Option.bind_eq_some_iff.mp h
  refine ⟨_, unref_of_heap ha, ?_⟩
  split at h
  · rename_i hzero
    rw [if_pos hzero, ← Option.some.inj h]
    exact .refl _
  · rename_i hzero
    rw [if_neg hzero]
    rw [modify_of_heap ha] at h
    simp only [Option.bind_eq_bind, Option.bind_some] at h
    have hcount : ∀ b : EndpointAddress, refView b = refView { a with ref := a.ref - 1 } →
        SameRefs (g.put i { a with ref := a.ref - 1 }) (g.put i b) := by
      intro b hb
      refine ⟨rfl, rfl, rfl, fun j => ?_⟩
      rcases eq_or_ne j i with rfl | hne
      · simp [hb]
      · simp [hne]
    refine (hcount { a with ref := a.ref - 1, failCount := a.failCount + 1 } rfl).trans ?_
    split at h
    · exact fuseServerToBreaker_sameRefs h
    · rw [← Option.some.inj h]
      exact .refl _

/-- `failed` gives the server back, fused or not. -/
theorem RefInv.failed {now : Int} {g g' : Governance} {out : Nat → Nat} {i : Nat}
    (hinv : RefInv g out) (hpos : 0 < out i) (h : failed now g i = some g') :
    RefInv g' (Function.update out i (out i - 1)) := by
  obtain ⟨g₁, hunref, hsame⟩ := failed_unref h
  exact (hinv.unref hpos hunref).sameRefs hsame

/-- What `select` does: it checks the breaker, and may take a reference to a registered server. -/
theorem select_cases {fuel : Nat} {now : Int} {rand another : Nat} {g g' : Governance}
    {x : Option Nat} (h : select fuel now rand another g = some (g', x)) :
    (x = none ∧ (g' = g ∨ checkBreaker fuel now g = some g')) ∨
      ∃ (i : Nat) (g₁ : Governance), x = some i ∧ checkBreaker fuel now g = some g₁ ∧
        i ∈ g₁.servers ∧ g₁.modify i (fun a => { a with ref := a.ref + 1 }) = some g' := by
  unfold select at h
  split at h
  · cases h
    exact Or.inl ⟨rfl, Or.inl rfl⟩
  · obtain ⟨g₁, hcheck, h⟩ := Option.bind_eq_some_iff.mp h
    split at h
    · cases h
      exact Or.inl ⟨rfl, Or.inr hcheck⟩
    · obtain ⟨i, haddr, h⟩ := Option.bind_eq_some_iff.mp h
      obtain ⟨g₂, hmod, h⟩ := Option.bind_eq_some_iff.mp h
      cases h
      refine Or.inr ⟨i, g₁, rfl, hcheck, ?_, hmod⟩
      obtain ⟨first, hfirst, haddr⟩ := Option.bind_eq_some_iff.mp haddr
      obtain ⟨a, _, haddr⟩ := Option.bind_eq_some_iff.mp haddr
      split at haddr
      · exact List.mem_of_getElem? haddr
      · cases haddr
        exact List.mem_of_getElem? hfirst

/-- One more outstanding selection. -/
theorem RefInv.take {g g' : Governance} {out : Nat → Nat} {i : Nat} (hinv : RefInv g out)
    (hi : i ∈ g.servers) (hlt : 1 + out i + 1 < 2 ^ 32)
    (h : g.modify i (fun a => { a with ref := a.ref + 1 }) = some g') :
    RefInv g' (Function.update out i (out i + 1)) := by
  obtain ⟨a, ha, rfl⟩ := modify_eq_some h
  obtain ⟨a', ha', hr⟩ := hinv.heap_of_mem hi
  obtain rfl : a = a' := Option.some.inj (ha.symm.trans ha')
  refine ⟨hinv.nodup, fun address => ?_, fun j hj => ?_, fun j hj => ?_⟩
  · refine hinv.serverMap_eq (fun j _ => ?_) address
    rcases eq_or_ne j i with rfl | hne
    · simp [addressOf, ha]
    · simp [addressOf, hne]
  · rcases eq_or_ne j i with rfl | hne
    · refine ⟨_, Function.update_self .., ?_⟩
      rw [put_servers, refs_of_mem hi, Function.update_self, toNat_add_one (by omega), hr]
      omega
    · rw [refs, Function.update_of_ne hne] at hj ⊢
      obtain ⟨b, hb, hrb⟩ := hinv.counted j hj
      exact ⟨b, by simp [hne, hb], hrb⟩
  · rcases eq_or_ne j i with rfl | hne
    · exact hinv.old j (by rw [refs_of_mem hi]; omega)
    · rw [refs, Function.update_of_ne hne] at hj
      exact hinv.old j hj

theorem addServer_eq (g : Governance) (address : String) (maxFails : UInt32) :
    g.addServer address maxFails = some (recoverOneServer
      { g.put g.fresh (.new address maxFails) with
        fresh := g.fresh + 1
        serverMap := Function.update g.serverMap address (g.serverMap address ++ [g.fresh])
        servers := g.servers ++ [g.fresh] }) := by
  simp [Governance.addServer, addServerLocked, alloc, EndpointAddress.new]

/-- A new server starts with the one reference of the registration. -/
theorem RefInv.addServer {g g' : Governance} {out : Nat → Nat} {address : String}
    {maxFails : UInt32} (hinv : RefInv g out) (h : g.addServer address maxFails = some g') :
    RefInv g' out := by
  have hfresh : ∀ i, g.fresh ≤ i → i ∉ g.servers ∧ out i = 0 := by
    intro i hi
    have hold := hinv.old i
    unfold refs at hold
    constructor
    · intro hmem
      rw [if_pos hmem] at hold
      omega
    · split at hold <;> omega
  obtain ⟨hnew, hnone⟩ := hfresh g.fresh le_rfl
  have hne : ∀ i ∈ g.servers, i ≠ g.fresh := fun i hi heq => hnew (heq ▸ hi)
  obtain rfl := Option.some.inj ((addServer_eq g address maxFails).symm.trans h)
  refine ⟨?_, fun a => ?_, fun i hi => ?_, fun i hi => ?_⟩
  · exact List.nodup_append.mpr ⟨hinv.nodup, by simp, by simpa using hne⟩
  · rw [recoverOneServer, List.filter_append,
      ← hinv.serverMap_eq (fun i hi => by simp [addressOf, hne i hi])]
    rcases eq_or_ne a address with rfl | hadd
    · simp [EndpointAddress.new, addressOf]
    · simp [EndpointAddress.new, addressOf, hadd, hadd.symm]
  · rcases eq_or_ne i g.fresh with rfl | hi'
    · refine ⟨_, Function.update_self .., ?_⟩
      simp [refs, recoverOneServer, EndpointAddress.new, hnone]
    · have hrefs : refs (g.servers ++ [g.fresh]) out i = refs g.servers out i := by
        simp [refs, hi']
      simp only [recoverOneServer] at hi ⊢
      rw [hrefs] at hi ⊢
      obtain ⟨b, hb, hrb⟩ := hinv.counted i hi
      exact ⟨b, by simp [hi', hb], hrb⟩
  · simp only [recoverOneServer] at hi ⊢
    rcases eq_or_ne i g.fresh with rfl | hi'
    · omega
    · have hrefs : refs (g.servers ++ [g.fresh]) out i = refs g.servers out i := by
        simp [refs, hi']
      rw [hrefs] at hi
      have := hinv.old i hi
      omega

/-- The servers of other addresses are kept. -/
theorem keepOthers_eq {g : Governance} {address : String} {ids kept : List Nat}
    (h : g.keepOthers address ids = some kept) :
    kept = ids.filter fun i => ¬ g.addressOf i = some address := by
  induction ids generalizing kept with
  | nil =>
      obtain rfl := Option.some.inj h
      rfl
  | cons i ids ih =>
      obtain ⟨a, ha, h⟩ := Option.bind_eq_some_iff.mp h
      obtain ⟨rest, hrest, h⟩ := Option.bind_eq_some_iff.mp h
      obtain rfl := Option.some.inj h
      rw [ih hrest, List.filter_cons]
      simp [addressOf, ha]

/-- Several objects give back one reference each. -/
theorem foldlM_unref {ids : List Nat} {g g' : Governance} {r : Nat → Nat} (hnodup : ids.Nodup)
    (hpos : ∀ i ∈ ids, 0 < r i) (hc : Counted g r) (h : ids.foldlM unref g = some g') :
    Counted g' (fun i => if i ∈ ids then r i - 1 else r i) ∧ g'.servers = g.servers ∧
      g'.serverMap = g.serverMap ∧ g'.fresh = g.fresh ∧ ∀ j ∉ ids, g'.heap j = g.heap j := by
  induction ids generalizing g r with
  | nil =>
      obtain rfl := Option.some.inj h
      simpa using hc
  | cons i ids ih =>
      rw [List.foldlM_cons] at h
      obtain ⟨g₁, hfirst, hrest⟩ := Option.bind_eq_some_iff.mp h
      obtain ⟨hi, hnodup⟩ := List.nodup_cons.mp hnodup
      have hne : ∀ j ∈ ids, j ≠ i := fun j hj heq => hi (heq ▸ hj)
      obtain ⟨hservers, hmap, hfresh, hheap⟩ := unref_frame hfirst
      have hpos' : ∀ j ∈ ids, 0 < Function.update r i (r i - 1) j := by
        intro j hj
        rw [Function.update_of_ne (hne j hj)]
        exact hpos j (List.mem_cons_of_mem i hj)
      obtain ⟨hc', hservers', hmap', hfresh', hheap'⟩ :=
        ih hnodup hpos' (unref_counted hc (hpos i List.mem_cons_self) hfirst) hrest
      refine ⟨?_, hservers'.trans hservers, hmap'.trans hmap, hfresh'.trans hfresh, fun j hj => ?_⟩
      · have hcount : (fun j => if j ∈ ids then Function.update r i (r i - 1) j - 1
            else Function.update r i (r i - 1) j) =
            fun j => if j ∈ i :: ids then r j - 1 else r j := by
          funext j
          rcases eq_or_ne j i with rfl | hji
          · simp [hi]
          · simp [hji]
        rw [← hcount]
        exact hc'
      · rw [List.mem_cons, not_or] at hj
        rw [hheap' j hj.2, hheap j hj.1]

/-- A removed server is no longer referred to by its registration. -/
theorem refs_filter {g : Governance} {out : Nat → Nat} (hinv : RefInv g out) (address : String) :
    refs (g.servers.filter fun i => ¬ g.addressOf i = some address) out =
      fun i => if i ∈ g.serverMap address then refs g.servers out i - 1
        else refs g.servers out i := by
  funext i
  simp only [hinv.mem_serverMap, refs, List.mem_filter, decide_eq_true_eq]
  by_cases hmem : i ∈ g.servers <;> by_cases hadd : g.addressOf i = some address <;>
    simp [hmem, hadd]

/-- A server that is removed loses the reference of the registration. -/
theorem RefInv.removeServerLocked {g g' : Governance} {out : Nat → Nat} {address : String}
    (hinv : RefInv g out) (h : g.removeServerLocked address = some g') : RefInv g' out := by
  obtain ⟨g₁, hretire, h⟩ := Option.bind_eq_some_iff.mp h
  obtain ⟨kept, hkept, hunref⟩ := Option.bind_eq_some_iff.mp h
  have hsame : SameRefs g g₁ := foldlM_sameRefs retireServer_sameRefs hretire
  have hinv₁ := hinv.sameRefs hsame
  rw [← hsame.serverMap] at hunref
  have hnodup : (g₁.serverMap address).Nodup := by
    rw [hinv₁.map]
    exact hinv₁.nodup.filter _
  have hpos : ∀ i ∈ g₁.serverMap address, 0 < refs g₁.servers out i := by
    intro i hi
    rw [refs_of_mem (hinv₁.mem_serverMap.mp hi).1]
    omega
  obtain ⟨hc, hservers, hmap, hfresh, hheap⟩ := foldlM_unref hnodup hpos
    (by exact hinv₁.counted) hunref
  have hkept : kept = g₁.servers.filter fun i => ¬ g₁.addressOf i = some address :=
    keepOthers_eq hkept
  have haddress : ∀ i ∈ kept, g'.addressOf i = g₁.addressOf i := by
    intro i hi
    simp only [hkept, List.mem_filter, decide_eq_true_eq] at hi
    rw [addressOf, hheap i (fun hmem => hi.2 (hinv₁.mem_serverMap.mp hmem).2)]
    rfl
  simp only at hservers hmap hfresh
  refine ⟨?_, fun a => ?_, ?_, fun i hi => ?_⟩
  · rw [hservers, hkept]
    exact hinv₁.nodup.filter _
  · rw [hservers, hmap, List.filter_congr (fun i hi => by rw [haddress i hi])]
    rcases eq_or_ne a address with rfl | hne
    · simp [hkept, List.filter_filter]
    · rw [Function.update_of_ne hne, hinv₁.map, hkept, List.filter_filter]
      refine List.filter_congr fun i _ => ?_
      rcases eq_or_ne (g₁.addressOf i) (some a) with heq | heq
      · simp [heq, hne]
      · simp [heq]
  · rw [hservers, hkept, refs_filter hinv₁]
    exact hc
  · rw [hfresh]
    rw [hservers, hkept, refs_filter hinv₁] at hi
    refine hinv₁.old i ?_
    simp only at hi
    split at hi <;> omega

end Governance

/-! ### Whole runs -/

namespace System

/-- `ref` does not overflow: no more than `2 ^ 32 - 2` selections of one server are outstanding. -/
def RefsFit (s : System) : Op → Prop
  | .select .. => ∀ i ∈ s.gov.servers, s.outstanding i + 2 < 2 ^ 32
  | _ => True

/-- A report of a run is about a server that is in use. -/
theorem settle_eq_some {s t : System} {i : Nat} {gov : Option Governance}
    (h : s.settle i gov = some t) :
    0 < s.outstanding i ∧ gov = some t.gov ∧
      t.outstanding = Function.update s.outstanding i (s.outstanding i - 1) := by
  unfold settle at h
  split at h
  · cases h
  · obtain ⟨g, hg, rfl⟩ := Option.map_eq_some_iff.mp h
    exact ⟨by omega, hg, rfl⟩

/-- One operation keeps registrations and references. -/
theorem exec_refInv {fuel : Nat} {s t : System} {op : Op}
    (hinv : s.gov.RefInv s.outstanding) (hfit : s.RefsFit op) (h : s.exec fuel op = some t) :
    t.gov.RefInv t.outstanding := by
  cases op with
  | addServer address maxFails =>
      obtain ⟨g, hg, rfl⟩ := Option.map_eq_some_iff.mp h
      exact hinv.addServer hg
  | removeServer address =>
      obtain ⟨g, hg, rfl⟩ := Option.map_eq_some_iff.mp h
      exact hinv.removeServerLocked hg
  | replaceServer address maxFails =>
      obtain ⟨g, hg, rfl⟩ := Option.map_eq_some_iff.mp h
      obtain ⟨g₁, hadd, hremove⟩ := Option.bind_eq_some_iff.mp hg
      exact (hinv.addServer hadd).removeServerLocked hremove
  | enableServer address =>
      obtain ⟨g, hg, rfl⟩ := Option.map_eq_some_iff.mp h
      exact hinv.sameRefs
        (Governance.foldlM_sameRefs Governance.recoverServerFromBreaker_sameRefs hg)
  | disableServer address now =>
      obtain ⟨g, hg, rfl⟩ := Option.map_eq_some_iff.mp h
      exact hinv.sameRefs (Governance.foldlM_sameRefs Governance.disableOne_sameRefs hg)
  | select now rand another =>
      obtain ⟨⟨g, x⟩, hg, rfl⟩ := Option.map_eq_some_iff.mp h
      rcases Governance.select_cases hg with ⟨rfl, rfl | hcheck⟩ | ⟨i, g₁, rfl, hcheck, hi, hmod⟩
      · exact hinv
      · exact hinv.sameRefs (Governance.checkBreaker_sameRefs hcheck)
      · have hsame := Governance.checkBreaker_sameRefs hcheck
        have hlt := hfit i (hsame.servers ▸ hi)
        exact (hinv.sameRefs hsame).take hi (by omega) hmod
  | success i =>
      obtain ⟨hpos, hgov, hout⟩ := settle_eq_some h
      rw [hout]
      exact hinv.success hpos hgov
  | failed i now =>
      obtain ⟨hpos, hgov, hout⟩ := settle_eq_some h
      rw [hout]
      exact hinv.failed hpos hgov
  | checkBreaker now =>
      obtain ⟨g, hg, rfl⟩ := Option.map_eq_some_iff.mp h
      exact hinv.sameRefs (Governance.checkBreaker_sameRefs hg)

/-- Nothing is registered at first. -/
theorem new_refInv (mttrSecond : UInt32) (tryAnother : Bool) :
    (System.new mttrSecond tryAnother).gov.RefInv (System.new mttrSecond tryAnother).outstanding :=
  ⟨List.nodup_nil, fun _ => rfl, fun i hi => by simp [Governance.refs, new, Governance.new] at hi,
    fun i hi => by simp [Governance.refs, new, Governance.new] at hi⟩

end System

end Workflow.Nameservice
