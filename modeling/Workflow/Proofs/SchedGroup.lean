/-
Module: Workflow.Proofs.SchedGroup
Layer: Proofs
Purpose: The scheduling groups in whole runs. Whatever is added, removed, acquired and released in
  whatever order, each group holds its targets once in a heap by relative load, knows where they are
  and how much load they have together, and no target has more load than it may; so a group that is
  not full has a root that is not full.
Trusted boundary: none
Main exports: GroupInv, Inv, group_heap
-/
import Workflow.Proofs.SchedHeap
import Mathlib.Algebra.BigOperators.Group.Finset.Basic
import Mathlib.Algebra.Order.BigOperators.Group.Finset
import Mathlib.Tactic.Ring

namespace Workflow.Kernel

open Workflow.Lib

namespace Sched

/-- The targets in the heap of group `g`. -/
def members (s : Sched) (g : Nat) : Finset Nat :=
  elements (s.groups g).tgHeap (s.groups g).heapSize

/-- What holds of group `g` between two operations. -/
structure GroupInv (s : Sched) (g : Nat) : Prop where
  index : Indexed (s.slots g) (s.groups g).heapSize
  member : ∀ t, (s.targets t).group = some g ↔ t ∈ s.members g
  heap : IsHeap (relLoad s.targets) (s.groups g).tgHeap (s.groups g).heapSize
  curLoad : (s.groups g).curLoad = ∑ t ∈ s.members g, (s.targets t).curLoad
  maxLoad : (s.groups g).maxLoad = ∑ t ∈ s.members g, (s.targets t).maxLoad
  size : (s.groups g).heapSize ≤ (s.groups g).heapBufSize ∧ 0 < (s.groups g).heapBufSize ∧
    (s.groups g).heapBufSize < 2 ^ 31

/-- The invariant of all targets and groups. `small` keeps the products that `target_cmp` compares
from overflowing, whatever the loads become. -/
structure Inv (s : Sched) : Prop where
  pos : ∀ t, 0 < (s.targets t).maxLoad
  small : ∀ t u, (s.targets t).maxLoad * (s.targets u).maxLoad < 2 ^ 64
  load : ∀ t, (s.targets t).curLoad ≤ (s.targets t).maxLoad
  acquired : ∀ t, s.acquired t = (s.targets t).curLoad
  group : ∀ g, GroupInv s g

variable {s s' : Sched} {g t : Nat}

/-- What a group's invariant reads of the group. -/
def SameHeap (a b : Group) : Prop :=
  a.tgHeap = b.tgHeap ∧ a.heapSize = b.heapSize ∧ a.heapBufSize = b.heapBufSize ∧
    a.maxLoad = b.maxLoad ∧ a.curLoad = b.curLoad

/-- A group is not concerned by what happens to targets that it does not have. -/
theorem GroupInv.frame (h : GroupInv s g) (hgroup : SameHeap (s'.groups g) (s.groups g))
    (hmem : ∀ t, (s'.targets t).group = some g ↔ (s.targets t).group = some g)
    (hload : ∀ t ∈ s.members g, (s'.targets t).curLoad = (s.targets t).curLoad ∧
      (s'.targets t).maxLoad = (s.targets t).maxLoad)
    (hindex : ∀ t ∈ s.members g, s'.index t = s.index t) : GroupInv s' g := by
  obtain ⟨hheap, hsize, hbuf, hmax, hcur⟩ := hgroup
  have hmembers : s'.members g = s.members g := by rw [members, members, hheap, hsize]
  have hrel : ∀ i < (s.groups g).heapSize,
      relLoad s'.targets ((s.groups g).tgHeap i) = relLoad s.targets ((s.groups g).tgHeap i) := by
    intro i hi
    obtain ⟨hc, hm⟩ := hload _ (mem_elements.mpr ⟨i, hi, rfl⟩)
    rw [relLoad, relLoad, hc, hm]
  refine ⟨fun i hi => ?_, fun t => ?_, fun j hj hjn => ?_, ?_, ?_, ?_⟩
  · rw [hsize] at hi
    change s'.index ((s'.groups g).tgHeap i) = i
    rw [hheap, hindex _ (mem_elements.mpr ⟨i, hi, rfl⟩)]
    exact h.index i hi
  · rw [hmem, hmembers]
    exact h.member t
  · rw [hsize] at hjn
    rw [hheap, hrel _ ((parent_lt hj).trans hjn), hrel j hjn]
    exact h.heap j hj hjn
  · rw [hcur, h.curLoad, hmembers]
    exact (Finset.sum_congr rfl fun t ht => (hload t ht).1).symm
  · rw [hmax, h.maxLoad, hmembers]
    exact (Finset.sum_congr rfl fun t ht => (hload t ht).2).symm
  · rw [hsize, hbuf]
    exact h.size

theorem GroupInv.notMem_of_group (h : GroupInv s g) (ht : (s.targets t).group ≠ some g) :
    t ∉ s.members g := fun hin => ht ((h.member t).mpr hin)

/-- A member stands in the heap at its index. -/
theorem GroupInv.slot (h : GroupInv s g) (ht : t ∈ s.members g) :
    s.index t < (s.groups g).heapSize ∧ (s.groups g).tgHeap (s.index t) = t := by
  obtain ⟨i, hi, rfl⟩ := mem_elements.mp ht
  have hindex : s.index ((s.groups g).tgHeap i) = i := h.index i hi
  rw [hindex]
  exact ⟨hi, rfl⟩

/-- The load of target `t` of group `g` has become `c`, and a heap function has put the heap in
order again. -/
structure Reloaded (s : Sched) (g t c : Nat) (h' : Slots) (s' : Sched) : Prop where
  target : s'.targets = Function.update s.targets t { s.targets t with curLoad := c }
  others : ∀ g' ≠ g, s'.groups g' = s.groups g'
  tgHeap : (s'.groups g).tgHeap = h'.tgHeap
  heapSize : (s'.groups g).heapSize = (s.groups g).heapSize
  heapBufSize : (s'.groups g).heapBufSize = (s.groups g).heapBufSize
  maxLoad : (s'.groups g).maxLoad = (s.groups g).maxLoad
  curLoad : (s'.groups g).curLoad + (s.targets t).curLoad = (s.groups g).curLoad + c
  index : s'.index = h'.index

/-- A member has another load, and the heap is in order again. -/
theorem Reloaded.groupInv {c : Nat} {h' : Slots} (hr : Reloaded s g t c h' s') (hinv : Inv s)
    (ht : t ∈ s.members g) (hkept : Kept (s.groups g).heapSize (s.slots g) h')
    (hheap : IsHeap (relLoad s'.targets) h'.tgHeap (s.groups g).heapSize) (g' : Nat) :
    GroupInv s' g' := by
  have hg := hinv.group g
  have htg : (s.targets t).group = some g := (hg.member t).mpr ht
  have hgroup : ∀ u g'', (s'.targets u).group = some g'' ↔ (s.targets u).group = some g'' := by
    intro u g''
    rw [hr.target]
    rcases eq_or_ne u t with rfl | hne
    · rw [Function.update_self]
    · rw [Function.update_of_ne hne]
  have hmax : ∀ u, (s'.targets u).maxLoad = (s.targets u).maxLoad := by
    intro u
    rw [hr.target]
    rcases eq_or_ne u t with rfl | hne
    · rw [Function.update_self]
    · rw [Function.update_of_ne hne]
  have hcur : ∀ u ≠ t, (s'.targets u).curLoad = (s.targets u).curLoad := by
    intro u hne
    rw [hr.target, Function.update_of_ne hne]
  rcases eq_or_ne g' g with rfl | hne
  · have hmembers : s'.members g' = s.members g' := by
      rw [members, hr.tgHeap, hr.heapSize]
      exact hkept.elements
    refine ⟨fun i hi => ?_, fun u => ?_, ?_, ?_, ?_, ?_⟩
    · rw [hr.heapSize] at hi
      change s'.index ((s'.groups g').tgHeap i) = i
      rw [hr.tgHeap, hr.index]
      exact hkept.index i hi
    · rw [hgroup, hmembers]
      exact hg.member u
    · rw [hr.tgHeap, hr.heapSize]
      exact hheap
    · have hsum := Finset.add_sum_erase (s.members g') (fun u => (s.targets u).curLoad) ht
      have hsum' := Finset.add_sum_erase (s.members g') (fun u => (s'.targets u).curLoad) ht
      have hrest : ∑ u ∈ (s.members g').erase t, (s'.targets u).curLoad =
          ∑ u ∈ (s.members g').erase t, (s.targets u).curLoad :=
        Finset.sum_congr rfl fun u hu => hcur u (Finset.ne_of_mem_erase hu)
      have hnew : (s'.targets t).curLoad = c := by rw [hr.target, Function.update_self]
      have hload := hr.curLoad
      have hold := hg.curLoad
      rw [hmembers]
      simp only [hrest, hnew] at hsum'
      omega
    · rw [hr.maxLoad, hg.maxLoad, hmembers]
      exact (Finset.sum_congr rfl fun u _ => hmax u).symm
    · rw [hr.heapSize, hr.heapBufSize]
      exact hg.size
  · have hother := hinv.group g'
    have hnot : ∀ u ∈ s.members g', u ∉ s.members g := by
      intro u hu hin
      exact hne (Option.some.inj (((hother.member u).mpr hu).symm.trans ((hg.member u).mpr hin)))
    refine hother.frame ?_ (fun u => hgroup u g') (fun u hu => ⟨hcur u ?_, hmax u⟩) ?_
    · rw [hr.others g' hne]
      exact ⟨rfl, rfl, rfl, rfl, rfl⟩
    · rintro rfl
      exact hnot u hu ht
    · intro u hu
      rw [hr.index]
      exact hkept.frame u (hnot u hu)

/-! ### Taking and giving back load -/

/-- No product of a load with a maximal load overflows. -/
theorem fits_of_small {targets : Nat → Target}
    (hload : ∀ t, (targets t).curLoad ≤ (targets t).maxLoad)
    (hsmall : ∀ t u, (targets t).maxLoad * (targets u).maxLoad < 2 ^ 64) (group : Finset Nat) :
    Fits targets group := fun t _ u _ =>
  (Nat.mul_le_mul_right _ (hload t)).trans_lt (hsmall t u)

theorem Inv.lt (hinv : Inv s) (t : Nat) : (s.targets t).maxLoad < 2 ^ 32 := by
  by_contra hge
  have hsquare := Nat.mul_le_mul (Nat.le_of_not_lt hge) (Nat.le_of_not_lt hge)
  exact absurd (hinv.small t t) (by omega)

/-- The loads of a group and of one more target do not overflow. -/
theorem Inv.maxLoad_add_lt (hinv : Inv s) (g t : Nat) :
    (s.groups g).maxLoad + (s.targets t).maxLoad < 2 ^ 64 := by
  have hsize := (hinv.group g).size
  have hcard : (s.members g).card ≤ (s.groups g).heapSize := by
    refine Finset.card_image_le.trans ?_
    rw [Finset.card_range]
  have hsum : (s.groups g).maxLoad ≤ (s.members g).card * 2 ^ 32 := by
    rw [(hinv.group g).maxLoad]
    exact Finset.sum_le_card_nsmul _ _ _ fun u _ => (hinv.lt u).le
  have ht := hinv.lt t
  omega

/-- No group carries more than it can. -/
theorem Inv.curLoad_le_maxLoad (hinv : Inv s) (g : Nat) :
    (s.groups g).curLoad ≤ (s.groups g).maxLoad := by
  rw [(hinv.group g).curLoad, (hinv.group g).maxLoad]
  exact Finset.sum_le_sum fun u _ => hinv.load u

/-- Only the changed target has another relative load. -/
theorem relLoad_update {targets : Nat → Target} {c u : Nat} (hne : u ≠ t) :
    relLoad (Function.update targets t { targets t with curLoad := c }) u = relLoad targets u := by
  rw [relLoad, relLoad, Function.update_of_ne hne]

/-- More load is more relative load. -/
theorem relLoad_update_le {targets : Nat → Target} (hpos : ∀ t, 0 < (targets t).maxLoad)
    {c d : Nat} (hle : c ≤ d) :
    relLoad (Function.update targets t { targets t with curLoad := c }) t ≤
      relLoad (Function.update targets t { targets t with curLoad := d }) t := by
  have ht : (0 : ℚ) < (targets t).maxLoad := by exact_mod_cast hpos t
  rw [relLoad, relLoad, Function.update_self, Function.update_self]
  exact div_le_div_of_nonneg_right (by exact_mod_cast hle) ht.le

theorem relLoad_update_self (targets : Nat → Target) (t : Nat) :
    relLoad (Function.update targets t { targets t with curLoad := (targets t).curLoad }) t =
      relLoad targets t := by
  rw [Function.update_eq_self]

/-- One more load on a target of a group: the heap is right above it. -/
theorem heap_after_take {targets : Nat → Target} {h : Slots} {n k c : Nat}
    (hpos : ∀ t, 0 < (targets t).maxLoad) (hheap : IsHeap (relLoad targets) h.tgHeap n)
    (hindex : Indexed h n) (hk : k < n) (ht : h.tgHeap k = t)
    (hle : (targets t).curLoad ≤ c) :
    NearHeap (relLoad (Function.update targets t { targets t with curLoad := c })) h.tgHeap n k ∧
      UpOk (relLoad (Function.update targets t { targets t with curLoad := c })) h.tgHeap k := by
  have hne : ∀ j < n, j ≠ k → h.tgHeap j ≠ t := fun j hj hjk heq =>
    hjk (hindex.injective hj hk (heq.trans ht.symm))
  refine ⟨hheap.nearHeap hk fun j hj hjk => relLoad_update (hne j hj hjk), fun hkpos => ?_⟩
  have hp := parent_lt hkpos
  rw [relLoad_update (hne _ (hp.trans hk) hp.ne), ht]
  refine (hheap k hkpos hk).trans ?_
  rw [ht, ← relLoad_update_self targets t]
  exact relLoad_update_le hpos hle

/-- Less load on a target of a group: the heap is right below it. -/
theorem heap_after_give {targets : Nat → Target} {h : Slots} {n k c : Nat}
    (hpos : ∀ t, 0 < (targets t).maxLoad) (hheap : IsHeap (relLoad targets) h.tgHeap n)
    (hindex : Indexed h n) (hk : k < n) (ht : h.tgHeap k = t)
    (hle : c ≤ (targets t).curLoad) :
    NearHeap (relLoad (Function.update targets t { targets t with curLoad := c })) h.tgHeap n k ∧
      DownOk (relLoad (Function.update targets t { targets t with curLoad := c })) h.tgHeap n k := by
  have hne : ∀ j < n, j ≠ k → h.tgHeap j ≠ t := fun j hj hjk heq =>
    hjk (hindex.injective hj hk (heq.trans ht.symm))
  refine ⟨hheap.nearHeap hk fun j hj hjk => relLoad_update (hne j hj hjk),
    fun j hj hjn hparent => ?_⟩
  have hjk : j ≠ k := by
    rintro rfl
    exact (parent_lt hj).ne hparent
  rw [relLoad_update (hne j hjn hjk), ht]
  refine LE.le.trans ?_ (hparent ▸ hheap j hj hjn)
  rw [ht, ← relLoad_update_self targets t]
  exact relLoad_update_le hpos hle

/-- The limit of a target does not depend on its load. -/
theorem update_maxLoad (targets : Nat → Target) (t c u : Nat) :
    (Function.update targets t { targets t with curLoad := c } u).maxLoad =
      (targets u).maxLoad := by
  rcases eq_or_ne u t with rfl | hne
  · rw [Function.update_self]
  · rw [Function.update_of_ne hne]

theorem update_curLoad_le {targets : Nat → Target} {c : Nat}
    (hload : ∀ u, (targets u).curLoad ≤ (targets u).maxLoad) (hle : c ≤ (targets t).maxLoad)
    (u : Nat) :
    (Function.update targets t { targets t with curLoad := c } u).curLoad ≤
      (targets u).maxLoad := by
  rcases eq_or_ne u t with rfl | hne
  · rw [Function.update_self]
    exact hle
  · rw [Function.update_of_ne hne]
    exact hload u

/-- Loads of one target change, and the groups have followed. -/
theorem Inv.of_update {c : Nat} (hinv : Inv s)
    (htarget : s'.targets = Function.update s.targets t { s.targets t with curLoad := c })
    (hle : c ≤ (s.targets t).maxLoad) (hacquired : s'.acquired = Function.update s.acquired t c)
    (hgroup : ∀ g, GroupInv s' g) : Inv s' := by
  refine ⟨fun u => ?_, fun u w => ?_, fun u => ?_, fun u => ?_, hgroup⟩
  · rw [htarget, update_maxLoad]
    exact hinv.pos u
  · rw [htarget, update_maxLoad, update_maxLoad]
    exact hinv.small u w
  · rw [htarget, update_maxLoad]
    exact update_curLoad_le hinv.load hle u
  · rw [htarget, hacquired]
    rcases eq_or_ne u t with rfl | hne
    · rw [Function.update_self, Function.update_self]
    · rw [Function.update_of_ne hne, Function.update_of_ne hne]
      exact hinv.acquired u

/-- The load of a target without a group concerns no group. -/
theorem Inv.reload_alone {c : Nat} (hinv : Inv s) (halone : (s.targets t).group = none)
    (htarget : s'.targets = Function.update s.targets t { s.targets t with curLoad := c })
    (hgroups : s'.groups = s.groups) (hindex : s'.index = s.index)
    (hle : c ≤ (s.targets t).maxLoad) (hacquired : s'.acquired = Function.update s.acquired t c) :
    Inv s' := by
  refine hinv.of_update htarget hle hacquired fun g => ?_
  have hnot : t ∉ s.members g := (hinv.group g).notMem_of_group (by simp [halone])
  refine (hinv.group g).frame ?_ (fun u => ?_) (fun u hu => ?_) (fun u _ => by rw [hindex])
  · rw [hgroups]
    exact ⟨rfl, rfl, rfl, rfl, rfl⟩
  · rw [htarget]
    rcases eq_or_ne u t with rfl | hne
    · rw [Function.update_self]
    · rw [Function.update_of_ne hne]
  · have hne : u ≠ t := fun heq => hnot (heq ▸ hu)
    rw [htarget, Function.update_of_ne hne]
    exact ⟨rfl, rfl⟩

/-- A group with a target that is not full is not full. -/
theorem GroupInv.curLoad_lt (hg : GroupInv s g)
    (hload : ∀ u, (s.targets u).curLoad ≤ (s.targets u).maxLoad) (ht : t ∈ s.members g)
    (hlt : (s.targets t).curLoad < (s.targets t).maxLoad) :
    (s.groups g).curLoad < (s.groups g).maxLoad := by
  rw [hg.curLoad, hg.maxLoad]
  exact Finset.sum_lt_sum (fun u _ => hload u) ⟨t, ht, hlt⟩

/-- Each member carries a part of the load of the group. -/
theorem GroupInv.le_curLoad (hg : GroupInv s g) (ht : t ∈ s.members g) :
    (s.targets t).curLoad ≤ (s.groups g).curLoad := by
  rw [hg.curLoad]
  exact Finset.single_le_sum (f := fun u => (s.targets u).curLoad) (fun _ _ => Nat.zero_le _) ht

/-- Before the heap is put in order, one target of group `g` has the load `c`. -/
structure Loaded (s : Sched) (g t c : Nat) (s₁ : Sched) : Prop where
  target : s₁.targets = Function.update s.targets t { s.targets t with curLoad := c }
  others : ∀ g' ≠ g, s₁.groups g' = s.groups g'
  tgHeap : (s₁.groups g).tgHeap = (s.groups g).tgHeap
  heapSize : (s₁.groups g).heapSize = (s.groups g).heapSize
  heapBufSize : (s₁.groups g).heapBufSize = (s.groups g).heapBufSize
  maxLoad : (s₁.groups g).maxLoad = (s.groups g).maxLoad
  curLoad : (s₁.groups g).curLoad + (s.targets t).curLoad = (s.groups g).curLoad + c
  index : s₁.index = s.index
  acquired : s₁.acquired = s.acquired

theorem Loaded.slots {c : Nat} {s₁ : Sched} (hl : Loaded s g t c s₁) :
    s₁.slots g = s.slots g := by
  rw [Sched.slots, Sched.slots, hl.tgHeap, hl.index]

/-- The loads still fit into the comparison. -/
theorem Loaded.fits {c : Nat} {s₁ : Sched} (hl : Loaded s g t c s₁) (hinv : Inv s)
    (hle : c ≤ (s.targets t).maxLoad) : Fits s₁.targets (s.members g) := by
  refine fits_of_small (fun u => ?_) (fun u w => ?_) _
  · rw [hl.target, update_maxLoad]
    exact update_curLoad_le hinv.load hle u
  · rw [hl.target, update_maxLoad, update_maxLoad]
    exact hinv.small u w

theorem Loaded.pos {c : Nat} {s₁ : Sched} (hl : Loaded s g t c s₁) (hinv : Inv s) (u : Nat) :
    0 < (s₁.targets u).maxLoad := by
  rw [hl.target, update_maxLoad]
  exact hinv.pos u

/-- The heap function has run, and the acquisitions are counted. -/
theorem Loaded.inv {c : Nat} {s₁ : Sched} {h' : Slots} (hl : Loaded s g t c s₁) (hinv : Inv s)
    (ht : t ∈ s.members g) (hle : c ≤ (s.targets t).maxLoad)
    (hkept : Kept (s.groups g).heapSize (s.slots g) h')
    (hheap : IsHeap (relLoad s₁.targets) h'.tgHeap (s.groups g).heapSize) {s₂ : Sched}
    (hs₂ : s₂ = { s₁.withSlots g h' with acquired := Function.update s.acquired t c }) : Inv s₂ := by
  subst hs₂
  refine hinv.of_update hl.target hle rfl ?_
  refine Reloaded.groupInv ⟨hl.target, fun g' hne => ?_, ?_, ?_, ?_, ?_, ?_, rfl⟩ hinv ht hkept
    hheap
  · simp [withSlots, hne, hl.others g' hne]
  · simp [withSlots]
  · simp [withSlots, hl.heapSize]
  · simp [withSlots, hl.heapBufSize]
  · simp [withSlots, hl.maxLoad]
  · simp [withSlots, hl.curLoad]

/-- A unit of a member. -/
theorem takeLoad_loaded (hinv : Inv s) (ht : t ∈ s.members g)
    (hlt : (s.targets t).curLoad < (s.targets t).maxLoad) :
    Loaded s g t ((s.targets t).curLoad + 1) (s.takeLoad t (some g)) := by
  have hg := hinv.group g
  have hcur : addSize (s.targets t).curLoad 1 = (s.targets t).curLoad + 1 :=
    addSize_of_lt (by have := hinv.lt t; omega)
  have hsum : addSize (s.groups g).curLoad 1 = (s.groups g).curLoad + 1 := by
    refine addSize_of_lt ?_
    have hfull := hg.curLoad_lt hinv.load ht hlt
    have hsmall := hinv.maxLoad_add_lt g t
    omega
  simp only [takeLoad, setTarget, setGroup, hcur, hsum]
  refine ⟨rfl, fun g' hne => by simp [hne], by simp, by simp, by simp, by simp, ?_, rfl, rfl⟩
  simp only [Function.update_self]
  omega

/-- A target of a group that is not full takes one more load. -/
theorem Inv.take (hinv : Inv s) (ht : t ∈ s.members g)
    (hlt : (s.targets t).curLoad < (s.targets t).maxLoad) :
    Inv (((s.takeLoad t (some g)).withSlots g (heapify (s.takeLoad t (some g)).targets
      ((s.takeLoad t (some g)).slots g) ((s.takeLoad t (some g)).groups g).heapSize
      (s.index t))).countAcquired t) := by
  have hg := hinv.group g
  obtain ⟨hslot, hself⟩ := hg.slot ht
  have hl := takeLoad_loaded hinv ht hlt
  generalize s.takeLoad t (some g) = s₁ at hl ⊢
  have hfits := hl.fits hinv hlt
  obtain ⟨hnear, hup⟩ := heap_after_take (h := s.slots g) (c := (s.targets t).curLoad + 1)
    hinv.pos hg.heap hg.index hslot hself (Nat.le_succ _)
  rw [← hl.target] at hnear hup
  obtain ⟨hkept, hheap⟩ := heapify_spec (hl.pos hinv) hg.index hslot hnear hup hfits
  refine hl.inv hinv ht hlt hkept hheap ?_
  rw [countAcquired, hl.slots, hl.heapSize]
  simp [withSlots, hl.acquired, hinv.acquired t]

/-- A target of a group gives back one load. -/
theorem Inv.give (hinv : Inv s) (ht : t ∈ s.members g) (keepAlive : Bool) {s₁ : Sched}
    (hl : Loaded s g t ((s.targets t).curLoad - 1) s₁) :
    Inv { s₁.withSlots g (heapAdjust s₁.targets (s₁.slots g) (s.index t) keepAlive) with
      acquired := Function.update s.acquired t (s.acquired t - 1) } := by
  have hg := hinv.group g
  obtain ⟨hslot, hself⟩ := hg.slot ht
  have hle : (s.targets t).curLoad - 1 ≤ (s.targets t).curLoad := Nat.sub_le _ _
  have hfits := hl.fits hinv (hle.trans (hinv.load t))
  obtain ⟨hnear, hdown⟩ := heap_after_give (h := s.slots g) (c := (s.targets t).curLoad - 1)
    hinv.pos hg.heap hg.index hslot hself hle
  rw [← hl.target] at hnear hdown
  have hadj := heapAdjust_spec (hl.pos hinv) keepAlive hg.index hslot hnear hfits
  have hself' : Function.update (s.slots g).tgHeap (s.index t)
      ((s.slots g).tgHeap (s.index t)) = (s.slots g).tgHeap := Function.update_eq_self ..
  refine hl.inv hinv ht (hle.trans (hinv.load t)) hadj.sifted.kept
    (hadj.heap (by rw [hself']; exact hdown)) ?_
  rw [hl.slots, hinv.acquired t]

/-! ### Joining and leaving a group -/

/-- A target that is in no group joins group `g`. -/
structure Joined (s : Sched) (g t : Nat) (h' : Slots) (s' : Sched) : Prop where
  target : s'.targets = Function.update s.targets t { s.targets t with group := some g }
  others : ∀ g' ≠ g, s'.groups g' = s.groups g'
  tgHeap : (s'.groups g).tgHeap = h'.tgHeap
  heapSize : (s'.groups g).heapSize = (s.groups g).heapSize + 1
  size : (s'.groups g).heapSize ≤ (s'.groups g).heapBufSize ∧ 0 < (s'.groups g).heapBufSize ∧
    (s'.groups g).heapBufSize < 2 ^ 31
  maxLoad : (s'.groups g).maxLoad = (s.groups g).maxLoad + (s.targets t).maxLoad
  curLoad : (s'.groups g).curLoad = (s.groups g).curLoad + (s.targets t).curLoad
  index : s'.index = h'.index
  acquired : s'.acquired = s.acquired

theorem update_group (targets : Nat → Target) (t : Nat) (group : Option Nat) (u : Nat) :
    (Function.update targets t { targets t with group := group } u).curLoad =
        (targets u).curLoad ∧
      (Function.update targets t { targets t with group := group } u).maxLoad =
        (targets u).maxLoad := by
  rcases eq_or_ne u t with rfl | hne
  · rw [Function.update_self]
    exact ⟨rfl, rfl⟩
  · rw [Function.update_of_ne hne]
    exact ⟨rfl, rfl⟩

/-- A change of groups does not change loads. -/
theorem Inv.of_group {group : Option Nat} (hinv : Inv s)
    (htarget : s'.targets = Function.update s.targets t { s.targets t with group := group })
    (hacquired : s'.acquired = s.acquired) (hgroup : ∀ g, GroupInv s' g) : Inv s' := by
  have hload := update_group s.targets t group
  refine ⟨fun u => ?_, fun u w => ?_, fun u => ?_, fun u => ?_, hgroup⟩
  · rw [htarget, (hload u).2]
    exact hinv.pos u
  · rw [htarget, (hload u).2, (hload w).2]
    exact hinv.small u w
  · rw [htarget, (hload u).1, (hload u).2]
    exact hinv.load u
  · rw [htarget, (hload u).1, hacquired]
    exact hinv.acquired u

theorem relLoad_group (targets : Nat → Target) (t : Nat) (group : Option Nat) :
    relLoad (Function.update targets t { targets t with group := group }) = relLoad targets := by
  funext u
  obtain ⟨hc, hm⟩ := update_group targets t group u
  rw [relLoad, relLoad, hc, hm]

/-- The slots with the new target in the last one, before `heap_adjust`. -/
theorem placed_insert (hg : GroupInv s g) (halone : t ∉ s.members g) :
    Placed ((s.slots g).place (s.groups g).heapSize t).tgHeap
      ((s.slots g).place (s.groups g).heapSize t).index ((s.groups g).heapSize + 1)
      (s.groups g).heapSize t := by
  have hne : ∀ i < (s.groups g).heapSize, (s.groups g).tgHeap i ≠ t := fun i hi heq =>
    halone (mem_elements.mpr ⟨i, hi, heq⟩)
  refine ⟨Nat.lt_succ_self _, fun i hi hik => ?_, fun i hi hik => ?_⟩
  · have hi' : i < (s.groups g).heapSize := by omega
    simp only [Slots.place, slots, Function.update_of_ne hik, Function.update_of_ne (hne i hi')]
    exact hg.index i hi'
  · simp only [Slots.place, slots, Function.update_of_ne hik]
    exact hne i (by omega)

/-- The heap with one more target. -/
theorem elements_insert (a : Nat → Nat) (n x : Nat) :
    elements (Function.update a n x) (n + 1) = insert x (elements a n) := by
  ext u
  simp only [mem_elements, Finset.mem_insert]
  constructor
  · rintro ⟨i, hi, rfl⟩
    rcases eq_or_ne i n with rfl | hne
    · exact Or.inl (Function.update_self ..)
    · exact Or.inr ⟨i, by omega, (Function.update_of_ne hne ..).symm⟩
  · rintro (rfl | ⟨i, hi, rfl⟩)
    · exact ⟨n, by omega, Function.update_self ..⟩
    · exact ⟨i, by omega, Function.update_of_ne hi.ne ..⟩

/-- A target is put into the heap. -/
theorem heapInsert_kept (hinv : Inv s) (halone : t ∉ s.members g) :
    elements (heapAdjust s.targets ((s.slots g).place (s.groups g).heapSize t)
        (s.groups g).heapSize false).tgHeap ((s.groups g).heapSize + 1) =
        insert t (s.members g) ∧
      Indexed (heapAdjust s.targets ((s.slots g).place (s.groups g).heapSize t)
        (s.groups g).heapSize false) ((s.groups g).heapSize + 1) ∧
      (∀ u ∉ insert t (s.members g), (heapAdjust s.targets
        ((s.slots g).place (s.groups g).heapSize t) (s.groups g).heapSize false).index u =
          s.index u) ∧
      IsHeap (relLoad s.targets) (heapAdjust s.targets
        ((s.slots g).place (s.groups g).heapSize t) (s.groups g).heapSize false).tgHeap
        ((s.groups g).heapSize + 1) := by
  have hg := hinv.group g
  have hplaced := placed_insert hg halone
  have helements : elements (Function.update ((s.slots g).place (s.groups g).heapSize t).tgHeap
      (s.groups g).heapSize t) ((s.groups g).heapSize + 1) = insert t (s.members g) := by
    simp only [Slots.place, Function.update_idem]
    exact elements_insert _ _ _
  have hnear : NearHeap (relLoad s.targets) (Function.update
      ((s.slots g).place (s.groups g).heapSize t).tgHeap (s.groups g).heapSize t)
      ((s.groups g).heapSize + 1) (s.groups g).heapSize := by
    simp only [Slots.place, slots, Function.update_idem]
    constructor
    · intro j hj hjn hjk hparent
      have hjn' : j < (s.groups g).heapSize := by omega
      rw [Function.update_of_ne hparent, Function.update_of_ne hjk]
      exact hg.heap j hj hjn'
    · intro j hj hjn hparent _
      have := parent_lt hj
      omega
  have hdown : DownOk (relLoad s.targets) (Function.update
      ((s.slots g).place (s.groups g).heapSize t).tgHeap (s.groups g).heapSize t)
      ((s.groups g).heapSize + 1) (s.groups g).heapSize := by
    intro j hj hjn hparent
    have := parent_lt hj
    omega
  have hadj := heapAdjustLoop_spec hinv.pos false hplaced hnear
    (fits_of_small hinv.load hinv.small _)
  have hloop : heapAdjust s.targets ((s.slots g).place (s.groups g).heapSize t)
      (s.groups g).heapSize false = heapAdjustLoop s.targets false t
        ((s.slots g).place (s.groups g).heapSize t) (s.groups g).heapSize := by
    simp only [heapAdjust, Slots.place, Function.update_self]
  rw [hloop]
  refine ⟨hadj.sifted.elements.trans helements, hadj.sifted.index, fun u hu => ?_, hadj.heap hdown⟩
  rw [hadj.sifted.frame u (helements ▸ hu)]
  refine Function.update_of_ne ?_ ..
  rintro rfl
  exact hu (Finset.mem_insert_self ..)

/-- A target joins a group. -/
theorem Joined.inv {h' : Slots} (hj : Joined s g t h' s') (hinv : Inv s)
    (halone : (s.targets t).group = none)
    (helements : elements h'.tgHeap ((s.groups g).heapSize + 1) = insert t (s.members g))
    (hindex : Indexed h' ((s.groups g).heapSize + 1))
    (hframe : ∀ u ∉ insert t (s.members g), h'.index u = s.index u)
    (hheap : IsHeap (relLoad s.targets) h'.tgHeap ((s.groups g).heapSize + 1)) : Inv s' := by
  have hnot : ∀ g', t ∉ s.members g' := fun g' =>
    (hinv.group g').notMem_of_group (by simp [halone])
  have hload := update_group s.targets t (some g)
  refine hinv.of_group hj.target hj.acquired fun g' => ?_
  rcases eq_or_ne g' g with rfl | hne
  · have hg := hinv.group g'
    have hmembers : s'.members g' = insert t (s.members g') := by
      rw [members, hj.tgHeap, hj.heapSize]
      exact helements
    refine ⟨fun i hi => ?_, fun u => ?_, ?_, ?_, ?_, hj.size⟩
    · rw [hj.heapSize] at hi
      change s'.index ((s'.groups g').tgHeap i) = i
      rw [hj.tgHeap, hj.index]
      exact hindex i hi
    · rw [hmembers, Finset.mem_insert, hj.target]
      rcases eq_or_ne u t with rfl | hu
      · simp
      · rw [Function.update_of_ne hu, hg.member u]
        simp [hu]
    · rw [hj.tgHeap, hj.heapSize, hj.target, relLoad_group]
      exact hheap
    · rw [hj.curLoad, hg.curLoad, hmembers, Finset.sum_insert (hnot g'), hj.target]
      simp only [(hload _).1]
      omega
    · rw [hj.maxLoad, hg.maxLoad, hmembers, Finset.sum_insert (hnot g'), hj.target]
      simp only [(hload _).2]
      omega
  · refine (hinv.group g').frame ?_ (fun u => ?_) (fun u _ => ?_) (fun u hu => ?_)
    · rw [hj.others g' hne]
      exact ⟨rfl, rfl, rfl, rfl, rfl⟩
    · rw [hj.target]
      rcases eq_or_ne u t with rfl | hu
      · simp [halone, hne.symm]
      · rw [Function.update_of_ne hu]
    · rw [hj.target]
      exact hload u
    · rw [hj.index]
      refine hframe u fun hin => ?_
      rcases Finset.mem_insert.mp hin with rfl | hin
      · exact hnot g' hu
      · exact hne (Option.some.inj ((((hinv.group g').member u).mpr hu).symm.trans
          (((hinv.group g).member u).mpr hin)))

/-- `CommSchedGroup::add` keeps the invariant. -/
theorem groupAdd_inv (memory : Bool) (hinv : Inv s) : Inv (s.groupAdd g t memory) := by
  unfold groupAdd
  dsimp only
  split
  · rename_i hfree
    split
    · exact hinv
    · rename_i s₁ hinsert
      unfold heapInsert at hinsert
      dsimp only at hinsert
      split at hinsert
      · cases hinsert
      · rename_i hbuf
        have hnot : t ∉ s.members g := (hinv.group g).notMem_of_group (by simp [hfree.1])
        obtain ⟨helements, hindex, hframe, hheap⟩ := heapInsert_kept hinv hnot
        have hsmall := hinv.maxLoad_add_lt g t
        have hcur := hinv.curLoad_le_maxLoad g
        have hsize := (hinv.group g).size
        have hmaxSum : addSize (s.groups g).maxLoad (s.targets t).maxLoad =
            (s.groups g).maxLoad + (s.targets t).maxLoad := addSize_of_lt hsmall
        have hcurSum : addSize (s.groups g).curLoad (s.targets t).curLoad =
            (s.groups g).curLoad + (s.targets t).curLoad :=
          addSize_of_lt (by have := hinv.load t; omega)
        generalize heapAdjust s.targets ((s.slots g).place (s.groups g).heapSize t)
          (s.groups g).heapSize false = h' at hinsert helements hindex hframe hheap
        obtain rfl := Option.some.inj hinsert
        have hinv' : ∀ s', Joined s g t h' s' → Inv s' := fun s' hj =>
          hj.inv hinv hfree.1 helements hindex hframe hheap
        refine hinv' _ ⟨rfl, fun g' hne => ?_, ?_, ?_, ?_, ?_, ?_, rfl, rfl⟩
        · simp [setTarget, setGroup, withSlots, hne]
        · simp [setTarget, setGroup, withSlots]
        · simp [setTarget, setGroup, withSlots]
        · simp only [setTarget, setGroup, withSlots, Function.update_self]
          split
          · rename_i hfull
            simp only [hfull, true_and, not_or, Nat.not_le] at hbuf
            omega
          · omega
        · simp only [setTarget, setGroup, withSlots, Function.update_self, hmaxSum]
        · simp only [setTarget, setGroup, withSlots, Function.update_self, hcurSum]
  · exact hinv

/-- A target of group `g` has left it. -/
structure Left (s : Sched) (g t : Nat) (h' : Slots) (s' : Sched) : Prop where
  target : s'.targets = Function.update s.targets t { s.targets t with group := none }
  others : ∀ g' ≠ g, s'.groups g' = s.groups g'
  tgHeap : (s'.groups g).tgHeap = h'.tgHeap
  heapSize : (s'.groups g).heapSize = (s.groups g).heapSize - 1
  heapBufSize : (s'.groups g).heapBufSize = (s.groups g).heapBufSize
  maxLoad : (s'.groups g).maxLoad = (s.groups g).maxLoad - (s.targets t).maxLoad
  curLoad : (s'.groups g).curLoad = (s.groups g).curLoad - (s.targets t).curLoad
  index : s'.index = h'.index
  acquired : s'.acquired = s.acquired

/-- A target leaves its group. -/
theorem Left.inv {h' : Slots} (hl : Left s g t h' s') (hinv : Inv s) (ht : t ∈ s.members g)
    (helements : elements h'.tgHeap ((s.groups g).heapSize - 1) = (s.members g).erase t)
    (hindex : Indexed h' ((s.groups g).heapSize - 1))
    (hframe : ∀ u ∉ s.members g, h'.index u = s.index u)
    (hheap : IsHeap (relLoad s.targets) h'.tgHeap ((s.groups g).heapSize - 1)) : Inv s' := by
  have htg : (s.targets t).group = some g := ((hinv.group g).member t).mpr ht
  have hload := update_group s.targets t none
  refine hinv.of_group hl.target hl.acquired fun g' => ?_
  rcases eq_or_ne g' g with rfl | hne
  · have hg := hinv.group g'
    have hmembers : s'.members g' = (s.members g').erase t := by
      rw [members, hl.tgHeap, hl.heapSize]
      exact helements
    refine ⟨fun i hi => ?_, fun u => ?_, ?_, ?_, ?_, ?_⟩
    · rw [hl.heapSize] at hi
      change s'.index ((s'.groups g').tgHeap i) = i
      rw [hl.tgHeap, hl.index]
      exact hindex i hi
    · rw [hmembers, Finset.mem_erase, hl.target]
      rcases eq_or_ne u t with rfl | hu
      · simp
      · rw [Function.update_of_ne hu, hg.member u]
        simp [hu]
    · rw [hl.tgHeap, hl.heapSize, hl.target, relLoad_group]
      exact hheap
    · have hsum := Finset.add_sum_erase (s.members g') (fun u => (s.targets u).curLoad) ht
      rw [hl.curLoad, hg.curLoad, hmembers, hl.target]
      simp only [(hload _).1]
      omega
    · have hsum := Finset.add_sum_erase (s.members g') (fun u => (s.targets u).maxLoad) ht
      rw [hl.maxLoad, hg.maxLoad, hmembers, hl.target]
      simp only [(hload _).2]
      omega
    · rw [hl.heapSize, hl.heapBufSize]
      have hsize := hg.size
      omega
  · refine (hinv.group g').frame ?_ (fun u => ?_) (fun u _ => ?_) (fun u hu => ?_)
    · rw [hl.others g' hne]
      exact ⟨rfl, rfl, rfl, rfl, rfl⟩
    · rw [hl.target]
      rcases eq_or_ne u t with rfl | hu
      · simp [htg, hne.symm]
      · rw [Function.update_of_ne hu]
    · rw [hl.target]
      exact hload u
    · rw [hl.index]
      refine hframe u fun hin => ?_
      exact hne (Option.some.inj ((((hinv.group g').member u).mpr hu).symm.trans
        (((hinv.group g).member u).mpr hin)))

/-- `CommSchedGroup::remove` keeps the invariant. -/
theorem groupRemove_inv (hinv : Inv s) : Inv (s.groupRemove g t) := by
  unfold groupRemove
  dsimp only
  split
  · rename_i hmine
    have hg := hinv.group g
    have ht : t ∈ s.members g := (hg.member t).mp hmine.1
    obtain ⟨hslot, hself⟩ := hg.slot ht
    obtain ⟨n, hn⟩ : ∃ n, (s.groups g).heapSize = n + 1 := ⟨(s.groups g).heapSize - 1, by omega⟩
    have hindex := hg.index
    have hheap := hg.heap
    rw [hn] at hindex hheap hslot
    obtain ⟨helements, hindex', hframe, hheap'⟩ :=
      heapRemove_spec (h := s.slots g) hinv.pos hindex hslot hheap
        (fits_of_small hinv.load hinv.small _)
    have hpred : n + 1 - 1 = n := rfl
    have hself' : (s.slots g).tgHeap (s.index t) = t := hself
    have hcurle := hg.le_curLoad ht
    have hmaxle : (s.targets t).maxLoad ≤ (s.groups g).maxLoad := by
      rw [hg.maxLoad]
      exact Finset.single_le_sum (f := fun u => (s.targets u).maxLoad) (fun _ _ => Nat.zero_le _) ht
    have hcurlt := hinv.curLoad_le_maxLoad g
    have hsmall : (s.groups g).maxLoad < 2 ^ 64 := by
      have := hinv.maxLoad_add_lt g t
      omega
    have hmaxSum := subSize_of_le hmaxle hsmall
    have hcurSum := subSize_of_le hcurle (hcurlt.trans_lt hsmall)
    rw [hn, hpred]
    generalize heapRemove s.targets (s.slots g) n (s.index t) = h' at helements hindex' hframe hheap'
    have hinv' : ∀ s', Left s g t h' s' → Inv s' := by
      intro s' hl
      refine hl.inv hinv ht ?_ ?_ ?_ ?_
      · rw [hn, hpred, members, hn, helements, hself']
        rfl
      · rw [hn]
        exact hindex'
      · rw [members, hn]
        exact hframe
      · rw [hn]
        exact hheap'
    refine hinv' _ ⟨rfl, fun g' hne => ?_, ?_, ?_, ?_, ?_, ?_, rfl, rfl⟩
    · simp [setTarget, setGroup, withSlots, hne]
    · simp [setTarget, setGroup, withSlots]
    · simp [setTarget, setGroup, withSlots, hn]
    · simp [setTarget, setGroup, withSlots]
    · simp only [setTarget, setGroup, withSlots, Function.update_self, hmaxSum]
    · simp only [setTarget, setGroup, withSlots, Function.update_self, hcurSum]
  · exact hinv

/-! ### The operations -/

/-- The invariant does not read who waits. -/
theorem Inv.waiting (hinv : Inv s)
    (htarget : ∀ u, s'.targets u = { s.targets u with waitCnt := (s'.targets u).waitCnt })
    (hgroup : ∀ g, SameHeap (s'.groups g) (s.groups g)) (hindex : s'.index = s.index)
    (hacquired : s'.acquired = s.acquired) : Inv s' := by
  refine ⟨fun u => ?_, fun u w => ?_, fun u => ?_, fun u => ?_, fun g => ?_⟩
  · rw [htarget]
    exact hinv.pos u
  · rw [htarget u, htarget w]
    exact hinv.small u w
  · rw [htarget]
    exact hinv.load u
  · rw [htarget, hacquired]
    exact hinv.acquired u
  · refine (hinv.group g).frame (hgroup g) (fun u => ?_) (fun u _ => ?_) (fun u _ => by rw [hindex])
    · rw [htarget]
    · rw [htarget]
      exact ⟨rfl, rfl⟩

/-- Threads that wait change no load. -/
theorem setGroup_waitCnt_inv (hinv : Inv s) (n : Nat) :
    Inv (s.setGroup g { s.groups g with waitCnt := n }) := by
  refine hinv.waiting (fun _ => rfl) (fun g' => ?_) rfl rfl
  rcases eq_or_ne g' g with rfl | hne
  · simp [setGroup, SameHeap]
  · simp [setGroup, SameHeap, hne]

/-- Nor do those that wait on a target. -/
theorem setTarget_waitCnt_inv (hinv : Inv s) (n : Nat) :
    Inv (s.setTarget t { s.targets t with waitCnt := n }) := by
  refine hinv.waiting (fun u => ?_) (fun _ => ⟨rfl, rfl, rfl, rfl, rfl⟩) rfl rfl
  rcases eq_or_ne u t with rfl | hne
  · simp [setTarget]
  · simp [setTarget, hne]

/-- A relative load below one leaves room for a unit. -/
theorem relLoad_lt_one_iff (hinv : Inv s) (t : Nat) :
    relLoad s.targets t < 1 ↔ (s.targets t).curLoad < (s.targets t).maxLoad := by
  have hpos : (0 : ℚ) < (s.targets t).maxLoad := by exact_mod_cast hinv.pos t
  rw [relLoad, div_lt_one hpos, Nat.cast_lt]

/-- A group that is not full has a target at its root, and this target is not full: some target has
load to spare, and the root has no more relative load than that one. -/
theorem Inv.root (hinv : Inv s) (hlt : (s.groups g).curLoad < (s.groups g).maxLoad) :
    (s.groups g).tgHeap 0 ∈ s.members g ∧
      (s.targets ((s.groups g).tgHeap 0)).curLoad <
        (s.targets ((s.groups g).tgHeap 0)).maxLoad := by
  have hg := hinv.group g
  rw [hg.curLoad, hg.maxLoad] at hlt
  obtain ⟨u, hu, hspare⟩ := Finset.exists_lt_of_sum_lt hlt
  obtain ⟨i, hi, rfl⟩ := mem_elements.mp hu
  refine ⟨mem_elements.mpr ⟨0, Nat.zero_lt_of_lt hi, rfl⟩, ?_⟩
  rw [← relLoad_lt_one_iff hinv]
  exact (hg.heap.root_le hi).trans_lt ((relLoad_lt_one_iff hinv _).mpr hspare)

/-- The root stands at index 0. -/
theorem GroupInv.index_root (hg : GroupInv s g) (ht : (s.groups g).tgHeap 0 ∈ s.members g) :
    s.index ((s.groups g).tgHeap 0) = 0 := by
  obtain ⟨i, hi, -⟩ := mem_elements.mp ht
  exact hg.index 0 (Nat.zero_lt_of_lt hi)

/-- What an acquisition through a group does: nothing, or it takes load of a target that has some
to spare. -/
theorem groupAcquire_inv (hinv : Inv s) (g : Nat) (woken : Bool) :
    match s.groupAcquire g woken with
    | (s', none) => Inv s'
    | (s', some t) => Inv (s'.countAcquired t) ∧ t = (s.groups g).tgHeap 0 ∧
        (s.targets t).group = some g ∧ (s.targets t).curLoad < (s.targets t).maxLoad := by
  unfold groupAcquire
  dsimp only
  have hwoken : Inv (if woken = true then
      s.setGroup g { s.groups g with waitCnt := (s.groups g).waitCnt - 1 } else s) := by
    split
    · exact setGroup_waitCnt_inv hinv _
    · exact hinv
  have htargets : (if woken = true then
      s.setGroup g { s.groups g with waitCnt := (s.groups g).waitCnt - 1 } else s).targets =
      s.targets := by
    split <;> rfl
  have htgHeap : ((if woken = true then
      s.setGroup g { s.groups g with waitCnt := (s.groups g).waitCnt - 1 } else s).groups g).tgHeap =
      (s.groups g).tgHeap := by
    split
    · simp [setGroup]
    · rfl
  generalize (if woken = true then
      s.setGroup g { s.groups g with waitCnt := (s.groups g).waitCnt - 1 } else s) = s₁
    at hwoken htargets htgHeap ⊢
  rw [← htargets, ← htgHeap]
  split
  · rename_i s' hpair
    split at hpair
    · cases hpair
    · cases hpair
      exact hwoken
  · rename_i s' t hpair
    split at hpair
    · rename_i hlt
      obtain ⟨hroot, hspare⟩ := hwoken.root hlt
      cases hpair
      refine ⟨?_, rfl, ((hwoken.group g).member _).mpr hroot, hspare⟩
      have htake := hwoken.take hroot hspare
      rw [(hwoken.group g).index_root hroot] at htake
      exact htake
    · cases hpair

/-- A unit of a target without a group. -/
theorem takeLoad_alone_inv (hinv : Inv s) (halone : (s.targets t).group = none)
    (hlt : (s.targets t).curLoad < (s.targets t).maxLoad) :
    Inv ((s.takeLoad t none).countAcquired t) := by
  have hcur : addSize (s.targets t).curLoad 1 = (s.targets t).curLoad + 1 :=
    addSize_of_lt (by have := hinv.lt t; omega)
  refine hinv.reload_alone (c := (s.targets t).curLoad + 1) halone ?_ rfl rfl hlt ?_
  · simp only [takeLoad, setTarget, countAcquired, hcur]
  · simp only [takeLoad, setTarget, countAcquired, hinv.acquired t]

theorem takeLoad_group (s : Sched) (t : Nat) (group : Option Nat) :
    ((s.takeLoad t group).targets t).group = (s.targets t).group ∧
      (s.takeLoad t group).index = s.index := by
  cases group with
  | none => exact ⟨by simp [takeLoad, setTarget], rfl⟩
  | some g => exact ⟨by simp [takeLoad, setTarget, setGroup], rfl⟩

/-- `CommSchedTarget::acquire` keeps the invariant. -/
theorem targetAcquire_inv (hinv : Inv s) (t : Nat) (woken : Bool) :
    match s.targetAcquire t woken with
    | (s', false) => Inv s'
    | (s', true) => Inv (s'.countAcquired t) := by
  unfold targetAcquire
  dsimp only
  have hwoken : Inv (if woken = true then
      s.setTarget t { s.targets t with waitCnt := (s.targets t).waitCnt - 1 } else s) := by
    split
    · exact setTarget_waitCnt_inv hinv _
    · exact hinv
  generalize (if woken = true then
      s.setTarget t { s.targets t with waitCnt := (s.targets t).waitCnt - 1 } else s) = s₁
    at hwoken ⊢
  rw [(takeLoad_group s₁ t (s₁.targets t).group).1, (takeLoad_group s₁ t (s₁.targets t).group).2]
  by_cases hlt : (s₁.targets t).curLoad < (s₁.targets t).maxLoad
  · rw [if_pos hlt]
    cases hgroup : (s₁.targets t).group with
    | none => exact takeLoad_alone_inv hwoken hgroup hlt
    | some g => exact hwoken.take (((hwoken.group g).member t).mp hgroup) hlt
  · rw [if_neg hlt]
    exact hwoken

/-- `CommSchedTarget::release` does, for a unit that was acquired. -/
theorem targetRelease_inv (hinv : Inv s) (keepAlive : Bool) (hacquired : s.acquired t ≠ 0) :
    Inv { s.targetRelease t keepAlive with
      acquired := Function.update (s.targetRelease t keepAlive).acquired t
        ((s.targetRelease t keepAlive).acquired t - 1) } := by
  have hpos : 1 ≤ (s.targets t).curLoad := by
    rw [hinv.acquired t] at hacquired
    omega
  have hcur : subSize (s.targets t).curLoad 1 = (s.targets t).curLoad - 1 :=
    subSize_of_le hpos (by have := hinv.lt t; have := hinv.load t; omega)
  have hsame : (s.targetRelease t keepAlive).acquired = s.acquired := by
    unfold targetRelease
    dsimp only
    split <;> rfl
  rw [hsame]
  unfold targetRelease
  dsimp only
  simp only [setTarget, Function.update_self, hcur]
  cases hgroup : (s.targets t).group with
  | none =>
      refine hinv.reload_alone (c := (s.targets t).curLoad - 1) hgroup ?_ rfl rfl
        ((Nat.sub_le _ _).trans (hinv.load t)) ?_
      · dsimp only
        rw [← hgroup]
      · simp only [hinv.acquired t]
  | some g =>
      have ht : t ∈ s.members g := ((hinv.group g).member t).mp hgroup
      have hle := (hinv.group g).le_curLoad ht
      have hsum : subSize (s.groups g).curLoad 1 = (s.groups g).curLoad - 1 :=
        subSize_of_le (hpos.trans hle)
          (by have := hinv.curLoad_le_maxLoad g; have := hinv.maxLoad_add_lt g t; omega)
      simp only [setGroup, hsum]
      refine hinv.give ht keepAlive ⟨?_, fun g' hne => ?_, ?_, ?_, ?_, ?_, ?_, rfl, rfl⟩
      · rw [← hgroup]
      · simp [hne]
      · simp
      · simp
      · simp
      · simp
      · simp only [Function.update_self]
        omega

/-- What each step keeps. -/
theorem exec_inv {fuel : Nat} {op : SchedOp} (hinv : Inv s)
    (hstep : Sched.exec fuel s op = some s') : Inv s' := by
  cases op with
  | add g t memory =>
      cases hstep
      exact groupAdd_inv memory hinv
  | remove g t =>
      cases hstep
      exact groupRemove_inv hinv
  | groupAcquire g woken =>
      have hacquire := groupAcquire_inv hinv g woken
      simp only [Sched.exec] at hstep
      split at hstep
      · cases hstep
      · split at hstep <;> rename_i hpair <;> rw [hpair] at hacquire <;> cases hstep
        · exact hacquire
        · exact hacquire.1
  | groupWait g =>
      simp only [Sched.exec] at hstep
      split at hstep
      · cases hstep
      · cases hstep
        exact setGroup_waitCnt_inv hinv _
  | targetAcquire t woken =>
      have hacquire := targetAcquire_inv hinv t woken
      simp only [Sched.exec] at hstep
      split at hstep
      · cases hstep
      · split at hstep <;> rename_i hpair <;> rw [hpair] at hacquire <;> cases hstep <;>
          exact hacquire
  | targetWait t =>
      simp only [Sched.exec] at hstep
      split at hstep
      · cases hstep
      · cases hstep
        exact setTarget_waitCnt_inv hinv _
  | release t keepAlive =>
      simp only [Sched.exec] at hstep
      split at hstep
      · cases hstep
      · rename_i hacquired
        cases hstep
        exact targetRelease_inv hinv keepAlive hacquired

/-- No load and no group at first. -/
theorem init_inv {maxConnections : Nat → UInt64} (hpos : ∀ t, maxConnections t ≠ 0)
    (hsmall : ∀ t u, (maxConnections t).toNat * (maxConnections u).toNat < 2 ^ 64) :
    Inv (Sched.init maxConnections) := by
  refine ⟨fun t => ?_, hsmall, fun t => Nat.zero_le _, fun t => rfl, fun g => ?_⟩
  · refine Nat.pos_of_ne_zero fun hzero => hpos t ?_
    exact UInt64.toNat_inj.mp hzero
  · have hempty : (Sched.init maxConnections).members g = ∅ := rfl
    refine ⟨fun i hi => absurd hi (Nat.not_lt_zero i), fun t => ?_,
      fun j _ hj => absurd hj (Nat.not_lt_zero j), ?_, ?_, ?_⟩
    · rw [hempty]
      simp [Sched.init]
    · rw [hempty]
      rfl
    · rw [hempty]
      rfl
    · simp [Sched.init]

/-- A sum over the targets of a group is a sum over its slots. -/
theorem GroupInv.sum_slots (hg : GroupInv s g) (f : Nat → Nat) :
    ∑ t ∈ s.members g, f t =
      ∑ i ∈ Finset.range (s.groups g).heapSize, f ((s.groups g).tgHeap i) := by
  refine Finset.sum_image fun i hi j hj heq => ?_
  exact hg.index.injective (Finset.mem_range.mp hi) (Finset.mem_range.mp hj) heq

/-- The comparison without division compares the relative loads. -/
theorem targetCmp_le_zero (hinv : Inv s) (t u : Nat) :
    targetCmp s.targets t u ≤ 0 ↔ relLoad s.targets t ≤ relLoad s.targets u := by
  have hcmp := targetCmp_lt_one hinv.pos (fits_of_small hinv.load hinv.small {t, u})
    (t := t) (u := u) (by simp) (by simp)
  rw [← hcmp]
  omega

end Sched

/-- Whatever the targets and groups have gone through, the heap of every group holds exactly its
targets, each once and at its index, parents before children; the loads of the group are those of
its targets together; no target has more load than it may; and a group acquisition that succeeds
returns the root of a group, which had load to spare and is still not overloaded. -/
theorem group_heap {maxConnections : Nat → UInt64} (hpos : ∀ t, maxConnections t ≠ 0)
    (hsmall : ∀ t u, (maxConnections t).toNat * (maxConnections u).toNat < 2 ^ 64) {s : Sched}
    (h : Reachable (Sched.machine maxConnections) (fun _ _ => True) s) (g : Nat) :
    (∀ t, (s.targets t).group = some g ↔
      ∃! i, i < (s.groups g).heapSize ∧ (s.groups g).tgHeap i = t) ∧
    (∀ i < (s.groups g).heapSize, s.index ((s.groups g).tgHeap i) = i) ∧
    (∀ i, 0 < i → i < (s.groups g).heapSize →
      targetCmp s.targets ((s.groups g).tgHeap ((i - 1) / 2)) ((s.groups g).tgHeap i) ≤ 0) ∧
    (s.groups g).curLoad =
      ∑ i ∈ Finset.range (s.groups g).heapSize, (s.targets ((s.groups g).tgHeap i)).curLoad ∧
    (s.groups g).maxLoad =
      ∑ i ∈ Finset.range (s.groups g).heapSize, (s.targets ((s.groups g).tgHeap i)).maxLoad ∧
    (∀ t, (s.targets t).curLoad ≤ (s.targets t).maxLoad) ∧
    (∀ woken s' t, s.groupAcquire g woken = (s', some t) →
      t = (s.groups g).tgHeap 0 ∧ (s.targets t).group = some g ∧
      (s.targets t).curLoad < (s.targets t).maxLoad ∧
      (s'.targets t).curLoad ≤ (s'.targets t).maxLoad) := by
  have hinv : s.Inv := by
    refine h.invariant (fun s hs => ?_) (fun s op s' hinv _ hstep => ?_)
    · rw [hs]
      exact Sched.init_inv hpos hsmall
    · obtain ⟨fuel, hexec⟩ := hstep
      exact Sched.exec_inv hinv hexec
  have hg := hinv.group g
  refine ⟨fun t => ?_, hg.index, fun i hi hin => ?_, ?_, ?_, hinv.load, fun woken s' t hs' => ?_⟩
  · rw [hg.member t]
    refine ⟨fun ht => ?_, fun ⟨i, hi, _⟩ => mem_elements.mpr ⟨i, hi⟩⟩
    obtain ⟨i, hi, hit⟩ := mem_elements.mp ht
    exact ⟨i, ⟨hi, hit⟩, fun j hj => hg.index.injective hj.1 hi (hj.2.trans hit.symm)⟩
  · rw [Sched.targetCmp_le_zero hinv]
    exact hg.heap i hi hin
  · rw [hg.curLoad, hg.sum_slots]
  · rw [hg.maxLoad, hg.sum_slots]
  · have hacquire := Sched.groupAcquire_inv hinv g woken
    rw [hs'] at hacquire
    obtain ⟨hinv', hroot, hgroup, hspare⟩ := hacquire
    exact ⟨hroot, hgroup, hspare, hinv'.load t⟩

/-- Two targets of a group are acquired, one of them twice, and the other one leaves. -/
theorem group_heap_two : ∃ s,
    Reachable (Sched.machine fun _ => 2) (fun _ _ => True) s ∧
      ((s.groups 0).heapSize, (s.groups 0).tgHeap 0, (s.groups 0).curLoad) = (1, 2, 2) ∧
      (s.groups 0).maxLoad = ∑ i ∈ Finset.range (s.groups 0).heapSize,
        (s.targets ((s.groups 0).tgHeap i)).maxLoad := by
  have hrun : (runChecked Sched.exec (fun _ _ => True) 0 (.init fun _ => 2)
      [.add 0 1 true, .add 0 2 true, .groupAcquire 0 false, .groupAcquire 0 false,
        .targetAcquire 2 false, .release 1 true, .remove 0 1]).map
      (fun s => ((s.groups 0).heapSize, (s.groups 0).tgHeap 0, (s.groups 0).curLoad)) =
      some (1, 2, 2) := by
    decide +kernel
  obtain ⟨s, hs, heq⟩ := Option.map_eq_some_iff.mp hrun
  have hreach := runChecked_reachable (Reachable.init rfl) hs
  exact ⟨s, hreach, heq, (group_heap (fun _ => by decide) (fun _ _ => by decide) hreach 0).2.2.2.2.1⟩

end Workflow.Kernel
