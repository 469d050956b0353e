/-
Module: Workflow.Proofs.UpstreamGroups
Layer: Proofs
Purpose: The groups of an upstream policy. Whatever happens to a registered server, the main and
  backup servers of each group, its living servers and its weight, and the total weight are those of
  the registered servers; `available_weight` is right as long as no main server is in a group.
Trusted boundary: none
Main exports: GroupInv, GroupInv.recover, GroupInv.fuse, GroupInv.enter, GroupInv.leave
-/
import Workflow.Nameservice.UpstreamPolicies
import Workflow.Proofs.GovernanceBreaker
import Mathlib.Algebra.BigOperators.Group.List.Basic
import Mathlib.Algebra.GroupWithZero.Nat

namespace Workflow.Nameservice

open Workflow.Lib

/-! ### Sums over the registered servers -/

/-- A sum in which one term changes. -/
theorem sum_map_change {l : List Nat} (hnodup : l.Nodup) {i : Nat} (hi : i ∈ l) {f f' : Nat → Nat}
    (h : ∀ j, j ≠ i → f' j = f j) : (l.map f').sum + f i = (l.map f).sum + f' i := by
  have hrest : (l.erase i).map f' = (l.erase i).map f := by
    refine List.map_congr_left fun j hj => h j ?_
    rintro rfl
    exact (hnodup.mem_erase_iff.mp hj).1 rfl
  have hf := List.sum_map_erase f hi
  have hf' := List.sum_map_erase f' hi
  rw [hrest] at hf'
  omega

/-- A server object that lives and is not fused. -/
def Governance.living (g : Governance) (i : Nat) : Bool :=
  (g.heap i).any fun a => a.failCount < a.maxFails

namespace UPSGroupPolicy

/-! ### What the hooks change -/

section Hooks

variable (p : UPSGroupPolicy) (i : Nat)

/-- A recovery changes `nalives`, here and in the group, and `available_weight`. -/
theorem recoverOneServer_eq : p.recoverOneServer i =
    { p with
      gov := p.gov.recoverOneServer
      groups := Function.update p.groups (p.groupIdOf i)
        { p.groupOf i with nalives := (p.groupOf i).nalives + 1 }
      availableWeight := (p.recoverOneServer i).availableWeight } := by
  unfold recoverOneServer
  split <;> rfl

theorem recoverOneServer_availableWeight (h : p.strategy = .weightedRandom) :
    (p.recoverOneServer i).availableWeight =
      p.availableWeight + p.weightChange i (p.groupOf i).nalives := by
  unfold recoverOneServer
  simp only [h]

theorem fuseOneServer_eq : p.fuseOneServer i =
    { p with
      gov := p.gov.fuseOneServer
      groups := Function.update p.groups (p.groupIdOf i)
        { p.groupOf i with nalives := (p.groupOf i).nalives - 1 }
      availableWeight := (p.fuseOneServer i).availableWeight } := by
  unfold fuseOneServer
  split <;> rfl

theorem fuseOneServer_availableWeight (h : p.strategy = .weightedRandom) :
    (p.fuseOneServer i).availableWeight =
      p.availableWeight - p.weightChange i ((p.groupOf i).nalives - 1) := by
  unfold fuseOneServer
  simp only [h]

end Hooks

/-! ### The invariant -/

/-- `params->weight`. -/
def weight (p : UPSGroupPolicy) (i : Nat) : Nat := (p.params i).weight.toNat

/-- What a server counts in `nalives` of the group `id`. -/
def livingIn (p : UPSGroupPolicy) (living : Nat → Bool) (id : Int32) (i : Nat) : Nat :=
  if p.groupIdOf i = id ∧ living i then 1 else 0

/-- What a server counts in `weight` of the group `id`. -/
def weightIn (p : UPSGroupPolicy) (id : Int32) (i : Nat) : Nat :=
  if p.isMain i ∧ p.groupIdOf i = id then p.weight i else 0

/-- What a server counts in `total_weight`. -/
def mainWeight (p : UPSGroupPolicy) (i : Nat) : Nat := if p.isMain i then p.weight i else 0

/-- What a server without a group counts in `available_weight`. -/
def livingWeight (p : UPSGroupPolicy) (living : Nat → Bool) (i : Nat) : Nat :=
  if p.isMain i ∧ living i then p.weight i else 0

/-- The groups are those of the registered servers `reg`, of which the ones in `living` are not
fused. If `clean`, then no main server is in a group, and `available_weight` counts. -/
structure GroupInv (clean : Prop) (p : UPSGroupPolicy) (reg : List Nat) (living : Nat → Bool) :
    Prop where
  mains : ∀ id, (p.groups id).mains.Perm
    (reg.filter fun i => p.isMain i ∧ p.groupIdOf i = id)
  backups : ∀ id, (p.groups id).backups.Perm
    (reg.filter fun i => ¬ p.isMain i ∧ p.groupIdOf i = id)
  nalives : ∀ id, (p.groups id).nalives = .ofNat (reg.map (p.livingIn living id)).sum
  weight : ∀ id, (p.groups id).weight = .ofNat (reg.map (p.weightIn id)).sum
  ungrouped : clean → ∀ i ∈ reg, p.isMain i → p.groupIdOf i < 0
  available : clean → p.strategy = .weightedRandom →
    p.availableWeight = .ofNat (reg.map (p.livingWeight living)).sum

/-- `servers` and `total_weight` are those of the registered servers. -/
structure MainInv (p : UPSGroupPolicy) (reg : List Nat) : Prop where
  servers : p.gov.servers = reg.filter p.isMain
  total : p.strategy = .weightedRandom → p.totalWeight = .ofNat (reg.map p.mainWeight).sum

variable {clean : Prop} {p : UPSGroupPolicy} {reg : List Nat} {living : Nat → Bool} {i : Nat}

/-- The groups do not depend on the governance of the policy. -/
theorem GroupInv.withGov (h : GroupInv clean p reg living) (g : Governance) :
    GroupInv clean { p with gov := g } reg living :=
  ⟨h.mains, h.backups, h.nalives, h.weight, h.ungrouped, h.available⟩

theorem GroupInv.congr (h : GroupInv clean p reg living) {living' : Nat → Bool}
    (hliving : ∀ i ∈ reg, living' i = living i) : GroupInv clean p reg living' := by
  refine ⟨h.mains, h.backups, fun id => ?_, h.weight, h.ungrouped, fun hclean hstrategy => ?_⟩
  · rw [h.nalives, List.map_congr_left fun i hi => ?_]
    simp only [livingIn, hliving i hi]
  · rw [h.available hclean hstrategy, List.map_congr_left fun i hi => ?_]
    simp only [livingWeight, hliving i hi]

/-- Without main servers in groups the groups have no weight. -/
theorem GroupInv.weight_eq_zero (h : GroupInv clean p reg living) (hclean : clean) {id : Int32}
    (hid : ¬ id < 0) : (p.groups id).weight = 0 := by
  have hnone : ∀ i ∈ reg, p.weightIn id i = 0 := by
    intro i hi
    unfold weightIn
    split
    · rename_i hmain
      exact absurd (h.ungrouped hclean i hi hmain.1) (hmain.2 ▸ hid)
    · rfl
  rw [h.weight, List.map_congr_left hnone]
  simp

/-- What a hook adds to `available_weight` or takes back, if no main server is in a group. -/
theorem GroupInv.weightChange_eq (h : GroupInv clean p reg living) (hclean : clean)
    (hfree : p.isMain i → p.groupIdOf i < 0) (nalives : Int32) :
    p.weightChange i nalives = .ofNat (p.mainWeight i) := by
  have hgroup : (if nalives = 0 ∧ 0 < p.groupIdOf i then (p.groupOf i).weight else 0) = 0 := by
    split
    · rename_i hpos
      exact h.weight_eq_zero hclean (Int32.lt_asymm hpos.2)
    · rfl
  have hzero : Int32.ofNat 0 = 0 := rfl
  unfold weightChange mainWeight
  rw [hgroup, Int32.zero_add]
  by_cases hmain : p.isMain i = true
  · rw [if_pos ⟨hfree hmain, hmain⟩, if_pos hmain]
    rfl
  · rw [if_neg fun hand => hmain hand.2, if_neg hmain, hzero]

/-! ### One server -/

/-- How many living servers of a group there are, when one server changes. -/
theorem sum_livingIn_update (p : UPSGroupPolicy) (living : Nat → Bool) (hnodup : reg.Nodup)
    (hi : i ∈ reg) (b : Bool) (id : Int32) :
    (reg.map (p.livingIn (Function.update living i b) id)).sum + p.livingIn living id i =
      (reg.map (p.livingIn living id)).sum + p.livingIn (Function.update living i b) id i :=
  sum_map_change hnodup hi fun j hne => by simp [livingIn, hne]

theorem sum_livingWeight_update (p : UPSGroupPolicy) (living : Nat → Bool) (hnodup : reg.Nodup)
    (hi : i ∈ reg) (b : Bool) :
    (reg.map (p.livingWeight (Function.update living i b))).sum + p.livingWeight living i =
      (reg.map (p.livingWeight living)).sum + p.livingWeight (Function.update living i b) i :=
  sum_map_change hnodup hi fun j hne => by simp [livingWeight, hne]

/-- One server recovers or is fused: its group gets the count `n`. -/
theorem GroupInv.change (h : GroupInv clean p reg living) (hnodup : reg.Nodup) (hi : i ∈ reg)
    {b : Bool} {g : Governance} {n available : Int32}
    (hn : n = .ofNat
      (reg.map (p.livingIn (Function.update living i b) (p.groupIdOf i))).sum)
    (havailable : clean → p.strategy = .weightedRandom →
      available = .ofNat (reg.map (p.livingWeight (Function.update living i b))).sum) :
    GroupInv clean
      { p with
        gov := g
        groups := Function.update p.groups (p.groupIdOf i) { p.groupOf i with nalives := n }
        availableWeight := available } reg (Function.update living i b) := by
  have hgroup : ∀ id, Function.update p.groups (p.groupIdOf i) { p.groupOf i with nalives := n } id =
      { p.groups id with
        nalives := .ofNat (reg.map (p.livingIn (Function.update living i b) id)).sum } := by
    intro id
    rcases eq_or_ne id (p.groupIdOf i) with rfl | hne
    · rw [Function.update_self, hn]
      rfl
    · have hsame := sum_livingIn_update p living hnodup hi b id
      simp only [livingIn, hne.symm, false_and, if_false, Nat.add_zero] at hsame
      rw [Function.update_of_ne hne]
      simp only [hsame]
      exact congrArg (fun k => { p.groups id with nalives := k }) (h.nalives id)
  refine ⟨fun id => ?_, fun id => ?_, fun id => ?_, fun id => ?_, h.ungrouped, havailable⟩
  · simp only [hgroup]
    exact h.mains id
  · simp only [hgroup]
    exact h.backups id
  · simp only [hgroup]
    rfl
  · simp only [hgroup]
    exact h.weight id

/-- A fused server recovers. -/
theorem GroupInv.recover (h : GroupInv clean p reg living) (hnodup : reg.Nodup) (hi : i ∈ reg)
    (hdead : living i = false) :
    GroupInv clean (p.recoverOneServer i) reg (Function.update living i true) := by
  rw [recoverOneServer_eq]
  refine h.change hnodup hi ?_ fun hclean hstrategy => ?_
  · have hsum := sum_livingIn_update p living hnodup hi true (p.groupIdOf i)
    simp only [livingIn, hdead, Function.update_self, and_true, if_true, Bool.false_eq_true,
      and_false, if_false, Nat.add_zero] at hsum
    rw [hsum, Int32.ofNat_add, groupOf, h.nalives]
    rfl
  · have hsum := sum_livingWeight_update p living hnodup hi true
    simp only [livingWeight, hdead, Function.update_self, and_true, Bool.false_eq_true,
      and_false, if_false, Nat.add_zero] at hsum
    rw [hsum, recoverOneServer_availableWeight p i hstrategy,
      h.weightChange_eq hclean (h.ungrouped hclean i hi),
      h.available hclean hstrategy, Int32.ofNat_add]
    rfl

/-- A living server is fused. -/
theorem GroupInv.fuse (h : GroupInv clean p reg living) (hnodup : reg.Nodup) (hi : i ∈ reg)
    (hlive : living i = true) :
    GroupInv clean (p.fuseOneServer i) reg (Function.update living i false) := by
  rw [fuseOneServer_eq]
  refine h.change hnodup hi ?_ fun hclean hstrategy => ?_
  · have hsum := sum_livingIn_update p living hnodup hi false (p.groupIdOf i)
    simp only [livingIn, hlive, Function.update_self, and_true, if_true, Bool.false_eq_true,
      and_false, if_false, Nat.add_zero] at hsum
    rw [groupOf, h.nalives, ← hsum, Int32.ofNat_add]
    exact Int32.add_sub_cancel _ _
  · have hsum := sum_livingWeight_update p living hnodup hi false
    simp only [livingWeight, hlive, Function.update_self, and_true, Bool.false_eq_true,
      and_false, if_false, Nat.add_zero] at hsum
    rw [fuseOneServer_availableWeight p i hstrategy, h.weightChange_eq hclean (h.ungrouped hclean i hi),
      h.available hclean hstrategy]
    rw [mainWeight, ← hsum, Int32.ofNat_add]
    exact Int32.add_sub_cancel _ _

/-! ### Registration and removal -/

/-- The groups after a recovery. -/
theorem recoverOneServer_groups (p : UPSGroupPolicy) (i : Nat) (id : Int32) :
    (p.recoverOneServer i).groups id =
      { p.groups id with
        nalives := (p.groups id).nalives + .ofNat (if p.groupIdOf i = id then 1 else 0) } := by
  have hone : Int32.ofNat 1 = 1 := rfl
  have hzero : Int32.ofNat 0 = 0 := rfl
  rw [recoverOneServer_eq]
  rcases eq_or_ne id (p.groupIdOf i) with rfl | hne
  · simp [groupOf, hone]
  · simp [hne, hne.symm, hzero]

/-- The groups after a server has entered its group. -/
theorem enterGroup_groups (p : UPSGroupPolicy) (i : Nat) (id : Int32) :
    (p.enterGroup i).groups id =
      { mains := (p.groups id).mains ++ [i].filter fun j => p.isMain j ∧ p.groupIdOf j = id
        backups := (p.groups id).backups ++ [i].filter fun j => ¬ p.isMain j ∧ p.groupIdOf j = id
        nalives := (p.groups id).nalives
        weight := (p.groups id).weight + .ofNat (p.weightIn id i) } := by
  have hzero : Int32.ofNat 0 = 0 := rfl
  unfold enterGroup setGroupOf setGroup
  rcases eq_or_ne id (p.groupIdOf i) with rfl | hne
  · cases hmain : p.isMain i <;> simp [groupOf, weightIn, weightOf, weight, hmain, hzero]
  · cases hmain : p.isMain i <;> simp [weightIn, hne, hne.symm, hzero]

/-- The groups after a server has left its group. -/
theorem leaveGroup_groups (p : UPSGroupPolicy) (i : Nat) (id : Int32) :
    (p.leaveGroup i).groups id =
      { mains := if p.isMain i ∧ p.groupIdOf i = id then (p.groups id).mains.erase i
          else (p.groups id).mains
        backups := if ¬ p.isMain i ∧ p.groupIdOf i = id then (p.groups id).backups.erase i
          else (p.groups id).backups
        nalives := (p.groups id).nalives
        weight := (p.groups id).weight - .ofNat (p.weightIn id i) } := by
  have hzero : Int32.ofNat 0 = 0 := rfl
  unfold leaveGroup setGroupOf setGroup
  rcases eq_or_ne id (p.groupIdOf i) with rfl | hne
  · cases hmain : p.isMain i <;> simp [groupOf, weightIn, weightOf, weight, hmain, hzero]
  · cases hmain : p.isMain i <;> simp [weightIn, hne, hne.symm, hzero]

/-- A server that is not registered does not count. -/
theorem map_livingIn_update (p : UPSGroupPolicy) (living : Nat → Bool) (hi : i ∉ reg) (b : Bool)
    (id : Int32) :
    reg.map (p.livingIn (Function.update living i b) id) = reg.map (p.livingIn living id) := by
  refine List.map_congr_left fun j hj => ?_
  have hne : j ≠ i := fun heq => hi (heq ▸ hj)
  simp [livingIn, hne]

theorem map_livingWeight_update (p : UPSGroupPolicy) (living : Nat → Bool) (hi : i ∉ reg) (b : Bool) :
    reg.map (p.livingWeight (Function.update living i b)) = reg.map (p.livingWeight living) := by
  refine List.map_congr_left fun j hj => ?_
  have hne : j ≠ i := fun heq => hi (heq ▸ hj)
  simp [livingWeight, hne]

/-- A new server enters its group. -/
theorem GroupInv.enter (h : GroupInv clean p reg living) (hi : i ∉ reg)
    (hfree : clean → p.isMain i → p.groupIdOf i < 0) :
    GroupInv clean ((p.recoverOneServer i).enterGroup i) (reg ++ [i])
      (Function.update living i true) := by
  have hgroup := fun id => enterGroup_groups (p.recoverOneServer i) i id
  simp only [recoverOneServer_groups] at hgroup
  have havailable : clean → p.strategy = .weightedRandom →
      (p.recoverOneServer i).availableWeight =
        .ofNat ((reg ++ [i]).map (p.livingWeight (Function.update living i true))).sum := by
    intro hclean hstrategy
    rw [recoverOneServer_availableWeight p i hstrategy, h.weightChange_eq hclean (hfree hclean),
      h.available hclean hstrategy, ← Int32.ofNat_add, List.map_append, List.sum_append,
      map_livingWeight_update p living hi]
    simp [livingWeight, mainWeight]
  rw [recoverOneServer_eq] at hgroup ⊢
  refine ⟨fun id => ?_, fun id => ?_, fun id => ?_, fun id => ?_, fun hclean j hj => ?_,
    havailable⟩
  · rw [hgroup, List.filter_append]
    exact (h.mains id).append_right _
  · rw [hgroup, List.filter_append]
    exact (h.backups id).append_right _
  · rw [hgroup, List.map_append, List.sum_append]
    have hsame := map_livingIn_update p living hi true id
    have hnew : p.livingIn (Function.update living i true) id i =
        if p.groupIdOf i = id then 1 else 0 := by
      simp [livingIn]
    simp only [h.nalives id, ← hsame, ← hnew, ← Int32.ofNat_add, List.map_cons, List.map_nil,
      List.sum_cons, List.sum_nil, Nat.add_zero]
    rfl
  · rw [hgroup, List.map_append, List.sum_append]
    simp only [h.weight id, List.map_cons, List.map_nil, List.sum_cons, List.sum_nil, Nat.add_zero,
      Int32.ofNat_add]
    rfl
  · rcases List.mem_append.mp hj with hold | hnew
    · exact h.ungrouped hclean j hold
    · rw [List.mem_singleton.mp hnew]
      exact hfree hclean

/-- A server that does not live leaves its group. -/
theorem GroupInv.leave (h : GroupInv clean p reg living) (hi : i ∈ reg)
    (hdead : living i = false) : GroupInv clean (p.leaveGroup i) (reg.erase i) living := by
  have hperm : reg.Perm (i :: reg.erase i) := List.perm_cons_erase hi
  have hgroup := leaveGroup_groups p i
  have hfilter : ∀ (l : List Nat) (P : Nat → Bool), l.Perm (reg.filter P) →
      (if P i then l.erase i else l).Perm ((reg.erase i).filter P) := by
    intro l P hl
    have hboth := hl.trans (hperm.filter P)
    by_cases hP : P i = true
    · rw [List.filter_cons_of_pos hP] at hboth
      rw [if_pos hP]
      exact (List.cons_perm_iff_perm_erase.mp hboth.symm).2.symm
    · rwa [if_neg hP, ← List.filter_cons_of_neg hP]
  refine ⟨fun id => ?_, fun id => ?_, fun id => ?_, fun id => ?_, fun hclean j hj => ?_,
    fun hclean hstrategy => ?_⟩
  · have hmains := hfilter _ _ (h.mains id)
    simp only [decide_eq_true_eq] at hmains
    rw [hgroup]
    exact hmains
  · have hbackups := hfilter _ _ (h.backups id)
    simp only [decide_eq_true_eq] at hbackups
    rw [hgroup]
    exact hbackups
  · have hsum := List.sum_map_erase (p.livingIn living id) hi
    have hnone : p.livingIn living id i = 0 := by simp [livingIn, hdead]
    rw [hnone, Nat.zero_add] at hsum
    rw [hgroup]
    exact (h.nalives id).trans (congrArg Int32.ofNat hsum.symm)
  · have hsum := List.sum_map_erase (p.weightIn id) hi
    rw [hgroup]
    simp only [h.weight id, ← hsum, Int32.ofNat_add]
    rw [Int32.add_comm]
    exact Int32.add_sub_cancel _ _
  · exact h.ungrouped hclean j (List.mem_of_mem_erase hj)
  · have hsum := List.sum_map_erase (p.livingWeight living) hi
    have hnone : p.livingWeight living i = 0 := by simp [livingWeight, hdead]
    rw [hnone, Nat.zero_add] at hsum
    exact (h.available hclean hstrategy).trans (congrArg Int32.ofNat hsum.symm)

end UPSGroupPolicy

end Workflow.Nameservice
