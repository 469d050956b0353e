/-
Module: Workflow.Proofs.SchedWaiters
Layer: Proofs
Purpose: Wakeups of the connection scheduler. A group and a target are monitors; in every run in
  which capacity appears one unit at a time for the waiting threads of a group, whoever sleeps
  sleeps at a full group or target.
Trusted boundary: none
Main exports: groupMonitors, targetMonitors, Waiters.StepOk, Waiters.NoLostWakeup, no_lost_wakeup
-/
import Workflow.Kernel.SchedWaiters
import Workflow.Lib.Monitor
import Workflow.Proofs.SchedGroup

namespace Workflow.Kernel

open Workflow.Lib

namespace Sched

variable {s s' : Sched} {g t fuel : Nat}

/-! ### Groups and targets as monitors -/

/-- The groups, with the numbers of woken threads. -/
def groupMonitors (s : Sched) (signalled : Nat → Nat) (g : Nat) : Monitor :=
  ⟨(s.groups g).curLoad, (s.groups g).maxLoad, (s.groups g).waitCnt, signalled g⟩

/-- The targets, with the numbers of woken threads. -/
def targetMonitors (s : Sched) (signalled : Nat → Nat) (t : Nat) : Monitor :=
  ⟨(s.targets t).curLoad, (s.targets t).maxLoad, (s.targets t).waitCnt, signalled t⟩

section Monitors

variable (s : Sched) (signalled : Nat → Nat)

@[simp]
theorem groupMonitors_withSlots (h : Slots) :
    (s.withSlots g h).groupMonitors signalled = s.groupMonitors signalled := by
  funext k
  rcases eq_or_ne k g with rfl | hne
  · simp [groupMonitors, withSlots]
  · simp [groupMonitors, withSlots, hne]

@[simp]
theorem groupMonitors_setTarget (target : Target) :
    (s.setTarget t target).groupMonitors signalled = s.groupMonitors signalled := rfl

@[simp]
theorem groupMonitors_setGroup (group : Group) :
    (s.setGroup g group).groupMonitors signalled = Function.update (s.groupMonitors signalled) g
      ⟨group.curLoad, group.maxLoad, group.waitCnt, signalled g⟩ := by
  funext k
  rcases eq_or_ne k g with rfl | hne
  · simp [groupMonitors, setGroup]
  · simp [groupMonitors, setGroup, hne]

@[simp]
theorem groupMonitors_countAcquired :
    (s.countAcquired t).groupMonitors signalled = s.groupMonitors signalled := rfl

@[simp]
theorem targetMonitors_withSlots (h : Slots) :
    (s.withSlots g h).targetMonitors signalled = s.targetMonitors signalled := rfl

@[simp]
theorem targetMonitors_setGroup (group : Group) :
    (s.setGroup g group).targetMonitors signalled = s.targetMonitors signalled := rfl

@[simp]
theorem targetMonitors_setTarget (target : Target) :
    (s.setTarget t target).targetMonitors signalled =
      Function.update (s.targetMonitors signalled) t
        ⟨target.curLoad, target.maxLoad, target.waitCnt, signalled t⟩ := by
  funext k
  rcases eq_or_ne k t with rfl | hne
  · simp [targetMonitors, setTarget]
  · simp [targetMonitors, setTarget, hne]

@[simp]
theorem targetMonitors_countAcquired :
    (s.countAcquired t).targetMonitors signalled = s.targetMonitors signalled := rfl

theorem groupMonitors_update (n : Nat) :
    s.groupMonitors (Function.update signalled g n) = Function.update (s.groupMonitors signalled) g
      { s.groupMonitors signalled g with signalled := n } := by
  funext k
  rcases eq_or_ne k g with rfl | hne
  · simp [groupMonitors]
  · simp [groupMonitors, hne]

theorem targetMonitors_update (n : Nat) :
    s.targetMonitors (Function.update signalled t n) =
      Function.update (s.targetMonitors signalled) t
        { s.targetMonitors signalled t with signalled := n } := by
  funext k
  rcases eq_or_ne k t with rfl | hne
  · simp [targetMonitors]
  · simp [targetMonitors, hne]

end Monitors

/-! ### What the operations do to them -/

variable {signalled : Nat → Nat}

/-- One more load on a target, and on its group. -/
theorem takeLoad_target (hinv : Inv s) (group : Option Nat)
    (hlt : (s.targets t).curLoad < (s.targets t).maxLoad) :
    (s.takeLoad t group).targetMonitors signalled =
      Function.update (s.targetMonitors signalled) t (s.targetMonitors signalled t).take := by
  have hcur : addSize (s.targets t).curLoad 1 = (s.targets t).curLoad + 1 :=
    addSize_of_lt (by have := hinv.lt t; omega)
  cases group with
  | none =>
      simp only [takeLoad, targetMonitors_setTarget, hcur]
      rfl
  | some g =>
      simp only [takeLoad, targetMonitors_setGroup, targetMonitors_setTarget, hcur]
      rfl

/-- A unit that is taken shows on the monitor of the group. -/
theorem takeLoad_group_monitors (hinv : Inv s) :
    (s.takeLoad t (some g)).groupMonitors signalled =
      Function.update (s.groupMonitors signalled) g (s.groupMonitors signalled g).take := by
  have hcur : addSize (s.groups g).curLoad 1 = (s.groups g).curLoad + 1 := by
    have hle := hinv.curLoad_le_maxLoad g
    have hlt := hinv.maxLoad_add_lt g t
    have hpos := hinv.pos t
    exact addSize_of_lt (by omega)
  simp only [takeLoad, groupMonitors_setGroup, groupMonitors_setTarget]
  simp only [setTarget, hcur]
  rfl

/-- A thread that comes back from a wait on a group is no longer counted. -/
def backToGroup (s : Sched) (g : Nat) (woken : Bool) : Sched :=
  if woken then s.setGroup g { s.groups g with waitCnt := (s.groups g).waitCnt - 1 } else s

theorem backToGroup_inv (hinv : Inv s) (g : Nat) (woken : Bool) : Inv (s.backToGroup g woken) := by
  unfold backToGroup
  split
  · exact setGroup_waitCnt_inv hinv _
  · exact hinv

theorem backToGroup_group (s : Sched) (g : Nat) (woken : Bool) :
    (s.backToGroup g woken).groupMonitors signalled = Function.update (s.groupMonitors signalled) g
      (if woken then (s.groupMonitors signalled g).leave else s.groupMonitors signalled g) := by
  cases woken with
  | true => exact groupMonitors_setGroup s signalled _
  | false => exact (Function.update_eq_self ..).symm

/-- Waking up changes no load. -/
theorem backToGroup_loads (s : Sched) (g : Nat) (woken : Bool) :
    ((s.backToGroup g woken).groups g).curLoad = (s.groups g).curLoad ∧
      ((s.backToGroup g woken).groups g).maxLoad = (s.groups g).maxLoad := by
  cases woken with
  | true => simp [backToGroup, setGroup]
  | false => exact ⟨rfl, rfl⟩

/-- Nor what the targets are about. -/
theorem backToGroup_target (s : Sched) (g : Nat) (woken : Bool) :
    (s.backToGroup g woken).targetMonitors signalled = s.targetMonitors signalled := by
  cases woken <;> rfl

/-- An acquisition at a group that is not full takes load of the group and of a target. -/
theorem groupAcquire_room (hinv : Inv s) {woken : Bool}
    (hroom : (s.groups g).curLoad < (s.groups g).maxLoad)
    (h : Sched.exec fuel s (.groupAcquire g woken) = some s') :
    ∃ t, ∀ signalled, s'.targetMonitors signalled =
        Function.update (s.targetMonitors signalled) t (s.targetMonitors signalled t).take ∧
      s'.groupMonitors signalled = Function.update (s.groupMonitors signalled) g
        (if woken then (s.groupMonitors signalled g).leave
          else s.groupMonitors signalled g).take := by
  have hinv₁ := backToGroup_inv hinv g woken
  obtain ⟨hcur, hmax⟩ := backToGroup_loads s g woken
  rw [← hcur, ← hmax] at hroom
  have hacquire : s.groupAcquire g woken =
      let s₁ := s.backToGroup g woken
      let s₂ := s₁.takeLoad ((s₁.groups g).tgHeap 0) (some g)
      (s₂.withSlots g (heapify s₂.targets (s₂.slots g) (s₂.groups g).heapSize 0),
        some ((s₁.groups g).tgHeap 0)) := by
    exact if_pos hroom
  unfold Sched.exec at h
  simp only [hacquire] at h
  split at h
  · cases h
  · cases h
    obtain ⟨-, hspare⟩ := hinv₁.root hroom
    refine ⟨((s.backToGroup g woken).groups g).tgHeap 0, fun signalled => ⟨?_, ?_⟩⟩
    · rw [targetMonitors_countAcquired, targetMonitors_withSlots,
        takeLoad_target hinv₁ (some g) hspare, backToGroup_target]
    · rw [groupMonitors_countAcquired, groupMonitors_withSlots, takeLoad_group_monitors hinv₁,
        backToGroup_group, Function.update_idem, Function.update_self]

/-- At a full group only the wait of a woken thread ends. -/
theorem groupAcquire_full {woken : Bool} (hfull : ¬ (s.groups g).curLoad < (s.groups g).maxLoad)
    (h : Sched.exec fuel s (.groupAcquire g woken) = some s') : s' = s.backToGroup g woken := by
  obtain ⟨hcur, hmax⟩ := backToGroup_loads s g woken
  rw [← hcur, ← hmax] at hfull
  have hacquire : s.groupAcquire g woken = (s.backToGroup g woken, none) := if_neg hfull
  unfold Sched.exec at h
  simp only [hacquire] at h
  split at h
  · cases h
  · cases h
    rfl

/-- A thread goes to sleep on the group. -/
theorem groupWait_monitors (h : Sched.exec fuel s (.groupWait g) = some s') :
    s'.targetMonitors signalled = s.targetMonitors signalled ∧
      s'.groupMonitors signalled =
        Function.update (s.groupMonitors signalled) g (s.groupMonitors signalled g).sleep := by
  unfold Sched.exec at h
  dsimp only at h
  split at h
  · cases h
  · cases h
    exact ⟨rfl, groupMonitors_setGroup s signalled _⟩

/-- A thread that comes back from a wait on a target is no longer counted. -/
def backToTarget (s : Sched) (t : Nat) (woken : Bool) : Sched :=
  if woken then s.setTarget t { s.targets t with waitCnt := (s.targets t).waitCnt - 1 } else s

theorem backToTarget_inv (hinv : Inv s) (t : Nat) (woken : Bool) :
    Inv (s.backToTarget t woken) := by
  unfold backToTarget
  split
  · exact setTarget_waitCnt_inv hinv _
  · exact hinv

theorem backToTarget_target (s : Sched) (t : Nat) (woken : Bool) :
    (s.backToTarget t woken).targetMonitors signalled =
      Function.update (s.targetMonitors signalled) t
        (if woken then (s.targetMonitors signalled t).leave else s.targetMonitors signalled t) := by
  cases woken with
  | true => exact targetMonitors_setTarget s signalled _
  | false => exact (Function.update_eq_self ..).symm

/-- Waking up changes no load. -/
theorem backToTarget_loads (s : Sched) (t : Nat) (woken : Bool) :
    ((s.backToTarget t woken).targets t).curLoad = (s.targets t).curLoad ∧
      ((s.backToTarget t woken).targets t).maxLoad = (s.targets t).maxLoad := by
  cases woken with
  | true => simp [backToTarget, setTarget]
  | false => exact ⟨rfl, rfl⟩

/-- Nor what the groups are about. -/
theorem backToTarget_group (s : Sched) (t : Nat) (woken : Bool) :
    (s.backToTarget t woken).groupMonitors signalled = s.groupMonitors signalled := by
  cases woken <;> rfl

/-- An acquisition of a target that is not full takes load of it, and of its group if it has one. -/
theorem targetAcquire_room (hinv : Inv s) {woken : Bool}
    (hroom : (s.targets t).curLoad < (s.targets t).maxLoad)
    (h : Sched.exec fuel s (.targetAcquire t woken) = some s') :
    ∃ group : Option Nat, ∀ signalled, s'.targetMonitors signalled =
        Function.update (s.targetMonitors signalled) t
          (if woken then (s.targetMonitors signalled t).leave
            else s.targetMonitors signalled t).take ∧
      s'.groupMonitors signalled = match group with
        | none => s.groupMonitors signalled
        | some g => Function.update (s.groupMonitors signalled) g
            (s.groupMonitors signalled g).take := by
  have hinv₁ := backToTarget_inv hinv t woken
  obtain ⟨hcur, hmax⟩ := backToTarget_loads s t woken
  rw [← hcur, ← hmax] at hroom
  have hacquire : s.targetAcquire t woken =
      let s₁ := s.backToTarget t woken
      let s₂ := s₁.takeLoad t (s₁.targets t).group
      match (s₂.targets t).group with
      | none => (s₂, true)
      | some g => (s₂.withSlots g (heapify s₂.targets (s₂.slots g) (s₂.groups g).heapSize
          (s₂.index t)), true) :=
    if_pos hroom
  have hgroup := (takeLoad_group (s.backToTarget t woken) t
    ((s.backToTarget t woken).targets t).group).1
  unfold Sched.exec at h
  simp only [hacquire, hgroup] at h
  refine ⟨((s.backToTarget t woken).targets t).group, fun signalled => ?_⟩
  have htaken : ∀ group, ((s.backToTarget t woken).takeLoad t group).targetMonitors signalled =
      Function.update (s.targetMonitors signalled) t
        (if woken then (s.targetMonitors signalled t).leave
          else s.targetMonitors signalled t).take := by
    intro group
    rw [takeLoad_target hinv₁ group hroom, backToTarget_target, Function.update_self,
      Function.update_idem]
  split at h
  · cases h
  · cases hin : ((s.backToTarget t woken).targets t).group with
    | none =>
        simp only [hin] at h
        cases h
        exact ⟨htaken none, backToTarget_group s t woken⟩
    | some g =>
        simp only [hin] at h
        cases h
        refine ⟨htaken (some g), ?_⟩
        rw [groupMonitors_countAcquired, groupMonitors_withSlots, takeLoad_group_monitors hinv₁,
          backToTarget_group]

/-- At a full target only the wait of a woken thread ends. -/
theorem targetAcquire_full {woken : Bool}
    (hfull : ¬ (s.targets t).curLoad < (s.targets t).maxLoad)
    (h : Sched.exec fuel s (.targetAcquire t woken) = some s') : s' = s.backToTarget t woken := by
  obtain ⟨hcur, hmax⟩ := backToTarget_loads s t woken
  rw [← hcur, ← hmax] at hfull
  have hacquire : s.targetAcquire t woken = (s.backToTarget t woken, false) := if_neg hfull
  unfold Sched.exec at h
  simp only [hacquire] at h
  split at h
  · cases h
  · cases h
    rfl

/-- A thread goes to sleep on the target. -/
theorem targetWait_monitors (h : Sched.exec fuel s (.targetWait t) = some s') :
    s'.groupMonitors signalled = s.groupMonitors signalled ∧
      s'.targetMonitors signalled =
        Function.update (s.targetMonitors signalled) t (s.targetMonitors signalled t).sleep := by
  unfold Sched.exec at h
  dsimp only at h
  split at h
  · cases h
  · cases h
    exact ⟨rfl, targetMonitors_setTarget s signalled _⟩

/-- A release gives back load of the target, and of its group if it has one. -/
theorem release_monitors (hinv : Inv s) {keepAlive : Bool}
    (h : Sched.exec fuel s (.release t keepAlive) = some s') (signalled : Nat → Nat) :
    s'.targetMonitors signalled =
        Function.update (s.targetMonitors signalled) t (s.targetMonitors signalled t).give ∧
      s'.groupMonitors signalled = match (s.targets t).group with
        | none => s.groupMonitors signalled
        | some g => Function.update (s.groupMonitors signalled) g
            (s.groupMonitors signalled g).give := by
  unfold Sched.exec at h
  dsimp only at h
  split at h
  · cases h
  · rename_i hacquired
    cases h
    have hpos : 1 ≤ (s.targets t).curLoad := by
      rw [hinv.acquired t] at hacquired
      omega
    have hcur : subSize (s.targets t).curLoad 1 = (s.targets t).curLoad - 1 :=
      subSize_of_le hpos (by have := hinv.lt t; have := hinv.load t; omega)
    unfold targetRelease
    simp only [setTarget, Function.update_self, hcur]
    cases hgroup : (s.targets t).group with
    | none =>
        refine ⟨?_, rfl⟩
        exact targetMonitors_setTarget s signalled
          { s.targets t with group := none, curLoad := (s.targets t).curLoad - 1 }
    | some g =>
        have ht : t ∈ s.members g := ((hinv.group g).member t).mp hgroup
        have hle := (hinv.group g).le_curLoad ht
        have hsum : subSize (s.groups g).curLoad 1 = (s.groups g).curLoad - 1 :=
          subSize_of_le (hpos.trans hle)
            (by have := hinv.curLoad_le_maxLoad g; have := hinv.maxLoad_add_lt g t; omega)
        refine ⟨?_, ?_⟩
        · exact targetMonitors_setTarget s signalled
            { s.targets t with group := some g, curLoad := (s.targets t).curLoad - 1 }
        · change ((Sched.setGroup _ g _).withSlots g _).groupMonitors signalled = _
          rw [groupMonitors_withSlots, groupMonitors_setGroup]
          dsimp only
          rw [hsum]
          rfl

/-- `add` puts a target into the group, or changes nothing. -/
theorem groupAdd_monitors (hinv : Inv s) (g t : Nat) (memory : Bool) :
    ((s.targets t).group = none ∧ (s.targets t).waitCnt = 0 ∧ (s.heapInsert g t memory).isSome ∧
        ∀ signalled, (s.groupAdd g t memory).targetMonitors signalled =
            s.targetMonitors signalled ∧
          (s.groupAdd g t memory).groupMonitors signalled =
            Function.update (s.groupMonitors signalled) g
              ((s.groupMonitors signalled g).extend (s.targets t).curLoad (s.targets t).maxLoad)) ∨
      (¬ ((s.targets t).group = none ∧ (s.targets t).waitCnt = 0 ∧
        (s.heapInsert g t memory).isSome) ∧ s.groupAdd g t memory = s) := by
  by_cases hfree : (s.targets t).group = none ∧ (s.targets t).waitCnt = 0
  · cases hinsert : s.heapInsert g t memory with
    | none =>
        refine Or.inr ⟨by simp, ?_⟩
        simp only [groupAdd, if_pos hfree, hinsert]
    | some s₁ =>
        refine Or.inl ⟨hfree.1, hfree.2, rfl, fun signalled => ?_⟩
        have hsmall := hinv.maxLoad_add_lt g t
        have hcurle := hinv.curLoad_le_maxLoad g
        have hload := hinv.load t
        have hmax : addSize (s.groups g).maxLoad (s.targets t).maxLoad =
            (s.groups g).maxLoad + (s.targets t).maxLoad := addSize_of_lt hsmall
        have hcur : addSize (s.groups g).curLoad (s.targets t).curLoad =
            (s.groups g).curLoad + (s.targets t).curLoad := addSize_of_lt (by omega)
        have hslots : s₁.targetMonitors signalled = s.targetMonitors signalled ∧
            s₁.groupMonitors signalled = s.groupMonitors signalled ∧
            (s₁.groups g).curLoad = (s.groups g).curLoad ∧
            (s₁.groups g).maxLoad = (s.groups g).maxLoad ∧
            (s₁.groups g).waitCnt = (s.groups g).waitCnt := by
          unfold heapInsert at hinsert
          dsimp only at hinsert
          split at hinsert
          · cases hinsert
          · obtain rfl := Option.some.inj hinsert
            refine ⟨rfl, ?_, by simp [setGroup, withSlots], by simp [setGroup, withSlots],
              by simp [setGroup, withSlots]⟩
            rw [groupMonitors_setGroup, groupMonitors_withSlots]
            simp [withSlots, groupMonitors]
        obtain ⟨htargets, hgroups, hcur₁, hmax₁, hwait₁⟩ := hslots
        simp only [groupAdd, if_pos hfree, hinsert]
        refine ⟨?_, ?_⟩
        · rw [targetMonitors_setGroup, targetMonitors_setTarget, htargets]
          exact Function.update_eq_self ..
        · rw [groupMonitors_setGroup, groupMonitors_setTarget, hgroups]
          simp only [setTarget, hcur₁, hmax₁, hwait₁, hmax, hcur]
          rfl
  · refine Or.inr ⟨fun h => hfree ⟨h.1, h.2.1⟩, ?_⟩
    simp only [groupAdd, if_neg hfree]

/-- `remove` takes a target from the group, or changes nothing. -/
theorem groupRemove_monitors (hinv : Inv s) (g t : Nat) :
    ((s.targets t).curLoad ≤ (s.groups g).curLoad ∧ ∀ signalled,
        (s.groupRemove g t).targetMonitors signalled = s.targetMonitors signalled ∧
        (s.groupRemove g t).groupMonitors signalled =
          Function.update (s.groupMonitors signalled) g
            ((s.groupMonitors signalled g).reduce (s.targets t).curLoad (s.targets t).maxLoad)) ∨
      s.groupRemove g t = s := by
  by_cases hmine : (s.targets t).group = some g ∧ (s.targets t).waitCnt = 0
  · have hg := hinv.group g
    have ht : t ∈ s.members g := (hg.member t).mp hmine.1
    have hcurle := hg.le_curLoad ht
    have hmaxle : (s.targets t).maxLoad ≤ (s.groups g).maxLoad := by
      rw [hg.maxLoad]
      exact Finset.single_le_sum (f := fun u => (s.targets u).maxLoad) (fun _ _ => Nat.zero_le _) ht
    have hload := hinv.curLoad_le_maxLoad g
    have hsmall := hinv.maxLoad_add_lt g t
    have hmax := subSize_of_le hmaxle (by omega)
    have hcur := subSize_of_le hcurle (by omega)
    refine Or.inl ⟨hcurle, fun signalled => ?_⟩
    simp only [groupRemove, if_pos hmine]
    refine ⟨?_, ?_⟩
    · rw [targetMonitors_setTarget, targetMonitors_setGroup, targetMonitors_withSlots]
      exact Function.update_eq_self ..
    · rw [groupMonitors_setTarget, groupMonitors_setGroup, groupMonitors_withSlots]
      simp only [withSlots, Function.update_self, hmax, hcur]
      rfl
  · refine Or.inr ?_
    simp only [groupRemove, if_neg hmine]

end Sched

namespace Waiters

variable {w w' : Waiters} {fuel : Nat}

/-! ### Waking and sleeping -/

def groupMonitor (w : Waiters) : Nat → Monitor := w.sched.groupMonitors w.groupSignalled

def targetMonitor (w : Waiters) : Nat → Monitor := w.sched.targetMonitors w.targetSignalled

/-- A thread comes back from its wait. -/
def back (how : Wake) (m : Monitor) : Monitor := if how = .signalled then m.run else m.leave

/-- A thread that wakes up and takes a unit. -/
theorem awake_back_take {m : Monitor} {how : Wake} (h : m.Awake)
    (hcan : CanWake m.signalled m.wait how) : (back how m).take.Awake := by
  cases how with
  | signalled => exact h.run_take hcan
  | timedOut => exact (h.leave hcan).take
  | spurious => exact (h.leave hcan).take

/-- A thread that gives up. -/
theorem awake_back_timedOut {m : Monitor} (h : m.Awake)
    (hcan : CanWake m.signalled m.wait .timedOut) : (id (back .timedOut m)).Awake :=
  h.leave hcan

/-- A thread that wakes up for nothing and goes back to sleep. -/
theorem awake_back_sleep {m : Monitor} {how : Wake} (h : m.Awake)
    (hcan : CanWake m.signalled m.wait how) (hfull : m.max ≤ m.cur) :
    (back how m).sleep.Awake := by
  cases how with
  | signalled => exact h.run_sleep hfull
  | timedOut => exact (h.leave hcan).sleep hfull
  | spurious => exact (h.leave hcan).sleep hfull

/-- One monitor changes. -/
theorem forall_awake_update {f : Nat → Monitor} {m : Monitor} {k : Nat} (h : ∀ j, (f j).Awake)
    (hm : m.Awake) (j : Nat) : (Function.update f k m j).Awake := by
  rcases eq_or_ne j k with rfl | hne
  · rw [Function.update_self]
    exact hm
  · rw [Function.update_of_ne hne]
    exact h j

/-- A thread comes back to the monitor `k`, is taken off its counts, and does `m` there. -/
theorem awake_settled {f : (Nat → Nat) → Nat → Monitor} {m : Monitor → Monitor}
    {before : Nat → Monitor} {signalled : Nat → Nat} {k : Nat} {how : Wake}
    (hbefore : ∀ j, (before j).Awake) (hk : (before k).signalled = signalled k)
    (hf : ∀ n, f (Function.update signalled k n) =
      Function.update (f signalled) k { f signalled k with signalled := n })
    (hm : ∀ b : Monitor, m { b with signalled := b.signalled - 1 } =
      { m b with signalled := b.signalled - 1 })
    (h : f signalled = Function.update before k (m (before k).leave))
    (hawake : (m (back how (before k))).Awake) (j : Nat) :
    (f (settled signalled k how) j).Awake := by
  have hsettled : f (settled signalled k how) =
      Function.update before k (m (back how (before k))) := by
    unfold settled back
    split
    · have hrun : (before k).run =
          { (before k).leave with signalled := (before k).leave.signalled - 1 } := rfl
      rw [hf, h, Function.update_self, Function.update_idem, ← hk, hrun, hm]
      rfl
    · exact h
  rw [hsettled]
  exact forall_awake_update hbefore hawake j

/-- A signal touches nothing but the monitor. -/
theorem signalGroup_monitors (w : Waiters) (g : Nat) :
    (w.signalGroup g).sched = w.sched ∧ (w.signalGroup g).targetMonitor = w.targetMonitor ∧
      (w.signalGroup g).groupMonitor = Function.update w.groupMonitor g
        (w.groupMonitor g).signal := by
  unfold signalGroup
  split
  · rename_i hlt
    refine ⟨rfl, rfl, ?_⟩
    have hsignal : (w.groupMonitor g).signal =
        { w.groupMonitor g with signalled := w.groupSignalled g + 1 } := if_pos hlt
    rw [hsignal]
    exact Sched.groupMonitors_update _ _ _
  · rename_i hnot
    have hsignal : (w.groupMonitor g).signal = w.groupMonitor g := if_neg hnot
    exact ⟨rfl, rfl, by rw [hsignal, Function.update_eq_self]⟩

/-- A signal touches nothing but the monitor. -/
theorem signalTarget_monitors (w : Waiters) (t : Nat) :
    (w.signalTarget t).sched = w.sched ∧ (w.signalTarget t).groupMonitor = w.groupMonitor ∧
      (w.signalTarget t).targetMonitor = Function.update w.targetMonitor t
        (w.targetMonitor t).signal := by
  unfold signalTarget
  split
  · rename_i hlt
    refine ⟨rfl, rfl, ?_⟩
    have hsignal : (w.targetMonitor t).signal =
        { w.targetMonitor t with signalled := w.targetSignalled t + 1 } := if_pos hlt
    rw [hsignal]
    exact Sched.targetMonitors_update _ _ _
  · rename_i hnot
    have hsignal : (w.targetMonitor t).signal = w.targetMonitor t := if_neg hnot
    exact ⟨rfl, rfl, by rw [hsignal, Function.update_eq_self]⟩

/-! ### Runs -/

/-- The condition on a step: capacity does not appear for several sleeping threads of a group at
once (`add`), and not for a target whose waiting threads are preferred to those of the group
(`release`), unless enough threads of the group are woken already. -/
def StepOk (w : Waiters) : WaitOp → Prop
  | .add g t memory => w.Adds g t memory → (w.groupMonitor g).asleep ≤ 1 ∨
      (w.group g).maxLoad + (w.target t).maxLoad ≤
        (w.group g).curLoad + (w.target t).curLoad + w.groupSignalled g + 1
  | .release t _ => ∀ g ∈ (w.target t).group, (w.target t).waitCnt = 0 ∨
      (w.groupMonitor g).asleep = 0 ∨
        (w.group g).maxLoad < (w.group g).curLoad + w.groupSignalled g
  | _ => True

instance (w : Waiters) (op : WaitOp) : Decidable (w.StepOk op) := by
  cases op <;> unfold StepOk <;> infer_instance

/-- The invariant of all runs whose steps are fine. -/
structure Inv (w : Waiters) : Prop where
  sched : Sched.Inv w.sched
  groups : ∀ g, (w.groupMonitor g).Awake
  targets : ∀ t, (w.targetMonitor t).Awake

/-- A target joins a group, whose waiters may go on. -/
theorem add_inv (hinv : Inv w) {g t : Nat} {memory : Bool} (hok : w.StepOk (.add g t memory)) :
    Inv (w.add g t memory) := by
  have hsched := Sched.groupAdd_inv (g := g) (t := t) memory hinv.sched
  unfold add
  dsimp only
  rcases Sched.groupAdd_monitors hinv.sched g t memory with
    ⟨hgroup, hwait, hinsert, hmon⟩ | ⟨hnot, hsame⟩
  · have hadds : w.Adds g t memory := ⟨hgroup, hwait, hinsert⟩
    generalize hw' :
      (⟨w.sched.groupAdd g t memory, w.groupSignalled, w.targetSignalled⟩ : Waiters) = w' at *
    have htargets : w'.targetMonitor = w.targetMonitor := by
      rw [← hw']
      exact (hmon _).1
    have hgroups : w'.groupMonitor = Function.update w.groupMonitor g
        ((w.groupMonitor g).extend (w.target t).curLoad (w.target t).maxLoad) := by
      rw [← hw']
      exact (hmon _).2
    have hself : w'.groupMonitor g =
        (w.groupMonitor g).extend (w.target t).curLoad (w.target t).maxLoad := by
      rw [hgroups, Function.update_self]
    have hsched' : w'.sched = w.sched.groupAdd g t memory := by rw [← hw']
    split
    · obtain ⟨hsame, htargets', hgroups'⟩ := signalGroup_monitors w' g
      refine ⟨by rw [hsame, hsched']; exact hsched, fun k => ?_, fun k => ?_⟩
      · rw [hgroups', hgroups, Function.update_idem]
        refine forall_awake_update hinv.groups ?_ k
        rw [Function.update_self]
        exact (hinv.groups g).extend_signal (hok hadds)
      · rw [htargets', htargets]
        exact hinv.targets k
    · rename_i hfull
      refine ⟨by rw [hsched']; exact hsched, fun k => ?_, fun k => by
        rw [htargets]; exact hinv.targets k⟩
      rw [hgroups]
      refine forall_awake_update hinv.groups ((hinv.groups g).extend_full ?_) k
      have hwait' : (w'.group g).waitCnt = (w.groupMonitor g).wait := congrArg Monitor.wait hself
      have hcur' : (w'.group g).curLoad = (w.groupMonitor g).cur + (w.target t).curLoad :=
        congrArg Monitor.cur hself
      have hmax' : (w'.group g).maxLoad = (w.groupMonitor g).max + (w.target t).maxLoad :=
        congrArg Monitor.max hself
      rw [hwait', hcur', hmax'] at hfull
      have hnot : ¬ (0 < (w.groupMonitor g).wait ∧ (w.groupMonitor g).cur + (w.target t).curLoad <
          (w.groupMonitor g).max + (w.target t).maxLoad) := fun h => hfull ⟨hadds, h⟩
      omega
  · have hnot' : ¬ w.Adds g t memory := hnot
    rw [if_neg fun h => hnot' h.1, hsame]
    exact hinv

/-- A target leaves its group. -/
theorem remove_inv (hinv : Inv w) (g t : Nat) :
    Inv { w with sched := w.sched.groupRemove g t } := by
  rcases Sched.groupRemove_monitors hinv.sched g t with ⟨hle, hmon⟩ | hsame
  · refine ⟨Sched.groupRemove_inv hinv.sched, fun k => ?_, fun k => ?_⟩
    · have hgroups : groupMonitor { w with sched := w.sched.groupRemove g t } =
          Function.update w.groupMonitor g
            ((w.groupMonitor g).reduce (w.target t).curLoad (w.target t).maxLoad) := (hmon _).2
      rw [hgroups]
      exact forall_awake_update hinv.groups ((hinv.groups g).reduce (hinv.sched.load t) hle) k
    · have htargets : targetMonitor { w with sched := w.sched.groupRemove g t } =
          w.targetMonitor := (hmon _).1
      rw [htargets]
      exact hinv.targets k
  · rw [hsame]
    exact hinv

/-- A step that changes one group and one target. -/
theorem Inv.of_monitors (hsched : Sched.Inv w'.sched) {g t : Nat} {mg mt : Monitor} (hinv : Inv w)
    (hgroups : w'.groupMonitor = Function.update w.groupMonitor g mg)
    (htargets : w'.targetMonitor = Function.update w.targetMonitor t mt) (hmg : mg.Awake)
    (hmt : mt.Awake) : Inv w' := by
  refine ⟨hsched, fun k => ?_, fun k => ?_⟩
  · rw [hgroups]
    exact forall_awake_update hinv.groups hmg k
  · rw [htargets]
    exact forall_awake_update hinv.targets hmt k

/-- A unit of a group is asked for. -/
theorem groupAcquire_inv (hinv : Inv w) {g : Nat} {mayWait : Bool}
    (h : w.exec fuel (.groupAcquire g mayWait) = some w') : Inv w' := by
  simp only [exec] at h
  split at h
  · obtain ⟨s', hs', rfl⟩ := Option.map_eq_some_iff.mp h
    have hsched := Sched.exec_inv hinv.sched hs'
    by_cases hroom : (w.sched.groups g).curLoad < (w.sched.groups g).maxLoad
    · obtain ⟨t, hmon⟩ := Sched.groupAcquire_room hinv.sched hroom hs'
      exact .of_monitors hsched hinv (hmon _).2 (hmon _).1 (hinv.groups g).take
        (hinv.targets t).take
    · have hsame := Sched.groupAcquire_full hroom hs'
      rw [hsame]
      exact hinv
  · rename_i hfull
    obtain ⟨s', hs', rfl⟩ := Option.map_eq_some_iff.mp h
    have hmax : (w.groupMonitor g).max ≤ (w.groupMonitor g).cur :=
      Nat.le_of_not_lt fun hlt => hfull (Or.inl hlt)
    refine ⟨Sched.exec_inv hinv.sched hs', fun k => ?_, fun k => ?_⟩
    · unfold groupMonitor
      rw [(Sched.groupWait_monitors hs').2]
      exact forall_awake_update hinv.groups ((hinv.groups g).sleep hmax) k
    · unfold targetMonitor
      rw [(Sched.groupWait_monitors hs').1]
      exact hinv.targets k

/-- A thread wakes up from waiting on a group. -/
theorem groupWake_inv (hinv : Inv w) {g : Nat} {how : Wake}
    (h : w.exec fuel (.groupWake g how) = some w') : Inv w' := by
  simp only [exec] at h
  split at h
  · rename_i hcan
    obtain ⟨s₁, hs₁, h⟩ := Option.bind_eq_some_iff.mp h
    have hsched₁ := Sched.exec_inv hinv.sched hs₁
    have hcan' : CanWake (w.groupMonitor g).signalled (w.groupMonitor g).wait how := hcan
    by_cases hroom : (w.group g).curLoad < (w.group g).maxLoad
    · rw [if_pos (Or.inl hroom)] at h
      cases h
      obtain ⟨t, hmon⟩ := Sched.groupAcquire_room hinv.sched hroom hs₁
      refine ⟨hsched₁, awake_settled (m := Monitor.take) hinv.groups rfl
        (Sched.groupMonitors_update s₁ w.groupSignalled) (fun _ => rfl) (hmon _).2
        (awake_back_take (hinv.groups g) hcan'), fun k => ?_⟩
      unfold targetMonitor
      rw [(hmon _).1]
      exact forall_awake_update hinv.targets (hinv.targets t).take k
    · have hmax : (w.groupMonitor g).max ≤ (w.groupMonitor g).cur := Nat.le_of_not_lt hroom
      have hback := Sched.groupAcquire_full hroom hs₁
      have htargets : s₁.targetMonitors w.targetSignalled = w.targetMonitor := by
        rw [hback]
        exact Sched.backToGroup_target _ _ _
      have hgroups : s₁.groupMonitors w.groupSignalled =
          Function.update w.groupMonitor g (w.groupMonitor g).leave := by
        rw [hback]
        exact Sched.backToGroup_group _ _ _
      by_cases hover : how = .timedOut
      · rw [if_pos (Or.inr hover)] at h
        cases h
        subst hover
        refine ⟨hsched₁, awake_settled (m := id) hinv.groups rfl
          (Sched.groupMonitors_update s₁ w.groupSignalled) (fun _ => rfl) hgroups
          (awake_back_timedOut (hinv.groups g) hcan'), fun k => ?_⟩
        unfold targetMonitor
        rw [htargets]
        exact hinv.targets k
      · rw [if_neg (not_or.mpr ⟨hroom, hover⟩)] at h
        obtain ⟨s₂, hs₂, rfl⟩ := Option.map_eq_some_iff.mp h
        have hgroups₂ : s₂.groupMonitors w.groupSignalled =
            Function.update w.groupMonitor g (w.groupMonitor g).leave.sleep := by
          rw [(Sched.groupWait_monitors hs₂).2, hgroups, Function.update_self,
            Function.update_idem]
        refine ⟨Sched.exec_inv hsched₁ hs₂, awake_settled (m := Monitor.sleep) hinv.groups rfl
          (Sched.groupMonitors_update s₂ w.groupSignalled) (fun _ => rfl) hgroups₂
          (awake_back_sleep (hinv.groups g) hcan' hmax), fun k => ?_⟩
        unfold targetMonitor
        rw [(Sched.groupWait_monitors hs₂).1, htargets]
        exact hinv.targets k
  · cases h

/-- What an acquisition of a target does to the groups keeps them awake. -/
theorem awake_taken {group : Option Nat} {f f' : Nat → Monitor} (h : ∀ g, (f g).Awake)
    (hf' : f' = match group with
      | none => f
      | some g => Function.update f g (f g).take) (k : Nat) : (f' k).Awake := by
  cases group with
  | none => exact hf' ▸ h k
  | some g =>
      rw [hf']
      exact forall_awake_update h (h g).take k

/-- A unit of a target is asked for. -/
theorem targetAcquire_inv (hinv : Inv w) {t : Nat} {mayWait : Bool}
    (h : w.exec fuel (.targetAcquire t mayWait) = some w') : Inv w' := by
  simp only [exec] at h
  split at h
  · obtain ⟨s', hs', rfl⟩ := Option.map_eq_some_iff.mp h
    have hsched := Sched.exec_inv hinv.sched hs'
    by_cases hroom : (w.sched.targets t).curLoad < (w.sched.targets t).maxLoad
    · obtain ⟨group, hmon⟩ := Sched.targetAcquire_room hinv.sched hroom hs'
      refine ⟨hsched, awake_taken hinv.groups (hmon _).2, fun k => ?_⟩
      unfold targetMonitor
      rw [(hmon _).1]
      exact forall_awake_update hinv.targets (hinv.targets t).take k
    · have hsame := Sched.targetAcquire_full hroom hs'
      rw [hsame]
      exact hinv
  · rename_i hfull
    obtain ⟨s', hs', rfl⟩ := Option.map_eq_some_iff.mp h
    have hmax : (w.targetMonitor t).max ≤ (w.targetMonitor t).cur :=
      Nat.le_of_not_lt fun hlt => hfull (Or.inl hlt)
    refine ⟨Sched.exec_inv hinv.sched hs', fun k => ?_, fun k => ?_⟩
    · unfold groupMonitor
      rw [(Sched.targetWait_monitors hs').1]
      exact hinv.groups k
    · unfold targetMonitor
      rw [(Sched.targetWait_monitors hs').2]
      exact forall_awake_update hinv.targets ((hinv.targets t).sleep hmax) k

/-- A thread wakes up from waiting on a target. -/
theorem targetWake_inv (hinv : Inv w) {t : Nat} {how : Wake}
    (h : w.exec fuel (.targetWake t how) = some w') : Inv w' := by
  simp only [exec] at h
  split at h
  · rename_i hcan
    obtain ⟨s₁, hs₁, h⟩ := Option.bind_eq_some_iff.mp h
    have hsched₁ := Sched.exec_inv hinv.sched hs₁
    have hcan' : CanWake (w.targetMonitor t).signalled (w.targetMonitor t).wait how := hcan
    by_cases hroom : (w.target t).curLoad < (w.target t).maxLoad
    · rw [if_pos (Or.inl hroom)] at h
      cases h
      obtain ⟨group, hmon⟩ := Sched.targetAcquire_room hinv.sched hroom hs₁
      exact ⟨hsched₁, awake_taken hinv.groups (hmon _).2, awake_settled (m := Monitor.take)
        hinv.targets rfl (Sched.targetMonitors_update s₁ w.targetSignalled) (fun _ => rfl)
        (hmon _).1 (awake_back_take (hinv.targets t) hcan')⟩
    · have hmax : (w.targetMonitor t).max ≤ (w.targetMonitor t).cur := Nat.le_of_not_lt hroom
      have hback := Sched.targetAcquire_full hroom hs₁
      have hgroups : s₁.groupMonitors w.groupSignalled = w.groupMonitor := by
        rw [hback]
        exact Sched.backToTarget_group _ _ _
      have htargets : s₁.targetMonitors w.targetSignalled =
          Function.update w.targetMonitor t (w.targetMonitor t).leave := by
        rw [hback]
        exact Sched.backToTarget_target _ _ _
      by_cases hover : how = .timedOut
      · rw [if_pos (Or.inr hover)] at h
        cases h
        subst hover
        refine ⟨hsched₁, fun k => ?_, awake_settled (m := id) hinv.targets rfl
          (Sched.targetMonitors_update s₁ w.targetSignalled) (fun _ => rfl) htargets
          (awake_back_timedOut (hinv.targets t) hcan')⟩
        unfold groupMonitor
        rw [hgroups]
        exact hinv.groups k
      · rw [if_neg (not_or.mpr ⟨hroom, hover⟩)] at h
        obtain ⟨s₂, hs₂, rfl⟩ := Option.map_eq_some_iff.mp h
        have htargets₂ : s₂.targetMonitors w.targetSignalled =
            Function.update w.targetMonitor t (w.targetMonitor t).leave.sleep := by
          rw [(Sched.targetWait_monitors hs₂).2, htargets, Function.update_self,
            Function.update_idem]
        refine ⟨Sched.exec_inv hsched₁ hs₂, fun k => ?_, awake_settled (m := Monitor.sleep)
          hinv.targets rfl (Sched.targetMonitors_update s₂ w.targetSignalled) (fun _ => rfl)
          htargets₂ (awake_back_sleep (hinv.targets t) hcan' hmax)⟩
        unfold groupMonitor
        rw [(Sched.targetWait_monitors hs₂).1, hgroups]
        exact hinv.groups k
  · cases h

/-- The target of a release, with the signal for its own waiting threads. -/
theorem release_target (hinv : Inv w) {t : Nat} {s' : Sched}
    (htargets : s'.targetMonitors w.targetSignalled =
      Function.update w.targetMonitor t (w.targetMonitor t).give) :
    ∃ w', w' = (if 0 < (w.target t).waitCnt then { w with sched := s' }.signalTarget t
        else { w with sched := s' }) ∧ w'.sched = s' ∧
      w'.groupMonitor = s'.groupMonitors w.groupSignalled ∧ ∀ k, (w'.targetMonitor k).Awake := by
  refine ⟨_, rfl, ?_⟩
  split
  · obtain ⟨hsched, hgroups, htargets'⟩ := signalTarget_monitors { w with sched := s' } t
    refine ⟨hsched, hgroups, fun k => ?_⟩
    have hbefore : targetMonitor { w with sched := s' } =
        Function.update w.targetMonitor t (w.targetMonitor t).give := htargets
    rw [htargets', hbefore, Function.update_self, Function.update_idem]
    exact forall_awake_update hinv.targets (hinv.targets t).give_signal k
  · rename_i hnone
    refine ⟨rfl, rfl, fun k => ?_⟩
    unfold targetMonitor
    rw [htargets]
    refine forall_awake_update hinv.targets ((hinv.targets t).give (Or.inl ?_)) k
    have hwait : (w.targetMonitor t).wait = 0 := Nat.eq_zero_of_not_pos hnone
    rw [Monitor.asleep, hwait, Nat.zero_sub]

/-- A unit is given back. -/
theorem release_inv (hinv : Inv w) {t : Nat} {keepAlive : Bool}
    (hok : w.StepOk (.release t keepAlive)) (h : w.release fuel t keepAlive = some w') :
    Inv w' := by
  obtain ⟨s', hs', h⟩ := Option.bind_eq_some_iff.mp h
  have hsched := Sched.exec_inv hinv.sched hs'
  have hgroups := (Sched.release_monitors hinv.sched hs' w.groupSignalled).2
  obtain ⟨w₂, hw₂, hsched₂, hgroups₂, htargets₂⟩ :=
    release_target hinv (Sched.release_monitors hinv.sched hs' w.targetSignalled).1
  dsimp only at h
  rw [← hw₂] at h
  cases hgroup : (w.target t).group with
  | none =>
      simp only [hgroup] at h
      cases h
      have hgroup' : (w.sched.targets t).group = none := hgroup
      rw [hgroup'] at hgroups
      refine ⟨hsched₂ ▸ hsched, fun k => ?_, htargets₂⟩
      rw [hgroups₂, hgroups]
      exact hinv.groups k
  | some g =>
      simp only [hgroup] at h
      cases h
      have hgroup' : (w.sched.targets t).group = some g := hgroup
      rw [hgroup', ← hgroups₂] at hgroups
      replace hgroups : w₂.groupMonitor =
        Function.update w.groupMonitor g (w.groupMonitor g).give := hgroups
      have hself : w₂.groupMonitor g = (w.groupMonitor g).give := by
        rw [hgroups, Function.update_self]
      have hwait : (w₂.group g).waitCnt = (w.groupMonitor g).wait := congrArg Monitor.wait hself
      split
      · obtain ⟨hsame, htargets, hsignal⟩ := signalGroup_monitors w₂ g
        refine ⟨by rw [hsame, hsched₂]; exact hsched, fun k => ?_, fun k => ?_⟩
        · rw [hsignal, hgroups, Function.update_idem, Function.update_self]
          exact forall_awake_update hinv.groups (hinv.groups g).give_signal k
        · rw [htargets]
          exact htargets₂ k
      · rename_i hnot
        refine ⟨hsched₂ ▸ hsched, fun k => ?_, htargets₂⟩
        rw [hgroups]
        refine forall_awake_update hinv.groups ((hinv.groups g).give ?_) k
        rcases hok g hgroup with hnone | hfine
        · have hzero : ¬ 0 < (w₂.group g).waitCnt := fun hpos => hnot ⟨hnone, hpos⟩
          refine Or.inl ?_
          rw [hwait] at hzero
          rw [Monitor.asleep, Nat.eq_zero_of_not_pos hzero, Nat.zero_sub]
        · exact hfine

/-- What each step keeps. -/
theorem exec_inv {op : WaitOp} (hinv : Inv w) (hok : w.StepOk op)
    (h : w.exec fuel op = some w') : Inv w' := by
  cases op with
  | add g t memory =>
      cases h
      exact add_inv hinv hok
  | remove g t =>
      cases h
      exact remove_inv hinv g t
  | groupAcquire g mayWait => exact groupAcquire_inv hinv h
  | groupWake g how => exact groupWake_inv hinv h
  | targetAcquire t mayWait => exact targetAcquire_inv hinv h
  | targetWake t how => exact targetWake_inv hinv h
  | release t keepAlive => exact release_inv hinv hok h

/-- Whoever sleeps while no woken thread of the same group or target is still to run, sleeps at a
full one. -/
structure NoLostWakeup (w : Waiters) : Prop where
  group : ∀ g, 0 < (w.group g).waitCnt - w.groupSignalled g → w.groupSignalled g = 0 →
    (w.group g).maxLoad ≤ (w.group g).curLoad
  target : ∀ t, 0 < (w.target t).waitCnt - w.targetSignalled t → w.targetSignalled t = 0 →
    (w.target t).maxLoad ≤ (w.target t).curLoad

/-- Hence no wakeup is lost. -/
theorem Inv.noLostWakeup (hinv : Inv w) : w.NoLostWakeup :=
  ⟨fun g => (hinv.groups g).full, fun t => (hinv.targets t).full⟩

end Waiters

/-- In every run whose steps are fine, no wakeup is lost. -/
theorem no_lost_wakeup {maxConnections : Nat → UInt64} (hpos : ∀ t, maxConnections t ≠ 0)
    (hsmall : ∀ t u, (maxConnections t).toNat * (maxConnections u).toNat < 2 ^ 64) {w : Waiters}
    (h : Reachable (Waiters.machine maxConnections) Waiters.StepOk w) : w.NoLostWakeup := by
  refine Waiters.Inv.noLostWakeup (h.invariant (fun w hw => ?_) fun w op w' hinv hok hstep => ?_)
  · rw [hw]
    exact ⟨Sched.init_inv hpos hsmall,
      fun _ => ⟨Nat.le_refl 0, fun hlt => absurd hlt (Nat.lt_irrefl 0)⟩,
      fun _ => ⟨Nat.le_refl 0, fun hlt => absurd hlt (Nat.lt_irrefl 0)⟩⟩
  · obtain ⟨fuel, hexec⟩ := hstep
    exact Waiters.exec_inv hinv hok hexec

/-- One connection and three threads: the first releases it, the second is woken for it, and the
third sleeps on. -/
theorem no_lost_wakeup_third : ∃ w,
    Reachable (Waiters.machine fun _ => 1) Waiters.StepOk w ∧ (w.group 0).waitCnt = 1 ∧
      (w.group 0).curLoad = 1 ∧ w.NoLostWakeup := by
  have hrun : (runChecked Waiters.exec Waiters.StepOk 0 (.init fun _ => 1)
      [.add 0 0 true, .groupAcquire 0 true, .groupAcquire 0 true, .groupAcquire 0 true,
        .release 0 false, .groupWake 0 .signalled]).map
      (fun w => ((w.group 0).waitCnt, (w.group 0).curLoad)) = some (1, 1) := by
    decide +kernel
  obtain ⟨w, hw, heq⟩ := Option.map_eq_some_iff.mp hrun
  obtain ⟨hwait, hcur⟩ := Prod.mk.inj heq
  have hreach := runChecked_reachable (Reachable.init rfl) hw
  exact ⟨w, hreach, hwait, hcur, no_lost_wakeup (fun _ => by decide) (fun _ _ => by decide) hreach⟩

/-- Two threads wait for an empty group, and a target with two connections is added: only one of
them is woken, and the other one sleeps beside the free connection. -/
theorem wakeup_lost_by_add : ∃ w,
    Reachable (Waiters.machine fun _ => 2) (fun _ _ => True) w ∧ (w.group 0).waitCnt = 1 ∧
      w.groupSignalled 0 = 0 ∧ (w.group 0).curLoad = 1 ∧ (w.group 0).maxLoad = 2 ∧
      ¬ w.NoLostWakeup := by
  have hrun : (runChecked Waiters.exec (fun _ _ => True) 0 (.init fun _ => 2)
      [.groupAcquire 0 true, .groupAcquire 0 true, .add 0 0 true, .groupWake 0 .signalled]).map
      (fun w => [(w.group 0).waitCnt, w.groupSignalled 0, (w.group 0).curLoad,
        (w.group 0).maxLoad]) = some [1, 0, 1, 2] := by
    decide +kernel
  obtain ⟨w, hw, heq⟩ := Option.map_eq_some_iff.mp hrun
  simp only [List.cons.injEq, and_true] at heq
  obtain ⟨hwait, hsignalled, hcur, hmax⟩ := heq
  refine ⟨w, runChecked_reachable (Reachable.init rfl) hw, hwait, hsignalled, hcur, hmax,
    fun hnone => ?_⟩
  have hfull := hnone.group 0 (by omega) hsignalled
  omega

end Workflow.Kernel
