/-
Module: Workflow.Proofs.RouteBreaker
Layer: Proofs
Purpose: The counters of a `RouteResultEntry` and its breaker list over whole histories. `Balanced`
  relates them to an arbitrary list of nodes, so that it also holds in the middle of `check_breaker`.
  A node may be stale, but a target that is out of its group always has one.
Trusted boundary: none
Main exports: Balanced, RouteInv, route_breaker
-/
import Workflow.Manager.RouteResultEntry
import Mathlib.Data.List.Basic

namespace Workflow.Manager

open Workflow.Lib
open Workflow.Kernel

/-! ### Membership of groups -/

section Membership

variable {s s' : Sched} {g t : Nat}

@[simp] theorem setGroup_targets (group : Group) : (s.setGroup g group).targets = s.targets := rfl

@[simp] theorem withSlots_targets (h : Slots) : (s.withSlots g h).targets = s.targets := rfl

@[simp] theorem countAcquired_targets : (s.countAcquired t).targets = s.targets := rfl

/-- A write to a target that leaves its group alone. -/
theorem setTarget_group {target : Target} (h : target.group = (s.targets t).group) (u : Nat) :
    ((s.setTarget t target).targets u).group = (s.targets u).group := by
  simp only [Sched.setTarget, Function.update_apply]
  split
  · next heq => rw [h, heq]
  · rfl

theorem heapInsert_targets {memory : Bool} (h : s.heapInsert g t memory = some s') :
    s'.targets = s.targets := by
  simp only [Sched.heapInsert] at h
  split_ifs at h <;> cases h <;> rfl

/-- A successful `add` puts this target into the group and no other. -/
theorem groupAdd_group {memory : Bool} (h : addError s g t memory = none) (u : Nat) :
    (s.targets t).group = none ∧
      ((s.groupAdd g t memory).targets u).group = if u = t then some g else (s.targets u).group := by
  unfold addError at h
  by_cases hfree : (s.targets t).group = none ∧ (s.targets t).waitCnt = 0
  · rw [if_pos hfree] at h
    cases hinsert : s.heapInsert g t memory with
    | none => simp [hinsert] at h
    | some s' =>
        refine ⟨hfree.1, ?_⟩
        simp only [Sched.groupAdd, if_pos hfree, hinsert, Sched.setGroup, Sched.setTarget,
          heapInsert_targets hinsert, Function.update_apply]
        split <;> rfl
  · rw [if_neg hfree] at h
    split_ifs at h

theorem addError_eexist {memory : Bool} (h : addError s g t memory = some .eexist) :
    (s.targets t).group = some g := by
  by_contra hne
  simp only [addError, if_neg hne] at h
  split_ifs at h <;> cases h

/-- A successful `remove` takes this target out of the group and no other. -/
theorem groupRemove_group (h : removeError s g t = none) (u : Nat) :
    (s.targets t).group = some g ∧
      ((s.groupRemove g t).targets u).group = if u = t then none else (s.targets u).group := by
  unfold removeError at h
  by_cases hin : (s.targets t).group = some g ∧ (s.targets t).waitCnt = 0
  · refine ⟨hin.1, ?_⟩
    simp only [Sched.groupRemove, if_pos hin, Sched.setGroup, Sched.setTarget, Sched.withSlots,
      Function.update_apply]
    split <;> rfl
  · rw [if_neg hin] at h
    split_ifs at h

theorem groupAdd_of_ne {memory : Bool} {u : Nat} (hne : u ≠ t) :
    (s.groupAdd g t memory).targets u = s.targets u := by
  by_cases hfree : (s.targets t).group = none ∧ (s.targets t).waitCnt = 0
  · cases hinsert : s.heapInsert g t memory with
    | none => simp only [Sched.groupAdd, if_pos hfree, hinsert]
    | some s' =>
        simp only [Sched.groupAdd, if_pos hfree, hinsert, setGroup_targets, Sched.setTarget,
          Function.update_of_ne hne, heapInsert_targets hinsert]
  · simp only [Sched.groupAdd, if_neg hfree]

theorem groupRemove_of_ne {u : Nat} (hne : u ≠ t) :
    (s.groupRemove g t).targets u = s.targets u := by
  by_cases hin : (s.targets t).group = some g ∧ (s.targets t).waitCnt = 0
  · simp only [Sched.groupRemove, if_pos hin, Sched.setTarget, setGroup_targets, withSlots_targets,
      Function.update_of_ne hne]
  · simp only [Sched.groupRemove, if_neg hin]

theorem takeLoad_group (group : Option Nat) (u : Nat) :
    ((s.takeLoad t group).targets u).group = (s.targets u).group := by
  cases group <;> simp only [Sched.takeLoad, setGroup_targets] <;> exact setTarget_group (by rfl) u

theorem groupAcquire_group (woken : Bool) (u : Nat) :
    ((s.groupAcquire g woken).1.targets u).group = (s.targets u).group := by
  unfold Sched.groupAcquire
  cases woken <;> simp only [Bool.false_eq_true, ↓reduceIte] <;> split <;>
    simp only [withSlots_targets, setGroup_targets, takeLoad_group]

theorem targetAcquire_group (woken : Bool) (u : Nat) :
    ((s.targetAcquire t woken).1.targets u).group = (s.targets u).group := by
  have hwake : ∀ v, ((if woken then s.setTarget t
      { s.targets t with waitCnt := (s.targets t).waitCnt - 1 } else s).targets v).group =
        (s.targets v).group := by
    intro v
    cases woken
    · rfl
    · exact setTarget_group (by rfl) v
  simp only [Sched.targetAcquire]
  generalize (if woken then s.setTarget t
    { s.targets t with waitCnt := (s.targets t).waitCnt - 1 } else s) = s₁ at hwake ⊢
  split
  · split <;> simp only [withSlots_targets, takeLoad_group, hwake]
  · exact hwake u

theorem targetRelease_group (keepAlive : Bool) (u : Nat) :
    ((s.targetRelease t keepAlive).targets u).group = (s.targets u).group := by
  simp only [Sched.targetRelease]
  split
  · exact setTarget_group (by rfl) u
  · simp only [withSlots_targets, setGroup_targets]
    exact setTarget_group (by rfl) u

/-- Every other operation of the scheduler leaves the targets in their groups. -/
theorem exec_group {fuel : Nat} {op : SchedOp} {targets : List Nat} (hforeign : Foreign targets op)
    (h : s.exec fuel op = some s') {u : Nat} (hu : u ∈ targets) :
    (s'.targets u).group = (s.targets u).group := by
  cases op with
  | add g t memory =>
      cases h
      have hne : u ≠ t := fun heq => hforeign (heq ▸ hu)
      rw [groupAdd_of_ne hne]
  | remove g t =>
      cases h
      have hne : u ≠ t := fun heq => hforeign (heq ▸ hu)
      rw [groupRemove_of_ne hne]
  | groupAcquire g woken =>
      have hgroup := groupAcquire_group (s := s) (g := g) woken u
      simp only [Sched.exec] at h
      split at h
      · cases h
      · split at h <;> cases h <;> simp_all
  | groupWait g =>
      simp only [Sched.exec] at h
      split at h <;> cases h
      rfl
  | targetAcquire t woken =>
      have hgroup := targetAcquire_group (s := s) (t := t) woken u
      simp only [Sched.exec] at h
      split at h
      · cases h
      · split at h <;> cases h <;> simp_all
  | targetWait t =>
      simp only [Sched.exec] at h
      split at h <;> cases h
      exact setTarget_group (by rfl) u
  | release t keepAlive =>
      simp only [Sched.exec] at h
      split at h <;> cases h
      exact targetRelease_group keepAlive u

end Membership

/-! ### The counters -/

/-- One more element of a list has the property. -/
theorem countP_turn {l : List Nat} {t : Nat} {p q : Nat → Bool} (hnodup : l.Nodup) (ht : t ∈ l)
    (hp : p t = false) (hq : q t = true) (hsame : ∀ u, u ≠ t → q u = p u) :
    l.countP q = l.countP p + 1 := by
  have hperm := List.perm_cons_erase ht
  have hrest : (l.erase t).countP q = (l.erase t).countP p := by
    refine List.countP_congr fun u hu => ?_
    rw [hsame u ((hnodup.mem_erase_iff.mp hu).1)]
  rw [hperm.countP_eq, hperm.countP_eq, List.countP_cons_of_pos hq,
    List.countP_cons_of_neg (by simp [hp]), hrest]

/-- The counters of an entry agree with its group and with these breaker nodes. -/
structure Balanced (r : Route) (nodes : List BreakerNode) : Prop where
  nodup : r.entry.targets.Nodup
  many : 2 ≤ r.entry.targets.length
  nleft : r.entry.nleft = r.entry.targets.countP r.inGroup
  one : 1 ≤ r.entry.nleft
  nbreak : r.entry.nbreak = nodes.length
  known : ∀ node ∈ nodes, node.target ∈ r.entry.targets
  broken : ∀ t ∈ r.entry.targets, r.inGroup t = false → ∃ node ∈ nodes, node.target = t

/-- The condition on `CommSchedGroup::add` and `remove`. -/
structure Expected (r : Route) : Prop where
  add : ∀ error ∈ r.addErrors, error = .eexist
  remove : ∀ error ∈ r.removeErrors, error = .enoent

/-- What holds of an entry between the sections. -/
structure RouteInv (r : Route) : Prop where
  balanced : Balanced r r.entry.breakerList
  pending : ∀ call ∈ r.pending, r.Concerns call

namespace Balanced

variable {r r' : Route} {nodes : List BreakerNode} {t : Nat}

theorem inGroup_eq_true (r : Route) (t : Nat) :
    r.inGroup t = true ↔ (r.sched.targets t).group = some r.entry.group :=
  decide_eq_true_iff

/-- An `add` that succeeds. -/
theorem add_ok (h : Balanced r nodes) (ht : t ∈ r.entry.targets) {memory : Bool}
    (hok : addError r.sched r.entry.group t memory = none) :
    Balanced (r.add t memory) nodes ∧ (r.add t memory).inGroup t = true := by
  have hgroup := fun u => (groupAdd_group hok u).2
  have hout : r.inGroup t = false := by simp [Route.inGroup, (groupAdd_group hok t).1]
  have hself : (r.add t memory).inGroup t = true := by simp [Route.add, hok, Route.inGroup, hgroup]
  have hsame : ∀ u, u ≠ t → (r.add t memory).inGroup u = r.inGroup u := by
    intro u hu
    simp [Route.add, hok, Route.inGroup, hgroup, hu]
  have hentry : (r.add t memory).entry = { r.entry with nleft := r.entry.nleft + 1 } := by
    simp only [Route.add, hok]
  have hcount := countP_turn h.nodup ht hout hself hsame
  have hone := h.one
  refine ⟨⟨?_, ?_, ?_, ?_, ?_, ?_, ?_⟩, hself⟩
  · rw [hentry]
    exact h.nodup
  · rw [hentry]
    exact h.many
  · rw [hentry]
    simp only [h.nleft, hcount, Nat.cast_add, Nat.cast_one]
  · rw [hentry]
    simp only
    omega
  · rw [hentry]
    exact h.nbreak
  · rw [hentry]
    exact h.known
  · rw [hentry]
    intro u hu hbroken
    have hne : u ≠ t := by
      rintro rfl
      rw [hself] at hbroken
      cases hbroken
    rw [hsame u hne] at hbroken
    exact h.broken u hu hbroken

/-- The entry with its counters and nodes changed, in the same groups. -/
theorem reentry (h : Balanced r nodes) {nodes' : List BreakerNode}
    (hsched : ∀ t ∈ r.entry.targets, r'.inGroup t = r.inGroup t)
    (htargets : r'.entry.targets = r.entry.targets) (hnleft : r'.entry.nleft = r.entry.nleft)
    (hnbreak : r'.entry.nbreak = nodes'.length)
    (hknown : ∀ node ∈ nodes', node.target ∈ r.entry.targets)
    (hbroken : ∀ t ∈ r.entry.targets, r.inGroup t = false → ∃ node ∈ nodes', node.target = t) :
    Balanced r' nodes' := by
  have hcount : r.entry.targets.countP r'.inGroup = r.entry.targets.countP r.inGroup :=
    List.countP_congr fun t ht => by rw [hsched t ht]
  refine ⟨?_, ?_, ?_, ?_, hnbreak, ?_, ?_⟩
  · rw [htargets]
    exact h.nodup
  · rw [htargets]
    exact h.many
  · rw [hnleft, htargets, h.nleft, hcount]
  · rw [hnleft]
    exact h.one
  · rw [htargets]
    exact hknown
  · rw [htargets]
    intro t ht hout
    rw [hsched t ht] at hout
    exact hbroken t ht hout

/-- Any `add` that fails as expected, or succeeds. -/
theorem add (h : Balanced r nodes) (ht : t ∈ r.entry.targets) {memory : Bool}
    (hok : Expected (r.add t memory)) :
    Balanced (r.add t memory) nodes ∧ (r.add t memory).inGroup t = true := by
  cases herror : addError r.sched r.entry.group t memory with
  | none => exact h.add_ok ht herror
  | some error =>
      have heq : r.add t memory = { r with addErrors := error :: r.addErrors } := by
        simp only [Route.add, herror]
      have hexist : error = .eexist := hok.add error (by rw [heq]; exact List.mem_cons_self)
      subst hexist
      have hin : r.inGroup t = true := by
        exact (inGroup_eq_true r t).mpr (addError_eexist herror)
      rw [heq]
      exact ⟨h.reentry (fun _ _ => rfl) rfl rfl h.nbreak h.known h.broken, hin⟩

end Balanced

/-- Errors are only added. -/
theorem Expected.of_add {r : Route} {t : Nat} {memory : Bool} (h : Expected (r.add t memory)) :
    Expected r := by
  unfold Route.add at h
  split at h
  · exact ⟨h.add, h.remove⟩
  · exact ⟨fun error herror => h.add error (List.mem_cons_of_mem _ herror), h.remove⟩

theorem Expected.of_checkNodes {r : Route} {curTime : Int} {memory : Nat → Bool}
    {kept rest : List BreakerNode} (h : Expected (r.checkNodes curTime memory kept rest)) :
    Expected r := by
  induction rest generalizing r kept with
  | nil => exact ⟨h.add, h.remove⟩
  | cons node rest ih =>
      unfold Route.checkNodes at h
      split at h
      · have hmid := ih h
        have hadd : Expected (r.add node.target (memory node.target)) := ⟨hmid.add, hmid.remove⟩
        exact hadd.of_add
      · exact ih h

/-- `add` leaves all but `nleft` as it was. -/
theorem add_entry (r : Route) (t : Nat) (memory : Bool) :
    (∃ n, (r.add t memory).entry = { r.entry with nleft := n }) ∧
      (r.add t memory).pending = r.pending := by
  unfold Route.add
  split
  · exact ⟨⟨_, rfl⟩, rfl⟩
  · exact ⟨⟨r.entry.nleft, rfl⟩, rfl⟩

/-- The loop of `check_breaker`: a node is dropped once its target is back in the group. -/
theorem checkNodes_inv {r : Route} {curTime : Int} {memory : Nat → Bool}
    {kept rest : List BreakerNode} (h : Balanced r (kept ++ rest))
    (hok : Expected (r.checkNodes curTime memory kept rest)) :
    Balanced (r.checkNodes curTime memory kept rest)
        (r.checkNodes curTime memory kept rest).entry.breakerList ∧
      (r.checkNodes curTime memory kept rest).entry.targets = r.entry.targets ∧
      (r.checkNodes curTime memory kept rest).pending = r.pending := by
  induction rest generalizing r kept with
  | nil =>
      rw [List.append_nil] at h
      exact ⟨h.reentry (fun _ _ => rfl) rfl rfl h.nbreak h.known h.broken, rfl, rfl⟩
  | cons node rest ih =>
      unfold Route.checkNodes at hok ⊢
      split_ifs at hok ⊢ with hexpired
      · have ht : node.target ∈ r.entry.targets := h.known node (by simp)
        have hmid := Expected.of_checkNodes hok
        have hadd : Expected (r.add node.target (memory node.target)) := ⟨hmid.add, hmid.remove⟩
        obtain ⟨hbal, hin⟩ := h.add ht hadd
        obtain ⟨⟨n, hentry⟩, hpending⟩ := add_entry r node.target (memory node.target)
        have hnext : Balanced { r.add node.target (memory node.target) with
            entry := { (r.add node.target (memory node.target)).entry with
              nbreak := (r.add node.target (memory node.target)).entry.nbreak - 1 } }
            (kept ++ rest) := by
          refine hbal.reentry (fun _ _ => rfl) rfl rfl ?_ ?_ ?_
          · have hlength := hbal.nbreak
            simp only [List.length_append, List.length_cons] at hlength ⊢
            omega
          · intro other hother
            refine hbal.known other ?_
            rcases List.mem_append.mp hother with hin | hin
            · exact List.mem_append_left _ hin
            · exact List.mem_append_right _ (List.mem_cons_of_mem _ hin)
          · intro t ht' hout
            obtain ⟨other, hother, htarget⟩ := hbal.broken t ht' hout
            refine ⟨other, ?_, htarget⟩
            rcases List.mem_append.mp hother with hkept | hcons
            · exact List.mem_append_left _ hkept
            · rcases List.mem_cons.mp hcons with rfl | hrest
              · rw [← htarget, hin] at hout
                cases hout
              · exact List.mem_append_right _ hrest
        obtain ⟨hfinal, htargets, hpend⟩ := ih hnext hok
        refine ⟨hfinal, htargets.trans ?_, hpend.trans hpending⟩
        simp only [hentry]
      · have hsplit : kept ++ node :: rest = (kept ++ [node]) ++ rest := by simp
        rw [hsplit] at h
        exact ih h hok

/-! ### Steps -/

namespace RouteInv

variable {r r' : Route}

theorem concerns_congr {call : RouteCall} (h : r.Concerns call)
    (htargets : r'.entry.targets = r.entry.targets) : r'.Concerns call := by
  cases call with
  | notifyUnavailable t | notifyAvailable t =>
      simp only [Route.Concerns, htargets]
      exact h
  | checkBreaker curTime => trivial

/-- The entry after a `remove` that succeeds. -/
theorem removed (h : Balanced r r.entry.breakerList) {t : Nat} (ht : t ∈ r.entry.targets)
    (now : Int) (hleft : 1 < r.entry.nleft)
    (herror : removeError r.sched r.entry.group t = none) :
    Balanced
      { r with
        sched := r.sched.groupRemove r.entry.group t
        entry := { r.entry with
          breakerList := r.entry.breakerList ++ [⟨t, now + mttrSecond⟩]
          nbreak := r.entry.nbreak + 1
          nleft := r.entry.nleft - 1 } }
      (r.entry.breakerList ++ [⟨t, now + mttrSecond⟩]) := by
  have hgroup := fun u => (groupRemove_group herror u).2
  have hin : r.inGroup t = true :=
    (Balanced.inGroup_eq_true r t).mpr (groupRemove_group herror t).1
  generalize hentry : ({ r.entry with
    breakerList := r.entry.breakerList ++ [⟨t, now + mttrSecond⟩]
    nbreak := r.entry.nbreak + 1
    nleft := r.entry.nleft - 1 } : RouteResultEntry) = entry
  have hg : entry.group = r.entry.group := by rw [← hentry]
  generalize hnew : ({ r with sched := r.sched.groupRemove r.entry.group t, entry := entry } : Route)
    = r₁
  have hout : r₁.inGroup t = false := by simp [← hnew, Route.inGroup, hgroup]
  have hsame : ∀ u, u ≠ t → r₁.inGroup u = r.inGroup u := by
    intro u hu
    simp [← hnew, Route.inGroup, hgroup, hu, hg]
  have hcount := countP_turn h.nodup ht hout hin fun u hu => (hsame u hu).symm
  have hr₁ : r₁.entry = entry := by rw [← hnew]
  have hnleft := h.nleft
  rw [hcount] at hnleft
  push_cast at hnleft
  refine ⟨?_, ?_, ?_, ?_, ?_, ?_, ?_⟩
  · rw [hr₁, ← hentry]
    exact h.nodup
  · rw [hr₁, ← hentry]
    exact h.many
  · rw [hr₁, ← hentry]
    simp only
    omega
  · rw [hr₁, ← hentry]
    simp only
    omega
  · rw [hr₁, ← hentry]
    simp only [List.length_append, List.length_singleton, Nat.cast_add, Nat.cast_one, h.nbreak]
  · rw [hr₁, ← hentry]
    intro node hnode
    rcases List.mem_append.mp hnode with hold | hadded
    · exact h.known node hold
    · rw [List.mem_singleton.mp hadded]
      exact ht
  · rw [hr₁, ← hentry]
    intro u hu hbroken
    by_cases heq : u = t
    · exact ⟨⟨t, now + mttrSecond⟩, by simp, heq.symm⟩
    · rw [hsame u heq] at hbroken
      obtain ⟨node, hnode, htarget⟩ := h.broken u hu hbroken
      exact ⟨node, List.mem_append_left _ hnode, htarget⟩

theorem notifyUnavailable (h : RouteInv r) {t : Nat} (ht : t ∈ r.entry.targets) (now : Int) :
    RouteInv (r.notifyUnavailable t now) := by
  unfold Route.notifyUnavailable
  split_ifs with hlast
  · exact h
  · have hbal := h.balanced
    cases herror : removeError r.sched r.entry.group t with
    | some error =>
        exact ⟨hbal.reentry (fun _ _ => rfl) rfl rfl hbal.nbreak hbal.known hbal.broken, h.pending⟩
    | none => exact ⟨removed hbal ht now (by omega) herror, fun call hcall =>
        concerns_congr (h.pending call hcall) rfl⟩

theorem notifyAvailable (h : RouteInv r) {t : Nat} (ht : t ∈ r.entry.targets) (memory : Bool)
    (hok : Expected (r.notifyAvailable t memory)) : RouteInv (r.notifyAvailable t memory) := by
  obtain ⟨⟨n, hentry⟩, hpending⟩ := add_entry r t memory
  have hbal := (h.balanced.add ht hok).1
  refine ⟨?_, fun call hcall => ?_⟩
  · have hlist : (r.notifyAvailable t memory).entry.breakerList = r.entry.breakerList := by
      simp only [Route.notifyAvailable, hentry]
    rw [hlist]
    exact hbal
  · refine concerns_congr (h.pending call ?_) ?_
    · rw [← hpending]
      exact hcall
    · simp only [Route.notifyAvailable, hentry]

theorem checkBreaker (h : RouteInv r) (curTime : Int) (memory : Nat → Bool)
    (hok : Expected (r.checkBreaker curTime memory)) : RouteInv (r.checkBreaker curTime memory) := by
  obtain ⟨hbal, htargets, hpending⟩ := @checkNodes_inv _ _ _ [] _ h.balanced hok
  refine ⟨hbal, fun call hcall => concerns_congr (h.pending call ?_) htargets⟩
  rw [← hpending]
  exact hcall

/-- While targets are added, all that were added are in the group, each once. -/
theorem addGroupTargets_inv {memory : Nat → Bool} {created : List (Option Nat)} {s s' : Sched}
    {entry entry' : RouteResultEntry}
    (h : addGroupTargets memory created s entry = (s', some entry'))
    (hnodup : entry.targets.Nodup)
    (hin : ∀ t ∈ entry.targets, (s.targets t).group = some entry.group)
    (hnleft : entry.nleft = entry.targets.length) :
    entry'.targets.Nodup ∧ (∀ t ∈ entry'.targets, (s'.targets t).group = some entry'.group) ∧
      entry'.nleft = entry'.targets.length ∧ entry'.breakerList = entry.breakerList ∧
      entry'.nbreak = entry.nbreak := by
  induction created generalizing s entry with
  | nil =>
      cases h
      exact ⟨hnodup, hin, hnleft, rfl, rfl⟩
  | cons target rest ih =>
      unfold addGroupTargets at h
      split at h
      · next t hadded =>
          obtain ⟨-, hok⟩ := Option.filter_eq_some_iff.mp hadded
          have hgroup := groupAdd_group (Option.isNone_iff_eq_none.mp hok)
          have hnew : t ∉ entry.targets := by
            intro hmem
            have hsome := hin t hmem
            rw [(hgroup t).1] at hsome
            cases hsome
          have hrest := ih h
          refine hrest ?_ ?_ ?_
          · refine List.nodup_append.mpr ⟨hnodup, by simp, fun a ha b hb heq => hnew ?_⟩
            rw [← List.mem_singleton.mp hb, ← heq]
            exact ha
          · intro u hu
            simp only [(hgroup u).2]
            split
            · rfl
            · next hne =>
                refine hin u ?_
                rcases List.mem_append.mp hu with hold | hsingle
                · exact hold
                · exact absurd (List.mem_singleton.mp hsingle) hne
          · simp only [List.length_append, List.length_singleton, hnleft]
            push_cast
            rfl
      · cases h

theorem start (h : r.Start) : RouteInv r := by
  obtain ⟨⟨created, memory, s, group, -, hadd⟩, hmany, hpending, -, -⟩ := h
  obtain ⟨hnodup, hin, hnleft, hlist, hnbreak⟩ :=
    addGroupTargets_inv hadd List.nodup_nil (fun t ht => absurd ht List.not_mem_nil) rfl
  have hall : ∀ t ∈ r.entry.targets, r.inGroup t = true := fun t ht =>
    (Balanced.inGroup_eq_true r t).mpr (hin t ht)
  refine ⟨⟨hnodup, hmany, ?_, by omega, ?_, ?_, fun t ht hout => ?_⟩, ?_⟩
  · rw [hnleft, List.countP_eq_length.mpr hall]
  · rw [hnbreak, hlist]
    rfl
  · rw [hlist]
    simp
  · rw [hall t ht] at hout
    cases hout
  · rw [hpending]
    simp

theorem exec (h : RouteInv r) {fuel : Nat} {op : RouteOp} (hstep : r.exec fuel op = some r')
    (hok : Expected r') : RouteInv r' := by
  cases op with
  | call call =>
      obtain ⟨hconcerns, hstep⟩ := Option.ite_none_right_eq_some.mp hstep
      cases hstep
      split
      · refine ⟨h.balanced.reentry (fun _ _ => rfl) rfl rfl h.balanced.nbreak h.balanced.known
          h.balanced.broken, fun other hother => ?_⟩
        rcases List.mem_cons.mp hother with rfl | hin
        · exact concerns_congr hconcerns rfl
        · exact concerns_congr (h.pending other hin) rfl
      · exact h
  | locked call now memory =>
      obtain ⟨hpending, hstep⟩ := Option.ite_none_right_eq_some.mp hstep
      cases hstep
      have hconcerns := h.pending call hpending
      have hrest : RouteInv { r with pending := r.pending.erase call } :=
        ⟨h.balanced.reentry (fun _ _ => rfl) rfl rfl h.balanced.nbreak h.balanced.known
          h.balanced.broken, fun other hother => concerns_congr
            (h.pending other (List.mem_of_mem_erase hother)) rfl⟩
      cases call with
      | notifyUnavailable t => exact hrest.notifyUnavailable hconcerns now
      | notifyAvailable t => exact hrest.notifyAvailable hconcerns (memory t) hok
      | checkBreaker curTime => exact hrest.checkBreaker curTime memory hok
  | sched op =>
      obtain ⟨hforeign, hstep⟩ := Option.ite_none_right_eq_some.mp hstep
      obtain ⟨s, hsched, heq⟩ := Option.map_eq_some_iff.mp hstep
      cases heq
      refine ⟨h.balanced.reentry (fun t ht => ?_) rfl rfl h.balanced.nbreak h.balanced.known
        h.balanced.broken, fun other hother => concerns_congr (h.pending other hother) rfl⟩
      simp only [Route.inGroup, exec_group hforeign hsched ht]

end RouteInv

/-! ### Runs -/

/-- Errors are only added by a step. -/
theorem Expected.of_exec {r r' : Route} {fuel : Nat} {op : RouteOp}
    (hstep : r.exec fuel op = some r') (h : Expected r') : Expected r := by
  cases op with
  | call call =>
      obtain ⟨-, hstep⟩ := Option.ite_none_right_eq_some.mp hstep
      cases hstep
      split at h <;> exact ⟨h.add, h.remove⟩
  | locked call now memory =>
      obtain ⟨-, hstep⟩ := Option.ite_none_right_eq_some.mp hstep
      cases hstep
      suffices hpending : Expected { r with pending := r.pending.erase call } from
        ⟨hpending.add, hpending.remove⟩
      cases call with
      | notifyUnavailable t =>
          simp only [Route.runLocked, Route.notifyUnavailable] at h
          split_ifs at h
          · exact h
          · split at h
            · exact ⟨h.add, h.remove⟩
            · exact ⟨h.add, fun error herror => h.remove error (List.mem_cons_of_mem _ herror)⟩
      | notifyAvailable t => exact Expected.of_add h
      | checkBreaker curTime => exact Expected.of_checkNodes h
  | sched op =>
      obtain ⟨-, hstep⟩ := Option.ite_none_right_eq_some.mp hstep
      obtain ⟨s, -, heq⟩ := Option.map_eq_some_iff.mp hstep
      cases heq
      exact ⟨h.add, h.remove⟩

/-- Whatever the order of the calls and their times, as long as `add` has failed only with `EEXIST`
and `remove` only with `ENOENT`: `nleft` counts the targets in the group, of which there is always
one, `nbreak` is the length of the breaker list, and a target that is out of the group is in the
list. -/
theorem route_breaker {r : Route} (h : Reachable Route.machine (fun _ _ => True) r)
    (hadd : ∀ error ∈ r.addErrors, error = .eexist)
    (hremove : ∀ error ∈ r.removeErrors, error = .enoent) :
    2 ≤ r.entry.targets.length ∧
      r.entry.nleft = r.entry.targets.countP r.inGroup ∧ 1 ≤ r.entry.nleft ∧
      r.entry.nbreak = r.entry.breakerList.length ∧
      ∀ t ∈ r.entry.targets, r.inGroup t = false →
        ∃ node ∈ r.entry.breakerList, node.target = t := by
  have hinv : Expected r → RouteInv r :=
    Reachable.invariant (P := fun r => Expected r → RouteInv r) (m := Route.machine)
      (fun _ hstart _ => RouteInv.start hstart)
      (fun _ _ _ ih _ ⟨_, hstep⟩ hok => (ih (hok.of_exec hstep)).exec hstep hok) h
  have hbal := (hinv ⟨hadd, hremove⟩).balanced
  exact ⟨hbal.many, hbal.nleft, hbal.one, hbal.nbreak, hbal.broken⟩

/-- Two targets. The first fails, recovers and fails again; only its first node is old enough, and
the second one is stale afterwards. -/
def flapTrace : List RouteOp :=
  let memory : Nat → Bool := fun _ => true
  [.call (.notifyUnavailable 1), .locked (.notifyUnavailable 1) 0 memory,
    .call (.notifyAvailable 1), .locked (.notifyAvailable 1) 0 memory,
    .call (.notifyUnavailable 1), .locked (.notifyUnavailable 1) 5 memory,
    .call (.checkBreaker 30), .locked (.checkBreaker 30) 30 memory,
    .call (.notifyAvailable 1), .locked (.notifyAvailable 1) 31 memory]

def flapStart : Route where
  sched := ((Sched.init fun _ => 8).groupAdd 0 1 true).groupAdd 0 2 true
  entry := ⟨0, [1, 2], [], 2, 0⟩
  pending := []
  addErrors := []
  removeErrors := []

theorem route_breaker_flap :
    ∃ r, runChecked Route.exec (fun _ _ => True) 0 flapStart flapTrace = some r ∧
      (r.entry.breakerList, r.addErrors, r.removeErrors) = ([⟨1, 35⟩], [.eexist], []) ∧
      r.entry.nleft = r.entry.targets.countP r.inGroup := by
  have hstart : flapStart.Start :=
    ⟨⟨[some 1, some 2], fun _ => true, Sched.init fun _ => 8, 0, fun _ _ => rfl, rfl⟩, by decide, rfl,
      rfl, rfl⟩
  have hrun : (runChecked Route.exec (fun _ _ => True) 0 flapStart flapTrace).map
      (fun r => (r.entry.breakerList, r.addErrors, r.removeErrors)) =
      some ([⟨1, 35⟩], [.eexist], []) := by
    decide +kernel
  obtain ⟨r, hr, heq⟩ := Option.map_eq_some_iff.mp hrun
  have hreach := runChecked_machine (m := Route.machine) (fun _ _ _ _ h => ⟨_, h⟩) (.init hstart) hr
  simp only [Prod.mk.injEq] at heq
  refine ⟨r, hr, by rw [heq.1, heq.2.1, heq.2.2], (route_breaker hreach ?_ ?_).2.1⟩
  · rw [heq.2.1]
    simp
  · rw [heq.2.2]
    simp

end Workflow.Manager
