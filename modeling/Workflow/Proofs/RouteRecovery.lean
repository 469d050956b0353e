/-
Module: Workflow.Proofs.RouteRecovery
Layer: Proofs
Purpose: How soon `check_breaker` puts a target back. A history of a `RouteResultEntry` carries the
  clock, and for every target the time of the `notify_unavailable` that took it out last; what
  `check_breaker` puts back is written into a ledger with both times.
Trusted boundary: none
Main exports: Recovery, History, History.exec, History.machine, History.Fresh, route_recovery,
  early_recovery
-/
import Workflow.Proofs.RouteBreaker

namespace Workflow.Manager

open Workflow.Lib
open Workflow.Kernel

/-! ### Histories -/

/-- A target that `check_breaker` has put back, when it did, and when it was taken out last. -/
structure Recovery where
  target : Nat
  time : Int
  removed : Option Int
deriving DecidableEq

/-- An entry with its clock, the last removals, and the recoveries so far. -/
structure History where
  route : Route
  clock : Int
  removedAt : Nat → Option Int
  recovered : List Recovery

/-- `notify_unavailable` takes the target out of the group. -/
def Route.Removes (r : Route) (t : Nat) : Prop :=
  1 < r.entry.nleft ∧ removeError r.sched r.entry.group t = none

instance (r : Route) (t : Nat) : Decidable (r.Removes t) :=
  inferInstanceAs (Decidable (_ ∧ _))

namespace History

/-- The times that a call reads from the clock. -/
def OnTime (time : Int) : RouteOp → Prop
  | .call (.checkBreaker curTime) => curTime = time
  | .locked (.notifyUnavailable _) now _ => now = time
  | _ => True

instance (time : Int) : (op : RouteOp) → Decidable (OnTime time op)
  | .call (.checkBreaker curTime) => inferInstanceAs (Decidable (curTime = time))
  | .call (.notifyUnavailable _) | .call (.notifyAvailable _) | .sched _ =>
      inferInstanceAs (Decidable True)
  | .locked (.notifyUnavailable _) now _ => inferInstanceAs (Decidable (now = time))
  | .locked (.notifyAvailable _) _ _ | .locked (.checkBreaker _) _ _ =>
      inferInstanceAs (Decidable True)

/-- The last removals behind a step at `time`. -/
def removals (h : History) (time : Int) : RouteOp → Nat → Option Int
  | .locked (.notifyUnavailable t) _ _ =>
      if h.route.Removes t then Function.update h.removedAt t (some time) else h.removedAt
  | _ => h.removedAt

/-- What a step at `time` puts back into the group, if it is a `check_breaker`. -/
def recoveries (h : History) (time : Int) (r : Route) : RouteOp → List Recovery
  | .locked (.checkBreaker _) _ _ =>
      (r.entry.targets.filter fun t => !h.route.inGroup t && r.inGroup t).map fun t =>
        ⟨t, time, h.removedAt t⟩
  | _ => []

/-- A step at a time that is not before the clock. -/
def exec (fuel : Nat) (h : History) (event : Int × RouteOp) : Option History :=
  if h.clock ≤ event.1 ∧ OnTime event.1 event.2 then
    (h.route.exec fuel event.2).map fun r =>
      { route := r
        clock := event.1
        removedAt := h.removals event.1 event.2
        recovered := h.recovered ++ h.recoveries event.1 r event.2 }
  else none

/-- All histories of an entry. -/
def machine : Machine History (Int × RouteOp) where
  init := fun h => h.route.Start ∧ h.removedAt = (fun _ => none) ∧ h.recovered = []
  step := fun h event h' => ∃ fuel, h.exec fuel event = some h'

/-- A `notify_unavailable` that takes a target out finds no node of it that ends sooner than the one
it adds. -/
def Fresh (h : History) (event : Int × RouteOp) : Prop :=
  match event.2 with
  | .locked (.notifyUnavailable t) _ _ =>
      h.route.Removes t → ∀ node ∈ h.route.entry.breakerList, node.target = t →
        event.1 + mttrSecond ≤ node.timeout
  | _ => True

instance (h : History) : (event : Int × RouteOp) → Decidable (h.Fresh event)
  | (_, .locked (.notifyUnavailable _) _ _) => inferInstanceAs (Decidable (_ → _))
  | (_, .locked (.notifyAvailable _) _ _) | (_, .locked (.checkBreaker _) _ _) | (_, .call _)
  | (_, .sched _) => inferInstanceAs (Decidable True)

end History

/-! ### What the sections do to the breaker list -/

variable {r r' : Route} {t : Nat}

theorem add_inGroup {u : Nat} {memory : Bool} (h : (r.add u memory).inGroup t = true) :
    r.inGroup t = true ∨ u = t := by
  unfold Route.add at h
  cases herror : addError r.sched r.entry.group u memory with
  | some error =>
      rw [herror] at h
      exact Or.inl h
  | none =>
      rw [herror] at h
      by_cases heq : t = u
      · exact Or.inr heq.symm
      · have hgroup := (groupAdd_group herror t).2
        rw [if_neg heq] at hgroup
        simp only [Route.inGroup, hgroup] at h
        exact Or.inl h

/-- A target that `check_breaker` puts back has a node whose time is over. -/
theorem checkNodes_inGroup {curTime : Int} {memory : Nat → Bool} {kept rest : List BreakerNode}
    (h : (r.checkNodes curTime memory kept rest).inGroup t = true) :
    r.inGroup t = true ∨ ∃ node ∈ rest, node.target = t ∧ node.timeout ≤ curTime := by
  induction rest generalizing r kept with
  | nil => exact Or.inl h
  | cons node rest ih =>
      unfold Route.checkNodes at h
      split at h
      · rename_i hexpired
        rcases ih h with hin | ⟨other, hother, hnode⟩
        · rcases add_inGroup (r := r) hin with hin | htarget
          · exact Or.inl hin
          · exact Or.inr ⟨node, List.mem_cons_self, htarget, hexpired⟩
        · exact Or.inr ⟨other, List.mem_cons_of_mem _ hother, hnode⟩
      · rcases ih h with hin | ⟨other, hother, hnode⟩
        · exact Or.inl hin
        · exact Or.inr ⟨other, List.mem_cons_of_mem _ hother, hnode⟩

/-- `check_breaker` adds no nodes and leaves the pending calls alone. -/
theorem checkNodes_frame {curTime : Int} {memory : Nat → Bool} {kept rest : List BreakerNode} :
    (∀ node ∈ (r.checkNodes curTime memory kept rest).entry.breakerList, node ∈ kept ++ rest) ∧
      (r.checkNodes curTime memory kept rest).pending = r.pending := by
  induction rest generalizing r kept with
  | nil =>
      refine ⟨fun node hnode => ?_, rfl⟩
      rwa [List.append_nil]
  | cons node rest ih =>
      unfold Route.checkNodes
      split
      · obtain ⟨hlist, hpending⟩ := @ih { r.add node.target (memory node.target) with
          entry := { (r.add node.target (memory node.target)).entry with
            nbreak := (r.add node.target (memory node.target)).entry.nbreak - 1 } } kept
        refine ⟨fun other hother => ?_, hpending.trans (add_entry r _ _).2⟩
        rcases List.mem_append.mp (hlist other hother) with hkept | hrest
        · exact List.mem_append_left _ hkept
        · exact List.mem_append_right _ (List.mem_cons_of_mem _ hrest)
      · obtain ⟨hlist, hpending⟩ := @ih r (kept ++ [node])
        refine ⟨fun other hother => ?_, hpending⟩
        have hmem := hlist other hother
        rwa [List.append_assoc, List.singleton_append] at hmem

/-- `notify_unavailable` adds one node just when it takes the target out. -/
theorem notifyUnavailable_list (r : Route) (t : Nat) (now : Int) :
    (r.notifyUnavailable t now).entry.breakerList =
        (if r.Removes t then r.entry.breakerList ++ [⟨t, now + mttrSecond⟩]
          else r.entry.breakerList) ∧
      (r.notifyUnavailable t now).pending = r.pending := by
  by_cases h : r.Removes t
  · obtain ⟨hleft, herror⟩ := h
    rw [if_pos ⟨hleft, herror⟩]
    unfold Route.notifyUnavailable
    rw [if_neg (Int.not_le.mpr hleft), herror]
    exact ⟨rfl, rfl⟩
  · rw [if_neg h]
    unfold Route.notifyUnavailable
    split
    · exact ⟨rfl, rfl⟩
    · rename_i hleft
      cases herror : removeError r.sched r.entry.group t with
      | some error => exact ⟨rfl, rfl⟩
      | none => exact absurd ⟨Int.not_le.mp hleft, herror⟩ h

/-! ### Runs -/

/-- What holds along a history whose removals are fresh. -/
structure HistoryInv (h : History) : Prop where
  nodes : ∀ node ∈ h.route.entry.breakerList,
    ∃ time, h.removedAt node.target = some time ∧ time + mttrSecond ≤ node.timeout
  pending : ∀ curTime, .checkBreaker curTime ∈ h.route.pending → curTime ≤ h.clock
  recovered : ∀ rec ∈ h.recovered,
    ∃ time, rec.removed = some time ∧ time + mttrSecond ≤ rec.time

namespace HistoryInv

variable {h : History} {time : Int}

theorem start (hstart : History.machine.init h) : HistoryInv h := by
  obtain ⟨⟨⟨created, memory, s, group, -, hadd⟩, -, hpending, -, -⟩, -, hrecovered⟩ := hstart
  obtain ⟨-, -, -, hlist, -⟩ :=
    RouteInv.addGroupTargets_inv hadd List.nodup_nil (fun t ht => absurd ht List.not_mem_nil) rfl
  refine ⟨?_, ?_, ?_⟩
  · rw [hlist]
    exact fun _ hnode => absurd hnode List.not_mem_nil
  · rw [hpending]
    exact fun _ hcall => absurd hcall List.not_mem_nil
  · rw [hrecovered]
    exact fun _ hrec => absurd hrec List.not_mem_nil

/-- A step that leaves the nodes and the pending calls as they were, or drops some. -/
theorem keep (hinv : HistoryInv h) {h' : History} (hclock : h.clock ≤ h'.clock)
    (hlist : ∀ node ∈ h'.route.entry.breakerList, node ∈ h.route.entry.breakerList)
    (hpending : ∀ call ∈ h'.route.pending, call ∈ h.route.pending)
    (hremoved : h'.removedAt = h.removedAt) (hrecovered : h'.recovered = h.recovered) :
    HistoryInv h' := by
  refine ⟨fun node hnode => ?_, fun curTime hcall => ?_, ?_⟩
  · rw [hremoved]
    exact hinv.nodes node (hlist node hnode)
  · exact Int.le_trans (hinv.pending curTime (hpending _ hcall)) hclock
  · rw [hrecovered]
    exact hinv.recovered

/-- A call begins: `check_breaker` has read the clock. -/
theorem called (hinv : HistoryInv h) {call : RouteCall} (hclock : h.clock ≤ time)
    (htime : History.OnTime time (.call call)) :
    HistoryInv { h with
      route := { h.route with pending := call :: h.route.pending }
      clock := time } := by
  refine ⟨hinv.nodes, fun curTime hcall => ?_, hinv.recovered⟩
  rcases List.mem_cons.mp hcall with heq | hmem
  · subst heq
    exact Int.le_of_eq htime
  · exact Int.le_trans (hinv.pending curTime hmem) hclock

/-- `notify_unavailable`: the target's last removal is now, and by the condition none of its nodes
ends before the new one. -/
theorem notifyUnavailable (hinv : HistoryInv h) {t : Nat} (hclock : h.clock ≤ time)
    (hfresh : h.route.Removes t → ∀ node ∈ h.route.entry.breakerList, node.target = t →
      time + mttrSecond ≤ node.timeout) :
    HistoryInv { h with
      route := h.route.notifyUnavailable t time
      clock := time
      removedAt :=
        if h.route.Removes t then Function.update h.removedAt t (some time) else h.removedAt } := by
  obtain ⟨hlist, hpending⟩ := notifyUnavailable_list h.route t time
  by_cases hremoves : h.route.Removes t
  · rw [if_pos hremoves] at hlist
    refine ⟨fun node hnode => ?_, fun curTime hcall => ?_, hinv.recovered⟩
    · simp only [if_pos hremoves]
      simp only [hlist] at hnode
      by_cases htarget : node.target = t
      · refine ⟨time, by rw [htarget, Function.update_self], ?_⟩
        rcases List.mem_append.mp hnode with hold | hnew
        · exact hfresh hremoves node hold htarget
        · obtain rfl := List.mem_singleton.mp hnew
          exact Int.le_refl _
      · rw [Function.update_of_ne htarget]
        rcases List.mem_append.mp hnode with hold | hnew
        · exact hinv.nodes node hold
        · exact absurd (by rw [List.mem_singleton.mp hnew]) htarget
    · simp only [hpending] at hcall
      exact Int.le_trans (hinv.pending curTime hcall) hclock
  · rw [if_neg hremoves] at hlist
    refine hinv.keep hclock ?_ ?_ (if_neg hremoves) rfl
    · simp only [hlist]
      exact fun _ hnode => hnode
    · simp only [hpending]
      exact fun _ hcall => hcall

/-- `check_breaker`: what it puts back had a node that was over, and the node ends at the earliest
`mttrSecond` after the last removal. -/
theorem checkBreaker (hinv : HistoryInv h) {curTime : Int} {memory : Nat → Bool}
    (hclock : h.clock ≤ time) (hcur : curTime ≤ h.clock) :
    HistoryInv
      { route := h.route.checkBreaker curTime memory
        clock := time
        removedAt := h.removedAt
        recovered := h.recovered ++
          ((h.route.checkBreaker curTime memory).entry.targets.filter fun t =>
            !h.route.inGroup t && (h.route.checkBreaker curTime memory).inGroup t).map fun t =>
              ⟨t, time, h.removedAt t⟩ } := by
  obtain ⟨hlist, hpending⟩ := @checkNodes_frame h.route curTime memory []
    h.route.entry.breakerList
  refine ⟨fun node hnode => hinv.nodes node (hlist node hnode), fun other hcall => ?_,
    fun rec hrec => ?_⟩
  · have hmem : RouteCall.checkBreaker other ∈ h.route.pending := by
      rw [← hpending]
      exact hcall
    exact Int.le_trans (hinv.pending other hmem) hclock
  · rcases List.mem_append.mp hrec with hold | hnew
    · exact hinv.recovered rec hold
    · obtain ⟨t, ht, rfl⟩ := List.mem_map.mp hnew
      obtain ⟨-, hback⟩ := List.mem_filter.mp ht
      obtain ⟨hout, hin⟩ := Bool.and_eq_true_iff.mp hback
      rcases checkNodes_inGroup (r := h.route) hin with hbefore | ⟨node, hnode, rfl, hover⟩
      · rw [hbefore] at hout
        cases hout
      · obtain ⟨removed, hremoved, hle⟩ := hinv.nodes node hnode
        exact ⟨removed, hremoved, by simp only; omega⟩

theorem exec (hinv : HistoryInv h) {fuel : Nat} {event : Int × RouteOp} {h' : History}
    (hfresh : h.Fresh event) (hstep : h.exec fuel event = some h') : HistoryInv h' := by
  obtain ⟨time, op⟩ := event
  obtain ⟨⟨hclock, htime⟩, hstep⟩ := Option.ite_none_right_eq_some.mp hstep
  obtain ⟨r, hroute, rfl⟩ := Option.map_eq_some_iff.mp hstep
  cases op with
  | call call =>
      obtain ⟨-, hroute⟩ := Option.ite_none_right_eq_some.mp hroute
      cases hroute
      simp only [History.removals, History.recoveries, List.append_nil]
      split
      · exact hinv.called hclock htime
      · exact hinv.keep hclock (fun _ h => h) (fun _ h => h) rfl rfl
  | locked call now memory =>
      obtain ⟨hmem, hroute⟩ := Option.ite_none_right_eq_some.mp hroute
      cases hroute
      -- the section runs on the entry without the call
      have hrest : HistoryInv { h with
          route := { h.route with pending := h.route.pending.erase call } } :=
        hinv.keep (Int.le_refl _) (fun _ hnode => hnode) (fun _ hcall => List.mem_of_mem_erase hcall)
          rfl rfl
      cases call with
      | notifyUnavailable t =>
          have hnow : now = time := htime
          subst hnow
          simp only [History.removals, History.recoveries, List.append_nil]
          exact hrest.notifyUnavailable hclock hfresh
      | notifyAvailable t =>
          obtain ⟨⟨n, hentry⟩, hpending⟩ := add_entry
            { h.route with pending := h.route.pending.erase (.notifyAvailable t) } t (memory t)
          simp only [History.removals, History.recoveries, List.append_nil]
          refine hrest.keep hclock (fun node hnode => ?_) (fun other hcall => ?_) rfl rfl
          · simp only [Route.runLocked, Route.notifyAvailable, hentry] at hnode
            exact hnode
          · simp only [Route.runLocked, Route.notifyAvailable, hpending] at hcall
            exact hcall
      | checkBreaker curTime => exact hrest.checkBreaker hclock (hinv.pending curTime hmem)
  | sched op =>
      obtain ⟨-, hroute⟩ := Option.ite_none_right_eq_some.mp hroute
      obtain ⟨s, -, rfl⟩ := Option.map_eq_some_iff.mp hroute
      simp only [History.removals, History.recoveries, List.append_nil]
      exact hinv.keep hclock (fun _ hnode => hnode) (fun _ hcall => hcall) rfl rfl

end HistoryInv

/-- In every history whose removals find no older node of their target, `check_breaker` puts no target
back earlier than `mttrSecond` after its last removal. -/
theorem route_recovery {h : History} (hreach : Reachable History.machine History.Fresh h) :
    ∀ rec ∈ h.recovered, ∃ time, rec.removed = some time ∧ time + mttrSecond ≤ rec.time :=
  (Reachable.invariant (P := HistoryInv) (fun _ hstart => HistoryInv.start hstart)
    (fun _ _ _ hinv hfresh ⟨_, hstep⟩ => hinv.exec hfresh hstep) hreach).recovered

/-- The two targets of `flapStart`, at time 0. -/
def recoveryStart : History where
  route := flapStart
  clock := 0
  removedAt := fun _ => none
  recovered := []

theorem recoveryStart_init : History.machine.init recoveryStart :=
  ⟨⟨⟨[some 1, some 2], fun _ => true, Sched.init fun _ => 8, 0, fun _ _ => rfl, rfl⟩, by decide, rfl,
    rfl, rfl⟩, rfl, rfl⟩

/-- A target fails and is put back when its time is over. -/
theorem route_recovery_single : ∃ h,
    runChecked History.exec History.Fresh 0 recoveryStart
      [(0, .call (.notifyUnavailable 1)), (0, .locked (.notifyUnavailable 1) 0 fun _ => true),
        (30, .call (.checkBreaker 30)), (31, .locked (.checkBreaker 30) 31 fun _ => true)] = some h ∧
    h.recovered = [⟨1, 31, some 0⟩] ∧
    ∀ rec ∈ h.recovered, ∃ time, rec.removed = some time ∧ time + mttrSecond ≤ rec.time := by
  have hrun : (runChecked History.exec History.Fresh 0 recoveryStart
      [(0, .call (.notifyUnavailable 1)), (0, .locked (.notifyUnavailable 1) 0 fun _ => true),
        (30, .call (.checkBreaker 30)), (31, .locked (.checkBreaker 30) 31 fun _ => true)]).map
      History.recovered = some [⟨1, 31, some 0⟩] := by
    decide +kernel
  obtain ⟨h, hh, heq⟩ := Option.map_eq_some_iff.mp hrun
  exact ⟨h, hh, heq, route_recovery
    (runChecked_machine (m := History.machine) (fun _ _ _ _ h => ⟨_, h⟩) (.init recoveryStart_init) hh)⟩

/-- The target fails at 0, recovers by itself, fails again at 10, and is put back at 30: the node of the
first failure is still in the list. -/
theorem early_recovery : ∃ h, Reachable History.machine (fun _ _ => True) h ∧
    ∃ rec ∈ h.recovered, ∃ time, rec.removed = some time ∧ rec.time < time + mttrSecond := by
  have hrun : (runChecked History.exec (fun _ _ => True) 0 recoveryStart
      [(0, .call (.notifyUnavailable 1)), (0, .locked (.notifyUnavailable 1) 0 fun _ => true),
        (1, .call (.notifyAvailable 1)), (1, .locked (.notifyAvailable 1) 1 fun _ => true),
        (10, .call (.notifyUnavailable 1)), (10, .locked (.notifyUnavailable 1) 10 fun _ => true),
        (30, .call (.checkBreaker 30)), (30, .locked (.checkBreaker 30) 30 fun _ => true)]).map
      History.recovered = some [⟨1, 30, some 10⟩] := by
    decide +kernel
  obtain ⟨h, hh, heq⟩ := Option.map_eq_some_iff.mp hrun
  refine ⟨h, runChecked_machine (m := History.machine) (fun _ _ _ _ h => ⟨_, h⟩)
    (.init recoveryStart_init) hh, ⟨1, 30, some 10⟩, ?_, 10, rfl, by decide⟩
  rw [heq]
  exact List.mem_singleton_self _

end Workflow.Manager
