/-
Module: Workflow.Proofs.ThrdpoolRuns
Layer: Proofs
Purpose: Runs of the thread pool come to an end: every step but a new task, the call of
  `thrdpool_destroy` and a spurious wakeup lowers a rank, and where no such step is possible the
  destroyed pool is freed and every thread is joined or detached.
Trusted boundary: none
Main exports: Thrdpool.rank, ThrdInv.rank_lt, ThrdInv.freed_of_stuck, thrdpool_shutdown
-/
import Workflow.Proofs.Thrdpool
import Workflow.Lib.Threads

namespace Workflow.Kernel

open Workflow.Lib

variable {ω τ : Type} [DecidableEq ω] [DecidableEq τ] [Fintype ω]
variable {p p' : Thrdpool ω τ} {act done : List ω} {w v : ω} {pc : ThreadPc ω τ} {task : τ}

/-! ### The rank -/

/-- How far a thread is from its end or from its sleep. -/
def ThreadPc.rank : ThreadPc ω τ → Nat
  | .running _ => 5
  | .ready => 4
  | .unlocking _ => 2
  | .leaving _ | .destroying | .returned => 1
  | .waiting | .ended | .released => 0

/-- How far `thrdpool_destroy` is from its end. -/
def DestroyPc.rank : DestroyPc → Nat
  | .woken => 5
  | .asleep => 4
  | .unlocked => 3
  | .joining => 2
  | .draining => 1
  | .notCalled | .returned => 0

/-- A bound on the steps that are still to come by themselves. -/
def Thrdpool.rank (p : Thrdpool ω τ) : Nat :=
  2 * p.taskQueue.length + total ThreadPc.rank p.worker + p.destroy.rank

/-- The steps that threads take by themselves: no new task, no call of `thrdpool_destroy` and no
spurious wakeup. -/
def ThrdpoolOp.Internal : ThrdpoolOp ω τ → Prop
  | .schedule _ _ | .scheduleFrom _ _ _ | .wake _ | .destroy _ | .termWake => False
  | .loopSection _ | .finish _ | .unlock _ | .join _ | .termSection | .termTid | .termJoin
  | .pending | .destroyed => True

omit [DecidableEq τ] in
theorem rank_setWorker (p : Thrdpool ω τ) (w : ω) (pc : ThreadPc ω τ) :
    (p.setWorker w pc).rank + (p.worker w).rank = p.rank + pc.rank := by
  have htotal := total_update ThreadPc.rank p.worker w pc
  simp only [Thrdpool.rank, Thrdpool.setWorker]
  omega

omit [DecidableEq ω] [DecidableEq τ] in
theorem rank_signalTerm (p : Thrdpool ω τ) : p.signalTerm.rank ≤ p.rank + 1 := by
  simp only [Thrdpool.rank, Thrdpool.signalTerm]
  by_cases hasleep : p.destroy = .asleep
  · simp only [hasleep, if_true, DestroyPc.rank]
    omega
  · rw [if_neg hasleep]
    omega

omit [DecidableEq τ] in
theorem rank_routineSection (hw : p.worker w = .ready) : (p.routineSection w).rank < p.rank := by
  unfold Thrdpool.routineSection
  dsimp only
  split
  · have hmoved := rank_setWorker
      { p.touch with tid := some w, nthreads := p.touch.nthreads - 1 } w (.unlocking p.touch.tid)
    have hrank : Thrdpool.rank
      { p.touch with tid := some w, nthreads := p.touch.nthreads - 1 } = p.rank := rfl
    simp only [show p.touch.worker w = .ready from hw, ThreadPc.rank, hrank] at hmoved
    split
    · refine Nat.lt_of_le_of_lt (rank_signalTerm _) ?_
      omega
    · omega
  · split
    · have hmoved := rank_setWorker p w .waiting
      simp only [hw, ThreadPc.rank, Thrdpool.rank, Thrdpool.setWorker, Thrdpool.touch] at hmoved ⊢
      omega
    · rename_i task rest hqueue
      have hmoved := rank_setWorker p w (.running task)
      have hlength : p.taskQueue.length = rest.length + 1 := by
        rw [show p.taskQueue = task :: rest from hqueue, List.length_cons]
      simp only [hw, ThreadPc.rank, Thrdpool.rank, Thrdpool.setWorker, Thrdpool.touch] at hmoved ⊢
      omega

/-- A task returns, to the loop or to the end of the pool. -/
theorem ThrdInv.rank_finish (h : ThrdInv p act done)
    (hw : (∃ task, p.worker w = .running task) ∨ p.worker w = .returned) :
    (p.finish w).rank < p.rank := by
  have hzero : p.worker w = .returned → p.nthreads = 0 := by
    intro hret
    rcases h.caller w (h.called w (.inr (.inl hret))) with ⟨-, hpc⟩ | ⟨heq, -⟩
    · cases hret.symm.trans hpc
    · exact h.late (by rw [heq]; rfl)
  unfold Thrdpool.finish
  dsimp only
  split
  · have hmoved := rank_setWorker p w .released
    simp only [Thrdpool.rank, Thrdpool.setWorker, Thrdpool.touch, ThreadPc.rank] at hmoved ⊢
    rcases hw with ⟨task, hw⟩ | hw
    · rw [hw] at hmoved
      simp only at hmoved
      omega
    · rw [hw] at hmoved
      simp only at hmoved
      omega
  · rename_i hnot
    have hmoved := rank_setWorker p w .ready
    rcases hw with ⟨task, hw⟩ | hw
    · simp only [hw, ThreadPc.rank, Thrdpool.rank, Thrdpool.setWorker, Thrdpool.touch] at hmoved ⊢
      omega
    · exact absurd (hzero hw) hnot

/-- Every step that a thread takes by itself lowers the rank. -/
theorem ThrdInv.rank_lt {fuel : Nat} {op : ThrdpoolOp ω τ} (h : ThrdInv p act done)
    (hop : op.Internal) (hstep : p.exec fuel op = some p') : p'.rank < p.rank := by
  cases op with
  | schedule _ _ | scheduleFrom _ _ _ | wake _ | destroy _ | termWake => exact hop.elim
  | loopSection w =>
      obtain ⟨hw, hstep⟩ := Option.ite_none_right_eq_some.mp hstep
      exact Option.some.inj hstep ▸ rank_routineSection hw
  | finish w =>
      simp only [Thrdpool.exec] at hstep
      split at hstep
      · rename_i hw
        exact Option.some.inj hstep ▸ h.rank_finish (.inl ⟨_, hw⟩)
      · rename_i hw
        exact Option.some.inj hstep ▸ h.rank_finish (.inr hw)
      · cases hstep
  | unlock w =>
      simp only [Thrdpool.exec] at hstep
      split at hstep
      · rename_i tid hw
        obtain rfl := Option.some.inj hstep
        have hmoved := rank_setWorker p w (.leaving tid)
        simp only [hw, ThreadPc.rank, Thrdpool.rank, Thrdpool.setWorker, Thrdpool.touch] at hmoved ⊢
        omega
      · cases hstep
  | join w =>
      have hmoved := rank_setWorker p w .ended
      simp only [Thrdpool.exec] at hstep
      split at hstep
      · rename_i hw
        obtain rfl := Option.some.inj hstep
        simp only [hw, ThreadPc.rank] at hmoved
        omega
      · rename_i v hw
        obtain ⟨-, hstep⟩ := Option.ite_none_right_eq_some.mp hstep
        obtain rfl := Option.some.inj hstep
        simp only [hw, ThreadPc.rank, Thrdpool.rank, Thrdpool.setWorker] at hmoved ⊢
        omega
      · cases hstep
  | termSection =>
      obtain ⟨hwoken, hstep⟩ := Option.ite_none_right_eq_some.mp hstep
      obtain rfl := Option.some.inj hstep
      simp only [Thrdpool.termLoop, Thrdpool.touch, Thrdpool.rank, hwoken]
      split <;> simp only [DestroyPc.rank] <;> omega
  | termTid =>
      obtain ⟨hunlocked, hstep⟩ := Option.ite_none_right_eq_some.mp hstep
      obtain rfl := Option.some.inj hstep
      simp only [Thrdpool.touch, Thrdpool.rank, hunlocked, DestroyPc.rank]
      omega
  | termJoin =>
      obtain ⟨hjoining, hstep⟩ := Option.ite_none_right_eq_some.mp hstep
      split at hstep
      · obtain rfl := Option.some.inj hstep
        simp only [Thrdpool.touch, Thrdpool.rank, hjoining, DestroyPc.rank]
        omega
      · obtain ⟨-, hstep⟩ := Option.ite_none_right_eq_some.mp hstep
        obtain rfl := Option.some.inj hstep
        simp only [Thrdpool.touch, Thrdpool.rank, hjoining, DestroyPc.rank]
        omega
  | pending =>
      simp only [Thrdpool.exec] at hstep
      split at hstep
      · rename_i task rest hdraining hqueue
        obtain rfl := Option.some.inj hstep
        simp only [Thrdpool.touch, Thrdpool.rank, hqueue, List.length_cons]
        omega
      · cases hstep
  | destroyed =>
      simp only [Thrdpool.exec] at hstep
      split at hstep
      · rename_i hdraining hqueue
        obtain rfl := Option.some.inj hstep
        unfold Thrdpool.destroyEnd
        dsimp only
        split
        · rename_i w hcaller
          have hw : p.worker w = .destroying := by
            rcases h.caller w hcaller with ⟨-, hpc⟩ | ⟨heq, -⟩
            · exact hpc
            · cases hdraining.symm.trans heq
          have hmoved := rank_setWorker p w .returned
          simp only [hw, ThreadPc.rank, Thrdpool.rank, Thrdpool.setWorker, hdraining,
            DestroyPc.rank] at hmoved
          simp only [Thrdpool.touch, Thrdpool.rank, Thrdpool.setWorker, hdraining, DestroyPc.rank]
          omega
        · simp only [Thrdpool.touch, Thrdpool.rank, hdraining, DestroyPc.rank]
          omega
      · cases hstep

/-! ### Where nothing can go on -/

/-- No thread can take a step by itself. -/
def Thrdpool.Stuck (p : Thrdpool ω τ) : Prop :=
  ∀ op : ThrdpoolOp ω τ, op.Internal → ∀ fuel, p.exec fuel op = none

/-- Where a thread can be that cannot go on. -/
theorem Thrdpool.Stuck.place (h : p.Stuck) (v : ω) :
    p.worker v = .waiting ∨ p.worker v = .destroying ∨ (∃ tid, p.worker v = .leaving tid) ∨
      p.worker v = .ended ∨ p.worker v = .released := by
  cases hv : p.worker v with
  | ready =>
      have hstep := h (.loopSection v) trivial 0
      simp [Thrdpool.exec, hv] at hstep
  | running task =>
      have hstep := h (.finish v) trivial 0
      simp [Thrdpool.exec, hv] at hstep
  | returned =>
      have hstep := h (.finish v) trivial 0
      simp [Thrdpool.exec, hv] at hstep
  | unlocking tid =>
      have hstep := h (.unlock v) trivial 0
      simp [Thrdpool.exec, hv] at hstep
  | waiting | destroying | leaving _ | ended | released => simp

/-- The chain is joined from its end. -/
theorem ThrdInv.act_of_stuck (h : ThrdInv p act done) (hstuck : p.Stuck) : act = [] := by
  rcases List.eq_nil_or_concat act with rfl | ⟨front, v, rfl⟩
  · rfl
  · rw [List.concat_eq_append] at h
    have hstep := hstuck (.join v) trivial 0
    rcases h.chained front v done (by simp) (by simp) with hv | hv
    · rcases hstuck.place v with hpc | hpc | ⟨tid, hpc⟩ | hpc | hpc <;> cases hv.symm.trans hpc
    · cases done with
      | nil => simp [Thrdpool.exec, hv] at hstep
      | cons u done =>
          have hu := (h.ended u).mpr List.mem_cons_self
          simp [Thrdpool.exec, hv, hu] at hstep

/-- Once the pool is destroyed and nothing can go on, it is freed. -/
theorem ThrdInv.freed_of_stuck (h : ThrdInv p act done) (hstuck : p.Stuck)
    (hcalled : p.destroy ≠ .notCalled) : p.freed = 1 := by
  have hact := h.act_of_stuck hstuck
  subst hact
  have hterm := h.terminate.mpr hcalled
  have hall : ∀ v, v ∈ done ++ p.detached := by
    intro v
    rw [List.mem_append, h.detached, Option.mem_toList]
    rcases hstuck.place v with hpc | hpc | ⟨tid, hpc⟩ | hpc | hpc
    · exact absurd hpc (h.waiting hterm v)
    · exact .inr (h.called v (.inl hpc))
    · exact absurd (h.left v tid (.inr hpc)) List.not_mem_nil
    · exact .inl ((h.ended v).mp hpc)
    · exact .inr (h.called v (.inr (.inr hpc)))
  have hzero : p.nthreads = 0 := by
    have hcard : Fintype.card ω ≤ (done ++ p.detached).length := by
      calc Fintype.card ω ≤ (done ++ p.detached).toFinset.card :=
            Finset.card_le_card fun v _ => List.mem_toFinset.mpr (hall v)
        _ ≤ (done ++ p.detached).length := List.toFinset_card_le _
    have hcount := h.count
    simp only [List.length_append, List.nil_append] at hcard hcount
    omega
  have hreturned : p.destroy = .returned := by
    cases hdestroy : p.destroy with
    | notCalled => exact absurd hdestroy hcalled
    | asleep => exact absurd hzero (Nat.pos_iff_ne_zero.mp (h.asleep hdestroy))
    | woken =>
        have hstep := hstuck .termSection trivial 0
        simp [Thrdpool.exec, hdestroy] at hstep
    | unlocked =>
        have hstep := hstuck .termTid trivial 0
        simp [Thrdpool.exec, hdestroy] at hstep
    | joining =>
        have hstep := hstuck .termJoin trivial 0
        have htid := h.tid
        cases done with
        | nil => simp [Thrdpool.exec, hdestroy, htid] at hstep
        | cons u done =>
            have hu := (h.ended u).mpr List.mem_cons_self
            simp [Thrdpool.exec, hdestroy, htid, hu] at hstep
    | draining =>
        cases hqueue : p.taskQueue with
        | nil =>
            have hstep := hstuck .destroyed trivial 0
            simp [Thrdpool.exec, hdestroy, hqueue] at hstep
        | cons task rest =>
            have hstep := hstuck .pending trivial 0
            simp [Thrdpool.exec, hdestroy, hqueue] at hstep
    | returned => rfl
  have hgone : p.gone = true := by
    cases hcaller : p.caller with
    | none => simp [Thrdpool.gone, hreturned, hcaller]
    | some d =>
        have hd : p.worker d = .released := by
          rcases h.caller d hcaller with ⟨hnot, -⟩ | ⟨-, hpc | hpc⟩
          · exact absurd hreturned hnot
          · rcases hstuck.place d with hpc' | hpc' | ⟨tid, hpc'⟩ | hpc' | hpc' <;>
              cases hpc.symm.trans hpc'
          · exact hpc
        simp [Thrdpool.gone, hreturned, hcaller, hd]
  rw [h.freed, hgone]
  rfl

/-- Before the pool is destroyed, threads that cannot go on sleep over an empty queue. -/
theorem ThrdInv.idle_of_stuck [Nonempty ω] (h : ThrdInv p act done) (hstuck : p.Stuck)
    (hnot : p.destroy = .notCalled) : p.taskQueue = [] := by
  have hwaiting : ∀ v, p.worker v = .waiting := by
    intro v
    have hloop := h.inLoop_of_notCalled hnot v
    rcases hstuck.place v with hpc | hpc | ⟨tid, hpc⟩ | hpc | hpc
    · exact hpc
    all_goals simp [hpc, ThreadPc.inLoop] at hloop
  have hterm : p.terminate = false := by
    by_contra hne
    exact (h.terminate.mp (Bool.not_eq_false _ ▸ hne)) hnot
  by_contra hqueue
  obtain ⟨v, hv⟩ := h.awake hterm hqueue inferInstance
  exact hv (hwaiting v)

/-! ### The whole of it -/

/-- No thread is joined or detached twice. -/
theorem ThrdInv.nodup_joined (h : ThrdInv p act done) : (p.joined ++ p.detached).Nodup := by
  have hsub : p.joined.Sublist (act ++ done) := by
    cases hafter : p.destroy.afterJoin with
    | true =>
        rw [(h.all hafter).2]
        exact List.sublist_append_right act done
    | false =>
        rw [h.joined hafter]
        exact (List.tail_sublist done).trans (List.sublist_append_right act done)
  have hsubset : ∀ v ∈ p.joined, v ∈ done := by
    intro v hv
    cases hafter : p.destroy.afterJoin with
    | true => exact (h.all hafter).2 ▸ hv
    | false =>
        rw [h.joined hafter] at hv
        exact List.mem_of_mem_tail hv
  refine List.Nodup.append (h.nodup.sublist hsub) ?_ fun v hv hd => ?_
  · rw [h.detached]
    cases p.caller with
    | none => exact List.nodup_nil
    | some d => exact List.nodup_singleton d
  · rw [h.detached, Option.mem_toList] at hd
    have hended := (h.ended v).mpr (hsubset v hv)
    rcases h.caller v hd with ⟨-, hpc⟩ | ⟨-, hpc | hpc⟩ <;> cases hended.symm.trans hpc

/-- Behind the `free` of the pool all threads are at their ends. -/
theorem ThrdInv.all_of_freed (h : ThrdInv p act done) (hfreed : p.freed = 1) :
    p.taskQueue = [] ∧ ∀ v, p.worker v = .ended ∧ v ∈ p.joined ∨
      p.worker v = .released ∧ v ∈ p.detached := by
  have hgone : p.gone = true := by
    by_contra hnot
    rw [h.freed, if_neg hnot] at hfreed
    cases hfreed
  have hreturned : p.destroy = .returned := by
    by_contra hnot
    rw [not_gone hnot] at hgone
    cases hgone
  have hafter : p.destroy.afterJoin = true := by
    rw [hreturned]
    rfl
  obtain ⟨rfl, hjoined⟩ := h.all hafter
  have hzero := h.late (by rw [hreturned]; rfl)
  have hcount := h.count
  have hterm := h.terminate.mpr (by simp [hreturned])
  refine ⟨h.empty hreturned, fun v => ?_⟩
  have hplace : p.worker v = .ended ∨ p.worker v = .returned ∨ p.worker v = .released := by
    cases hv : p.worker v with
    | ready | waiting | running _ =>
        have hpos := h.nthreads_pos (w := v) (by rw [hv]; rfl)
        omega
    | destroying =>
        rcases h.caller v (h.called v (.inl hv)) with ⟨hnot, -⟩ | ⟨-, hpc | hpc⟩
        · exact absurd hreturned hnot
        · cases hv.symm.trans hpc
        · cases hv.symm.trans hpc
    | unlocking tid => exact absurd (h.left v tid (.inl hv)) List.not_mem_nil
    | leaving tid => exact absurd (h.left v tid (.inr hv)) List.not_mem_nil
    | ended | returned | released => simp
  rcases hplace with hv | hv | hv
  · exact .inl ⟨hv, hjoined ▸ (h.ended v).mp hv⟩
  · have hcaller := h.called v (.inr (.inl hv))
    simp [Thrdpool.gone, hcaller, hv] at hgone
  · refine .inr ⟨hv, ?_⟩
    rw [h.detached, h.called v (.inr (.inr hv))]
    exact List.mem_singleton_self v

/-- The thread pool in every state of every run, with `thrdpool_destroy` from outside or from a task:
tasks leave the queue in order, to a thread or to `pending`; no thread is joined or detached twice,
and only the thread of the call is detached; a freed pool is not touched. Threads do not go on
forever by themselves, and once they cannot go on a destroyed pool is freed, with every thread
joined or detached once. -/
theorem thrdpool_shutdown {ω τ : Type} [DecidableEq ω] [DecidableEq τ] [Fintype ω]
    (p : Thrdpool ω τ) (h : Reachable (Thrdpool.machine ω τ) (fun _ _ => True) p) :
    p.scheduled = p.started ++ p.pended ++ p.taskQueue ∧
    (p.joined ++ p.detached).Nodup ∧ (∀ w ∈ p.detached, p.caller = some w) ∧
    p.fault = false ∧ p.freed ≤ 1 ∧
    (p.freed = 1 → p.scheduled = p.started ++ p.pended ∧
      (∀ w, (p.joined ++ p.detached).count w = 1) ∧
      ∀ w, p.worker w = .ended ∨ p.worker w = .released) ∧
    (∀ op fuel p', op.Internal → p.exec fuel op = some p' → p'.rank < p.rank) ∧
    (p.Stuck → (p.destroy ≠ .notCalled → p.freed = 1) ∧
      (p.destroy = .notCalled → Nonempty ω → p.scheduled = p.started)) := by
  obtain ⟨act, done, hinv⟩ := thrdInv_reachable h
  refine ⟨hinv.fifo, hinv.nodup_joined, fun w hw => ?_, hinv.fault, ?_, fun hfreed => ?_,
    fun op fuel p' hop hstep => hinv.rank_lt hop hstep, fun hstuck =>
      ⟨hinv.freed_of_stuck hstuck, fun hnot hne => ?_⟩⟩
  · rwa [hinv.detached, Option.mem_toList] at hw
  · rw [hinv.freed]
    split <;> decide
  · obtain ⟨hqueue, hall⟩ := hinv.all_of_freed hfreed
    refine ⟨?_, fun w => ?_, fun w => (hall w).imp And.left And.left⟩
    · rw [hinv.fifo, hqueue, List.append_nil]
    · refine List.count_eq_one_of_mem hinv.nodup_joined ?_
      rw [List.mem_append]
      exact (hall w).imp And.right And.right
  · rw [hinv.fifo, hinv.idle_of_stuck hstuck hnot, hinv.pended (by rw [hnot]; rfl)]
    simp

/-- Two threads; a task of the second one destroys the pool while the first one has a task that
schedules another. -/
def destroyedInside {τ : Type} (first second : τ) : List (ThrdpoolOp τ Nat) :=
  [.loopSection first, .schedule 10 (some first), .schedule 20 none, .loopSection second,
    .loopSection first, .destroy (some second), .scheduleFrom first 30 none, .finish first,
    .loopSection first, .termSection, .termTid, .unlock first, .join first, .termJoin, .pending,
    .destroyed, .finish second]

theorem thrdpool_shutdown_inside :
    ∃ p : Thrdpool (Fin 2) Nat, Reachable (Thrdpool.machine (Fin 2) Nat) (fun _ _ => True) p ∧
      p.freed = 1 ∧ p.joined = [0] ∧ p.detached = [1] ∧ p.started = [10, 20] ∧
        p.pended = [30] ∧ p.fault = false := by
  obtain ⟨p, hp, hfreed, hjoined, hdetached, hstarted, hpended⟩ :
      ∃ p, runChecked Thrdpool.exec (fun _ _ => True) 0 (Thrdpool.create (Fin 2) Nat)
        (destroyedInside 0 1) = some p ∧ p.freed = 1 ∧ p.joined = [0] ∧ p.detached = [1] ∧
          p.started = [10, 20] ∧ p.pended = [30] := ⟨_, rfl, rfl, rfl, rfl, rfl, rfl⟩
  have hreach := runChecked_reachable (.init rfl) hp
  obtain ⟨-, -, -, hfault, -⟩ := thrdpool_shutdown p hreach
  exact ⟨p, hreach, hfreed, hjoined, hdetached, hstarted, hpended, hfault⟩

end Workflow.Kernel
