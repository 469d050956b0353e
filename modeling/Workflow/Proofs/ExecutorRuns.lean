/-
Module: Workflow.Proofs.ExecutorRuns
Layer: Proofs
Purpose: Runs of the executor come to an end. Every step of a worker and of `deinit` lowers a rank, so
  that only requests keep it going; and where nothing can go on, every session whose request
  succeeded was handled.
Trusted boundary: none
Main exports: Executor.rank, ExecInv.rank_lt, ExecInv.settled, executor_invariant
-/
import Workflow.Proofs.Executor

namespace Workflow.Kernel

open Workflow.Lib

variable {κ σ ω γ : Type} [DecidableEq κ] [DecidableEq σ] [Fintype ω]
variable {e e' : Executor κ σ ω γ} {queue q : κ} {session s : σ} {w : ω} {c : γ}

/-! ### The rank -/

/-- How far a worker is from the end of its loop. -/
def WorkerPc.rank (mutex : κ → Critical ω γ σ) : WorkerPc κ σ → Nat
  | .idle => 1
  | .taken _ => 2
  | .critical queue =>
      match mutex queue with
      | .removed _ _ => 8
      | _ => 5
  | .unlocked _ _ => 4
  | .executed _ _ => 3
  | .left => 0

/-- How far `deinit` is from its end. -/
def DeinitPc.rank : DeinitPc κ → Nat
  | .running => 3
  | .waiting => 2
  | .draining => 1
  | .cancelling _ => 2
  | .finished => 0

/-- The number of steps that workers and `deinit` can still take. -/
def Executor.rank (e : Executor κ σ ω γ) : Nat :=
  7 * (e.accepted.length - e.taken.length) + total (WorkerPc.rank e.mutex) e.worker +
    2 * e.pool.length + e.deinit.rank

/-- The steps of workers and of `deinit` behind its first. -/
def ExecutorOp.Internal : ExecutorOp κ σ ω γ → Prop
  | .malloc _ _ _ _ | .lock _ | .addTail _ | .schedule _ _ | .unlock _ | .terminate => False
  | .take _ | .enter _ | .rearm _ | .leave _ | .execute _ | .handle _ | .exit _ | .joined
  | .pending | .cancel | .cancelled | .destroyed => True

/-- The steps of threads that have begun something: neither a new request nor the call of
`deinit`. -/
def ExecutorOp.Ongoing : ExecutorOp κ σ ω γ → Prop
  | .malloc _ _ _ _ | .terminate => False
  | .lock _ | .addTail _ | .schedule _ _ | .unlock _ | .take _ | .enter _ | .rearm _ | .leave _
  | .execute _ | .handle _ | .exit _ | .joined | .pending | .cancel | .cancelled | .destroyed =>
      True

/-- Only a request that succeeded is ever taken. -/
theorem ExecInv.taken_le (h : ExecInv e) (q : κ) (s : σ) :
    e.taken.count (q, s) ≤ e.accepted.count (q, s) := by
  obtain ⟨-, horder, hlisted⟩ := h.queue q
  have hsessions : ∃ rest, sessionsOf q e.accepted = sessionsOf q e.taken ++ rest := by
    cases hmutex : e.mutex q with
    | added c session before =>
        rw [hmutex] at horder hlisted
        rw [show e.tasks q = before ++ [session] from hlisted, ← List.append_assoc] at horder
        exact ⟨before, List.append_cancel_right horder⟩
    | free | removed _ _ | rearmed _ _ | entered _ _ _ | decided _ _ _ _ =>
        rw [hmutex, Critical.inFlight, List.append_nil] at horder
        exact ⟨_, horder⟩
  obtain ⟨rest, hrest⟩ := hsessions
  rw [← count_sessionsOf, ← count_sessionsOf, hrest, List.count_append]
  exact Nat.le_add_right _ _

theorem ExecInv.length_taken_le (h : ExecInv e) : e.taken.length ≤ e.accepted.length :=
  (List.subperm_ext_iff.mpr fun x _ => h.taken_le x.1 x.2).length_le

variable [DecidableEq ω]

omit [DecidableEq κ] [DecidableEq σ] in
/-- A worker moves between places outside of the sections. -/
theorem total_rank_setWorker (mutex : κ → Critical ω γ σ) (worker : ω → WorkerPc κ σ) (w : ω)
    (pc : WorkerPc κ σ) :
    total (WorkerPc.rank mutex) (Function.update worker w pc) + (worker w).rank mutex =
      total (WorkerPc.rank mutex) worker + pc.rank mutex :=
  total_update (WorkerPc.rank mutex) worker w pc

omit [DecidableEq σ] in
/-- The section of a queue changes hands; only its holder has another rank. -/
theorem total_rank_mutex (mutex : κ → Critical ω γ σ) (m : Critical ω γ σ)
    {worker : ω → WorkerPc κ σ} (hothers : ∀ v ≠ w, worker v ≠ .critical queue) :
    total (WorkerPc.rank (Function.update mutex queue m)) worker + (worker w).rank mutex =
      total (WorkerPc.rank mutex) worker + (worker w).rank (Function.update mutex queue m) := by
  have hranks : (fun v => (worker v).rank (Function.update mutex queue m)) =
      Function.update (fun v => (worker v).rank mutex) w
        ((worker w).rank (Function.update mutex queue m)) := by
    funext v
    rcases eq_or_ne v w with rfl | hne
    · rw [Function.update_self]
    · rw [Function.update_of_ne hne]
      cases hpc : worker v with
      | critical q =>
          have hq : q ≠ queue := fun heq => hothers v hne (heq ▸ hpc)
          simp only [WorkerPc.rank, Function.update_of_ne hq]
      | idle | taken _ | unlocked _ _ | executed _ _ | left => rfl
  have htotal := total_update id (fun v => (worker v).rank mutex) w
    ((worker w).rank (Function.update mutex queue m))
  rw [← hranks] at htotal
  exact htotal

omit [DecidableEq ω] in
theorem ExecInv.alone (h : ExecInv e) (howner : (e.mutex queue).worker? = some w) :
    ∀ v ≠ w, e.worker v ≠ .critical queue := by
  intro v hne hv
  exact hne (Option.some.inj ((h.worker_of_critical hv).symm.trans howner))

omit [DecidableEq ω] in
theorem ExecInv.nobody (h : ExecInv e) (hfree : e.mutex queue = .free) :
    e.worker w ≠ .critical queue := by
  intro hw
  have hown := h.worker_of_critical hw
  rw [hfree] at hown
  cases hown

theorem ExecInv.rank_enter (h : ExecInv e) (h' : ExecInv e') (hstep : e.enter w = some e') :
    e'.rank < e.rank := by
  unfold Executor.enter at hstep
  split at hstep
  · rename_i queue hw
    split at hstep
    · rename_i session rest hmutex htasks
      have hle := h'.length_taken_le
      obtain rfl := Option.some.inj hstep
      have hmoved := total_rank_setWorker (Function.update e.mutex queue (.removed w session))
        e.worker w (.critical queue)
      have hlocked := total_rank_mutex (w := w) e.mutex (.removed w session)
        (fun v _ => h.nobody (w := v) hmutex)
      simp only [hw, WorkerPc.rank, Function.update_self] at hmoved hlocked
      simp only [Executor.setQueue, Executor.setWorker, List.length_append,
        List.length_singleton] at hle
      simp only [Executor.rank, Executor.setQueue, Executor.setWorker, List.length_append,
        List.length_singleton]
      omega
    · cases hstep
  · cases hstep

theorem ExecInv.rank_rearm (h : ExecInv e) (hstep : e.rearm queue = some e') :
    e'.rank < e.rank := by
  unfold Executor.rearm at hstep
  split at hstep
  · rename_i w session hmutex
    have howner : (e.mutex queue).worker? = some w := by
      rw [hmutex]
      rfl
    have hw := h.critical_of_worker howner
    have hlocked := total_rank_mutex e.mutex (.rearmed w session) (h.alone howner)
    simp only [hw, WorkerPc.rank, Function.update_self, hmutex] at hlocked
    obtain rfl := Option.some.inj hstep
    split
    · simp only [Executor.rank, Executor.setQueue]
      omega
    · simp only [Executor.rank, Executor.setQueue, List.length_append, List.length_singleton]
      omega
  · cases hstep

theorem ExecInv.rank_leave (h : ExecInv e) (hmutex : e.mutex queue = .rearmed w session) :
    ((e.setQueue queue (e.tasks queue) .free).setWorker w (.unlocked queue session)).rank <
      e.rank := by
  have howner : (e.mutex queue).worker? = some w := by
    rw [hmutex]
    rfl
  have hw := h.critical_of_worker howner
  have hmoved := total_rank_setWorker (Function.update e.mutex queue .free) e.worker w
    (.unlocked queue session)
  have hlocked := total_rank_mutex e.mutex .free (h.alone howner)
  simp only [hw, WorkerPc.rank, Function.update_self, hmutex] at hmoved hlocked
  simp only [Executor.rank, Executor.setQueue, Executor.setWorker]
  omega

omit [DecidableEq ω] in
theorem ExecInv.rank_cancel (h' : ExecInv e') (hstep : e.cancel = some e') : e'.rank < e.rank := by
  unfold Executor.cancel at hstep
  split at hstep
  · rename_i queue hdeinit
    split at hstep
    · rename_i session rest htasks
      have hle := h'.length_taken_le
      obtain rfl := Option.some.inj hstep
      simp only [Executor.setQueue, List.length_append, List.length_singleton] at hle
      simp only [Executor.rank, Executor.setQueue, Function.update_eq_self, List.length_append,
        List.length_singleton]
      omega
    · cases hstep
  · cases hstep

variable [DecidableEq γ]

/-- Every step of a worker and of `deinit` lowers the rank. -/
theorem ExecInv.rank_lt {fuel : Nat} {op : ExecutorOp κ σ ω γ} (h : ExecInv e) (h' : ExecInv e')
    (hop : op.Internal) (hstep : e.exec fuel op = some e') : e'.rank < e.rank := by
  cases op with
  | malloc _ _ _ _ | lock _ | addTail _ | schedule _ _ | unlock _ | terminate => exact hop.elim
  | take w =>
      simp only [Executor.exec] at hstep
      split at hstep
      · rename_i queue rest hw hdeinit hpool
        obtain rfl := Option.some.inj hstep
        have hmoved := total_rank_setWorker e.mutex e.worker w (.taken queue)
        simp only [hw, WorkerPc.rank] at hmoved
        simp only [Executor.rank, Executor.setWorker, hpool, List.length_cons]
        omega
      · cases hstep
  | enter w => exact h.rank_enter h' hstep
  | rearm queue => exact h.rank_rearm hstep
  | leave queue =>
      simp only [Executor.exec] at hstep
      split at hstep
      · rename_i w session hmutex
        exact Option.some.inj hstep ▸ h.rank_leave hmutex
      · cases hstep
  | execute w =>
      simp only [Executor.exec] at hstep
      split at hstep
      · rename_i queue session hw
        obtain rfl := Option.some.inj hstep
        have hmoved := total_rank_setWorker e.mutex e.worker w (.executed queue session)
        simp only [hw, WorkerPc.rank] at hmoved
        simp only [Executor.rank, Executor.setWorker]
        omega
      · cases hstep
  | handle w =>
      simp only [Executor.exec] at hstep
      split at hstep
      · rename_i queue session hw
        obtain rfl := Option.some.inj hstep
        have hmoved := total_rank_setWorker e.mutex e.worker w .idle
        simp only [hw, WorkerPc.rank] at hmoved
        simp only [Executor.rank, Executor.setWorker]
        omega
      · cases hstep
  | exit w =>
      simp only [Executor.exec] at hstep
      split at hstep
      · cases hstep
      · rename_i hw hrunning
        obtain rfl := Option.some.inj hstep
        have hmoved := total_rank_setWorker e.mutex e.worker w .left
        simp only [hw, WorkerPc.rank] at hmoved
        simp only [Executor.rank, Executor.setWorker]
        omega
      · cases hstep
  | joined =>
      simp only [Executor.exec] at hstep
      split at hstep
      · rename_i hdeinit
        obtain ⟨-, hstep⟩ := Option.ite_none_right_eq_some.mp hstep
        obtain rfl := Option.some.inj hstep
        simp only [Executor.rank, hdeinit, DeinitPc.rank]
        omega
      · cases hstep
  | pending =>
      simp only [Executor.exec] at hstep
      split at hstep
      · rename_i queue rest hdeinit hpool
        obtain rfl := Option.some.inj hstep
        simp only [Executor.rank, hdeinit, hpool, DeinitPc.rank, List.length_cons]
        omega
      · cases hstep
  | cancel => exact h'.rank_cancel hstep
  | cancelled =>
      simp only [Executor.exec] at hstep
      split at hstep
      · rename_i queue hdeinit
        obtain ⟨-, hstep⟩ := Option.ite_none_right_eq_some.mp hstep
        obtain rfl := Option.some.inj hstep
        simp only [Executor.rank, hdeinit, DeinitPc.rank]
        omega
      · cases hstep
  | destroyed =>
      simp only [Executor.exec] at hstep
      split at hstep
      · rename_i hdeinit hpool
        obtain rfl := Option.some.inj hstep
        simp only [Executor.rank, hdeinit, DeinitPc.rank]
        omega
      · cases hstep

/-! ### Where nothing can go on -/

/-- All that was accepted is handled, and by `FINISHED` exactly what was executed. -/
structure Settled (e : Executor κ σ ω γ) : Prop where
  empty : ∀ q, e.tasks q = []
  handled : ∀ q s, e.accepted.count (q, s) = e.finished.count (q, s) + e.canceled.count (q, s)
  executed : ∀ q s, e.executed.count (q, s) = e.finished.count (q, s)

omit [DecidableEq ω] [DecidableEq γ] in
/-- No thread has anything in hand, and the pool is empty. -/
theorem ExecInv.settled (h : ExecInv e) (hmutex : ∀ q, e.mutex q = .free)
    (hdeinit : ∀ q, e.deinit ≠ .cancelling q) (hpool : e.pool = [])
    (hworker : ∀ w, e.worker w = .idle ∨ e.worker w = .left) : Settled e := by
  have htasks : ∀ q, e.tasks q = [] := by
    intro q
    have htokens := (h.queue q).tokens
    have hnobody : total (WorkerPc.takenFor q) e.worker = 0 :=
      total_eq_zero fun w => by rcases hworker w with hw | hw <;> simp [hw, WorkerPc.takenFor]
    rw [Executor.tokens, hnobody, hpool, Executor.due, if_neg (hdeinit q), hmutex q,
      Critical.due] at htokens
    by_contra hne
    rw [if_neg hne] at htokens
    cases htokens
  refine ⟨htasks, fun q s => ?_, fun q s => ?_⟩
  · have horder := (h.queue q).order
    have hhandled := h.handled q s
    rw [hmutex q, Critical.inFlight, htasks q, List.append_nil, List.append_nil] at horder
    have hnobody : total (WorkerPc.holds q s) e.worker = 0 :=
      total_eq_zero fun w => by rcases hworker w with hw | hw <;> simp [hw, WorkerPc.holds]
    rw [hmutex q, Critical.holds, hnobody] at hhandled
    rw [← count_sessionsOf, horder, count_sessionsOf, hhandled, Nat.add_zero]
  · have hnobody : total (WorkerPc.hasExecuted q s) e.worker = 0 :=
      total_eq_zero fun w => by rcases hworker w with hw | hw <;> simp [hw, WorkerPc.hasExecuted]
    rw [h.executed q s, hnobody, Nat.add_zero]

omit [DecidableEq ω] [DecidableEq γ] in
theorem ExecInv.settled_of_finished (h : ExecInv e) (hdeinit : e.deinit = .finished) :
    Settled e := by
  have hgone := h.gone (by simp [hdeinit]) (by simp [hdeinit])
  exact h.settled (h.mutex_free hgone (h.quiet (by simp [hdeinit]))) (by simp [hdeinit])
    (h.ended hdeinit) fun w => .inr (hgone w)

/-- Nothing that has begun can go on. -/
def Executor.Stuck (e : Executor κ σ ω γ) : Prop :=
  ∀ op : ExecutorOp κ σ ω γ, op.Ongoing → ∀ fuel, e.exec fuel op = none

/-- The holder of a mutex can always go on. -/
theorem Executor.Stuck.mutex_free (h : e.Stuck) (q : κ) : e.mutex q = .free := by
  cases hmutex : e.mutex q with
  | free => rfl
  | removed w s =>
      have hstep := h (.rearm q) trivial 0
      simp [Executor.exec, Executor.rearm, hmutex] at hstep
  | rearmed w s =>
      have hstep := h (.leave q) trivial 0
      simp [Executor.exec, hmutex] at hstep
  | entered c s before =>
      have hstep := h (.addTail q) trivial 0
      simp [Executor.exec, Executor.addTail, hmutex] at hstep
  | added c s before =>
      have hstep := h (.schedule q true) trivial 0
      simp only [Executor.exec, Executor.schedule, hmutex] at hstep
      split at hstep <;> simp at hstep
  | decided c s before ok =>
      have hstep := h (.unlock q) trivial 0
      simp [Executor.exec, hmutex] at hstep

/-- A worker that cannot go on waits at the head of its loop or is out of it. -/
theorem ExecInv.worker_of_stuck (h : ExecInv e) (hstuck : e.Stuck) (w : ω) :
    e.worker w = .idle ∨ e.worker w = .left := by
  cases hw : e.worker w with
  | idle => exact .inl rfl
  | left => exact .inr rfl
  | taken q =>
      have hfree := hstuck.mutex_free q
      obtain ⟨session, rest, htasks⟩ := List.exists_cons_of_ne_nil (h.tasks_ne_nil hw hfree)
      have hstep := hstuck (.enter w) trivial 0
      simp [Executor.exec, Executor.enter, hw, hfree, htasks] at hstep
  | critical q => exact absurd hw (h.nobody (hstuck.mutex_free q))
  | unlocked q s =>
      have hstep := hstuck (.execute w) trivial 0
      simp [Executor.exec, hw] at hstep
  | executed q s =>
      have hstep := hstuck (.handle w) trivial 0
      simp [Executor.exec, hw] at hstep

/-- With at least one worker, nothing is left to do where nothing can go on. -/
theorem ExecInv.settled_of_stuck [Nonempty ω] (h : ExecInv e) (hstuck : e.Stuck) : Settled e := by
  have hworker := h.worker_of_stuck hstuck
  cases hdeinit : e.deinit with
  | running =>
      refine h.settled hstuck.mutex_free (by simp [hdeinit]) ?_ hworker
      obtain ⟨w⟩ := ‹Nonempty ω›
      have hidle := (hworker w).resolve_right (h.stays hdeinit w)
      cases hpool : e.pool with
      | nil => rfl
      | cons queue rest =>
          have hstep := hstuck (.take w) trivial 0
          simp [Executor.exec, hidle, hdeinit, hpool] at hstep
  | waiting =>
      have hleft : ∀ w, e.worker w = .left := by
        intro w
        refine (hworker w).resolve_left fun hidle => ?_
        have hstep := hstuck (.exit w) trivial 0
        simp [Executor.exec, hidle, hdeinit] at hstep
      have hstep := hstuck .joined trivial 0
      simp [Executor.exec, hdeinit, hleft] at hstep
  | draining =>
      cases hpool : e.pool with
      | nil =>
          have hstep := hstuck .destroyed trivial 0
          simp [Executor.exec, hdeinit, hpool] at hstep
      | cons queue rest =>
          have hstep := hstuck .pending trivial 0
          simp [Executor.exec, hdeinit, hpool] at hstep
  | cancelling queue =>
      cases htasks : e.tasks queue with
      | nil =>
          have hstep := hstuck .cancelled trivial 0
          simp [Executor.exec, hdeinit, htasks] at hstep
      | cons session rest =>
          have hstep := hstuck .cancel trivial 0
          simp [Executor.exec, Executor.cancel, hdeinit, htasks] at hstep
  | finished => exact h.settled_of_finished hdeinit

/-! ### The whole of it -/

/-- The executor in every state of every run: one pool task for a queue that has something in it and
none for an empty one, order, one `handle` for each session, and an end. -/
theorem executor_invariant {κ σ ω γ : Type} [DecidableEq κ] [DecidableEq σ] [DecidableEq ω]
    [DecidableEq γ] [Fintype ω] [Nonempty ω] (e : Executor κ σ ω γ)
    (h : Reachable (Executor.machine κ σ ω γ) Executor.Orderly e) :
    (∀ q, e.mutex q = .free → e.deinit ≠ .cancelling q →
      e.tokens q = if e.tasks q = [] then 0 else 1) ∧
    (∀ w q, e.worker w = .taken q → e.mutex q = .free → e.tasks q ≠ []) ∧
    (∀ q, e.mutex q = .free → sessionsOf q e.accepted = sessionsOf q e.taken ++ e.tasks q) ∧
    (∀ q c s before, e.mutex q = .decided c s before false → e.tasks q = before) ∧
    (∀ c q s fuel e', e.exec fuel (.malloc c q s false) = some e' → e' = e) ∧
    (∀ q s, e.finished.count (q, s) + e.canceled.count (q, s) ≤ e.accepted.count (q, s)) ∧
    (∀ q s, e.executed.count (q, s) =
      e.finished.count (q, s) + total (WorkerPc.hasExecuted q s) e.worker) ∧
    (∀ op fuel e', op.Internal → e.exec fuel op = some e' → e'.rank < e.rank) ∧
    (e.deinit = .finished ∨ e.Stuck → Settled e) := by
  have hinv := execInv_reachable h
  refine ⟨fun q hfree hcancel => ?_, fun w q hw hfree => hinv.tasks_ne_nil hw hfree,
    fun q hfree => ?_, fun q c s before hmutex => ?_, fun c q s fuel e' hstep => ?_, fun q s => ?_,
    hinv.executed, fun op fuel e' hop hstep => ?_, fun hend => ?_⟩
  · rw [(hinv.queue q).tokens, Executor.due, if_neg hcancel, hfree, Critical.due]
  · have horder := (hinv.queue q).order
    rwa [hfree, Critical.inFlight, List.append_nil] at horder
  · have hlisted := (hinv.queue q).listed
    rw [hmutex] at hlisted
    exact hlisted
  · simp only [Executor.exec] at hstep
    split at hstep
    · exact (Option.some.inj hstep).symm
    · cases hstep
  · have htaken := hinv.taken_le q s
    have hhandled := hinv.handled q s
    omega
  · have hok : e.Orderly op := by
      cases op with
      | malloc _ _ _ _ | terminate => exact hop.elim
      | lock _ | addTail _ | schedule _ _ | unlock _ | take _ | enter _ | rearm _ | leave _
      | execute _ | handle _ | exit _ | joined | pending | cancel | cancelled | destroyed =>
          trivial
    exact hinv.rank_lt (hinv.exec hok hstep) hop hstep
  · rcases hend with hend | hend
    · exact hinv.settled_of_finished hend
    · exact hinv.settled_of_stuck hend

/-- Two requests for one queue and one that fails for another; the first session is executed while
`deinit` begins, and the second one is canceled. -/
def canceledRun : List (ExecutorOp Nat Nat (Fin 2) (Fin 1)) :=
  [.malloc 0 0 10 true, .lock 0, .addTail 0, .schedule 0 true, .unlock 0,
    .malloc 0 0 20 true, .lock 0, .addTail 0, .take 1, .schedule 0 true, .unlock 0,
    .malloc 0 5 30 true, .lock 0, .addTail 5, .enter 1, .schedule 5 false, .rearm 0, .unlock 5,
    .terminate, .leave 0, .exit 0, .execute 1, .handle 1, .exit 1,
    .joined, .pending, .cancel, .cancelled, .destroyed]

theorem executor_invariant_canceled :
    ∃ e : Executor Nat Nat (Fin 2) (Fin 1),
      Reachable (Executor.machine Nat Nat (Fin 2) (Fin 1)) Executor.Orderly e ∧
        e.finished = [(0, 10)] ∧ e.canceled = [(0, 20)] ∧ Settled e := by
  obtain ⟨e, he, hfinished, hcanceled, hend⟩ : ∃ e, runChecked Executor.exec Executor.Orderly 0
      (Executor.create Nat Nat (Fin 2) (Fin 1)) canceledRun = some e ∧
        e.finished = [(0, 10)] ∧ e.canceled = [(0, 20)] ∧ e.deinit = .finished :=
    ⟨_, rfl, rfl, rfl, rfl⟩
  have hreach := runChecked_reachable (.init rfl) he
  obtain ⟨_, _, _, _, _, _, _, _, hsettled⟩ := executor_invariant e hreach
  exact ⟨e, hreach, hfinished, hcanceled, hsettled (.inl hend)⟩

end Workflow.Kernel
