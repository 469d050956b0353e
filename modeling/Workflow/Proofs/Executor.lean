/-
Module: Workflow.Proofs.Executor
Layer: Proofs
Purpose: The queues of the executor in every run. What is due to a queue is a function of where the
  holder of its mutex is: one pool task when the queue is left with something in it. The sessions of
  a queue leave it in the order of their requests, and each is handled once.
Trusted boundary: none
Main exports: Critical.due, ExecInv, ExecInv.exec, execInv_reachable
-/
import Workflow.Kernel.Executor
import Workflow.Lib.Threads
import Mathlib.Data.List.Perm.Subperm

namespace Workflow.Kernel

open Workflow.Lib

/-! ### What a queue is due -/

namespace Critical

variable {κ σ ω γ : Type}

/-- The number of pool tasks for a queue with these tasks. -/
def due [DecidableEq σ] : Critical ω γ σ → List σ → Nat
  | .removed _ _, _ => 0
  | .added _ _ before, _ => if before = [] then 0 else 1
  | .free, tasks | .rearmed _ _, tasks | .entered _ _ _, tasks | .decided _ _ _ _, tasks =>
      if tasks = [] then 0 else 1

/-- The entry on the list whose request may still fail. -/
def inFlight : Critical ω γ σ → List σ
  | .added _ session _ => [session]
  | .free | .removed _ _ | .rearmed _ _ | .entered _ _ _ | .decided _ _ _ _ => []

/-- How often the holder has this session in its hands. -/
def holds [DecidableEq σ] (session : σ) : Critical ω γ σ → Nat
  | .removed _ s | .rearmed _ s => if s = session then 1 else 0
  | .free | .entered _ _ _ | .added _ _ _ | .decided _ _ _ _ => 0

/-- What a request did to the list that it found. -/
def Listed : Critical ω γ σ → List σ → Prop
  | .entered _ _ before, tasks => tasks = before
  | .added _ session before, tasks => tasks = before ++ [session]
  | .decided _ session before ok, tasks => tasks = if ok then before ++ [session] else before
  | .free, _ | .removed _ _, _ | .rearmed _ _, _ => True

/-- The pool thread that holds the mutex. -/
def worker? : Critical ω γ σ → Option ω
  | .removed w _ | .rearmed w _ => some w
  | .free | .entered _ _ _ | .added _ _ _ | .decided _ _ _ _ => none

/-- The caller of `request` that holds the mutex. -/
def client? : Critical ω γ σ → Option γ
  | .entered c _ _ | .added c _ _ | .decided c _ _ _ => some c
  | .free | .removed _ _ | .rearmed _ _ => none

/-- The same thread holds the mutex, with the same session. -/
structure SameHolder [DecidableEq σ] (m m' : Critical ω γ σ) : Prop where
  worker : m.worker? = m'.worker?
  client : m.client? = m'.client?
  holds : ∀ session, m.holds session = m'.holds session

/-- A section that neither a worker nor a request is in is free. -/
theorem eq_free {m : Critical ω γ σ} (hworker : m.worker? = none) (hclient : m.client? = none) :
    m = .free := by
  cases m <;> simp [worker?, client?] at *

end Critical

/-- The sessions of one queue in a log. -/
def sessionsOf {κ σ : Type} [DecidableEq κ] (queue : κ) (log : List (κ × σ)) : List σ :=
  (log.filter fun x => x.1 = queue).map Prod.snd

section Logs

variable {κ σ : Type} [DecidableEq κ] {queue q : κ} {session : σ} {log : List (κ × σ)}

/-- A session goes to the end of its own queue. -/
theorem sessionsOf_append_self :
    sessionsOf queue (log ++ [(queue, session)]) = sessionsOf queue log ++ [session] := by
  simp [sessionsOf]

/-- The sessions of the other queues are not touched. -/
theorem sessionsOf_append_of_ne (h : queue ≠ q) :
    sessionsOf q (log ++ [(queue, session)]) = sessionsOf q log := by
  simp [sessionsOf, h]

/-- A session is counted once for each time that it was put into the queue. -/
theorem count_sessionsOf [DecidableEq σ] (queue : κ) (session : σ) (log : List (κ × σ)) :
    (sessionsOf queue log).count session = log.count (queue, session) := by
  induction log with
  | nil => rfl
  | cons x log ih =>
      obtain ⟨k, s⟩ := x
      rcases eq_or_ne k queue with rfl | hne
      · rw [sessionsOf, List.filter_cons_of_pos (by simp), List.map_cons, List.count_cons]
        rw [sessionsOf] at ih
        rw [ih, List.count_cons]
        simp
      · rw [sessionsOf, List.filter_cons_of_neg (by simpa using hne)]
        rw [sessionsOf] at ih
        rw [ih, List.count_cons_of_ne (by simp [hne])]

end Logs

variable {κ σ ω γ : Type} [DecidableEq κ] [DecidableEq σ] [Fintype ω]

/-- The queue in whose section a worker is. -/
def WorkerPc.inside? : WorkerPc κ σ → Option κ
  | .critical queue => some queue
  | _ => none

/-- The queue in whose section a request is. -/
def RequestPc.inside? : RequestPc κ σ → Option κ
  | .critical queue => some queue
  | _ => none

omit [DecidableEq κ] [DecidableEq σ] in
theorem WorkerPc.inside?_eq_some {pc : WorkerPc κ σ} {queue : κ} :
    pc.inside? = some queue ↔ pc = .critical queue := by
  cases pc <;> simp [WorkerPc.inside?]

omit [DecidableEq κ] [DecidableEq σ] in
theorem RequestPc.inside?_eq_some {pc : RequestPc κ σ} {queue : κ} :
    pc.inside? = some queue ↔ pc = .critical queue := by
  cases pc <;> simp [RequestPc.inside?]

/-- `1` for a worker with a task for this queue in hand. -/
def WorkerPc.takenFor (queue : κ) (pc : WorkerPc κ σ) : Nat := if pc = .taken queue then 1 else 0

/-- `1` for a worker between the section and the end of `handle`. -/
def WorkerPc.holds (queue : κ) (session : σ) (pc : WorkerPc κ σ) : Nat :=
  if pc = .unlocked queue session ∨ pc = .executed queue session then 1 else 0

/-- `1` for a worker between `execute` and `handle`. -/
def WorkerPc.hasExecuted (queue : κ) (session : σ) (pc : WorkerPc κ σ) : Nat :=
  if pc = .executed queue session then 1 else 0

/-- The pool tasks that refer to a queue: still queued, or taken by a worker outside of the
section. -/
def Executor.tokens (e : Executor κ σ ω γ) (queue : κ) : Nat :=
  e.pool.count queue + total (WorkerPc.takenFor queue) e.worker

/-- The pool tasks that a queue is due; while `executor_cancel_tasks` empties it, none. -/
def Executor.due (e : Executor κ σ ω γ) (queue : κ) : Nat :=
  if e.deinit = .cancelling queue then 0 else (e.mutex queue).due (e.tasks queue)

/-- One queue. -/
structure QueueInv (e : Executor κ σ ω γ) (queue : κ) : Prop where
  tokens : e.tokens queue = e.due queue
  order : sessionsOf queue e.accepted ++ (e.mutex queue).inFlight =
    sessionsOf queue e.taken ++ e.tasks queue
  listed : (e.mutex queue).Listed (e.tasks queue)

/-- The whole executor. -/
structure ExecInv (e : Executor κ σ ω γ) : Prop where
  queue : ∀ queue, QueueInv e queue
  worker : Matching (fun queue => (e.mutex queue).worker?) fun w => (e.worker w).inside?
  client : Matching (fun queue => (e.mutex queue).client?) fun c => (e.client c).inside?
  quiet : e.deinit ≠ .running → ∀ c, e.client c = .away
  gone : e.deinit ≠ .running → e.deinit ≠ .waiting → ∀ w, e.worker w = .left
  stays : e.deinit = .running → ∀ w, e.worker w ≠ .left
  ended : e.deinit = .finished → e.pool = []
  handled : ∀ queue session, e.taken.count (queue, session) =
    e.finished.count (queue, session) + e.canceled.count (queue, session) +
      total (WorkerPc.holds queue session) e.worker + (e.mutex queue).holds session
  executed : ∀ queue session, e.executed.count (queue, session) =
    e.finished.count (queue, session) + total (WorkerPc.hasExecuted queue session) e.worker

/-- A new executor. -/
theorem execInv_create : ExecInv (Executor.create κ σ ω γ) where
  queue := fun q => by
    refine ⟨?_, rfl, trivial⟩
    rw [Executor.tokens, total_eq_zero fun _ => by simp [Executor.create, WorkerPc.takenFor]]
    rfl
  worker := by simp [Matching, Executor.create, Critical.worker?, WorkerPc.inside?]
  client := by simp [Matching, Executor.create, Critical.client?, RequestPc.inside?]
  quiet := fun h => absurd rfl h
  gone := fun h => absurd rfl h
  stays := fun _ _ => by simp [Executor.create]
  ended := fun _ => rfl
  handled := fun q s => by
    rw [total_eq_zero fun _ => by simp [Executor.create, WorkerPc.holds]]
    rfl
  executed := fun q s => by
    rw [total_eq_zero fun _ => by simp [Executor.create, WorkerPc.hasExecuted]]
    rfl

/-! ### What a step leaves as it was -/

variable {e e' : Executor κ σ ω γ} {queue q : κ} {session s : σ} {w : ω} {c : γ}

/-- A step that does not touch a queue keeps its invariant. -/
theorem QueueInv.congr (h : QueueInv e q) (htokens : e'.tokens q = e.tokens q)
    (hdeinit : e'.deinit = .cancelling q ↔ e.deinit = .cancelling q)
    (hmutex : e'.mutex q = e.mutex q) (htasks : e'.tasks q = e.tasks q)
    (haccepted : sessionsOf q e'.accepted = sessionsOf q e.accepted)
    (htaken : sessionsOf q e'.taken = sessionsOf q e.taken) : QueueInv e' q where
  tokens := by
    rw [htokens, h.tokens, Executor.due, Executor.due, hmutex, htasks]
    simp only [hdeinit]
  order := by rw [haccepted, htaken, hmutex, htasks, h.order]
  listed := by
    rw [hmutex, htasks]
    exact h.listed

/-- Only before the end of the threads does a thread do anything. -/
theorem ExecInv.active (h : ExecInv e) (hw : e.worker w ≠ .left) :
    e.deinit = .running ∨ e.deinit = .waiting := by
  by_contra hnot
  rw [not_or] at hnot
  exact hw (h.gone hnot.1 hnot.2 w)

/-- While a request is under way, `deinit` has not begun. -/
theorem ExecInv.busy (h : ExecInv e) (hc : e.client c ≠ .away) : e.deinit = .running := by
  by_contra hnot
  exact hc (h.quiet hnot c)

/-- The worker that holds a mutex is in its section. -/
theorem ExecInv.critical_of_worker (h : ExecInv e) (hmutex : (e.mutex queue).worker? = some w) :
    e.worker w = .critical queue :=
  WorkerPc.inside?_eq_some.mp ((h.worker queue w).mp hmutex)

/-- The worker in a section holds its mutex. -/
theorem ExecInv.worker_of_critical (h : ExecInv e) (hw : e.worker w = .critical queue) :
    (e.mutex queue).worker? = some w :=
  (h.worker queue w).mpr (WorkerPc.inside?_eq_some.mpr hw)

/-- The request that holds a mutex is in its section. -/
theorem ExecInv.critical_of_client (h : ExecInv e) (hmutex : (e.mutex queue).client? = some c) :
    e.client c = .critical queue :=
  RequestPc.inside?_eq_some.mp ((h.client queue c).mp hmutex)

omit [DecidableEq κ] [DecidableEq σ] [Fintype ω] in
theorem not_cancelling (h : e.deinit = .running ∨ e.deinit = .waiting) :
    e.deinit ≠ .cancelling q := by
  rcases h with h | h <;> simp [h]

omit [Fintype ω] in
/-- Outside of `executor_cancel_tasks` the mutex alone decides what is due. -/
theorem Executor.due_of_active (h : e.deinit = .running ∨ e.deinit = .waiting) :
    e.due q = (e.mutex q).due (e.tasks q) :=
  if_neg (not_cancelling h)

/-- What is to be shown of a queue before the pool is drained. -/
theorem QueueInv.of_active (h : e.deinit = .running ∨ e.deinit = .waiting)
    (htokens : e.tokens q = (e.mutex q).due (e.tasks q))
    (horder : sessionsOf q e.accepted ++ (e.mutex q).inFlight = sessionsOf q e.taken ++ e.tasks q)
    (hlisted : (e.mutex q).Listed (e.tasks q)) : QueueInv e q :=
  ⟨htokens.trans (Executor.due_of_active h).symm, horder, hlisted⟩

variable [DecidableEq ω]

/-- Only the token of the worker that moves is counted anew. -/
theorem tokens_setWorker (e : Executor κ σ ω γ) (w : ω) (pc : WorkerPc κ σ) (q : κ) :
    (e.setWorker w pc).tokens q + (e.worker w).takenFor q = e.tokens q + pc.takenFor q := by
  have htotal := total_update (WorkerPc.takenFor q) e.worker w pc
  simp only [Executor.tokens, Executor.setWorker]
  omega

omit [DecidableEq κ] [DecidableEq σ] [Fintype ω] in
/-- Only the thread that moves changes its section. -/
theorem inside_update {τ α : Type} [DecidableEq τ] (inside? : α → Option κ) (place : τ → α) (t : τ)
    (pc : α) : (fun v => inside? (Function.update place t pc v)) =
      Function.update (fun v => inside? (place v)) t (inside? pc) :=
  funext fun v => Function.apply_update (fun _ => inside?) place t pc v

omit [DecidableEq κ] [DecidableEq σ] [Fintype ω] in
/-- The worker stays outside of every section. -/
theorem matching_setWorker {pc : WorkerPc κ σ}
    (h : Matching (fun q => (e.mutex q).worker?) fun v => (e.worker v).inside?)
    (hpc : pc.inside? = (e.worker w).inside?) :
    Matching (fun q => (e.mutex q).worker?) fun v => ((e.setWorker w pc).worker v).inside? := by
  show Matching _ fun v => (Function.update e.worker w pc v).inside?
  rw [inside_update, hpc, Function.update_eq_self]
  exact h

omit [DecidableEq κ] [DecidableEq σ] [Fintype ω] [DecidableEq ω] in
/-- A worker at `w` is not gone, nor is it afterwards. -/
theorem ExecInv.gone_of_active (h : e.deinit = .running ∨ e.deinit = .waiting) {P : Prop}
    (hrunning : e.deinit ≠ .running) (hwaiting : e.deinit ≠ .waiting) : P :=
  absurd h (not_or.mpr ⟨hrunning, hwaiting⟩)

omit [DecidableEq κ] [DecidableEq σ] [Fintype ω] in
theorem stays_setWorker {pc : WorkerPc κ σ} {P : Prop} (h : P → ∀ v, e.worker v ≠ .left)
    (hpc : pc ≠ .left) (hp : P) (v : ω) : (e.setWorker w pc).worker v ≠ .left := by
  rcases eq_or_ne v w with rfl | hne
  · simpa [Executor.setWorker] using hpc
  · simpa [Executor.setWorker, hne] using h hp v

/-! ### The workers outside of the sections -/

/-- An idle worker takes an entry from the pool. -/
theorem ExecInv.take {rest : List κ} (h : ExecInv e) (hw : e.worker w = .idle)
    (hdeinit : e.deinit = .running) (hpool : e.pool = queue :: rest) :
    ExecInv ({ e with pool := rest }.setWorker w (.taken queue)) where
  queue := by
    intro q
    refine (h.queue q).congr ?_ Iff.rfl rfl rfl rfl rfl
    have htokens := tokens_setWorker { e with pool := rest } w (.taken queue) q
    simp only [Executor.tokens, hpool, List.count_cons, hw, WorkerPc.takenFor] at htokens ⊢
    simp only [reduceCtorEq, if_false, WorkerPc.taken.injEq, beq_iff_eq] at htokens ⊢
    omega
  worker := matching_setWorker h.worker (by rw [hw]; rfl)
  client := h.client
  quiet := h.quiet
  gone := fun hrunning => absurd hdeinit hrunning
  stays := stays_setWorker h.stays (by simp)
  ended := fun hended => by simp [Executor.setWorker, hdeinit] at hended
  handled := by
    intro q s
    refine (h.handled q s).trans (congrArg₂ _ (congrArg _ (total_update_eq ?_).symm) rfl)
    simp [hw, WorkerPc.holds]
  executed := by
    intro q s
    refine (h.executed q s).trans (congrArg _ (total_update_eq ?_).symm)
    simp [hw, WorkerPc.hasExecuted]

/-- The session is run. -/
theorem ExecInv.execute (h : ExecInv e) (hw : e.worker w = .unlocked queue session) :
    ExecInv ({ e with executed := e.executed ++ [(queue, session)] }.setWorker w
      (.executed queue session)) where
  queue := by
    intro q
    refine (h.queue q).congr ?_ Iff.rfl rfl rfl rfl rfl
    refine congrArg _ (total_update_eq ?_)
    simp [hw, WorkerPc.takenFor]
  worker := matching_setWorker h.worker (by rw [hw]; rfl)
  client := h.client
  quiet := h.quiet
  gone := ExecInv.gone_of_active (h.active (show e.worker w ≠ .left by simp [hw]))
  stays := stays_setWorker h.stays (by simp)
  ended := h.ended
  handled := by
    intro q s
    refine (h.handled q s).trans (congrArg₂ _ (congrArg _ (total_update_eq ?_).symm) rfl)
    simp [hw, WorkerPc.holds]
  executed := by
    intro q s
    have hold := h.executed q s
    have htotal := total_update (WorkerPc.hasExecuted q s) e.worker w (.executed queue session)
    simp only [hw, WorkerPc.hasExecuted, reduceCtorEq, if_false, WorkerPc.executed.injEq] at htotal
    simp only [Executor.setWorker, List.count_append, List.count_singleton, beq_iff_eq,
      Prod.mk.injEq]
    omega

/-- The session is handed back. -/
theorem ExecInv.handle (h : ExecInv e) (hw : e.worker w = .executed queue session) :
    ExecInv ({ e with finished := e.finished ++ [(queue, session)] }.setWorker w .idle) where
  queue := by
    intro q
    refine (h.queue q).congr ?_ Iff.rfl rfl rfl rfl rfl
    refine congrArg _ (total_update_eq ?_)
    simp [hw, WorkerPc.takenFor]
  worker := matching_setWorker h.worker (by rw [hw]; rfl)
  client := h.client
  quiet := h.quiet
  gone := ExecInv.gone_of_active (h.active (show e.worker w ≠ .left by simp [hw]))
  stays := stays_setWorker h.stays (by simp)
  ended := h.ended
  handled := by
    intro q s
    have hold := h.handled q s
    have htotal := total_update (WorkerPc.holds q s) e.worker w .idle
    simp only [hw, WorkerPc.holds, reduceCtorEq, or_self, if_false, false_or,
      WorkerPc.executed.injEq] at htotal
    simp only [Executor.setWorker, List.count_append, List.count_singleton, beq_iff_eq,
      Prod.mk.injEq]
    omega
  executed := by
    intro q s
    have hold := h.executed q s
    have htotal := total_update (WorkerPc.hasExecuted q s) e.worker w .idle
    simp only [hw, WorkerPc.hasExecuted, reduceCtorEq, if_false, WorkerPc.executed.injEq] at htotal
    simp only [Executor.setWorker, List.count_append, List.count_singleton, beq_iff_eq,
      Prod.mk.injEq]
    omega

/-- An idle worker leaves when the pool is terminated. -/
theorem ExecInv.exit (h : ExecInv e) (hw : e.worker w = .idle) (hdeinit : e.deinit ≠ .running) :
    ExecInv (e.setWorker w .left) where
  queue := by
    intro q
    refine (h.queue q).congr ?_ Iff.rfl rfl rfl rfl rfl
    refine congrArg _ (total_update_eq ?_)
    simp [hw, WorkerPc.takenFor]
  worker := matching_setWorker h.worker (by rw [hw]; rfl)
  client := h.client
  quiet := h.quiet
  gone := ExecInv.gone_of_active (h.active (show e.worker w ≠ .left by simp [hw]))
  stays := fun hrunning => absurd hrunning hdeinit
  ended := h.ended
  handled := by
    intro q s
    refine (h.handled q s).trans (congrArg₂ _ (congrArg _ (total_update_eq ?_).symm) rfl)
    simp [hw, WorkerPc.holds]
  executed := by
    intro q s
    refine (h.executed q s).trans (congrArg _ (total_update_eq ?_).symm)
    simp [hw, WorkerPc.hasExecuted]

/-! ### The sections -/

section Sections

omit [DecidableEq σ] [Fintype ω] [DecidableEq ω]

theorem worker?_update (mutex : κ → Critical ω γ σ) (queue : κ) (m : Critical ω γ σ) :
    (fun q => (Function.update mutex queue m q).worker?) =
      Function.update (fun q => (mutex q).worker?) queue m.worker? :=
  funext fun q => Function.apply_update (fun _ => Critical.worker?) mutex queue m q

theorem client?_update (mutex : κ → Critical ω γ σ) (queue : κ) (m : Critical ω γ σ) :
    (fun q => (Function.update mutex queue m q).client?) =
      Function.update (fun q => (mutex q).client?) queue m.client? :=
  funext fun q => Function.apply_update (fun _ => Critical.client?) mutex queue m q

end Sections

omit [DecidableEq ω] in
/-- The holder of the mutex goes on in its section. -/
theorem ExecInv.setQueue {pool : List κ} {accepted : List (κ × σ)} {tasks : List σ}
    {m : Critical ω γ σ} (h : ExecInv e) (hactive : e.deinit = .running ∨ e.deinit = .waiting)
    (hsame : m.SameHolder (e.mutex queue))
    (hpool : ∀ q ≠ queue, pool.count q = e.pool.count q)
    (haccepted : ∀ q ≠ queue, sessionsOf q accepted = sessionsOf q e.accepted)
    (htokens : pool.count queue + total (WorkerPc.takenFor queue) e.worker = m.due tasks)
    (horder : sessionsOf queue accepted ++ m.inFlight = sessionsOf queue e.taken ++ tasks)
    (hlisted : m.Listed tasks) :
    ExecInv ({ e with pool := pool, accepted := accepted }.setQueue queue tasks m) where
  queue := by
    intro q
    rcases eq_or_ne q queue with rfl | hne
    · refine QueueInv.of_active hactive ?_ ?_ ?_
      · simpa [Executor.setQueue, Executor.tokens] using htokens
      · simpa [Executor.setQueue] using horder
      · simpa [Executor.setQueue] using hlisted
    · refine (h.queue q).congr ?_ Iff.rfl ?_ ?_ (haccepted q hne) rfl
      · exact congrArg (· + total (WorkerPc.takenFor q) e.worker) (hpool q hne)
      · simp [Executor.setQueue, hne]
      · simp [Executor.setQueue, hne]
  worker := by
    show Matching (fun q => (Function.update e.mutex queue m q).worker?) _
    rw [worker?_update, hsame.worker, Function.update_eq_self]
    exact h.worker
  client := by
    show Matching (fun q => (Function.update e.mutex queue m q).client?) _
    rw [client?_update, hsame.client, Function.update_eq_self]
    exact h.client
  quiet := h.quiet
  gone := h.gone
  stays := h.stays
  ended := fun hended => by
    rcases hactive with hdeinit | hdeinit <;> simp [Executor.setQueue, hdeinit] at hended
  handled := by
    intro q s
    rcases eq_or_ne q queue with rfl | hne
    · simpa [Executor.setQueue, hsame.holds s] using h.handled q s
    · simpa [Executor.setQueue, hne] using h.handled q s
  executed := h.executed

omit [DecidableEq ω] in
/-- The worker puts its entry back into the pool for the sessions that are left. -/
theorem ExecInv.rearm (h : ExecInv e) (hstep : e.rearm queue = some e') : ExecInv e' := by
  unfold Executor.rearm at hstep
  split at hstep
  · rename_i w session hmutex
    have hactive := h.active (w := w) (by simp [h.critical_of_worker (by rw [hmutex]; rfl)])
    obtain ⟨htokens, horder, -⟩ := h.queue queue
    rw [Executor.due_of_active hactive, hmutex] at htokens
    rw [hmutex] at horder
    change e.tokens queue = 0 at htokens
    unfold Executor.tokens at htokens
    have hstep' := Option.some.inj hstep
    by_cases hempty : e.tasks queue = []
    · rw [if_pos hempty] at hstep'
      subst hstep'
      refine h.setQueue hactive ?_ (fun _ _ => rfl) (fun _ _ => rfl) ?_ horder trivial
      · rw [hmutex]
        exact ⟨rfl, rfl, fun _ => rfl⟩
      · rw [htokens]
        exact (if_pos hempty).symm
    · rw [if_neg hempty] at hstep'
      subst hstep'
      refine h.setQueue hactive ?_ (fun q hne => ?_) (fun _ _ => rfl) ?_ horder trivial
      · rw [hmutex]
        exact ⟨rfl, rfl, fun _ => rfl⟩
      · simp [hne.symm]
      · rw [List.count_append, List.count_singleton_self, Critical.due, if_neg hempty]
        omega
  · cases hstep

omit [DecidableEq ω] in
/-- A request appends its session. -/
theorem ExecInv.addTail (h : ExecInv e) (hstep : e.addTail queue = some e') : ExecInv e' := by
  unfold Executor.addTail at hstep
  split at hstep
  · rename_i c session before hmutex
    have hactive := h.busy (c := c) (by simp [h.critical_of_client (by rw [hmutex]; rfl)])
    obtain ⟨htokens, horder, hlisted⟩ := h.queue queue
    rw [Executor.due_of_active (.inl hactive), hmutex] at htokens
    rw [hmutex] at horder hlisted
    obtain rfl : e.tasks queue = before := hlisted
    obtain rfl := Option.some.inj hstep
    refine h.setQueue (.inl hactive) ?_ (fun _ _ => rfl) (fun _ _ => rfl) ?_ ?_ rfl
    · rw [hmutex]
      exact ⟨rfl, rfl, fun _ => rfl⟩
    · exact htokens
    · rw [Critical.inFlight, List.append_nil] at horder
      rw [horder, Critical.inFlight, List.append_assoc]
  · cases hstep

omit [DecidableEq ω] in
/-- The first session of a queue brings it into the pool, or is taken back. -/
theorem ExecInv.schedule {ok : Bool} (h : ExecInv e) (hstep : e.schedule queue ok = some e') :
    ExecInv e' := by
  unfold Executor.schedule at hstep
  split at hstep
  · rename_i c session before hmutex
    have hactive := h.busy (c := c) (by simp [h.critical_of_client (by rw [hmutex]; rfl)])
    obtain ⟨htokens, horder, hlisted⟩ := h.queue queue
    rw [Executor.due_of_active (.inl hactive), hmutex] at htokens
    rw [hmutex] at horder hlisted
    change sessionsOf queue e.accepted ++ [session] = _ at horder
    have hlist : e.tasks queue = before ++ [session] := hlisted
    have hlength : (e.tasks queue).length = 1 ↔ before = [] := by
      rw [hlist]
      simp
    dsimp only at hstep
    by_cases hfirst : before = []
    · rw [if_pos (hlength.mpr hfirst)] at hstep
      have hzero : e.tokens queue = 0 := htokens.trans (if_pos hfirst)
      unfold Executor.tokens at hzero
      cases ok with
      | true =>
          obtain rfl := Option.some.inj hstep
          refine h.setQueue (.inl hactive) ?_ (fun q hne => ?_) (fun q hne => ?_) ?_ ?_ hlist
          · rw [hmutex]
            exact ⟨rfl, rfl, fun _ => rfl⟩
          · simp [hne.symm]
          · exact sessionsOf_append_of_ne hne.symm
          · rw [List.count_append, List.count_singleton_self, Critical.due,
              if_neg (by simp [hlist])]
            omega
          · rw [sessionsOf_append_self, Critical.inFlight, List.append_nil, horder]
      | false =>
          obtain rfl := Option.some.inj hstep
          refine h.setQueue (.inl hactive) ?_ (fun _ _ => rfl) (fun _ _ => rfl) ?_ ?_ ?_
          · rw [hmutex]
            exact ⟨rfl, rfl, fun _ => rfl⟩
          · rw [hzero]
            exact (if_pos (by simp [hlist, hfirst])).symm
          · rw [hlist, ← List.append_assoc] at horder
            rw [hlist, List.dropLast_concat, Critical.inFlight, List.append_nil]
            exact List.append_cancel_right horder
          · exact hlist ▸ List.dropLast_concat
    · rw [if_neg (fun hone => hfirst (hlength.mp hone))] at hstep
      obtain rfl := Option.some.inj hstep
      refine h.setQueue (.inl hactive) ?_ (fun _ _ => rfl) (fun q hne => ?_) ?_ ?_ hlist
      · rw [hmutex]
        exact ⟨rfl, rfl, fun _ => rfl⟩
      · exact sessionsOf_append_of_ne hne.symm
      · exact htokens.trans ((if_neg hfirst).trans (if_neg (by simp [hlist])).symm)
      · rw [sessionsOf_append_self, Critical.inFlight, List.append_nil, horder]
  · cases hstep

omit [DecidableEq ω] in
/-- A worker that has a task for a queue finds something in it. -/
theorem ExecInv.tasks_ne_nil (h : ExecInv e) (hw : e.worker w = .taken queue)
    (hmutex : e.mutex queue = .free) : e.tasks queue ≠ [] := by
  intro hempty
  have htokens := (h.queue queue).tokens
  rw [Executor.due_of_active (h.active (show e.worker w ≠ .left by simp [hw])), hmutex, hempty,
    Critical.due, if_pos rfl, Executor.tokens] at htokens
  have hle := le_total (WorkerPc.takenFor queue) e.worker w
  rw [hw, WorkerPc.takenFor, if_pos rfl] at hle
  omega

/-- A worker takes the first session of its queue. -/
theorem ExecInv.enter (h : ExecInv e) (hstep : e.enter w = some e') : ExecInv e' := by
  unfold Executor.enter at hstep
  split at hstep
  · rename_i queue hw
    split at hstep
    · rename_i session rest hmutex htasks
      have hactive := h.active (show e.worker w ≠ .left by simp [hw])
      obtain ⟨htokens, horder, -⟩ := h.queue queue
      rw [Executor.due_of_active hactive, hmutex, htasks] at htokens
      rw [hmutex, Critical.inFlight, List.append_nil, htasks] at horder
      change e.tokens queue = 1 at htokens
      obtain rfl := Option.some.inj hstep
      have hmoved : ∀ q, (e.setWorker w (.critical queue)).tokens q + (e.worker w).takenFor q =
          e.tokens q := tokens_setWorker e w (.critical queue)
      refine ⟨fun q => ?_, ?_, ?_, h.quiet, ExecInv.gone_of_active hactive,
        stays_setWorker h.stays (by simp), ?_, fun q s => ?_, fun q s => ?_⟩
      · have htaken := hmoved q
        rw [hw, WorkerPc.takenFor] at htaken
        rcases eq_or_ne q queue with rfl | hne
        · rw [if_pos rfl, htokens] at htaken
          refine QueueInv.of_active hactive ?_ ?_ ?_
          · simpa [Executor.setQueue, Executor.setWorker, Executor.tokens, Critical.due] using htaken
          · simp only [Executor.setQueue, Executor.setWorker, Function.update_self,
              sessionsOf_append_self, Critical.inFlight, List.append_nil, horder,
              List.append_assoc, List.singleton_append]
          · simp [Executor.setQueue, Executor.setWorker, Critical.Listed]
        · rw [if_neg (by simp [hne.symm])] at htaken
          refine (h.queue q).congr htaken Iff.rfl ?_ ?_ rfl (sessionsOf_append_of_ne hne.symm)
          · simp [Executor.setQueue, Executor.setWorker, hne]
          · simp [Executor.setQueue, Executor.setWorker, hne]
      · show Matching (fun q => (Function.update e.mutex queue (.removed w session) q).worker?)
          fun v => (Function.update e.worker w (.critical queue) v).inside?
        rw [worker?_update, inside_update]
        exact h.worker.acquire (by rw [hmutex]; rfl) (by rw [hw]; rfl)
      · show Matching (fun q => (Function.update e.mutex queue (.removed w session) q).client?) _
        rw [client?_update, show (Critical.removed w session : Critical ω γ σ).client? =
          (e.mutex queue).client? by rw [hmutex]; rfl, Function.update_eq_self]
        exact h.client
      · intro hended
        rcases hactive with hdeinit | hdeinit <;>
          simp [Executor.setQueue, Executor.setWorker, hdeinit] at hended
      · have hold := h.handled q s
        have htotal := total_update (WorkerPc.holds q s) e.worker w (.critical queue)
        simp only [hw, WorkerPc.holds, reduceCtorEq, or_self, if_false, Nat.add_zero] at htotal
        rcases eq_or_ne q queue with rfl | hne
        · rw [hmutex, Critical.holds] at hold
          simp only [Executor.setQueue, Executor.setWorker, Function.update_self, htotal,
            List.count_append, List.count_singleton, beq_iff_eq, Prod.mk.injEq, true_and,
            Critical.holds]
          omega
        · simp only [Executor.setQueue, Executor.setWorker, Function.update_of_ne hne, htotal,
            List.count_append, List.count_singleton, beq_iff_eq, Prod.mk.injEq, hne.symm,
            false_and, if_false]
          omega
      · refine (h.executed q s).trans (congrArg _ (total_update_eq ?_).symm)
        simp [hw, WorkerPc.hasExecuted]
    · cases hstep
  · cases hstep

/-- The worker unlocks the queue. -/
theorem ExecInv.leave (h : ExecInv e) (hmutex : e.mutex queue = .rearmed w session) :
    ExecInv ((e.setQueue queue (e.tasks queue) .free).setWorker w (.unlocked queue session)) := by
  have howner : (e.mutex queue).worker? = some w := by
    rw [hmutex]
    rfl
  have hw := h.critical_of_worker howner
  have hactive := h.active (show e.worker w ≠ .left by simp [hw])
  have hmoved : ∀ q, (e.setWorker w (.unlocked queue session)).tokens q = e.tokens q := by
    intro q
    refine congrArg _ (total_update_eq ?_)
    simp [hw, WorkerPc.takenFor]
  refine ⟨fun q => ?_, ?_, ?_, h.quiet, ExecInv.gone_of_active hactive,
    stays_setWorker h.stays (by simp), ?_, fun q s => ?_, fun q s => ?_⟩
  · rcases eq_or_ne q queue with rfl | hne
    · obtain ⟨htokens, horder, -⟩ := h.queue q
      rw [Executor.due_of_active hactive, hmutex] at htokens
      rw [hmutex] at horder
      refine QueueInv.of_active hactive ?_ ?_ ?_
      · simpa [Executor.setQueue, Executor.setWorker, Executor.tokens, Critical.due] using
          (hmoved q).trans htokens
      · simpa [Executor.setQueue, Executor.setWorker, Critical.inFlight] using horder
      · simp [Executor.setQueue, Executor.setWorker, Critical.Listed]
    · refine (h.queue q).congr (hmoved q) Iff.rfl ?_ ?_ rfl rfl
      · simp [Executor.setQueue, Executor.setWorker, hne]
      · simp [Executor.setQueue, Executor.setWorker]
  · show Matching (fun q => (Function.update e.mutex queue .free q).worker?)
      fun v => (Function.update e.worker w (.unlocked queue session) v).inside?
    rw [worker?_update, inside_update]
    exact h.worker.release howner
  · show Matching (fun q => (Function.update e.mutex queue .free q).client?) _
    rw [client?_update, show (Critical.free : Critical ω γ σ).client? = (e.mutex queue).client? by
      rw [hmutex]; rfl, Function.update_eq_self]
    exact h.client
  · intro hended
    rcases hactive with hdeinit | hdeinit <;>
      simp [Executor.setQueue, Executor.setWorker, hdeinit] at hended
  · have hold := h.handled q s
    have htotal := total_update (WorkerPc.holds q s) e.worker w (.unlocked queue session)
    simp only [hw, WorkerPc.holds, reduceCtorEq, or_self, or_false, if_false, Nat.add_zero,
      WorkerPc.unlocked.injEq] at htotal
    rcases eq_or_ne q queue with rfl | hne
    · rw [hmutex, Critical.holds] at hold
      simp only [Executor.setQueue, Executor.setWorker, Function.update_self, htotal, true_and,
        Critical.holds]
      omega
    · simp only [Executor.setQueue, Executor.setWorker, Function.update_of_ne hne, htotal,
        hne.symm, false_and, if_false]
      omega
  · refine (h.executed q s).trans (congrArg _ (total_update_eq ?_).symm)
    simp [hw, WorkerPc.hasExecuted]

/-! ### The requests -/

section Requests

variable [DecidableEq γ]

omit [DecidableEq ω] in
/-- The section that a request holds is entered or left; the queue stays as it is. -/
theorem ExecInv.setClient {m : Critical ω γ σ} {pc : RequestPc κ σ} (h : ExecInv e)
    (hrunning : e.deinit = .running) (hworker : m.worker? = (e.mutex queue).worker?)
    (hholds : ∀ s, m.holds s = (e.mutex queue).holds s)
    (hmatching : Matching (Function.update (fun q => (e.mutex q).client?) queue m.client?)
      (Function.update (fun d => (e.client d).inside?) c pc.inside?))
    (hdue : m.due (e.tasks queue) = (e.mutex queue).due (e.tasks queue))
    (hinFlight : m.inFlight = (e.mutex queue).inFlight) (hlisted : m.Listed (e.tasks queue)) :
    ExecInv ((e.setQueue queue (e.tasks queue) m).setClient c pc) where
  queue := by
    intro q
    rcases eq_or_ne q queue with rfl | hne
    · obtain ⟨htokens, horder, -⟩ := h.queue q
      rw [Executor.due_of_active (.inl hrunning)] at htokens
      refine QueueInv.of_active (.inl hrunning) ?_ ?_ ?_
      · simpa [Executor.setQueue, Executor.setClient, Executor.tokens, hdue] using htokens
      · simpa [Executor.setQueue, Executor.setClient, hinFlight] using horder
      · simpa [Executor.setQueue, Executor.setClient] using hlisted
    · refine (h.queue q).congr rfl Iff.rfl ?_ ?_ rfl rfl
      · simp [Executor.setQueue, Executor.setClient, hne]
      · simp [Executor.setQueue, Executor.setClient]
  worker := by
    show Matching (fun q => (Function.update e.mutex queue m q).worker?) _
    rw [worker?_update, hworker, Function.update_eq_self]
    exact h.worker
  client := by
    show Matching (fun q => (Function.update e.mutex queue m q).client?)
      fun d => (Function.update e.client c pc d).inside?
    rw [client?_update, inside_update]
    exact hmatching
  quiet := fun hnot => absurd hrunning hnot
  gone := h.gone
  stays := h.stays
  ended := h.ended
  handled := by
    intro q s
    rcases eq_or_ne q queue with rfl | hne
    · simpa [Executor.setQueue, Executor.setClient, hholds s] using h.handled q s
    · simpa [Executor.setQueue, Executor.setClient, hne] using h.handled q s
  executed := h.executed

omit [DecidableEq ω] in
/-- A request begins. -/
theorem ExecInv.malloc (h : ExecInv e) (hrunning : e.deinit = .running)
    (hc : e.client c = .away) : ExecInv (e.setClient c (.allocated queue session)) where
  queue := fun q => (h.queue q).congr rfl Iff.rfl rfl rfl rfl rfl
  worker := h.worker
  client := by
    show Matching _ fun d => (Function.update e.client c (.allocated queue session) d).inside?
    rw [inside_update, show (RequestPc.allocated queue session).inside? =
      (e.client c).inside? by rw [hc]; rfl, Function.update_eq_self]
    exact h.client
  quiet := fun hnot => absurd hrunning hnot
  gone := h.gone
  stays := h.stays
  ended := h.ended
  handled := h.handled
  executed := h.executed

omit [DecidableEq ω] in
/-- A request locks its queue. -/
theorem ExecInv.lock (h : ExecInv e) (hc : e.client c = .allocated queue session)
    (hmutex : e.mutex queue = .free) :
    ExecInv ((e.setQueue queue (e.tasks queue) (.entered c session (e.tasks queue))).setClient c
      (.critical queue)) := by
  refine h.setClient (h.busy (show e.client c ≠ .away by simp [hc])) ?_ ?_ ?_ ?_ ?_ rfl
  · rw [hmutex]
    rfl
  · rw [hmutex]
    exact fun _ => rfl
  · exact h.client.acquire (by rw [hmutex]; rfl) (by rw [hc]; rfl)
  · rw [hmutex]
    rfl
  · rw [hmutex]
    rfl

omit [DecidableEq ω] in
/-- A request unlocks its queue. -/
theorem ExecInv.unlock {before : List σ} {ok : Bool} (h : ExecInv e)
    (hmutex : e.mutex queue = .decided c session before ok) :
    ExecInv ((e.setQueue queue (e.tasks queue) .free).setClient c .away) := by
  have howner : (e.mutex queue).client? = some c := by
    rw [hmutex]
    rfl
  have hc := h.critical_of_client howner
  refine h.setClient (h.busy (show e.client c ≠ .away by simp [hc])) ?_ ?_ ?_ ?_ ?_ trivial
  · rw [hmutex]
    rfl
  · rw [hmutex]
    exact fun _ => rfl
  · exact h.client.release howner
  · rw [hmutex]
    rfl
  · rw [hmutex]
    rfl

end Requests

/-! ### The end -/

omit [DecidableEq ω] in
/-- Nobody is in a section any more. -/
theorem ExecInv.mutex_free (h : ExecInv e) (hgone : ∀ w, e.worker w = .left)
    (hquiet : ∀ c, e.client c = .away) (q : κ) : e.mutex q = .free := by
  refine Critical.eq_free ?_ ?_
  · cases hw : (e.mutex q).worker? with
    | none => rfl
    | some w => exact absurd (h.critical_of_worker hw) (by simp [hgone w])
  · cases hc : (e.mutex q).client? with
    | none => rfl
    | some c => exact absurd (h.critical_of_client hc) (by simp [hquiet c])

omit [DecidableEq ω] in
/-- `deinit` goes on and touches no queue. -/
theorem ExecInv.setDeinit {pool : List κ} {deinit : DeinitPc κ} (h : ExecInv e)
    (hqueue : ∀ q, QueueInv { e with pool := pool, deinit := deinit } q)
    (hdeinit : deinit ≠ .running) (hquiet : ∀ c, e.client c = .away)
    (hgone : deinit ≠ .waiting → ∀ w, e.worker w = .left)
    (hended : deinit = .finished → pool = []) :
    ExecInv { e with pool := pool, deinit := deinit } :=
  ⟨hqueue, h.worker, h.client, fun _ => hquiet, fun _ => hgone,
    fun hrunning => absurd hrunning hdeinit, hended, h.handled, h.executed⟩

omit [DecidableEq ω] in
/-- `thrdpool_destroy` begins when no request is under way. -/
theorem ExecInv.terminate (h : ExecInv e) (hdeinit : e.deinit = .running)
    (hquiet : ∀ c, e.client c = .away) : ExecInv { e with deinit := .waiting } := by
  refine h.setDeinit (fun q => ?_) (by simp) hquiet (fun hne => absurd rfl hne)
    (fun hended => by cases hended)
  exact (h.queue q).congr rfl (by simp [hdeinit]) rfl rfl rfl rfl

omit [DecidableEq ω] in
/-- All workers have left. -/
theorem ExecInv.joined (h : ExecInv e) (hdeinit : e.deinit = .waiting)
    (hgone : ∀ w, e.worker w = .left) : ExecInv { e with deinit := .draining } := by
  refine h.setDeinit (fun q => ?_) (by simp) (h.quiet (by simp [hdeinit])) (fun _ => hgone)
    (fun hended => by cases hended)
  exact (h.queue q).congr rfl (by simp [hdeinit]) rfl rfl rfl rfl

omit [DecidableEq ω] in
/-- All that is still due is in the pool. -/
theorem ExecInv.tokens_of_gone (h : ExecInv e) (hgone : ∀ w, e.worker w = .left) (q : κ) :
    e.pool.count q = e.due q := by
  rw [← (h.queue q).tokens, Executor.tokens, total_eq_zero, Nat.add_zero]
  intro w
  rw [hgone w]
  rfl

omit [DecidableEq ω] in
/-- The next entry that was never taken is cancelled. -/
theorem ExecInv.pending {rest : List κ} (h : ExecInv e) (hdeinit : e.deinit = .draining)
    (hpool : e.pool = queue :: rest) :
    ExecInv { e with pool := rest, deinit := .cancelling queue } := by
  have hquiet := h.quiet (by simp [hdeinit])
  have hgone := h.gone (by simp [hdeinit]) (by simp [hdeinit])
  refine h.setDeinit (fun q => ?_) (by simp) hquiet (fun _ => hgone)
    (fun hended => by cases hended)
  have hcount := h.tokens_of_gone hgone q
  have hfree := h.mutex_free hgone hquiet q
  rw [Executor.due, hdeinit, if_neg (by simp), hfree, Critical.due, hpool, List.count_cons] at hcount
  have hle : (if e.tasks q = [] then 0 else 1) ≤ 1 := by split <;> decide
  have hnobody : total (WorkerPc.takenFor q) e.worker = 0 :=
    total_eq_zero fun w => by simp [hgone w, WorkerPc.takenFor]
  refine ⟨?_, (h.queue q).order, (h.queue q).listed⟩
  rw [Executor.tokens, Executor.due, hnobody, hfree, Critical.due]
  show rest.count q + 0 = _
  rcases eq_or_ne q queue with rfl | hne
  · rw [if_pos (by simp)] at hcount
    rw [if_pos rfl]
    omega
  · rw [if_neg (by simp [hne.symm])] at hcount
    rw [if_neg (by simp [hne.symm])]
    exact hcount

omit [DecidableEq ω] in
/-- A session of it is handed back as cancelled. -/
theorem ExecInv.cancel (h : ExecInv e) (hstep : e.cancel = some e') : ExecInv e' := by
  unfold Executor.cancel at hstep
  split at hstep
  · rename_i queue hdeinit
    have hquiet := h.quiet (by simp [hdeinit])
    have hgone := h.gone (by simp [hdeinit]) (by simp [hdeinit])
    have hfree := h.mutex_free hgone hquiet queue
    split at hstep
    · rename_i session rest htasks
      obtain rfl := Option.some.inj hstep
      have hsame : (e.setQueue queue rest (e.mutex queue)).mutex = e.mutex :=
        Function.update_eq_self queue e.mutex
      obtain ⟨htokens, horder, hlisted⟩ := h.queue queue
      refine ⟨fun q => ?_, ?_, ?_, h.quiet, h.gone, h.stays, ?_, fun q s => ?_, h.executed⟩
      · rcases eq_or_ne q queue with rfl | hne
        · refine ⟨?_, ?_, ?_⟩
          · rw [Executor.due, if_pos hdeinit] at htokens
            exact htokens.trans (if_pos hdeinit).symm
          · rw [hfree, htasks] at horder
            simp only [Executor.setQueue, Function.update_self, hfree, Critical.inFlight,
              List.append_nil, sessionsOf_append_self] at horder ⊢
            rw [horder, List.append_assoc, List.singleton_append]
          · simp [Executor.setQueue, hfree, Critical.Listed]
        · refine (h.queue q).congr rfl Iff.rfl (congrFun hsame q) ?_ rfl
            (sessionsOf_append_of_ne hne.symm)
          simp [Executor.setQueue, hne]
      · show Matching (fun q => ((e.setQueue queue rest (e.mutex queue)).mutex q).worker?) _
        rw [hsame]
        exact h.worker
      · show Matching (fun q => ((e.setQueue queue rest (e.mutex queue)).mutex q).client?) _
        rw [hsame]
        exact h.client
      · intro hended
        cases hdeinit.symm.trans hended
      · have hold := h.handled q s
        simp only [Executor.setQueue, Function.update_eq_self, List.count_append]
        omega
    · cases hstep
  · cases hstep

omit [DecidableEq ω] in
/-- All its sessions have been. -/
theorem ExecInv.cancelled (h : ExecInv e) (hdeinit : e.deinit = .cancelling queue)
    (hempty : e.tasks queue = []) : ExecInv { e with deinit := .draining } := by
  have hquiet := h.quiet (by simp [hdeinit])
  have hgone := h.gone (by simp [hdeinit]) (by simp [hdeinit])
  refine h.setDeinit (fun q => ?_) (by simp) hquiet (fun _ => hgone)
    (fun hended => by cases hended)
  rcases eq_or_ne q queue with rfl | hne
  · obtain ⟨htokens, horder, hlisted⟩ := h.queue q
    refine ⟨?_, horder, hlisted⟩
    rw [Executor.due, if_pos hdeinit] at htokens
    rw [Executor.due, if_neg (by simp), hempty, h.mutex_free hgone hquiet]
    exact htokens
  · exact (h.queue q).congr rfl (by simp [hdeinit, hne.symm]) rfl rfl rfl rfl

omit [DecidableEq ω] in
/-- The pool is empty. -/
theorem ExecInv.destroyed (h : ExecInv e) (hdeinit : e.deinit = .draining) (hpool : e.pool = []) :
    ExecInv { e with deinit := .finished } := by
  refine h.setDeinit (fun q => ?_) (by simp) (h.quiet (by simp [hdeinit]))
    (fun _ => h.gone (by simp [hdeinit]) (by simp [hdeinit])) (fun _ => hpool)
  exact (h.queue q).congr rfl (by simp [hdeinit]) rfl rfl rfl rfl

/-! ### Every run -/

variable [DecidableEq γ]

/-- What each step keeps. -/
theorem ExecInv.exec {fuel : Nat} {op : ExecutorOp κ σ ω γ} (h : ExecInv e)
    (hok : e.Orderly op) (hstep : e.exec fuel op = some e') : ExecInv e' := by
  cases op with
  | malloc c queue session ok =>
      simp only [Executor.exec] at hstep
      split at hstep
      · rename_i hc
        obtain rfl := Option.some.inj hstep
        split
        · exact h.malloc hok hc
        · exact h
      · cases hstep
  | lock c =>
      simp only [Executor.exec] at hstep
      split at hstep
      · rename_i queue session hc
        split at hstep
        · rename_i hmutex
          exact Option.some.inj hstep ▸ h.lock hc hmutex
        · cases hstep
      · cases hstep
  | addTail queue => exact h.addTail hstep
  | schedule queue ok => exact h.schedule hstep
  | unlock queue =>
      simp only [Executor.exec] at hstep
      split at hstep
      · rename_i c session before ok hmutex
        exact Option.some.inj hstep ▸ h.unlock hmutex
      · cases hstep
  | take w =>
      simp only [Executor.exec] at hstep
      split at hstep
      · rename_i queue rest hw hdeinit hpool
        exact Option.some.inj hstep ▸ h.take hw hdeinit hpool
      · cases hstep
  | enter w => exact h.enter hstep
  | rearm queue => exact h.rearm hstep
  | leave queue =>
      simp only [Executor.exec] at hstep
      split at hstep
      · rename_i w session hmutex
        exact Option.some.inj hstep ▸ h.leave hmutex
      · cases hstep
  | execute w =>
      simp only [Executor.exec] at hstep
      split at hstep
      · rename_i queue session hw
        exact Option.some.inj hstep ▸ h.execute hw
      · cases hstep
  | handle w =>
      simp only [Executor.exec] at hstep
      split at hstep
      · rename_i queue session hw
        exact Option.some.inj hstep ▸ h.handle hw
      · cases hstep
  | exit w =>
      simp only [Executor.exec] at hstep
      split at hstep
      · cases hstep
      · rename_i hw hrunning
        exact Option.some.inj hstep ▸ h.exit hw (fun heq => hrunning heq)
      · cases hstep
  | terminate =>
      simp only [Executor.exec] at hstep
      split at hstep
      · rename_i hdeinit
        exact Option.some.inj hstep ▸ h.terminate hdeinit hok
      · cases hstep
  | joined =>
      simp only [Executor.exec] at hstep
      split at hstep
      · rename_i hdeinit
        obtain ⟨hgone, hstep⟩ := Option.ite_none_right_eq_some.mp hstep
        exact Option.some.inj hstep ▸ h.joined hdeinit hgone
      · cases hstep
  | pending =>
      simp only [Executor.exec] at hstep
      split at hstep
      · rename_i queue rest hdeinit hpool
        exact Option.some.inj hstep ▸ h.pending hdeinit hpool
      · cases hstep
  | cancel => exact h.cancel hstep
  | cancelled =>
      simp only [Executor.exec] at hstep
      split at hstep
      · rename_i queue hdeinit
        obtain ⟨hempty, hstep⟩ := Option.ite_none_right_eq_some.mp hstep
        exact Option.some.inj hstep ▸ h.cancelled hdeinit (List.isEmpty_iff.mp hempty)
      · cases hstep
  | destroyed =>
      simp only [Executor.exec] at hstep
      split at hstep
      · rename_i hdeinit hpool
        exact Option.some.inj hstep ▸ h.destroyed hdeinit hpool
      · cases hstep

/-- Hence it holds in every state that is reached. -/
theorem execInv_reachable (h : Reachable (Executor.machine κ σ ω γ) Executor.Orderly e) :
    ExecInv e := by
  refine h.invariant ?_ ?_
  · rintro _ rfl
    exact execInv_create
  · rintro s op t hinv hok ⟨fuel, hstep⟩
    exact hinv.exec hok hstep

end Workflow.Kernel
