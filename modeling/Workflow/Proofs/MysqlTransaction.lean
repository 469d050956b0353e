/-
Module: Workflow.Proofs.MysqlTransaction
Layer: Proofs
Purpose: What becomes of a transaction whose connection is lost. `message_out` finds out and reports
  ECONNRESET, but it also takes the task out of the transaction: where the task is tried again, its
  query is sent as if there had never been one. Where no retry is left the task ends with the error.
Trusted boundary: none
Main exports: MysqlRun.LastTry, MysqlRun.Inv, MysqlRun.transaction_reset, MysqlRun.query_outside
-/
import Workflow.Factory.MysqlTransaction
import Workflow.Lib.Run

namespace Workflow.Factory

open Workflow.Lib

namespace MysqlTask

/-- The user's request is about to be refused because its connection is lost. -/
def Loses (seqid : Nat) (target : BitVec 32) (t : MysqlTask) : Prop :=
  t.loginMessage seqid = none ∧ t.isTransaction = true ∧
    t.connectionLost (t.plainSeq seqid) target = true

instance (seqid : Nat) (target : BitVec 32) (t : MysqlTask) : Decidable (t.Loses seqid target) :=
  inferInstanceAs (Decidable (_ ∧ _))

/-- `message_out` fails for a lost connection only, and touches nothing but the members of the
transaction. -/
theorem messageOut_cases (seqid : Nat) (target : BitVec 32) (t : MysqlTask) :
    (t.messageOut seqid target).2.2.toTask = t.toTask ∧
      ((∃ message, (t.messageOut seqid target).1 = .ok message) ∨
        t.Loses seqid target ∧ (t.messageOut seqid target).1 = .error econnreset ∧
          (t.messageOut seqid target).2.2.isUserRequest = true) := by
  unfold messageOut
  cases hlogin : t.loginMessage seqid with
  | some message => exact ⟨rfl, .inl ⟨message, rfl⟩⟩
  | none =>
      dsimp only
      unfold userMessage
      by_cases htrans : t.isTransaction = true
      · by_cases hlost : t.connectionLost (t.plainSeq seqid) target = true
        · have hlost' : ({ t with isUserRequest := true } : MysqlTask).connectionLost
              (t.plainSeq seqid) target = true := hlost
          rw [if_pos (show ({ t with isUserRequest := true } : MysqlTask).isTransaction = true from
            htrans), if_pos hlost']
          exact ⟨rfl, .inr ⟨⟨hlogin, htrans, hlost⟩, rfl, rfl⟩⟩
        · have hlost' : ¬({ t with isUserRequest := true } : MysqlTask).connectionLost
              (t.plainSeq seqid) target = true := hlost
          rw [if_pos (show ({ t with isUserRequest := true } : MysqlTask).isTransaction = true from
            htrans), if_neg hlost']
          exact ⟨rfl, .inl ⟨_, rfl⟩⟩
      · rw [if_neg (show ¬({ t with isUserRequest := true } : MysqlTask).isTransaction = true from
          htrans)]
        exact ⟨rfl, .inl ⟨_, rfl⟩⟩

end MysqlTask

namespace MysqlRun

/-- A lost connection is found when no retry is left. -/
def LastTry (s : MysqlRun) : MysqlOp → Prop
  | .messageOut seqid => s.task.Loses seqid s.target → s.task.retryMax ≤ s.task.retryTimes
  | _ => True

instance (s : MysqlRun) : (op : MysqlOp) → Decidable (s.LastTry op)
  | .messageOut _ => inferInstanceAs (Decidable (_ → _))
  | .dispatch _ | .routed _ _ | .replied _ _ | .failed _ _ | .done | .switchCallback | .canceled
  | .other _ => inferInstanceAs (Decidable True)

/-- `message_out` has reported the loss. -/
def Reset (s : MysqlRun) : Prop :=
  .error econnreset ∈ s.log

/-- The user's request is not sent once the loss was reported. -/
def SilentAfterReset (s : MysqlRun) : Prop :=
  ∀ before after, s.log = before ++ .error econnreset :: after → .ok .user ∉ after

/-- The steps that are left behind the report. -/
def stepsLeft : Phase → Nat
  | .requesting => 3
  | .finishing => 2
  | .switching => 1
  | .ready | .routing _ | .gone => 0

def remaining (s : MysqlRun) : Nat :=
  stepsLeft s.task.phase

/-- How the task is doing behind the report: the error is on its way to the user. -/
def Reports (s : MysqlRun) : Prop :=
  match s.task.phase with
  | .requesting => s.out = some (.error econnreset)
  | .finishing | .switching | .gone => s.task.state = .sysError ∧ s.task.error = econnreset
  | .ready | .routing _ => False

/-- The loss was reported just now, with no retry left. -/
structure Lost (s : MysqlRun) : Prop where
  log : ∃ before, s.log = before ++ [.error econnreset] ∧ .error econnreset ∉ before
  userRequest : s.task.isUserRequest = true
  lastTry : s.task.retryMax ≤ s.task.retryTimes
  redirect : s.task.redirect = false
  routerTask : s.task.routerTask = none
  reports : s.Reports

/-- The invariant: a task is only redirected in `switch_callback`, has a router task only between
`dispatch` and `done`, and does not go on behind a report. -/
structure Inv (s : MysqlRun) : Prop where
  redirect : s.task.phase ≠ .switching → s.task.redirect = false
  routerTask : s.task.phase ≠ .finishing → s.task.routerTask = none
  reset : s.Reset → s.Lost

variable {s s' : MysqlRun}

theorem Start.inv (h : s.Start) : s.Inv where
  redirect := fun _ => h.redirect
  routerTask := fun _ => h.routerTask
  reset := fun hreset => by
    rw [Reset, h.log] at hreset
    cases hreset

/-- A step that is not behind a report and does not make one. -/
theorem Inv.keep (hlog : s'.log = s.log) (hreset : ¬s.Reset)
    (hredirect : s'.task.phase ≠ .switching → s'.task.redirect = false)
    (hrouter : s'.task.phase ≠ .finishing → s'.task.routerTask = none) : s'.Inv where
  redirect := hredirect
  routerTask := hrouter
  reset := fun h => absurd (by rwa [Reset, hlog] at h) hreset

theorem Lost.inv (h : s.Lost) : s.Inv where
  redirect := fun _ => h.redirect
  routerTask := fun _ => h.routerTask
  reset := fun _ => h

/-! ### Behind a report -/

theorem Lost.not_waits (h : s.Lost) : waits s.task.phase = false := by
  have hreports := h.reports
  unfold Reports at hreports
  cases hphase : s.task.phase with
  | ready | routing router => rw [hphase] at hreports; exact hreports.elim
  | requesting | finishing | switching | gone => rfl

theorem Lost.out_eq (h : s.Lost) (hphase : s.task.phase = .requesting) :
    s.out = some (.error econnreset) := by
  have hreports := h.reports
  rwa [Reports, hphase] at hreports

/-- What the communicator has reported stays until the user's callback. -/
theorem Lost.state_eq (h : s.Lost) (hphase : s.task.phase ≠ .requesting) :
    s.task.state = .sysError ∧ s.task.error = econnreset := by
  have hreports := h.reports
  unfold Reports at hreports
  cases hphase' : s.task.phase with
  | requesting => exact absurd hphase' hphase
  | ready | routing router => rw [hphase'] at hreports; exact hreports.elim
  | finishing | switching | gone => rwa [hphase'] at hreports

/-- A system error is not tried again. -/
theorem Lost.done_eq (h : s.Lost) (hphase : s.task.phase = .finishing) :
    s.task.done = { s.task with phase := .switching } := by
  have hstate := (h.state_eq (by rw [hphase]; decide)).1
  have hretry : ¬s.task.retryTimes < s.task.retryMax := Int.not_lt.mpr h.lastTry
  simp only [MysqlTask.done, h.routerTask, MysqlTask.finishOnce, h.userRequest, ↓reduceIte,
    Task.finishOnce, Bool.false_eq_true, Task.afterNotify, hstate, hretry]

theorem Lost.switchCallback_eq (h : s.Lost) (hphase : s.task.phase = .switching) :
    s.task.toTask.switchCallback none = { s.task.toTask with phase := .gone } := by
  have herror := (h.state_eq (by rw [hphase]; decide)).2
  have hpositive : ¬s.task.error < 0 := by rw [herror]; decide
  simp only [Task.switchCallback, h.redirect, Bool.false_eq_true, ↓reduceIte, Task.switchState,
    hpositive, and_false]

/-- A step behind a report brings the task nearer to its end, or is another task's. -/
theorem Lost.step {op : MysqlOp} (h : s.Lost) (hexec : s.exec op = some s') :
    s'.Lost ∧ (s'.remaining < s.remaining ∨ s'.task = s.task) := by
  cases op with
  | dispatch router =>
      obtain ⟨hphase, -⟩ := Option.ite_none_right_eq_some.mp hexec
      have hwaits := h.not_waits
      rw [hphase] at hwaits
      cases hwaits
  | routed state error =>
      obtain ⟨⟨hwaits, -⟩, -⟩ := Option.ite_none_right_eq_some.mp hexec
      exact absurd hwaits (by rw [h.not_waits]; decide)
  | messageOut seqid =>
      obtain ⟨⟨hphase, hout⟩, -⟩ := Option.ite_none_right_eq_some.mp hexec
      cases hout.symm.trans (h.out_eq hphase)
  | replied seqid reply =>
      rw [exec] at hexec
      split at hexec
      · rename_i message hout
        obtain ⟨hphase, -⟩ := Option.ite_none_right_eq_some.mp hexec
        cases hout.symm.trans (h.out_eq hphase)
      · cases hexec
  | failed stopped error =>
      obtain ⟨hphase, heq⟩ := Option.ite_none_right_eq_some.mp hexec
      have hfailure : s.failure stopped error = (.sysError, econnreset) := by
        rw [failure, h.out_eq hphase]
      have heq' : s' = { s with task :=
          { s.task with state := .sysError, error := econnreset, phase := .finishing } } := by
        rw [exec, if_pos hphase, hfailure] at hexec
        exact (Option.some.inj hexec).symm
      subst heq'
      refine ⟨⟨h.log, h.userRequest, h.lastTry, h.redirect, h.routerTask, ⟨rfl, rfl⟩⟩, .inl ?_⟩
      have hless : stepsLeft .finishing < stepsLeft .requesting := by decide
      rwa [← hphase] at hless
  | done =>
      obtain ⟨hphase, heq⟩ := Option.ite_none_right_eq_some.mp hexec
      rw [h.done_eq hphase] at heq
      cases heq
      refine ⟨⟨h.log, h.userRequest, h.lastTry, h.redirect, h.routerTask,
        h.state_eq (by rw [hphase]; decide)⟩, .inl ?_⟩
      have hless : stepsLeft .switching < stepsLeft .finishing := by decide
      rwa [← hphase] at hless
  | switchCallback =>
      obtain ⟨hphase, heq⟩ := Option.ite_none_right_eq_some.mp hexec
      rw [h.switchCallback_eq hphase] at heq
      cases heq
      refine ⟨⟨h.log, h.userRequest, h.lastTry, h.redirect, h.routerTask,
        h.state_eq (by rw [hphase]; decide)⟩, .inl ?_⟩
      have hless : stepsLeft .gone < stepsLeft .switching := by decide
      rwa [← hphase] at hless
  | canceled =>
      obtain ⟨hwaits, -⟩ := Option.ite_none_right_eq_some.mp hexec
      exact absurd hwaits (by rw [h.not_waits]; decide)
  | other target =>
      cases hexec
      exact ⟨⟨h.log, h.userRequest, h.lastTry, h.redirect, h.routerTask, h.reports⟩, .inr rfl⟩

/-- Behind a report a step is possible until the task has ended. -/
theorem Lost.progress (h : s.Lost) (hphase : s.task.phase ≠ .gone) :
    ∃ op s', s.exec op = some s' ∧ s'.remaining < s.remaining := by
  have hwaits := h.not_waits
  have hstep : ∀ op s', s.exec op = some s' → s'.task ≠ s.task →
      ∃ op s', s.exec op = some s' ∧ s'.remaining < s.remaining := by
    intro op s' hexec hne
    exact ⟨op, s', hexec, (h.step hexec).2.resolve_right hne⟩
  have hchanged : ∀ t : MysqlTask, t.phase ≠ s.task.phase → t ≠ s.task := by
    rintro t hne rfl
    exact hne rfl
  cases hphase' : s.task.phase with
  | ready | routing router => rw [hphase'] at hwaits; cases hwaits
  | requesting =>
      refine hstep (.failed false 0) _ (if_pos hphase') (hchanged _ ?_)
      rw [hphase']
      exact nofun
  | finishing =>
      refine hstep .done _ (if_pos hphase') (hchanged _ ?_)
      rw [h.done_eq hphase', hphase']
      exact nofun
  | switching =>
      refine hstep .switchCallback _ (if_pos hphase') (hchanged _ ?_)
      rw [h.switchCallback_eq hphase', hphase']
      exact nofun
  | gone => exact absurd hphase' hphase

/-! ### Before a report -/

theorem dispatch_frame (t : MysqlTask) (router : Router) :
    (t.dispatch router).redirect = t.redirect ∧ ((t.dispatch router).phase = .finishing ∨
      (t.dispatch router).phase = .requesting ∧ (t.dispatch router).routerTask = t.routerTask) := by
  unfold MysqlTask.dispatch
  split
  · split
    · exact ⟨rfl, .inl rfl⟩
    · split
      · exact ⟨rfl, .inr ⟨rfl, rfl⟩⟩
      · exact ⟨rfl, .inl rfl⟩
  · exact ⟨rfl, .inr ⟨rfl, rfl⟩⟩
  · exact ⟨rfl, .inl rfl⟩

theorem finishOnce_none {task : Task} {f : FinishOnce} (h : f.redirect = none) :
    (task.finishOnce f).routerTask = task.routerTask ∧
      (task.finishOnce f).redirect = task.redirect := by
  unfold Task.finishOnce
  rw [h]
  split <;> exact ⟨rfl, rfl⟩

theorem afterNotify_frame (task : Task) (isUserRequest : Bool) :
    (task.afterNotify isUserRequest).routerTask = task.routerTask ∧
      ((task.afterNotify isUserRequest).redirect = task.redirect ∨
        (task.afterNotify isUserRequest).phase = .switching) := by
  unfold Task.afterNotify
  split
  · split
    · exact ⟨rfl, .inl rfl⟩
    · exact ⟨rfl, .inl rfl⟩
  · split
    · exact ⟨rfl, .inr rfl⟩
    · exact ⟨rfl, .inl rfl⟩
  · exact ⟨rfl, .inl rfl⟩

theorem mysql_finishOnce_frame (t : MysqlTask) :
    t.finishOnce.1.redirect = none ∧ t.finishOnce.2.toTask = t.toTask := by
  unfold MysqlTask.finishOnce
  split <;> exact ⟨rfl, rfl⟩

/-- `done` leaves no router task, and only a retry is a redirect. -/
theorem done_frame (t : MysqlTask) :
    t.done.routerTask = none ∧ (t.done.redirect = t.redirect ∨ t.done.phase = .switching) := by
  unfold MysqlTask.done
  cases hrouter : t.routerTask with
  | some router => exact ⟨rfl, .inl rfl⟩
  | none =>
      obtain ⟨hnone, htask⟩ := mysql_finishOnce_frame t
      obtain ⟨hrouter', hredirect'⟩ := @finishOnce_none t.finishOnce.2.toTask _ hnone
      obtain ⟨hrouter₂, hredirect₂⟩ := afterNotify_frame
        (t.finishOnce.2.toTask.finishOnce t.finishOnce.1) t.finishOnce.1.isUserRequest
      refine ⟨hrouter₂.trans (hrouter'.trans (by rw [htask, hrouter])), hredirect₂.imp_left ?_⟩
      intro hsame
      exact hsame.trans (hredirect'.trans (by rw [htask]))

/-- `switch_callback` ends every redirect. -/
theorem switchCallback_frame (task : Task) :
    (task.switchCallback none).redirect = false ∧
      (task.switchCallback none).routerTask = task.routerTask := by
  have hswitch : task.switchState.redirect = task.redirect ∧
      task.switchState.routerTask = task.routerTask := by
    unfold Task.switchState
    split <;> exact ⟨rfl, rfl⟩
  unfold Task.switchCallback
  cases hredirect : task.redirect with
  | true => simp [hredirect]
  | false => simp [hswitch, hredirect]

theorem routerCallback_frame (task : Task) (state : TaskState) (error : Int) :
    (task.routerCallback state error).redirect = task.redirect ∧
      (task.routerCallback state error).routerTask = task.routerTask := by
  unfold Task.routerCallback
  split <;> exact ⟨rfl, rfl⟩

/-- A message that is no report leaves everything but the transaction. -/
theorem messageOut_inv {seqid : Nat} (hinv : s.Inv) (hok : s.LastTry (.messageOut seqid))
    (hreset : ¬s.Reset) (hexec : s.exec (.messageOut seqid) = some s') : s'.Inv := by
  obtain ⟨⟨hphase, -⟩, heq⟩ := Option.ite_none_right_eq_some.mp hexec
  obtain ⟨htask, hcases⟩ := s.task.messageOut_cases seqid s.target
  have hredirect : (s.task.messageOut seqid s.target).2.2.redirect = false := by
    rw [htask]
    exact hinv.redirect (by rw [hphase]; exact nofun)
  have hrouter : (s.task.messageOut seqid s.target).2.2.routerTask = none := by
    rw [htask]
    exact hinv.routerTask (by rw [hphase]; exact nofun)
  obtain rfl : { s with
      task := (s.task.messageOut seqid s.target).2.2
      target := (s.task.messageOut seqid s.target).2.1
      out := some (s.task.messageOut seqid s.target).1
      log := s.log ++ [(s.task.messageOut seqid s.target).1] } = s' := Option.some.inj heq
  rcases hcases with ⟨message, hmessage⟩ | ⟨hloses, herror, huser⟩
  · refine ⟨fun _ => hredirect, fun _ => hrouter, fun hreset' => ?_⟩
    rcases List.mem_append.mp hreset' with hold | hnew
    · exact absurd hold hreset
    · rw [hmessage] at hnew
      cases List.mem_singleton.mp hnew
  · refine Lost.inv ⟨⟨s.log, by rw [herror], hreset⟩, huser, ?_, hredirect, hrouter, ?_⟩
    · rw [htask]
      exact hok hloses
    · have hphase' : (s.task.messageOut seqid s.target).2.2.phase = .requesting := by
        rw [htask, hphase]
      unfold Reports
      rw [hphase', herror]

/-- Every step of a run keeps the invariant. -/
theorem exec_inv {op : MysqlOp} (hinv : s.Inv) (hok : s.LastTry op) (hexec : s.exec op = some s') :
    s'.Inv := by
  by_cases hreset : s.Reset
  · exact ((hinv.reset hreset).step hexec).1.inv
  cases op with
  | dispatch router =>
      obtain ⟨hphase, heq⟩ := Option.ite_none_right_eq_some.mp hexec
      obtain ⟨hredirect, hrouter⟩ := dispatch_frame s.task router
      cases heq
      refine .keep rfl hreset (fun _ => hredirect.trans (hinv.redirect (by rw [hphase]; exact nofun)))
        fun hne => ?_
      rcases hrouter with hfinishing | ⟨-, hsame⟩
      · exact absurd hfinishing hne
      · exact hsame.trans (hinv.routerTask (by rw [hphase]; exact nofun))
  | routed state error =>
      obtain ⟨⟨hwaits, -⟩, heq⟩ := Option.ite_none_right_eq_some.mp hexec
      obtain ⟨hredirect, hrouter⟩ := routerCallback_frame s.task.toTask
        (Clients.routerState s.task.phase state) error
      have hswitching : s.task.phase ≠ .switching := by rintro h; rw [h] at hwaits; cases hwaits
      have hfinishing : s.task.phase ≠ .finishing := by rintro h; rw [h] at hwaits; cases hwaits
      cases heq
      exact .keep rfl hreset (fun _ => hredirect.trans (hinv.redirect hswitching))
        fun _ => hrouter.trans (hinv.routerTask hfinishing)
  | messageOut seqid => exact messageOut_inv hinv hok hreset hexec
  | replied seqid reply =>
      rw [exec] at hexec
      split at hexec
      · obtain ⟨hphase, heq⟩ := Option.ite_none_right_eq_some.mp hexec
        have hframe : (s.task.keepAliveTimeout seqid reply).2.toTask = s.task.toTask := by
          unfold MysqlTask.keepAliveTimeout
          dsimp only
          split
          · split <;> rfl
          · rfl
        cases heq
        refine .keep rfl hreset (fun _ => ?_) fun _ => ?_
        · exact (congrArg Task.redirect hframe).trans (hinv.redirect (by rw [hphase]; exact nofun))
        · exact (congrArg Task.routerTask hframe).trans
            (hinv.routerTask (by rw [hphase]; exact nofun))
      · cases hexec
  | failed stopped error =>
      obtain ⟨hphase, heq⟩ := Option.ite_none_right_eq_some.mp hexec
      cases heq
      refine .keep rfl hreset (fun _ => hinv.redirect (by rw [hphase]; exact nofun))
        fun _ => hinv.routerTask (by rw [hphase]; exact nofun)
  | done =>
      obtain ⟨hphase, heq⟩ := Option.ite_none_right_eq_some.mp hexec
      obtain ⟨hrouter, hredirect⟩ := done_frame s.task
      cases heq
      refine .keep rfl hreset (fun hne => ?_) fun _ => hrouter
      exact (hredirect.resolve_right hne).trans (hinv.redirect (by rw [hphase]; exact nofun))
  | switchCallback =>
      obtain ⟨hphase, heq⟩ := Option.ite_none_right_eq_some.mp hexec
      obtain ⟨hredirect, hrouter⟩ := switchCallback_frame s.task.toTask
      cases heq
      exact .keep rfl hreset (fun _ => hredirect)
        fun _ => hrouter.trans (hinv.routerTask (by rw [hphase]; exact nofun))
  | canceled =>
      obtain ⟨hwaits, heq⟩ := Option.ite_none_right_eq_some.mp hexec
      have hswitching : s.task.phase ≠ .switching := by rintro h; rw [h] at hwaits; cases hwaits
      have hfinishing : s.task.phase ≠ .finishing := by rintro h; rw [h] at hwaits; cases hwaits
      cases heq
      exact .keep rfl hreset (fun _ => hinv.redirect hswitching) fun _ => hinv.routerTask hfinishing
  | other target =>
      cases hexec
      exact .keep rfl hreset hinv.redirect hinv.routerTask

theorem reachable_inv (h : Reachable machine LastTry s) : s.Inv := by
  refine Reachable.invariant (fun s hs => ?_) (fun s op s' hinv hok hexec => ?_) h
  · exact Start.inv hs
  · exact exec_inv hinv hok hexec

/-- Nothing at all is sent behind a report. -/
theorem Inv.silent (hinv : s.Inv) : s.SilentAfterReset := by
  intro before after hlog
  obtain ⟨before', hlast, hnot⟩ := (hinv.reset (by rw [Reset, hlog]; simp)).log
  rw [hlog] at hlast
  rcases List.append_eq_append_iff.mp hlast with ⟨rest, hbefore, hrest⟩ | ⟨rest, -, hrest⟩
  · cases rest with
    | nil =>
        cases hrest
        exact List.not_mem_nil
    | cons first rest =>
        rw [List.cons_append] at hrest
        cases hrest
        exact absurd (by rw [hbefore]; simp) hnot
  · have hlength := congrArg List.length hrest
    rw [List.length_append, List.length_cons, List.length_cons, List.length_nil] at hlength
    obtain rfl : after = [] := List.eq_nil_of_length_eq_zero (by omega)
    exact List.not_mem_nil

/-- A task whose connection is lost with no retry left sends nothing behind the report, and goes on
until it has ended with the error. -/
theorem transaction_reset (h : Reachable machine LastTry s) :
    s.SilentAfterReset ∧
      (s.Reset → s.task.phase = .gone → s.task.state = .sysError ∧ s.task.error = econnreset) ∧
      (s.Reset → s.task.phase ≠ .gone → ∃ op s', s.exec op = some s' ∧ s'.remaining < s.remaining) ∧
      (s.Reset → ∀ op s', s.exec op = some s' → s'.remaining < s.remaining ∨ s'.task = s.task) := by
  have hinv := reachable_inv h
  refine ⟨hinv.silent, fun hreset hphase => ?_, fun hreset hphase => ?_, fun hreset op s' hexec => ?_⟩
  · exact (hinv.reset hreset).state_eq (by rw [hphase]; decide)
  · exact (hinv.reset hreset).progress hphase
  · exact ((hinv.reset hreset).step hexec).2

/-! ### With a retry left -/

/-! ### Two runs -/

/-- The statement `SELECT 1` in a transaction that another task has begun on its connection. -/
def inTransaction (retryMax : Int) : MysqlRun where
  task :=
    { Task.new retryMax with
      req := ⟨mysqlComQuery, 3 :: ascii "SELECT 1"⟩
      keepAliveTimeo := 3600 * 1000
      resCharset := []
      isSsl := false
      transactionState := .transactionOut
      replyState := .success
      replyError := 0
      isUserRequest := true }
  target := 1#32
  out := none
  log := []

theorem start_inTransaction (retryMax : Int) : (inTransaction retryMax).Start where
  state := rfl
  transaction := rfl
  retryTimes := rfl
  redirect := rfl
  routerTask := rfl
  requestObject := rfl
  phase := rfl
  isUserRequest := rfl
  out := rfl
  log := rfl

def okReply : MysqlReply :=
  ⟨false, true, none, true⟩

/-- A new connection up to the user's request. -/
def login : List MysqlOp :=
  [.dispatch .resolver, .done, .routed .success 0, .dispatch .resolver, .messageOut 0,
    .replied 0 okReply, .done, .dispatch .resolver, .messageOut 1, .replied 1 okReply, .done,
    .dispatch .resolver, .messageOut 2]

theorem transaction_reset_last : ∃ s, Reachable machine LastTry s ∧
    s.log = [.ok .handshake, .ok .auth, .error econnreset] ∧ s.task.phase = .gone ∧
      s.SilentAfterReset ∧ s.task.state = .sysError ∧ s.task.error = econnreset := by
  have hrun : (runChecked (fun _ => exec) LastTry 0 (inTransaction 0)
      (login ++ [.failed false 0, .done, .switchCallback])).map
        (fun s => (s.log, s.task.phase)) =
      some ([.ok .handshake, .ok .auth, .error econnreset], .gone) := by decide +kernel
  obtain ⟨s, hs, heq⟩ := Option.map_eq_some_iff.mp hrun
  have hreach : Reachable machine LastTry s :=
    runChecked_machine (fun _ _ _ _ h => h) (.init (start_inTransaction 0)) hs
  obtain ⟨hsilent, hends, -⟩ := transaction_reset hreach
  obtain ⟨hlog, hphase⟩ := Prod.mk.inj heq
  have hreset : s.Reset := by rw [Reset, hlog]; simp
  exact ⟨s, hreach, hlog, hphase, hsilent, hends hreset hphase⟩

/-- With a retry the query is sent on a new connection, outside the transaction. -/
theorem query_outside :
    ¬∀ s, Reachable machine (fun _ _ => True) s → s.SilentAfterReset ∧
      (s.Reset → s.task.phase = .gone → s.task.state = .sysError ∧ s.task.error = econnreset) := by
  intro hall
  have hrun : (runChecked (fun _ => exec) (fun _ _ => True) 0 (inTransaction 1)
      (login ++ [.failed false 0, .done, .switchCallback] ++ login)).map MysqlRun.log =
      some [.ok .handshake, .ok .auth, .error econnreset, .ok .handshake, .ok .auth,
        .ok .user] := by decide +kernel
  obtain ⟨s, hs, hlog⟩ := Option.map_eq_some_iff.mp hrun
  have hreach : Reachable machine (fun _ _ => True) s :=
    runChecked_machine (fun _ _ _ _ h => h) (.init (start_inTransaction 1)) hs
  exact (hall s hreach).1 [.ok .handshake, .ok .auth] [.ok .handshake, .ok .auth, .ok .user] hlog
    (by simp)

end MysqlRun

end Workflow.Factory
