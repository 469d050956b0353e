/-
Module: Workflow.Proofs.ClientBalance
Layer: Proofs
Purpose: References between client tasks and servers. In every run in which a selected server is
  resolved, no internal request succeeds, nobody redirects or cancels a task that was routed by the
  governance, and no answer brings a removed server back into the breaker, each `select` is answered
  by one `success` or `failed`, so the `ref` of a registered server is one more than the number of
  tasks that use it, and no member function runs into undefined behaviour.
Trusted boundary: none
Main exports: Task.holds, TaskInv, Clients.StepOk, Clients.Enabled, client_balance
-/
import Workflow.Factory.ComplexClientTask
import Workflow.Proofs.GovernanceBreaker

namespace Workflow.Factory

open Workflow.Lib
open Workflow.Nameservice

/-! ### What a task holds -/

/-- The task has selected a server and not yet told the governance how it went. -/
def Task.holds (task : Task) : Bool :=
  decide (task.nsPolicy = some .governance) &&
    match task.phase with
    | .ready | .requesting | .finishing =>
        task.requestObject || decide (task.routerTask = some .resolver)
    | .routing router => decide (router = .resolver)
    | .switching | .gone => false

/-- The server that the task has a reference to. -/
def Task.held (task : Task) : Option Nat :=
  if task.holds then task.tracing.getLast? else none

/-- The invariant of one task. -/
structure TaskInv (task : Task) : Prop where
  balance : task.selects = task.notifies + if task.holds then 1 else 0
  traced : task.holds → task.tracing ≠ []
  routed : task.nsPolicy = some .governance → task.requestObject = true → task.phase = .ready →
    task.state = .success
  router : task.routerTask.isSome → task.phase = .finishing ∧ task.requestObject = false
  routing : ∀ r, task.phase = .routing r → task.requestObject = false
  redirect : task.redirect = true → task.phase = .switching ∧
    ¬ (task.nsPolicy = some .governance ∧ task.requestObject = true)

theorem Task.held_of_not_holds {task : Task} (h : task.holds = false) : task.held = none := by
  simp [held, h]

theorem TaskInv.held_of_holds {task : Task} (hinv : TaskInv task) (h : task.holds = true) :
    ∃ i, task.held = some i ∧ task.tracing.getLast? = some i := by
  obtain ⟨i, hi⟩ := Option.isSome_iff_exists.mp
    (List.getLast?_isSome.mpr (hinv.traced h))
  exact ⟨i, by simp [Task.held, h, hi], hi⟩

/-- What a step of a task does to the references: nothing, one more for a registered server (if
the step may select), or one less for the server that it holds. -/
inductive Effect (maySelect : Prop) (g : Governance) (task : Task) (g' : Governance)
    (task' : Task) : Prop where
  | same (hrefs : g.SameRefs g') (hheld : task'.held = task.held)
  | take (hselect : maySelect) (i : Nat) (g₁ : Governance) (hrefs : g.SameRefs g₁) (hi : i ∈ g₁.servers)
      (hmod : g₁.modify i (fun a => { a with ref := a.ref + 1 }) = some g')
      (hbefore : task.held = none) (hafter : task'.held = some i)
  | give (i : Nat) (hbefore : task.held = some i) (hafter : task'.held = none)
      (hgov : g.success i = some g' ∨ ∃ now, Governance.failed now g i = some g')

/-- The phases in which a task that has no router task holds what its route result says. -/
def Phase.active : Phase → Bool
  | .ready | .requesting | .finishing => true
  | _ => false

theorem Task.holds_of_active (task : Task) (hphase : task.phase.active = true)
    (hrouter : task.routerTask = none) :
    task.holds = decide (task.nsPolicy = some .governance ∧ task.requestObject = true) := by
  unfold holds
  cases hp : task.phase with
  | ready | requesting | finishing => simp [hrouter]
  | routing r => simp [hp, Phase.active] at hphase
  | switching | gone => simp [hp, Phase.active] at hphase

theorem Task.not_holds_of_active {task : Task} (hphase : task.phase.active = true)
    (hrouter : task.routerTask = none)
    (h : task.nsPolicy = some .governance → task.requestObject = false) : task.holds = false := by
  rw [holds_of_active task hphase hrouter, decide_eq_false_iff_not]
  rintro ⟨hpolicy, hobject⟩
  rw [h hpolicy] at hobject
  cases hobject

/-- A failed selection leaves nothing. -/
theorem Task.holds_of_selectorFail {task : Task} (hphase : task.phase = .finishing)
    (hobject : task.requestObject = false) (hrouter : task.routerTask = some .selectorFail) :
    task.holds = false := by
  simp [holds, hphase, hobject, hrouter]

theorem Task.holds_of_other {task : Task} (h : ¬ task.nsPolicy = some .governance) :
    task.holds = false := by
  simp [holds, h]

theorem Task.holds_switching {task : Task} (h : task.phase = .switching) : task.holds = false := by
  simp [holds, h]

theorem Task.holds_gone {task : Task} (h : task.phase = .gone) : task.holds = false := by
  simp [holds, h]

variable {task task' : Task}

theorem TaskInv.routerTask_eq_none (hinv : TaskInv task) (h : task.phase ≠ .finishing) :
    task.routerTask = none := by
  by_contra hne
  exact h (hinv.router (Option.isSome_iff_ne_none.mpr hne)).1

theorem TaskInv.redirect_eq_false (hinv : TaskInv task) (h : task.phase ≠ .switching) :
    task.redirect = false := by
  by_contra hne
  exact h (hinv.redirect (by simpa using hne)).1

/-- A step before and after which the task holds nothing. -/
theorem TaskInv.keep {maySelect : Prop} {g g' : Governance} (hinv : TaskInv task) (hsame : g.SameRefs g')
    (hold : task.holds = false) (hholds : task'.holds = false)
    (hselects : task'.selects = task.selects) (hnotifies : task'.notifies = task.notifies)
    (hrouted : task'.nsPolicy = some .governance → task'.requestObject = true →
      task'.phase = .ready → task'.state = .success)
    (hrouter : task'.routerTask.isSome → task'.phase = .finishing ∧ task'.requestObject = false)
    (hrouting : ∀ r, task'.phase = .routing r → task'.requestObject = false)
    (hredirect : task'.redirect = true → task'.phase = .switching ∧
      ¬ (task'.nsPolicy = some .governance ∧ task'.requestObject = true)) :
    TaskInv task' ∧ Effect maySelect g task g' task' := by
  refine ⟨⟨?_, fun h => ?_, hrouted, hrouter, hrouting, hredirect⟩, .same hsame ?_⟩
  · have hbalance := hinv.balance
    rw [hold] at hbalance
    rw [hselects, hnotifies, hholds, hbalance]
  · rw [hholds] at h
    cases h
  · rw [Task.held_of_not_holds hholds, Task.held_of_not_holds hold]

/-! ### The member functions -/

/-- Going on to the request or to `done` keeps what the task holds. -/
theorem TaskInv.proceed (hinv : TaskInv task) (hactive : task.phase.active = true)
    (hrouter : task.routerTask = none) {state : TaskState} {error : Int} {phase : Phase}
    (hphase : phase = .requesting ∨ phase = .finishing) :
    TaskInv { task with state := state, error := error, phase := phase } ∧
      ({ task with state := state, error := error, phase := phase } : Task).held = task.held := by
  have hholds : ({ task with state := state, error := error, phase := phase } : Task).holds =
      task.holds := by
    have hactive' : phase.active = true := by rcases hphase with rfl | rfl <;> rfl
    rw [Task.holds_of_active task hactive hrouter]
    exact Task.holds_of_active _ hactive' hrouter
  refine ⟨⟨?_, ?_, ?_, ?_, ?_, ?_⟩, by simp [Task.held, hholds]⟩
  · rw [hholds]
    exact hinv.balance
  · rw [hholds]
    exact hinv.traced
  · rintro - - rfl
    simp at hphase
  · intro h
    simp [hrouter] at h
  · rintro r rfl
    simp at hphase
  · intro h
    have hsw := (hinv.redirect h).1
    rw [hsw] at hactive
    cases hactive

/-- A task without a route result is routed, perhaps by a selected server. -/
theorem route_spec {fuel : Nat} {input : DispatchInput} {g g' : Governance} {task₁ : Task}
    (hinv : TaskInv task) (hphase : task.phase = .ready) (hobject : task.requestObject = false)
    (hcopy : input.copyHostPort = true)
    (h : Task.route fuel input g task = some (g', task₁)) :
    TaskInv { task₁ with phase := .finishing } ∧
      Effect True g task g' { task₁ with phase := .finishing } := by
  have hrouter := hinv.routerTask_eq_none (by simp [hphase])
  have hredirect := hinv.redirect_eq_false (by simp [hphase])
  have hholds : task.holds = false :=
    Task.not_holds_of_active (by rw [hphase]; rfl) hrouter fun _ => hobject
  have hbalance := hinv.balance
  rw [hholds] at hbalance
  -- without a selection the task holds nothing, before and after
  have hnone : ∀ task₂ : Task, g.SameRefs g' → task₂.requestObject = false →
      task₂.redirect = false → task₂.selects = task.selects → task₂.notifies = task.notifies →
      task₂.phase = .finishing → task₂.holds = false →
      TaskInv task₂ ∧ Effect True g task g' task₂ := by
    intro task₂ hsame hobj hred hsel hnot hfin hhold
    refine hinv.keep hsame hholds hhold hsel hnot ?_ (fun _ => ⟨hfin, hobj⟩) (fun _ _ => hobj) ?_
    · intro _ ho
      rw [hobj] at ho
      cases ho
    · intro hr
      rw [hred] at hr
      cases hr
  unfold Task.route at h
  simp only at h
  split at h
  · rename_i hpolicy
    obtain ⟨⟨g₂, x⟩, hselect, heq⟩ := Option.map_eq_some_iff.mp h
    rcases Governance.select_cases hselect with
      ⟨rfl, hg⟩ | ⟨i, g₁, rfl, hcheck, hi, hmod⟩
    · cases heq
      refine hnone _ ?_ hobject hredirect rfl rfl rfl ?_
      · rcases hg with rfl | hcheck
        · exact .refl _
        · exact Governance.checkBreaker_sameRefs hcheck
      · refine Task.holds_of_selectorFail rfl ?_ rfl
        exact hobject
    · simp only [hcopy, if_true] at heq
      cases heq
      have hhold : ∀ task₂ : Task, task₂.nsPolicy = some .governance → task₂.phase = .finishing →
          task₂.routerTask = some .resolver → task₂.holds = true := by
        intro task₂ hp hph hr
        simp [Task.holds, hp, hph, hr]
      have hhold' := hhold { task with
        nsPolicy := some (task.nsPolicy.getD input.policy), routerTask := some .resolver
        tracing := task.tracing ++ [i], selects := task.selects + 1, phase := .finishing }
        hpolicy rfl rfl
      refine ⟨⟨?_, by simp, by simp, fun _ => ⟨rfl, hobject⟩, by simp, fun hr => ?_⟩,
        .take trivial i g₁ (Governance.checkBreaker_sameRefs hcheck) hi hmod
          (Task.held_of_not_holds hholds) ?_⟩
      · rw [hhold']
        simp [hbalance]
      · exact absurd (hredirect.symm.trans hr) Bool.false_ne_true
      · rw [Task.held, hhold']
        simp
  · rename_i hpolicy
    cases h
    refine hnone _ (.refl _) hobject hredirect rfl rfl rfl (Task.holds_of_other ?_)
    exact hpolicy

/-- `dispatch` may select a server, which is then resolved. -/
theorem dispatch_spec {fuel : Nat} {input : DispatchInput} {g g' : Governance}
    (hinv : TaskInv task) (hphase : task.phase = .ready) (hcopy : input.copyHostPort = true)
    (h : Task.dispatch fuel input g task = some (g', task')) :
    TaskInv task' ∧ Effect True g task g' task' := by
  have hrouter := hinv.routerTask_eq_none (by simp [hphase])
  have hactive : task.phase.active = true := by rw [hphase]; rfl
  have hgo : ∀ {state error phase}, (phase = .requesting ∨ phase = .finishing) →
      task' = { task with state := state, error := error, phase := phase } → g' = g →
      TaskInv task' ∧ Effect True g task g' task' := by
    rintro state error phase hp rfl rfl
    obtain ⟨hinv', hheld⟩ := hinv.proceed hactive hrouter hp
    exact ⟨hinv', .same (.refl _) hheld⟩
  unfold Task.dispatch at h
  split at h
  · split at h
    · cases h
      exact hgo (.inr rfl) rfl rfl
    · split at h
      · cases h
        exact hgo (.inl rfl) rfl rfl
      · rename_i hobject
        obtain ⟨⟨g₁, task₁⟩, hroute, heq⟩ := Option.map_eq_some_iff.mp h
        cases heq
        exact route_spec hinv hphase (by simpa using hobject) hcopy hroute
  · cases h
    exact hgo (.inl rfl) rfl rfl
  · cases h
    exact hgo (.inr rfl) rfl rfl

/-- The router task of a selected server brings the route; others may fail. -/
theorem routerCallback_spec (g : Governance) {r : Router} {state : TaskState} (error : Int)
    (hinv : TaskInv task) (hphase : task.phase = .routing r)
    (hok : task.holds = true → state = .success) :
    TaskInv { task.routerCallback (Clients.routerState task.phase state) error with
        phase := .ready } ∧
      Effect False g task g { task.routerCallback (Clients.routerState task.phase state) error with
        phase := .ready } := by
  have hrouter := hinv.routerTask_eq_none (by simp [hphase])
  have hredirect := hinv.redirect_eq_false (by simp [hphase])
  have hobject := hinv.routing r hphase
  cases hholds : task.holds with
  | true =>
      obtain ⟨hpolicy, rfl⟩ : task.nsPolicy = some .governance ∧ r = .resolver := by
        simpa [Task.holds, hphase] using hholds
      obtain rfl := hok hholds
      have hafter : ({ task with state := .success, requestObject := true, phase := .ready } :
          Task).holds = true := by
        simp [Task.holds, hpolicy]
      rw [hphase]
      refine ⟨⟨?_, fun _ => hinv.traced hholds, fun _ _ _ => rfl, ?_, ?_, ?_⟩,
        .same (.refl _) ?_⟩
      · have hbalance := hinv.balance
        rw [hholds] at hbalance
        simp only [Clients.routerState, Task.routerCallback, hafter]
        exact hbalance
      · simp [Clients.routerState, Task.routerCallback, hrouter]
      · rintro r ⟨⟩
      · simp [Clients.routerState, Task.routerCallback, hredirect]
      · simp only [Clients.routerState, Task.routerCallback, Task.held, hafter, hholds]
  | false =>
      -- either the policy is another one or the selection failed
      have hnot : task.nsPolicy = some .governance → r = .selectorFail := by
        intro hpolicy
        cases r with
        | selectorFail => rfl
        | resolver => simp [Task.holds, hphase, hpolicy] at hholds
      have hkept : ∀ st, (task.routerCallback st error).nsPolicy = task.nsPolicy ∧
          (task.routerCallback st error).routerTask = none ∧
          (task.routerCallback st error).redirect = false ∧
          (task.routerCallback st error).selects = task.selects ∧
          (task.routerCallback st error).notifies = task.notifies := by
        intro st
        unfold Task.routerCallback
        split <;> simp [hrouter, hredirect]
      have hobject' : task.nsPolicy = some .governance →
          (task.routerCallback (Clients.routerState task.phase state) error).requestObject =
            false := by
        intro hpolicy
        rw [hphase, hnot hpolicy]
        exact hobject
      obtain ⟨hpol, hrt, hred, hsel, hnotif⟩ := hkept (Clients.routerState task.phase state)
      refine hinv.keep (.refl _) hholds ?_ hsel hnotif ?_ ?_ ?_ ?_
      · refine Task.not_holds_of_active rfl ?_ ?_
        · exact hrt
        · exact fun hpolicy => hobject' (hpol ▸ hpolicy)
      · intro hpolicy hobj
        rw [hobject' (hpol ▸ hpolicy)] at hobj
        cases hobj
      · intro hsome
        rw [hrt] at hsome
        cases hsome
      · rintro r ⟨⟩
      · intro hr
        rw [hred] at hr
        cases hr

/-! #### `done` -/

theorem finishOnce_frame (task : Task) (f : FinishOnce) :
    (task.finishOnce f).routerTask = task.routerTask ∧
      (task.finishOnce f).selects = task.selects ∧
      (task.finishOnce f).notifies = task.notifies := by
  unfold Task.finishOnce
  cases f.redirect with
  | none => split <;> simp
  | some outcome => split <;> cases outcome <;> simp [Task.setRedirect, Task.init, Task.clearPrevState]

/-- Without a redirect `finish_once` only changes the state and the number of retries. -/
theorem finishOnce_of_none (task : Task) {f : FinishOnce} (h : f.redirect = none) :
    (task.finishOnce f).nsPolicy = task.nsPolicy ∧
      (task.finishOnce f).requestObject = task.requestObject ∧
      (task.finishOnce f).tracing = task.tracing ∧
      (task.finishOnce f).redirect = task.redirect ∧ (task.finishOnce f).state = f.state := by
  unfold Task.finishOnce
  rw [h]
  split <;> simp

/-- A redirect forgets the policy. -/
theorem finishOnce_of_some (task : Task) {f : FinishOnce} {outcome : Init} (h : f.redirect = some outcome) :
    (task.finishOnce f).nsPolicy = none ∧ (task.finishOnce f).state ≠ .success := by
  unfold Task.finishOnce
  rw [h]
  split <;> cases outcome <;> simp [Task.setRedirect, Task.init, Task.clearPrevState]

/-- `finish_once` does not bring a route by the governance. -/
theorem not_governed_of_finishOnce {f : FinishOnce}
    (h : ¬ (task.nsPolicy = some .governance ∧ task.requestObject = true)) :
    ¬ ((task.finishOnce f).nsPolicy = some .governance ∧
      (task.finishOnce f).requestObject = true) := by
  rintro ⟨hp, ho⟩
  cases hr : f.redirect with
  | none =>
      obtain ⟨hpolicy, hobject, _⟩ := finishOnce_of_none task hr
      exact h ⟨hpolicy ▸ hp, hobject ▸ ho⟩
  | some outcome =>
      rw [(finishOnce_of_some task hr).1] at hp
      cases hp

theorem afterNotify_frame (isUserRequest : Bool) (task : Task) :
    (task.afterNotify isUserRequest).nsPolicy = task.nsPolicy ∧
      (task.afterNotify isUserRequest).routerTask = task.routerTask ∧
      (task.afterNotify isUserRequest).selects = task.selects ∧
      (task.afterNotify isUserRequest).notifies = task.notifies ∧
      ((task.afterNotify isUserRequest).requestObject = true → task.requestObject = true) := by
  unfold Task.afterNotify
  split
  · split <;> simp
  · split
    · split <;> simp
    · simp
  · simp

/-- Only a success that is not the user's goes on without `switch_callback`. -/
theorem afterNotify_phase (isUserRequest : Bool) (task : Task) :
    (task.afterNotify isUserRequest).phase = .switching ∨
      ((task.afterNotify isUserRequest).phase = .ready ∧ task.state = .success ∧
        isUserRequest = false ∧ (task.afterNotify isUserRequest).redirect = task.redirect) := by
  unfold Task.afterNotify
  split
  · rename_i hstate
    split
    · exact Or.inl rfl
    · rename_i huser
      exact Or.inr ⟨rfl, hstate, by simpa using huser, rfl⟩
  · split <;> exact Or.inl rfl
  · exact Or.inl rfl

/-- A retry forgets the route. -/
theorem afterNotify_redirect (isUserRequest : Bool) (task : Task)
    (h : (task.afterNotify isUserRequest).redirect = true)
    (hpolicy : (task.afterNotify isUserRequest).nsPolicy = some .governance)
    (hobject : (task.afterNotify isUserRequest).requestObject = true) :
    task.redirect = true ∧ task.nsPolicy = some .governance ∧ task.requestObject = true := by
  unfold Task.afterNotify at h hpolicy hobject
  split at h
  · rename_i hstate
    simp only [hstate] at hpolicy hobject
    split at h <;> rename_i huser <;> simp only [huser, if_true, Bool.false_eq_true, if_false]
      at hpolicy hobject <;> exact ⟨h, hpolicy, hobject⟩
  · rename_i hstate
    simp only [hstate] at hpolicy hobject
    split at h
    · rename_i hretry
      simp only [hretry, if_true] at hpolicy hobject
      simp [hpolicy] at hobject
    · rename_i hretry
      simp only [hretry, if_false] at hpolicy hobject
      exact ⟨h, hpolicy, hobject⟩
  · split at hpolicy <;> simp_all

/-- The condition on `done`: a task that was routed by the governance is not redirected by
`finish_once`, and its request was the user's or did not succeed. -/
def DoneOk (task : Task) (f : FinishOnce) : Prop :=
  task.nsPolicy = some .governance ∧ task.requestObject = true →
    f.redirect = none ∧ ¬ (f.state = .success ∧ f.isUserRequest = false)

/-- With a router task `done` only starts it. -/
theorem done_routes {r : Router} {g : Governance} (hinv : TaskInv task)
    (hphase : task.phase = .finishing) (hrouter : task.routerTask = some r) :
    TaskInv { task with routerTask := none, phase := .routing r } ∧
      Effect False g task g { task with routerTask := none, phase := .routing r } := by
  have hredirect := hinv.redirect_eq_false (by simp [hphase])
  have hobject := (hinv.router (by simp [hrouter])).2
  have hholds : ({ task with routerTask := none, phase := .routing r } : Task).holds =
      task.holds := by
    simp [Task.holds, hphase, hrouter, hobject]
  refine ⟨⟨?_, ?_, ?_, ?_, ?_, ?_⟩, .same (.refl _) ?_⟩
  · rw [hholds]
    exact hinv.balance
  · rw [hholds]
    exact hinv.traced
  · rintro _ _ ⟨⟩
  · simp
  · intro r' _
    exact hobject
  · intro hr
    exact absurd (hredirect.symm.trans hr) Bool.false_ne_true
  · simp [Task.held, hholds]

/-- A task that holds a server tells the governance how it went, and holds it no longer. -/
theorem done_gives {now : Int} {f : FinishOnce} {g g' : Governance} {task₁ : Task}
    (hinv : TaskInv task) (hphase : task.phase = .finishing) (hrouter : task.routerTask = none)
    (hhold : task.nsPolicy = some .governance ∧ task.requestObject = true)
    (hnone : f.redirect = none) (huser : ¬ (f.state = .success ∧ f.isUserRequest = false))
    (h : Task.notify now g (task.finishOnce f) = some (g', task₁)) :
    TaskInv (task₁.afterNotify f.isUserRequest) ∧
      Effect False g task g' (task₁.afterNotify f.isUserRequest) := by
  have hredirect := hinv.redirect_eq_false (by simp [hphase])
  have hholds := Task.holds_of_active task (by rw [hphase]; rfl) hrouter
  rw [decide_eq_true hhold] at hholds
  obtain ⟨hpolicy', hrouter', hselects', hnotifies', hobject'⟩ :=
    afterNotify_frame f.isUserRequest task₁
  obtain ⟨hrouterF, hselectsF, hnotifiesF⟩ := finishOnce_frame task f
  obtain ⟨hpolicy, hobject, htracing, hred, hstate⟩ := finishOnce_of_none task hnone
  obtain ⟨i, hheld, hlast⟩ := hinv.held_of_holds hholds
  unfold Task.notify at h
  rw [if_pos ⟨hpolicy ▸ hhold.1, hobject ▸ hhold.2⟩] at h
  simp only [htracing ▸ hlast, Option.bind_eq_bind, Option.bind_some] at h
  obtain ⟨g₂, hreport, heq⟩ := Option.bind_eq_some_iff.mp h
  cases heq
  have hswitching : (Task.afterNotify f.isUserRequest
      { task.finishOnce f with notifies := (task.finishOnce f).notifies + 1 }).phase =
      .switching := by
    rcases afterNotify_phase f.isUserRequest _ with hsw | ⟨_, hst, hus, _⟩
    · exact hsw
    · exact absurd ⟨hstate.symm.trans hst, hus⟩ huser
  refine ⟨⟨?_, ?_, ?_, ?_, ?_, fun hr => ⟨hswitching, ?_⟩⟩, .give i hheld ?_ ?_⟩
  · have hbalance := hinv.balance
    rw [hholds] at hbalance
    rw [hselects', hnotifies', Task.holds_switching hswitching]
    simpa [hselectsF, hnotifiesF] using hbalance
  · rw [Task.holds_switching hswitching]
    exact fun hfalse => absurd hfalse Bool.false_ne_true
  · intro _ _ hready
    rw [hswitching] at hready
    cases hready
  · rw [hrouter']
    simp [hrouterF, hrouter]
  · intro r hr
    rw [hswitching] at hr
    cases hr
  · rintro ⟨hp, ho⟩
    have hwas := (afterNotify_redirect _ _ hr hp ho).1
    rw [hred, hredirect] at hwas
    cases hwas
  · exact Task.held_of_not_holds (Task.holds_switching hswitching)
  · unfold Task.report at hreport
    split at hreport
    · exact Or.inr ⟨now, hreport⟩
    · exact Or.inl hreport

/-- A task that holds none tells the governance nothing. -/
theorem done_keeps {f : FinishOnce} {g : Governance} (hinv : TaskInv task)
    (hphase : task.phase = .finishing) (hrouter : task.routerTask = none)
    (hhold : ¬ (task.nsPolicy = some .governance ∧ task.requestObject = true)) :
    TaskInv ((task.finishOnce f).afterNotify f.isUserRequest) ∧
      Effect False g task g ((task.finishOnce f).afterNotify f.isUserRequest) := by
  have hredirect := hinv.redirect_eq_false (by simp [hphase])
  have hholds := Task.holds_of_active task (by rw [hphase]; rfl) hrouter
  rw [decide_eq_false hhold] at hholds
  obtain ⟨hpolicy', hrouter', hselects', hnotifies', hobject'⟩ :=
    afterNotify_frame f.isUserRequest (task.finishOnce f)
  obtain ⟨hrouterF, hselectsF, hnotifiesF⟩ := finishOnce_frame task f
  have hfree' : (Task.afterNotify f.isUserRequest (task.finishOnce f)).nsPolicy =
      some .governance → (Task.afterNotify f.isUserRequest (task.finishOnce f)).requestObject =
      false := by
    intro hp
    rw [Bool.eq_false_iff]
    exact fun ho => not_governed_of_finishOnce hhold ⟨hpolicy' ▸ hp, hobject' ho⟩
  have hrouterA := hrouter'.trans (hrouterF.trans hrouter)
  refine hinv.keep (.refl _) hholds ?_ (hselects'.trans hselectsF) (hnotifies'.trans hnotifiesF)
    ?_ ?_ ?_ ?_
  · rcases afterNotify_phase f.isUserRequest (task.finishOnce f) with hsw | ⟨hready, _⟩
    · exact Task.holds_switching hsw
    · exact Task.not_holds_of_active (by rw [hready]; rfl) hrouterA hfree'
  · intro hp ho
    rw [hfree' hp] at ho
    cases ho
  · intro hsome
    rw [hrouterA] at hsome
    cases hsome
  · intro r hr
    rcases afterNotify_phase f.isUserRequest (task.finishOnce f) with hsw | ⟨hready, _⟩
    · rw [hsw] at hr
      cases hr
    · rw [hready] at hr
      cases hr
  · intro hr
    refine ⟨?_, fun ⟨hp, ho⟩ => Bool.false_ne_true ((hfree' hp).symm.trans ho)⟩
    rcases afterNotify_phase f.isUserRequest (task.finishOnce f) with hsw | ⟨_, hsucc, _, hred⟩
    · exact hsw
    · cases hf : f.redirect with
      | none =>
          rw [hr, (finishOnce_of_none task hf).2.2.2.1, hredirect] at hred
          cases hred
      | some outcome => exact absurd hsucc (finishOnce_of_some task hf).2

/-- `done` gives back what the task holds. -/
theorem done_spec {now : Int} {f : FinishOnce} {g g' : Governance} (hinv : TaskInv task)
    (hphase : task.phase = .finishing) (hok : DoneOk task f)
    (h : Task.done now f g task = some (g', task')) : TaskInv task' ∧ Effect False g task g' task' := by
  unfold Task.done at h
  split at h
  · rename_i r hrouter
    cases h
    exact done_routes hinv hphase hrouter
  · rename_i hrouter
    obtain ⟨⟨g₁, task₁⟩, hnotify, heq⟩ := Option.map_eq_some_iff.mp h
    cases heq
    by_cases hhold : task.nsPolicy = some .governance ∧ task.requestObject = true
    · obtain ⟨hnone, huser⟩ := hok hhold
      exact done_gives hinv hphase hrouter hhold hnone huser hnotify
    · unfold Task.notify at hnotify
      rw [if_neg (not_governed_of_finishOnce hhold)] at hnotify
      cases hnotify
      exact done_keeps hinv hphase hrouter hhold

/-- `switch_callback` runs when everything is given back. -/
theorem switchCallback_spec (g : Governance) (callback : Option Init) (hinv : TaskInv task)
    (hphase : task.phase = .switching) :
    TaskInv (task.switchCallback callback) ∧ Effect False g task g (task.switchCallback callback) := by
  have hholds := Task.holds_switching hphase
  have hrouter := hinv.routerTask_eq_none (by simp [hphase])
  unfold Task.switchCallback
  cases hredirect : task.redirect with
  | true =>
      have hfree := (hinv.redirect hredirect).2
      simp only [hredirect, if_true]
      refine hinv.keep (.refl _) hholds (Task.not_holds_of_active rfl hrouter ?_) rfl rfl ?_ ?_
        (by simp) (by simp)
      · intro hp
        rw [Bool.eq_false_iff]
        exact fun ho => hfree ⟨hp, ho⟩
      · intro hp ho
        exact absurd ⟨hp, ho⟩ hfree
      · simp [hrouter]
  | false =>
      cases callback with
      | none =>
          have hkept : task.switchState.redirect = false ∧ task.switchState.routerTask = none ∧
              task.switchState.selects = task.selects ∧
              task.switchState.notifies = task.notifies := by
            unfold Task.switchState
            split <;> simp [hredirect, hrouter]
          obtain ⟨hred, hrt, hsel, hnot⟩ := hkept
          simp only [hred, Bool.false_eq_true, if_false]
          exact hinv.keep (.refl _) hholds (Task.holds_gone rfl) hsel hnot (by simp)
            (by simp [hrt]) (by simp) (by simp)
      | some outcome =>
          have hkept : (task.switchState.setRedirect outcome).redirect = true ∧
              (task.switchState.setRedirect outcome).routerTask = none ∧
              (task.switchState.setRedirect outcome).nsPolicy = none ∧
              (task.switchState.setRedirect outcome).selects = task.selects ∧
              (task.switchState.setRedirect outcome).notifies = task.notifies := by
            unfold Task.switchState
            split <;> cases outcome <;>
              simp [Task.setRedirect, Task.init, Task.clearPrevState, hrouter]
          obtain ⟨hred, hrt, hpol, hsel, hnot⟩ := hkept
          simp only [hred, Bool.false_eq_true, if_false, if_true]
          refine hinv.keep (.refl _) hholds (Task.holds_of_other ?_) hsel hnot (by simp [hpol])
            (by simp [hrt]) (by simp) (by simp)
          simp [hpol]

/-! ### No undefined behaviour -/

/-- The breaker list holds registered servers, as the invariant of the breaker has it. -/
def BreakerOk (g : Governance) : Prop :=
  ∃ breaker, g.BreakerInv g.servers.toFinset breaker

/-- `route` finds its way whatever the policy is. -/
theorem route_defined (input : DispatchInput) {g : Governance} (task : Task) (h : BreakerOk g) :
    ∃ fuel g' task', Task.route fuel input g task = some (g', task') ∧ BreakerOk g' := by
  obtain ⟨breaker, hbr⟩ := h
  unfold Task.route
  simp only
  split
  · obtain ⟨fuel, g', x, breaker', hselect, h'⟩ :=
      Governance.select_spec input.now input.rand input.another hbr
    refine ⟨fuel, ?_⟩
    unfold Task.createRouterTask
    simp only [hselect, Option.map_some]
    cases x with
    | none => exact ⟨g', _, rfl, breaker', h'⟩
    | some i =>
        cases input.copyHostPort with
        | true => exact ⟨g', _, rfl, breaker', h'⟩
        | false => exact ⟨g', _, rfl, breaker', h'⟩
  · exact ⟨0, g, _, rfl, breaker, hbr⟩

theorem dispatch_defined (input : DispatchInput) {g : Governance} (task : Task) (h : BreakerOk g) :
    ∃ fuel g' task', Task.dispatch fuel input g task = some (g', task') ∧ BreakerOk g' := by
  unfold Task.dispatch
  split
  · split
    · exact ⟨0, g, _, rfl, h⟩
    · split
      · exact ⟨0, g, _, rfl, h⟩
      · obtain ⟨fuel, g', task', hroute, h'⟩ := route_defined input task h
        exact ⟨fuel, g', { task' with phase := .finishing }, by simp only [hroute, Option.map_some], h'⟩
  · exact ⟨0, g, _, rfl, h⟩
  · exact ⟨0, g, _, rfl, h⟩

/-- The condition on what `done` tells the governance about the server that the task holds: `failed`
does not bring a server that was removed into the breaker, and `success` does not unlink one that
was removed while it was in it. -/
def NotifyOk (g : Governance) (task : Task) (f : FinishOnce) : Prop :=
  task.routerTask = none → ∀ i ∈ task.held,
    if f.state = .sysError then g.FailedOk i
    else i ∈ g.servers ∨ g.links.next (.server i) = none

/-- The policy can be told about the server that the task holds. -/
theorem report_defined (now : Int) (state : TaskState) {g : Governance} {out : Nat → Nat} {i : Nat}
    (href : g.RefInv out) (hpos : 0 < out i) (h : BreakerOk g)
    (hok : if state = .sysError then g.FailedOk i
      else i ∈ g.servers ∨ g.links.next (.server i) = none) :
    ∃ g', Task.report now state g i = some g' ∧ BreakerOk g' := by
  obtain ⟨breaker, hbr⟩ := h
  unfold Task.report
  split at hok
  · rename_i hstate
    obtain ⟨g', breaker', hfailed, h'⟩ := Governance.failed_spec now href hpos hbr hok
    exact ⟨g', by rw [if_pos hstate, hfailed], breaker', h'⟩
  · rename_i hstate
    obtain ⟨g', breaker', hsuccess, h'⟩ := Governance.success_spec href hpos hbr hok
    exact ⟨g', by rw [if_neg hstate, hsuccess], breaker', h'⟩

theorem done_defined {f : FinishOnce} {g : Governance} {out : Nat → Nat} (now : Int)
    (hinv : TaskInv task) (hphase : task.phase = .finishing) (hok : DoneOk task f)
    (hnotify : NotifyOk g task f) (href : g.RefInv out) (hout : ∀ i ∈ task.held, 0 < out i)
    (h : BreakerOk g) :
    ∃ g' task', Task.done now f g task = some (g', task') ∧ BreakerOk g' := by
  unfold Task.done
  cases hrouter : task.routerTask with
  | some router => exact ⟨g, _, rfl, h⟩
  | none =>
      have hholds := Task.holds_of_active task (by rw [hphase]; rfl) hrouter
      simp only
      by_cases hhold : task.nsPolicy = some .governance ∧ task.requestObject = true
      · rw [decide_eq_true hhold] at hholds
        obtain ⟨i, hheld, hlast⟩ := hinv.held_of_holds hholds
        obtain ⟨hpolicy, hobject, htracing, -, hstate⟩ := finishOnce_of_none task (hok hhold).1
        obtain ⟨g', hreport, h'⟩ := report_defined now f.state href
          (hout i hheld) h (hnotify hrouter i hheld)
        refine ⟨g', Task.afterNotify f.isUserRequest
          { task.finishOnce f with notifies := (task.finishOnce f).notifies + 1 }, ?_, h'⟩
        unfold Task.notify
        rw [if_pos ⟨hpolicy ▸ hhold.1, hobject ▸ hhold.2⟩]
        simp only [htracing ▸ hlast, hstate, hreport, Option.bind_eq_bind, Option.bind_some,
          Option.pure_def, Option.map_some]
      · refine ⟨g, Task.afterNotify f.isUserRequest (task.finishOnce f), ?_, h⟩
        unfold Task.notify
        rw [if_neg (not_governed_of_finishOnce hhold)]
        rfl

theorem dispatch_mono {fuel fuel' : Nat} {input : DispatchInput} {g : Governance}
    {r : Governance × Task} (hle : fuel ≤ fuel') (h : Task.dispatch fuel input g task = some r) :
    Task.dispatch fuel' input g task = some r := by
  have hroute : ∀ {r}, Task.route fuel input g task = some r →
      Task.route fuel' input g task = some r := by
    intro r h
    unfold Task.route at h ⊢
    simp only at h ⊢
    split at h
    · obtain ⟨x, hselect, hx⟩ := Option.map_eq_some_iff.mp h
      unfold Task.createRouterTask
      rw [System.select_mono hle hselect, Option.map_some, hx]
    · exact h
  unfold Task.dispatch at h ⊢
  split at h
  · split at h
    · exact h
    · split at h
      · rename_i hobject
        rw [if_pos hobject, h]
      · rename_i hobject
        obtain ⟨x, hx, heq⟩ := Option.map_eq_some_iff.mp h
        rw [if_neg hobject, hroute hx, Option.map_some, heq]
  · exact h
  · exact h

/-! ### Whole runs -/

/-- How many tasks hold a reference to server `i`. -/
def outstanding (tasks : List Task) (i : Nat) : Nat :=
  tasks.countP fun task => task.held = some i

theorem outstanding_set {tasks : List Task} {t : Nat} (h : tasks[t]? = some task) (i : Nat) :
    outstanding (tasks.set t task') i =
      outstanding tasks i - (if task.held = some i then 1 else 0) +
        if task'.held = some i then 1 else 0 := by
  obtain ⟨hlt, rfl⟩ := List.getElem?_eq_some_iff.mp h
  simp [outstanding, List.countP_set hlt]

theorem outstanding_pos {tasks : List Task} {i : Nat} (hmem : task ∈ tasks)
    (h : task.held = some i) : 0 < outstanding tasks i :=
  List.countP_pos_iff.mpr ⟨task, hmem, by simp [h]⟩

/-- The references after a step of the `t`-th task. -/
theorem Effect.refInv {maySelect : Prop} {g g' : Governance} {tasks : List Task} {t : Nat}
    (heffect : Effect maySelect g task g' task') (ht : tasks[t]? = some task)
    (hinv : g.RefInv (outstanding tasks))
    (hfit : maySelect → ∀ i ∈ g.servers, outstanding tasks i + 2 < 2 ^ 32) :
    g'.RefInv (outstanding (tasks.set t task')) := by
  have hmem : task ∈ tasks := List.mem_of_getElem? ht
  cases heffect with
  | same hrefs hheld =>
      have hout : outstanding (tasks.set t task') = outstanding tasks := by
        funext i
        rw [outstanding_set ht, hheld]
        by_cases hi : task.held = some i
        · have := outstanding_pos hmem hi
          rw [if_pos hi]
          omega
        · simp [hi]
      rw [hout]
      exact hinv.sameRefs hrefs
  | take hselect i g₁ hrefs hi hmod hbefore hafter =>
      have hout : outstanding (tasks.set t task') =
          Function.update (outstanding tasks) i (outstanding tasks i + 1) := by
        funext j
        rw [outstanding_set ht, hbefore, hafter]
        rcases eq_or_ne j i with rfl | hne
        · simp
        · simp [hne, hne.symm]
      rw [hout]
      have hlt := hfit hselect i (hrefs.servers ▸ hi)
      exact (hinv.sameRefs hrefs).take hi (by omega) hmod
  | give i hbefore hafter hgov =>
      have hpos := outstanding_pos hmem hbefore
      have hout : outstanding (tasks.set t task') =
          Function.update (outstanding tasks) i (outstanding tasks i - 1) := by
        funext j
        rw [outstanding_set ht, hbefore, hafter]
        rcases eq_or_ne j i with rfl | hne
        · simp
        · simp [hne, hne.symm]
      rw [hout]
      rcases hgov with hsuccess | ⟨now, hfailed⟩
      · exact hinv.success hpos hsuccess
      · exact hinv.failed hpos hfailed

namespace Clients

/-- The condition on a step: `copy_host_port` finds memory and no counter overflows; a selected
server is resolved; `done` meets `DoneOk` and `NotifyOk`; and a task that holds a server is not
cancelled. -/
def StepOk (s : Clients) : ClientOp → Prop
  | .dispatch _ input =>
      input.copyHostPort = true ∧ ∀ i ∈ s.gov.servers, outstanding s.tasks i + 2 < 2 ^ 32
  | .routed t state _ => ∀ task ∈ s.tasks[t]?, task.holds = true → state = .success
  | .done t _ f => ∀ task ∈ s.tasks[t]?, DoneOk task f ∧ NotifyOk s.gov task f
  | .canceled t => ∀ task ∈ s.tasks[t]?, task.holds = false
  | .addServer .. => s.gov.servers.length + 1 < 2 ^ 31
  | .replaceServer .. => s.gov.servers.length + 1 < 2 ^ 31
  | _ => True

/-- A member function of a task is called where the task is ready for it. -/
def Enabled (s : Clients) : ClientOp → Prop
  | .dispatch t _ => ∃ task ∈ s.tasks[t]?, task.phase = .ready
  | .routed t .. => ∃ task ∈ s.tasks[t]?,
      task.phase = .routing .selectorFail ∨ task.phase = .routing .resolver
  | .replied t .. => ∃ task ∈ s.tasks[t]?, task.phase = .requesting
  | .done t .. => ∃ task ∈ s.tasks[t]?, task.phase = .finishing
  | .switchCallback t _ => ∃ task ∈ s.tasks[t]?, task.phase = .switching
  | .canceled t => ∃ task ∈ s.tasks[t]?, task.phase = .ready ∨
      task.phase = .routing .selectorFail ∨ task.phase = .routing .resolver
  | _ => True

instance (task : Task) (f : FinishOnce) : Decidable (DoneOk task f) := by
  unfold DoneOk
  infer_instance

instance (g : Governance) (task : Task) (f : FinishOnce) : Decidable (NotifyOk g task f) := by
  unfold NotifyOk
  infer_instance

instance (s : Clients) (op : ClientOp) : Decidable (s.StepOk op) := by
  cases op <;> unfold StepOk <;> infer_instance

/-- The references and the tasks are in balance. -/
structure Inv (s : Clients) : Prop where
  refs : s.gov.RefInv (outstanding s.tasks)
  tasks : ∀ task ∈ s.tasks, TaskInv task

theorem onTask_inv (maySelect : Prop) {s s' : Clients} {t : Nat} {callable : Phase → Bool}
    {f : Governance → Task → Option (Governance × Task)} (hinv : s.Inv)
    (h : s.onTask t callable f = some s')
    (hfit : maySelect → ∀ i ∈ s.gov.servers, outstanding s.tasks i + 2 < 2 ^ 32)
    (hf : ∀ task g' task', s.tasks[t]? = some task → callable task.phase = true → TaskInv task →
      f s.gov task = some (g', task') → TaskInv task' ∧ Effect maySelect s.gov task g' task') :
    s'.Inv := by
  obtain ⟨task, ht, h⟩ := Option.bind_eq_some_iff.mp h
  split at h
  · rename_i hcall
    obtain ⟨⟨g', task'⟩, hstep, heq⟩ := Option.bind_eq_some_iff.mp h
    cases heq
    obtain ⟨hinv', heffect⟩ := hf task g' task' ht hcall
      (hinv.tasks task (List.mem_of_getElem? ht)) hstep
    refine ⟨heffect.refInv ht hinv.refs hfit, fun task₂ hmem => ?_⟩
    rcases List.mem_or_eq_of_mem_set hmem with hmem | rfl
    · exact hinv.tasks task₂ hmem
    · exact hinv'
  · cases h

theorem onServers_inv {s s' : Clients} {g : Option Governance} (hinv : s.Inv)
    (h : s.onServers g = some s')
    (hg : ∀ g', g = some g' → g'.RefInv (outstanding s.tasks)) : s'.Inv := by
  obtain ⟨g', hsome, rfl⟩ := Option.map_eq_some_iff.mp h
  exact ⟨hg g' hsome, hinv.tasks⟩

theorem create_taskInv (retryMax : Int) (outcome : Init) :
    TaskInv ((Task.new retryMax).init outcome) ∧ ((Task.new retryMax).init outcome).held = none := by
  have hpolicy : ((Task.new retryMax).init outcome).nsPolicy = none := by cases outcome <;> rfl
  have hholds : ((Task.new retryMax).init outcome).holds = false :=
    Task.holds_of_other (by simp [hpolicy])
  refine ⟨⟨?_, ?_, ?_, ?_, ?_, ?_⟩, Task.held_of_not_holds hholds⟩
  · rw [hholds]
    cases outcome <;> rfl
  · rw [hholds]
    exact fun hfalse => absurd hfalse Bool.false_ne_true
  · rw [hpolicy]
    exact fun hp => by cases hp
  · cases outcome <;> simp [Task.init, Task.new]
  · cases outcome <;> simp [Task.init, Task.new]
  · cases outcome <;> simp [Task.init, Task.new]

/-- A fine step keeps the references and the tasks in balance. -/
theorem exec_inv {fuel : Nat} {s s' : Clients} {op : ClientOp} (hinv : s.Inv) (hok : s.StepOk op)
    (h : s.exec fuel op = some s') : s'.Inv := by
  unfold exec at h
  cases op with
  | create retryMax outcome =>
      obtain rfl := Option.some.inj h
      obtain ⟨htask, hheld⟩ := create_taskInv retryMax outcome
      have hout : outstanding (s.tasks ++ [(Task.new retryMax).init outcome]) =
          outstanding s.tasks := by
        funext i
        simp [outstanding, hheld]
      refine ⟨hout ▸ hinv.refs, fun task hmem => ?_⟩
      rcases List.mem_append.mp hmem with hmem | hmem
      · exact hinv.tasks task hmem
      · rwa [List.mem_singleton.mp hmem]
  | dispatch t input =>
      refine onTask_inv True hinv h (fun _ => hok.2) ?_
      intro task g' task' _ hphase htask hstep
      exact dispatch_spec htask (of_decide_eq_true hphase) hok.1 hstep
  | routed t state error =>
      refine onTask_inv False hinv h (fun hfalse => hfalse.elim) ?_
      intro task g' task' ht hphase htask hstep
      cases hstep
      rcases of_decide_eq_true hphase with hphase | hphase
      · exact routerCallback_spec s.gov error htask hphase (hok task ht)
      · exact routerCallback_spec s.gov error htask hphase (hok task ht)
  | replied t state error =>
      refine onTask_inv False hinv h (fun hfalse => hfalse.elim) ?_
      intro task g' task' _ hphase htask hstep
      cases hstep
      have hphase := of_decide_eq_true hphase
      obtain ⟨hinv', hheld⟩ := htask.proceed (by rw [hphase]; rfl)
        (htask.routerTask_eq_none (by simp [hphase])) (.inr rfl)
      exact ⟨hinv', .same (.refl _) hheld⟩
  | done t now f =>
      refine onTask_inv False hinv h (fun hfalse => hfalse.elim) ?_
      intro task g' task' ht hphase htask hstep
      exact done_spec htask (of_decide_eq_true hphase) (hok task ht).1 hstep
  | switchCallback t callback =>
      refine onTask_inv False hinv h (fun hfalse => hfalse.elim) ?_
      intro task g' task' _ hphase htask hstep
      cases hstep
      exact switchCallback_spec s.gov callback htask (of_decide_eq_true hphase)
  | canceled t =>
      refine onTask_inv False hinv h (fun hfalse => hfalse.elim) ?_
      intro task g' task' ht hphase htask hstep
      cases hstep
      have hrouter := htask.routerTask_eq_none (by
        rintro hfin
        simp [hfin] at hphase)
      have hredirect := htask.redirect_eq_false (by
        rintro hsw
        simp [hsw] at hphase)
      exact htask.keep (.refl _) (hok task ht) (Task.holds_gone rfl) rfl rfl (by simp)
        (by simp [hrouter]) (by simp) (by simp [hredirect])
  | addServer address maxFails => exact onServers_inv hinv h fun g' hg => hinv.refs.addServer hg
  | removeServer address =>
      exact onServers_inv hinv h fun g' hg => hinv.refs.removeServerLocked hg
  | replaceServer address maxFails =>
      refine onServers_inv hinv h fun g' hg => ?_
      obtain ⟨g₁, hadd, hremove⟩ := Option.bind_eq_some_iff.mp hg
      exact (hinv.refs.addServer hadd).removeServerLocked hremove
  | enableServer address =>
      exact onServers_inv hinv h fun g' hg => hinv.refs.sameRefs
        (Governance.foldlM_sameRefs Governance.recoverServerFromBreaker_sameRefs hg)
  | disableServer address now =>
      exact onServers_inv hinv h fun g' hg => hinv.refs.sameRefs
        (Governance.foldlM_sameRefs Governance.disableOne_sameRefs hg)
  | checkBreaker now =>
      exact onServers_inv hinv h fun g' hg => hinv.refs.sameRefs
        (Governance.checkBreaker_sameRefs hg)

/-! #### Every step that can be taken is taken -/

theorem onTask_eq {s : Clients} {t : Nat} (callable : Phase → Bool)
    {f : Governance → Task → Option (Governance × Task)} {task : Task} {r : Governance × Task}
    (ht : task ∈ s.tasks[t]?) (hphase : callable task.phase = true) (hf : f s.gov task = some r) :
    s.onTask t callable f = some { gov := r.1, tasks := s.tasks.set t r.2 } := by
  have ht : s.tasks[t]? = some task := ht
  simp [onTask, ht, hphase, hf]

/-- What the governance does on its own, as an operation of the governance with the selections that
the tasks hold. -/
theorem onServers_defined {s : Clients} (op : Op) {g : Nat → Option Governance} (hinv : s.Inv)
    (hbr : BreakerOk s.gov) (hok : System.StepOk ⟨s.gov, outstanding s.tasks⟩ op)
    (hen : System.Enabled ⟨s.gov, outstanding s.tasks⟩ op)
    (hop : ∀ fuel, System.exec fuel ⟨s.gov, outstanding s.tasks⟩ op =
      (g fuel).map fun g => ⟨g, outstanding s.tasks⟩) :
    ∃ fuel t, s.onServers (g fuel) = some t ∧ BreakerOk t.gov := by
  obtain ⟨fuel, t, breaker, hexec, h'⟩ := System.exec_breakerInv
    (s := ⟨s.gov, outstanding s.tasks⟩) ⟨hinv.refs, hbr⟩ hok hen
  rw [hop] at hexec
  obtain ⟨g', hg, rfl⟩ := Option.map_eq_some_iff.mp hexec
  exact ⟨fuel, { s with gov := g' }, by rw [onServers, hg, Option.map_some], breaker, h'⟩

/-- A fine step is defined, and the breaker list stays in order. -/
theorem exec_breakerOk {s : Clients} {op : ClientOp} (hinv : s.Inv) (hbr : BreakerOk s.gov)
    (hok : s.StepOk op) (hen : s.Enabled op) :
    ∃ fuel t, s.exec fuel op = some t ∧ BreakerOk t.gov := by
  -- the steps of a task that leave the governance as it is
  have hkeep : ∀ {i : Nat} {callable : Phase → Bool}
      {f : Governance → Task → Option (Governance × Task)} (step : Task → Task),
      (∀ task, f s.gov task = some (s.gov, step task)) →
      (∃ task ∈ s.tasks[i]?, callable task.phase = true) →
      ∃ t, s.onTask i callable f = some t ∧ BreakerOk t.gov := by
    rintro i callable f step hf ⟨task, ht, hphase⟩
    exact ⟨_, onTask_eq _ ht hphase (hf task), hbr⟩
  cases op with
  | create retryMax outcome => exact ⟨0, _, rfl, hbr⟩
  | dispatch i input =>
      obtain ⟨task, ht, hphase⟩ := hen
      obtain ⟨fuel, g', task', hdispatch, h'⟩ := dispatch_defined input task hbr
      have hexec := onTask_eq (fun phase => phase = .ready) ht
        (decide_eq_true hphase) hdispatch
      exact ⟨fuel, _, hexec, h'⟩
  | routed i state error =>
      refine ⟨0, ?_⟩
      unfold exec
      exact hkeep _ (fun _ => rfl) (hen.imp fun _ => And.imp_right decide_eq_true)
  | replied i state error =>
      refine ⟨0, ?_⟩
      unfold exec
      exact hkeep _ (fun _ => rfl) (hen.imp fun _ => And.imp_right decide_eq_true)
  | done i now f =>
      obtain ⟨task, ht, hphase⟩ := hen
      have hmem : task ∈ s.tasks := List.mem_of_getElem? ht
      obtain ⟨hdone, hnotify⟩ := hok task ht
      obtain ⟨g', task', hexec, h'⟩ := done_defined now (hinv.tasks task hmem) hphase hdone hnotify
        hinv.refs (fun i hi => outstanding_pos hmem hi) hbr
      have hexec := onTask_eq (fun phase => phase = .finishing) ht
        (decide_eq_true hphase) hexec
      exact ⟨0, _, hexec, h'⟩
  | switchCallback i callback =>
      refine ⟨0, ?_⟩
      unfold exec
      exact hkeep _ (fun _ => rfl) (hen.imp fun _ => And.imp_right decide_eq_true)
  | canceled i =>
      refine ⟨0, ?_⟩
      unfold exec
      exact hkeep _ (fun _ => rfl) (hen.imp fun _ => And.imp_right decide_eq_true)
  | addServer address maxFails =>
      exact onServers_defined (.addServer address maxFails) hinv hbr hok trivial fun _ => rfl
  | removeServer address =>
      exact onServers_defined (.removeServer address) hinv hbr trivial trivial fun _ => rfl
  | replaceServer address maxFails =>
      exact onServers_defined (.replaceServer address maxFails) hinv hbr hok trivial
        fun _ => rfl
  | enableServer address =>
      exact onServers_defined (.enableServer address) hinv hbr trivial trivial fun _ => rfl
  | disableServer address now =>
      exact onServers_defined (.disableServer address now) hinv hbr trivial trivial
        fun _ => rfl
  | checkBreaker now =>
      exact onServers_defined (.checkBreaker now) hinv hbr trivial trivial fun _ => rfl

/-- More fuel does not change what a step does. -/
theorem exec_mono {fuel fuel' : Nat} {s t : Clients} {op : ClientOp} (hle : fuel ≤ fuel')
    (h : s.exec fuel op = some t) : s.exec fuel' op = some t := by
  cases op with
  | dispatch i input =>
      obtain ⟨task, ht, h⟩ := Option.bind_eq_some_iff.mp h
      split at h
      · rename_i hphase
        obtain ⟨r, hdispatch, heq⟩ := Option.bind_eq_some_iff.mp h
        cases heq
        unfold exec
        exact onTask_eq _ ht hphase (dispatch_mono hle hdispatch)
      · cases h
  | checkBreaker now =>
      obtain ⟨g, hcheck, hr⟩ := Option.map_eq_some_iff.mp h
      simp only [exec, onServers, System.checkBreaker_mono hle hcheck, Option.map_some, hr]
  | _ => exact h

theorem exec_enabled {fuel : Nat} {s t : Clients} {op : ClientOp} (h : s.exec fuel op = some t) :
    s.Enabled op := by
  have honTask : ∀ {i : Nat} {callable : Phase → Bool}
      {f : Governance → Task → Option (Governance × Task)}, s.onTask i callable f = some t →
      ∃ task ∈ s.tasks[i]?, callable task.phase = true := by
    intro i callable f h
    obtain ⟨task, ht, h⟩ := Option.bind_eq_some_iff.mp h
    split at h
    · rename_i hphase
      exact ⟨task, ht, hphase⟩
    · cases h
  unfold exec at h
  cases op with
  | dispatch i input => exact (honTask h).imp fun _ => And.imp_right of_decide_eq_true
  | routed i state error => exact (honTask h).imp fun _ => And.imp_right of_decide_eq_true
  | replied i state error => exact (honTask h).imp fun _ => And.imp_right of_decide_eq_true
  | done i now f => exact (honTask h).imp fun _ => And.imp_right of_decide_eq_true
  | switchCallback i callback => exact (honTask h).imp fun _ => And.imp_right of_decide_eq_true
  | canceled i => exact (honTask h).imp fun _ => And.imp_right of_decide_eq_true
  | _ => trivial

theorem reachable_inv {mttrSecond : UInt32} {tryAnother : Bool} {s : Clients}
    (h : Reachable (machine mttrSecond tryAnother) StepOk s) : s.Inv ∧ BreakerOk s.gov := by
  refine Reachable.invariant (P := fun s => s.Inv ∧ BreakerOk s.gov) (fun s hs => ?_)
    (fun s op s' hinv hok hstep => ?_) h
  · obtain rfl : s = _ := hs
    exact ⟨⟨System.new_refInv mttrSecond tryAnother, by simp [new]⟩,
      (System.new_inv mttrSecond tryAnother).2⟩
  · obtain ⟨fuel, hexec⟩ := hstep
    refine ⟨exec_inv hinv.1 hok hexec, ?_⟩
    obtain ⟨fuel', s₁, hexec', hbr⟩ := exec_breakerOk hinv.1 hinv.2 hok (exec_enabled hexec)
    have heq : some s' = some s₁ := by
      rw [← exec_mono (Nat.le_max_left fuel fuel') hexec,
        exec_mono (Nat.le_max_right fuel fuel') hexec']
    obtain rfl := Option.some.inj heq
    exact hbr

end Clients

/-- Every selection is answered once, a registered server is alive and referred to by nobody but its
registration when no selection is outstanding, and every fine step that the tasks are ready for ends
without undefined behaviour. -/
theorem client_balance {mttrSecond : UInt32} {tryAnother : Bool} {s : Clients}
    (h : Reachable (Clients.machine mttrSecond tryAnother) Clients.StepOk s) :
    (∀ task ∈ s.tasks, task.notifies ≤ task.selects ∧ task.selects ≤ task.notifies + 1 ∧
      (task.phase = .gone → task.notifies = task.selects)) ∧
    (∀ i ∈ s.gov.servers, ∃ a, s.gov.heap i = some a ∧ 1 ≤ a.ref.toNat ∧
      ((∀ task ∈ s.tasks, task.notifies = task.selects) → a.ref.toNat = 1)) ∧
    ∀ op, s.Enabled op → s.StepOk op → ∃ fuel t, s.exec fuel op = some t := by
  obtain ⟨hinv, hbr⟩ := Clients.reachable_inv h
  refine ⟨fun task hmem => ?_, fun i hi => ?_, fun op hen hok => ?_⟩
  · have hbalance := (hinv.tasks task hmem).balance
    refine ⟨by omega, by split at hbalance <;> omega, fun hgone => ?_⟩
    rw [Task.holds_gone hgone] at hbalance
    exact hbalance.symm
  · obtain ⟨a, ha, hr⟩ := hinv.refs.heap_of_mem hi
    refine ⟨a, ha, by omega, fun hdone => ?_⟩
    have hout : outstanding s.tasks i = 0 := by
      refine List.countP_eq_zero.mpr fun task hmem => ?_
      have hbalance := (hinv.tasks task hmem).balance
      have hdone := hdone task hmem
      cases hholds : task.holds with
      | true =>
          rw [hholds] at hbalance
          simp only [if_true] at hbalance
          omega
      | false => simp [Task.held_of_not_holds hholds]
    omega
  · obtain ⟨fuel, t, hexec, -⟩ := Clients.exec_breakerOk hinv hbr hok hen
    exact ⟨fuel, t, hexec⟩

/-- A dispatch that is routed by the governance. -/
def governed : DispatchInput where
  checkRequest := none
  policy := .governance
  now := 0
  rand := 0
  another := 0
  copyHostPort := true

/-- A `finish_once` that leaves a success as it is. -/
def finished (isUserRequest : Bool) : FinishOnce where
  isUserRequest := isUserRequest
  state := .success
  error := 0
  disableRetry := false
  redirect := none

/-- A request without internal requests: one selection, one answer. -/
theorem client_balance_plain : ∃ s,
    Reachable (Clients.machine 30 false) Clients.StepOk s ∧
      s.tasks.map (fun task => (task.phase, task.selects, task.notifies)) = [(.gone, 1, 1)] ∧
      (∀ i ∈ s.gov.servers, ∃ a, s.gov.heap i = some a ∧ 1 ≤ a.ref.toNat ∧
        ((∀ task ∈ s.tasks, task.notifies = task.selects) → a.ref.toNat = 1)) ∧
      ∀ op, s.Enabled op → s.StepOk op → ∃ fuel t, s.exec fuel op = some t := by
  have hrun : (runChecked Clients.exec Clients.StepOk 2 (Clients.new 30 false)
      [.addServer "a" 1, .create 0 .toRoute, .dispatch 0 governed, .done 0 0 (finished true),
        .routed 0 .success 0, .dispatch 0 governed, .replied 0 .success 0,
        .done 0 0 (finished true), .switchCallback 0 none]).map
      (fun s => s.tasks.map fun task => (task.phase, task.selects, task.notifies)) =
      some [(.gone, 1, 1)] := by
    decide +kernel
  obtain ⟨s, hs, heq⟩ := Option.map_eq_some_iff.mp hrun
  have hreach := runChecked_reachable (Reachable.init rfl) hs
  exact ⟨s, hreach, heq, (client_balance hreach).2⟩

/-- With one internal request before the user's the only selection is answered twice, and the object
of the server is deleted although the server is registered. -/
theorem client_internal_request : ∃ s,
    Reachable (Clients.machine 30 false) (fun _ _ => True) s ∧
      s.tasks.map (fun task => (task.phase, task.selects, task.notifies)) = [(.gone, 1, 2)] ∧
      s.gov.servers = [0] ∧ s.gov.heap 0 = none := by
  have hrun : (runChecked Clients.exec (fun _ _ => True) 2 (Clients.new 30 false)
      [.addServer "a" 1, .create 0 .toRoute, .dispatch 0 governed, .done 0 0 (finished true),
        .routed 0 .success 0, .dispatch 0 governed, .replied 0 .success 0,
        .done 0 0 (finished false), .dispatch 0 governed, .replied 0 .success 0,
        .done 0 0 (finished true), .switchCallback 0 none]).map
      (fun s => (s.tasks.map (fun task => (task.phase, task.selects, task.notifies)),
        s.gov.servers, (s.gov.heap 0).isNone)) = some ([(.gone, 1, 2)], [0], true) := by
    decide +kernel
  obtain ⟨s, hs, heq⟩ := Option.map_eq_some_iff.mp hrun
  simp only [Prod.mk.injEq, Option.isNone_iff_eq_none] at heq
  exact ⟨s, runChecked_reachable (Reachable.init rfl) hs, heq⟩

end Workflow.Factory
