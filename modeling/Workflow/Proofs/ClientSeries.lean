/-
Module: Workflow.Proofs.ClientSeries
Layer: Proofs
Purpose: The run of a client task in its series. `Place` says where the task, its router task and its
  timer are in every reachable state, and how many events are still to come in the round; one lemma
  for each step, and from them the number of restarts, the single callback and the length of runs.
Trusted boundary: none
Main exports: Waits, Place, RunInv, clientSeries_run
-/
import Workflow.Factory.ClientSeries
import Mathlib.Data.List.Basic
import Mathlib.Tactic.Ring

namespace Workflow.Factory

open Workflow.Lib
open Workflow.Nameservice

/-! ### The queue -/

namespace ClientSeries

theorem others_nil : Others [] := by
  simp [Others]

theorem others_cons {id : Nat} {items : List Item} (h : Others items) :
    Others (.other id :: items) := by
  intro item hitem
  rcases List.mem_cons.mp hitem with rfl | hin
  · exact ⟨id, rfl⟩
  · exact h item hin

/-- Another task joins the others at the end. -/
theorem Others.snoc {id : Nat} {items : List Item} (h : Others items) :
    Others (items ++ [.other id]) := by
  intro item hitem
  rcases List.mem_append.mp hitem with hin | hin
  · exact h item hin
  · exact ⟨id, List.mem_singleton.mp hin⟩

/-- The first of them is another task. -/
theorem Others.head {item : Item} {items : List Item} (h : Others (item :: items)) :
    (∃ id, item = .other id) ∧ Others items :=
  ⟨h item List.mem_cons_self, fun i hi => h i (List.mem_cons_of_mem item hi)⟩

/-- The task that is followed is not among them. -/
theorem Others.count {item : Item} {items : List Item} (h : Others items)
    (hitem : ∀ id, item ≠ .other id) : items.count item = 0 := by
  rw [List.count_eq_zero]
  intro hmem
  obtain ⟨id, hid⟩ := h item hmem
  exact hitem id hid

end ClientSeries

open ClientSeries

/-- The items of `block` stand in the queue one behind the other, and all others are other tasks. -/
structure Waits (block : List Item) (d : Deque Item) : Prop where
  items : ∃ before after, d.items = before ++ block ++ after ∧ Others before ∧ Others after
  last : Others d.last.toList

namespace Waits

variable {block : List Item} {d : Deque Item}

/-- Another task goes in front of the block. -/
theorem push (h : Waits block d) (id : Nat) : Waits block (d.step (.pushFront (.other id))) := by
  obtain ⟨before, after, heq, hbefore, hafter⟩ := h.items
  refine ⟨⟨.other id :: before, after, ?_, others_cons hbefore, hafter⟩, h.last⟩
  simp only [Deque.step, heq, List.cons_append]

/-- Another task goes to the end. -/
theorem pushBack (h : Waits block d) (id : Nat) : Waits block (d.step (.pushBack (.other id))) := by
  obtain ⟨before, after, heq, hbefore, hafter⟩ := h.items
  refine ⟨⟨before, after ++ [.other id], ?_, hbefore, hafter.snoc⟩, h.last⟩
  simp only [Deque.step, heq, List.append_assoc]

theorem setLast (h : Waits block d) (id : Option Nat) :
    Waits block { d with last := id.map .other } := by
  refine ⟨h.items, ?_⟩
  intro item hitem
  cases id with
  | none => cases hitem
  | some id => exact ⟨id, List.mem_singleton.mp hitem⟩

/-- A task waits in front of the others. -/
theorem pushFront {d : Deque Item} (h : Waits [] d) (item : Item) :
    Waits [item] (d.step (.pushFront item)) := by
  obtain ⟨before, after, heq, hbefore, hafter⟩ := h.items
  refine ⟨⟨[], before ++ after, ?_, others_nil, ?_⟩, h.last⟩
  · simp only [Deque.step, heq, List.append_nil, List.nil_append, List.cons_append]
  · intro i hi
    rcases List.mem_append.mp hi with hin | hin
    · exact hbefore i hin
    · exact hafter i hin

/-- Two tasks wait one behind the other. -/
theorem pushTwo {d : Deque Item} (h : Waits [] d) (item item' : Item) :
    Waits [item', item] ((d.step (.pushFront item)).step (.pushFront item')) := by
  obtain ⟨before, after, heq, hbefore, hafter⟩ := h.items
  refine ⟨⟨[], before ++ after, ?_, others_nil, ?_⟩, h.last⟩
  · simp only [Deque.step, heq, List.append_nil, List.nil_append, List.cons_append]
  · intro i hi
    rcases List.mem_append.mp hi with hin | hin
    · exact hbefore i hin
    · exact hafter i hin

/-- A pop takes another task, or the head of the block, or finds nothing. -/
theorem pop (h : Waits block d) :
    (∃ id, d.front = some (.other id) ∧ Waits block (d.step .popTask)) ∨
    (∃ item rest, block = item :: rest ∧ d.front = some item ∧ Waits rest (d.step .popTask)) ∨
    (block = [] ∧ d.front = none ∧ Waits [] (d.step .popTask)) := by
  obtain ⟨items, last⟩ := d
  obtain ⟨⟨before, after, heq, hbefore, hafter⟩, hlast⟩ := h
  simp only at heq hlast
  cases before with
  | cons item before =>
      obtain ⟨⟨id, rfl⟩, hrest⟩ := hbefore.head
      left
      refine ⟨id, ?_, ⟨⟨before, after, ?_, hrest, hafter⟩, ?_⟩⟩
      · simp [Deque.front, heq]
      · simp [Deque.step, heq]
      · simpa [Deque.step, heq] using hlast
  | nil =>
      cases block with
      | cons item rest =>
          right; left
          refine ⟨item, rest, rfl, ?_, ⟨⟨[], after, ?_, others_nil, hafter⟩, ?_⟩⟩
          · simp [Deque.front, heq]
          · simp [Deque.step, heq]
          · simpa [Deque.step, heq] using hlast
      | nil =>
          cases after with
          | cons item after =>
              obtain ⟨⟨id, rfl⟩, hrest⟩ := hafter.head
              left
              refine ⟨id, ?_, ⟨⟨[], after, ?_, others_nil, hrest⟩, ?_⟩⟩
              · simp [Deque.front, heq]
              · simp [Deque.step, heq]
              · simpa [Deque.step, heq] using hlast
          | nil =>
              have hempty : items = [] := by simpa using heq
              subst hempty
              cases last with
              | some item =>
                  obtain ⟨id, rfl⟩ := hlast item List.mem_cons_self
                  left
                  exact ⟨id, rfl, ⟨⟨[], [], rfl, others_nil, others_nil⟩, others_nil⟩⟩
              | none =>
                  right; right
                  exact ⟨rfl, rfl, ⟨⟨[], [], rfl, others_nil, others_nil⟩, others_nil⟩⟩

/-- The task waits as often as it is in the block. -/
theorem count_client (h : Waits block d) :
    d.items.count .client + d.last.toList.count .client = block.count .client := by
  obtain ⟨before, after, heq, hbefore, hafter⟩ := h.items
  have hne : ∀ id, Item.client ≠ .other id := by simp
  rw [heq, List.count_append, List.count_append, hbefore.count hne, hafter.count hne,
    h.last.count hne, Nat.zero_add, Nat.add_zero]

end Waits

/-- The client task waits in the queue, perhaps as the last task of the series. -/
def Queued (d : Deque Item) : Prop :=
  Waits [.client] d ∨ (Others d.items ∧ d.last = some .client)

namespace Queued

variable {d : Deque Item}

theorem push (h : Queued d) (id : Nat) : Queued (d.step (.pushFront (.other id))) := by
  rcases h with h | ⟨hitems, hlast⟩
  · exact .inl (h.push id)
  · exact .inr ⟨others_cons hitems, hlast⟩

theorem pushBack (h : Queued d) (id : Nat) : Queued (d.step (.pushBack (.other id))) := by
  rcases h with h | ⟨hitems, hlast⟩
  · exact .inl (h.pushBack id)
  · exact .inr ⟨hitems.snoc, hlast⟩

theorem setLast (h : Queued d) (hlast : d.last ≠ some .client) (id : Option Nat) :
    Queued { d with last := id.map .other } := by
  rcases h with h | ⟨-, hclient⟩
  · exact .inl (h.setLast id)
  · exact absurd hclient hlast

/-- The front is another task, or the task itself. -/
theorem pop (h : Queued d) :
    (∃ id, d.front = some (.other id) ∧ Queued (d.step .popTask)) ∨
      (d.front = some .client ∧ Waits [] (d.step .popTask)) := by
  rcases h with h | ⟨hitems, hlast⟩
  · rcases h.pop with ⟨id, hfront, hwait⟩ | ⟨item, rest, heq, hfront, hwait⟩ | ⟨heq, -, -⟩
    · exact .inl ⟨id, hfront, .inl hwait⟩
    · cases heq
      exact .inr ⟨hfront, hwait⟩
    · cases heq
  · obtain ⟨items, last⟩ := d
    simp only at hitems hlast
    subst hlast
    cases items with
    | cons item items =>
        obtain ⟨⟨id, rfl⟩, hrest⟩ := hitems.head
        exact .inl ⟨id, rfl, .inr ⟨hrest, rfl⟩⟩
    | nil => exact .inr ⟨rfl, ⟨⟨[], [], rfl, others_nil, others_nil⟩, others_nil⟩⟩

theorem count_client (h : Queued d) :
    d.items.count .client + d.last.toList.count .client = 1 := by
  rcases h with h | ⟨hitems, hlast⟩
  · exact h.count_client
  · rw [hitems.count (by simp), hlast]
    rfl

end Queued

/-! ### The member functions -/

namespace Task

theorem finishOnce_retryMax (task : Task) (f : FinishOnce) :
    (task.finishOnce f).retryMax = task.retryMax := by
  obtain ⟨isUser, state, error, disable, redirect⟩ := f
  cases disable <;> cases redirect with
  | none => rfl
  | some outcome => cases outcome <;> rfl

theorem finishOnce_routerTask (task : Task) (f : FinishOnce) :
    (task.finishOnce f).routerTask = task.routerTask := by
  obtain ⟨isUser, state, error, disable, redirect⟩ := f
  cases disable <;> cases redirect with
  | none => rfl
  | some outcome => cases outcome <;> rfl

/-- Without a redirect only the retries may change. -/
theorem finishOnce_plain (task : Task) {f : FinishOnce} (h : f.redirect = none) :
    (task.finishOnce f).redirect = task.redirect ∧
      (task.finishOnce f).retryTimes = if f.disableRetry then task.retryMax else task.retryTimes := by
  unfold finishOnce
  rw [h]
  cases f.disableRetry <;> exact ⟨rfl, rfl⟩

/-- A redirect resets the number of retries and never leaves `WFT_STATE_SUCCESS`. -/
theorem finishOnce_redirect {task : Task} {f : FinishOnce} {outcome : Init}
    (h : f.redirect = some outcome) :
    (task.finishOnce f).redirect = true ∧ (task.finishOnce f).retryTimes = 0 ∧
      (task.finishOnce f).state ≠ .success := by
  unfold finishOnce
  rw [h]
  cases f.disableRetry <;> cases outcome <;> exact ⟨rfl, rfl, TaskState.noConfusion⟩

theorem notify_eq {now : Int} {g g' : Governance} {task task' : Task}
    (h : task.notify now g = some (g', task')) : ∃ n, task' = { task with notifies := n } := by
  unfold notify at h
  split at h
  · simp only [Option.bind_eq_bind, Option.bind_eq_some_iff, Option.pure_def, Option.some.injEq,
      Prod.mk.injEq] at h
    obtain ⟨i, -, g'', -, -, rfl⟩ := h
    exact ⟨_, rfl⟩
  · cases h
    exact ⟨_, rfl⟩

/-- The first `done` of a round takes the router task off. -/
theorem done_router {now : Int} {f : FinishOnce} {g g' : Governance} {task task' : Task}
    {router : Router} (hrouter : task.routerTask = some router)
    (h : task.done now f g = some (g', task')) :
    task' = { task with routerTask := none, phase := .routing router } := by
  unfold done at h
  rw [hrouter] at h
  cases h
  rfl

/-- Any other `done`. -/
theorem done_finish {now : Int} {f : FinishOnce} {g g' : Governance} {task task' : Task}
    (hrouter : task.routerTask = none) (h : task.done now f g = some (g', task')) :
    task'.routerTask = none ∧ task'.retryMax = task.retryMax ∧
      task'.redirect = ((task.finishOnce f).redirect || task.restarts f) ∧
      task'.retryTimes = (task.finishOnce f).retryTimes + (if task.restarts f then 1 else 0) ∧
      (task.continues f = true → task'.state = .success) := by
  unfold done at h
  rw [hrouter] at h
  obtain ⟨⟨g'', t⟩, hnotify, heq⟩ := Option.map_eq_some_iff.mp h
  cases heq
  obtain ⟨n, rfl⟩ := notify_eq hnotify
  have hrouter' := finishOnce_routerTask task f
  have hmax := finishOnce_retryMax task f
  rw [hrouter] at hrouter'
  unfold restarts continues
  generalize task.finishOnce f = t at *
  obtain ⟨state, error, retryMax, retryTimes, redirect, nsPolicy, routerTask, requestObject, tracing,
    phase, selects, notifies⟩ := t
  simp only at hrouter' hmax
  subst hrouter' hmax
  cases state
  case success => cases f.isUserRequest <;> simp [afterNotify]
  case sysError =>
    by_cases hlt : retryTimes < task.retryMax
    · simp [afterNotify, hlt]
    · simp [afterNotify, hlt]
  all_goals simp [afterNotify]

/-- The retries are not touched. -/
theorem createRouterTask_eq {fuel : Nat} {input : DispatchInput} {g g' : Governance}
    {task task' : Task} (h : createRouterTask fuel input g task = some (g', task')) :
    task'.redirect = task.redirect ∧ task'.retryTimes = task.retryTimes ∧
      task'.retryMax = task.retryMax ∧ ∃ router, task'.routerTask = some router := by
  unfold createRouterTask at h
  obtain ⟨⟨g'', found⟩, -, heq⟩ := Option.map_eq_some_iff.mp h
  cases found with
  | none =>
      cases heq
      exact ⟨rfl, rfl, rfl, _, rfl⟩
  | some i =>
      simp only at heq
      split at heq <;> cases heq <;> exact ⟨rfl, rfl, rfl, _, rfl⟩

/-- Nor are they by routing. -/
theorem route_eq {fuel : Nat} {input : DispatchInput} {g g' : Governance} {task task' : Task}
    (h : route fuel input g task = some (g', task')) :
    task'.redirect = task.redirect ∧ task'.retryTimes = task.retryTimes ∧
      task'.retryMax = task.retryMax ∧ ∃ router, task'.routerTask = some router := by
  unfold route at h
  simp only at h
  split at h
  · obtain ⟨hredirect, htimes, hmax, hrouter⟩ := createRouterTask_eq h
    exact ⟨hredirect, htimes, hmax, hrouter⟩
  · cases h
    exact ⟨rfl, rfl, rfl, _, rfl⟩

/-- What `dispatch` can do: ask for a route, send the request, or fail. -/
theorem dispatch_cases {fuel : Nat} {input : DispatchInput} {g g' : Governance} {task task' : Task}
    (h : task.dispatch fuel input g = some (g', task')) :
    task'.redirect = task.redirect ∧ task'.retryTimes = task.retryTimes ∧
      task'.retryMax = task.retryMax ∧
      ((task.routes input = true ∧ task.state = .undefined ∧ task'.phase = .finishing ∧
          ∃ router, task'.routerTask = some router) ∨
        (task.routes input = false ∧ task'.routerTask = task.routerTask)) := by
  unfold dispatch at h
  unfold routes
  cases hstate : task.state with
  | undefined =>
      rw [hstate] at h
      cases hcheck : input.checkRequest with
      | some failed =>
          rw [hcheck] at h
          cases h
          simp
      | none =>
          rw [hcheck] at h
          simp only at h
          split at h
          · next hobject =>
              cases h
              simp [hobject]
          · next hobject =>
              obtain ⟨⟨g'', t⟩, hroute, heq⟩ := Option.map_eq_some_iff.mp h
              cases heq
              obtain ⟨hredirect, htimes, hmax, router, hrouter⟩ := route_eq hroute
              exact ⟨hredirect, htimes, hmax, .inl ⟨by simp [hobject], rfl, rfl, router, hrouter⟩⟩
  | success =>
      rw [hstate] at h
      cases h
      simp
  | toReply | noReply | sysError | sslError | dnsError | taskError | aborted =>
      rw [hstate] at h
      cases h
      simp

end Task

/-! ### Retries -/

/-- How often the task started over, and what `retry_times_` says about it. -/
structure Retry (retryMax : Int) (task : Task) (log : List Event) : Prop where
  max : task.retryMax = retryMax
  since : (log.takeWhile (· ≠ .redirected)).count .restarted ≤ task.retryTimes.toNat
  times : task.retryTimes.toNat ≤ retryMax.toNat
  disabled : task.retryTimes < 0 → task.retryTimes = retryMax
  total : log.count .restarted ≤
    retryMax.toNat * log.count .redirected + (log.takeWhile (· ≠ .redirected)).count .restarted

namespace Retry

variable {retryMax : Int} {task task' : Task} {log : List Event}

/-- A new task has used no retry. -/
theorem start (outcome : Init) : Retry retryMax ((Task.new retryMax).init outcome) [] := by
  cases outcome <;> exact
    ⟨rfl, Nat.le_refl 0, Nat.zero_le _, fun h => absurd h (Int.lt_irrefl 0), Nat.zero_le _⟩

/-- An event that is no restart and no redirect. -/
theorem log_cons (h : Retry retryMax task log) {event : Event} (hrestart : event ≠ .restarted)
    (hredirect : event ≠ .redirected) (htimes : task'.retryTimes = task.retryTimes)
    (hmax : task'.retryMax = task.retryMax) : Retry retryMax task' (event :: log) := by
  have hsince : ((event :: log).takeWhile (· ≠ .redirected)).count .restarted =
      (log.takeWhile (· ≠ .redirected)).count .restarted := by
    rw [List.takeWhile_cons_of_pos (by simpa using hredirect), List.count_cons_of_ne hrestart]
  refine ⟨hmax.trans h.max, ?_, ?_, ?_, ?_⟩
  · rw [hsince, htimes]
    exact h.since
  · rw [htimes]
    exact h.times
  · rw [htimes]
    exact h.disabled
  · rw [hsince, List.count_cons_of_ne hrestart, List.count_cons_of_ne hredirect]
    exact h.total

/-- A step that is neither a redirect nor a retry. -/
theorem same (h : Retry retryMax task log) (htimes : task'.retryTimes = task.retryTimes)
    (hmax : task'.retryMax = task.retryMax) : Retry retryMax task' log :=
  ⟨hmax.trans h.max, by rw [htimes]; exact h.since, by rw [htimes]; exact h.times,
    by rw [htimes]; exact h.disabled, h.total⟩

/-- `disable_retry` only makes fewer retries possible. -/
theorem disable (h : Retry retryMax task log) (htimes : task'.retryTimes = task.retryMax)
    (hmax : task'.retryMax = task.retryMax) : Retry retryMax task' log := by
  have heq : task'.retryTimes = retryMax := htimes.trans h.max
  refine ⟨hmax.trans h.max, ?_, by rw [heq], fun _ => heq, h.total⟩
  rw [heq]
  exact h.since.trans h.times

/-- A redirect starts counting anew. -/
theorem redirected (h : Retry retryMax task log) (htimes : task'.retryTimes = 0)
    (hmax : task'.retryMax = task.retryMax) : Retry retryMax task' (.redirected :: log) := by
  have hnone : ((Event.redirected :: log).takeWhile (· ≠ .redirected)).count .restarted = 0 := by
    rw [List.takeWhile_cons_of_neg (by simp)]
    rfl
  refine ⟨hmax.trans h.max, by rw [hnone]; exact Nat.zero_le _, by rw [htimes]; exact Nat.zero_le _,
    by rw [htimes]; intro hneg; omega, ?_⟩
  have hsum : log.count .restarted ≤ retryMax.toNat * log.count .redirected + retryMax.toNat :=
    h.total.trans (Nat.add_le_add_left (h.since.trans h.times) _)
  rw [hnone, List.count_cons_of_ne (by decide), List.count_cons_self, Nat.mul_succ]
  exact hsum

/-- A retry uses one up. -/
theorem restarted (h : Retry retryMax task log) (hlt : task.retryTimes < task.retryMax)
    (htimes : task'.retryTimes = task.retryTimes + 1) (hmax : task'.retryMax = task.retryMax) :
    Retry retryMax task' (.restarted :: log) := by
  have hmaxEq := h.max
  have hsince := h.since
  have htotal := h.total
  have hnonneg : 0 ≤ task.retryTimes := by
    by_contra hneg
    have := h.disabled (by omega)
    omega
  have hcons : ((Event.restarted :: log).takeWhile (· ≠ .redirected)).count .restarted =
      (log.takeWhile (· ≠ .redirected)).count .restarted + 1 := by
    rw [List.takeWhile_cons_of_pos (by decide), List.count_cons_self]
  refine ⟨hmax.trans h.max, ?_, ?_, ?_, ?_⟩
  · rw [hcons, htimes]
    omega
  · omega
  · omega
  · rw [hcons, List.count_cons_self, List.count_cons_of_ne (by decide)]
    omega

end Retry

/-! ### Places -/

/-- The series runs or looks for another task. -/
def Idle (control : Control) : Prop :=
  control = .popping ∨ ∃ id, control = .running (.other id)

/-- The events that are still to come before the task is deleted, without restarts, redirects and
internal requests. -/
def readyRank (task : Task) : Nat :=
  if task.state = .undefined then 9 else 6

def switchRank (task : Task) : Nat :=
  if task.redirect then 10 else 3

/-- Where a task that is not deleted is, with the number of events to come. -/
inductive Place (s : ClientSeries) : Nat → Prop where
  | ready (hcontrol : s.control = .running .client) (hwait : Waits [] s.series)
      (hrouter : s.task.routerTask = none) (hredirect : s.task.redirect = false) :
      Place s (readyRank s.task)
  | queued (hcontrol : Idle s.control) (hwait : Queued s.series)
      (hrouter : s.task.routerTask = none) (hredirect : s.task.redirect = false) :
      Place s (readyRank s.task)
  | requesting (hcontrol : s.control = .requesting) (hwait : Waits [] s.series)
      (hrouter : s.task.routerTask = none) (hredirect : s.task.redirect = false) : Place s 5
  | finishing (hcontrol : s.control = .finishing) (hwait : Waits [] s.series)
      (hrouter : s.task.routerTask = none) (hredirect : s.task.redirect = false) : Place s 4
  | pushed {router : Router} (hcontrol : s.control = .finishing)
      (hwait : Waits [.router router, .client] s.series)
      (hrouter : s.task.routerTask = some router) (hredirect : s.task.redirect = false) : Place s 8
  | behind {router : Router} (hcontrol : Idle s.control)
      (hwait : Waits [.router router, .client] s.series)
      (hrouter : s.task.routerTask = none) (hredirect : s.task.redirect = false) : Place s 7
  | routing {router : Router} (hcontrol : s.control = .running (.router router))
      (hwait : Waits [.client] s.series)
      (hrouter : s.task.routerTask = none) (hredirect : s.task.redirect = false) : Place s 7
  | timing (hcontrol : Idle s.control) (hwait : Waits [.timer] s.series)
      (hrouter : s.task.routerTask = none) : Place s (switchRank s.task)
  | timer (hcontrol : s.control = .running .timer) (hwait : Waits [] s.series)
      (hrouter : s.task.routerTask = none) : Place s (switchRank s.task)

/-- The task was deleted, right after its callback. -/
structure Gone (s : ClientSeries) : Prop where
  control : Idle s.control ∨ s.control = .over
  wait : Waits [] s.series
  log : ∃ earlier, s.log = .deleted :: ((if s.hasCallback then [.callback] else []) ++ earlier) ∧
    .callback ∉ earlier ∧ .deleted ∉ earlier

/-- What the events so far pay for. -/
def budget (log : List Event) : Nat :=
  9 + 8 * (log.count .restarted + log.count .redirected) + 4 * log.count .internal

structure RunInv (retryMax : Int) (s : ClientSeries) : Prop where
  retry : Retry retryMax s.task s.log
  place :
    (∃ rank, Place s rank ∧ s.log.length + rank ≤ budget s.log ∧ .callback ∉ s.log ∧
      .deleted ∉ s.log) ∨
    (Gone s ∧ s.log.length ≤ budget s.log)

/-! ### Steps -/

namespace RunInv

variable {retryMax : Int} {s t : ClientSeries}

theorem idle_ne {control : Control} (h : Idle control) :
    control ≠ .running .client ∧ control ≠ .running .timer ∧ control ≠ .requesting ∧
      control ≠ .finishing ∧ control ≠ .over ∧ ∀ router, control ≠ .running (.router router) := by
  rcases h with rfl | ⟨id, rfl⟩ <;> simp

theorem start (h : Start retryMax s) : RunInv retryMax s := by
  obtain ⟨⟨outcome, htask⟩, hlog, hplace⟩ := h
  have hrouter : s.task.routerTask = none ∧ s.task.redirect = false := by
    rw [htask]
    cases outcome <;> exact ⟨rfl, rfl⟩
  have hrank : readyRank s.task ≤ 9 := by
    unfold readyRank
    split <;> omega
  refine ⟨by rw [htask, hlog]; exact Retry.start outcome, .inl ⟨readyRank s.task, ?_, ?_, ?_, ?_⟩⟩
  · rcases hplace with ⟨hcontrol, hitems, hlast⟩ | ⟨id, hcontrol, hqueue⟩
    · exact .ready hcontrol ⟨⟨[], _, rfl, others_nil, hitems⟩, hlast⟩ hrouter.1 hrouter.2
    · refine .queued (.inr ⟨id, hcontrol⟩) ?_ hrouter.1 hrouter.2
      rcases hqueue with ⟨before, after, heq, hbefore, hafter, hlast⟩ | ⟨hitems, hlast⟩
      · exact .inl ⟨⟨before, after, by rw [heq]; simp, hbefore, hafter⟩, hlast⟩
      · exact .inr ⟨hitems, hlast⟩
  · rw [hlog]
    simp only [List.length_nil, Nat.zero_add, budget, List.count_nil]
    omega
  · rw [hlog]
    exact List.not_mem_nil
  · rw [hlog]
    exact List.not_mem_nil

/-- Others change the queue, and the servers. -/
theorem queue (h : RunInv retryMax s) {series : Deque Item} (gov : Governance)
    (hwait : ∀ {block}, Waits block s.series → Waits block series)
    (hqueued : Queued s.series → Queued series) :
    RunInv retryMax { s with gov := gov, series := series } := by
  refine ⟨h.retry, ?_⟩
  rcases h.place with ⟨rank, hplace, hrest⟩ | ⟨⟨hcontrol, hgone, hlog⟩, hbudget⟩
  · refine .inl ⟨rank, ?_, hrest⟩
    cases hplace with
    | ready hc hw hr hd => exact .ready hc (hwait hw) hr hd
    | queued hc hw hr hd => exact .queued hc (hqueued hw) hr hd
    | requesting hc hw hr hd => exact .requesting hc (hwait hw) hr hd
    | finishing hc hw hr hd => exact .finishing hc (hwait hw) hr hd
    | pushed hc hw hr hd => exact .pushed hc (hwait hw) hr hd
    | behind hc hw hr hd => exact .behind hc (hwait hw) hr hd
    | routing hc hw hr hd => exact .routing hc (hwait hw) hr hd
    | timing hc hw hr => exact .timing hc (hwait hw) hr
    | timer hc hw hr => exact .timer hc (hwait hw) hr
  · exact .inr ⟨⟨hcontrol, hwait hgone, hlog⟩, hbudget⟩

/-- Another task is through. -/
theorem otherDone (h : RunInv retryMax s) {id : Nat} (hcontrol : s.control = .running (.other id)) :
    RunInv retryMax { s with control := .popping } := by
  refine ⟨h.retry, ?_⟩
  rcases h.place with ⟨rank, hplace, hrest⟩ | ⟨⟨-, hgone, hlog⟩, hbudget⟩
  · refine .inl ⟨rank, ?_, hrest⟩
    cases hplace with
    | queued hc hw hr hd => exact .queued (.inl rfl) hw hr hd
    | behind hc hw hr hd => exact .behind (.inl rfl) hw hr hd
    | timing hc hw hr => exact .timing (.inl rfl) hw hr
    | ready hc | requesting hc | finishing hc | pushed hc | routing hc | timer hc =>
        rw [hcontrol] at hc
        cases hc
  · exact .inr ⟨⟨.inl (.inl rfl), hgone, hlog⟩, hbudget⟩

theorem pop_control {item : Option Item} (h : s.series.front = item) :
    s.pop = { s with
      series := s.series.step .popTask
      control := (item.map Control.running).getD .over } := by
  subst h
  rw [ClientSeries.pop]
  cases s.series.front <;> rfl

/-- `pop` gives another task, or what the client task put into the queue. -/
theorem pop (h : RunInv retryMax s) (hcontrol : s.control = .popping) : RunInv retryMax s.pop := by
  refine ⟨h.retry, ?_⟩
  rcases h.place with ⟨rank, hplace, hrest⟩ | ⟨⟨-, hgone, hlog⟩, hbudget⟩
  · refine .inl ⟨rank, ?_, hrest⟩
    cases hplace with
    | queued hc hw hr hd =>
        rcases hw.pop with ⟨id, hfront, hw'⟩ | ⟨hfront, hw'⟩
        · rw [pop_control hfront]
          exact .queued (.inr ⟨id, rfl⟩) hw' hr hd
        · rw [pop_control hfront]
          exact .ready rfl hw' hr hd
    | behind hc hw hr hd =>
        rcases hw.pop with ⟨id, hfront, hw'⟩ | ⟨item, rest, heq, hfront, hw'⟩ | ⟨heq, -, -⟩
        · rw [pop_control hfront]
          exact .behind (.inr ⟨id, rfl⟩) hw' hr hd
        · cases heq
          rw [pop_control hfront]
          exact .routing rfl hw' hr hd
        · cases heq
    | timing hc hw hr =>
        rcases hw.pop with ⟨id, hfront, hw'⟩ | ⟨item, rest, heq, hfront, hw'⟩ | ⟨heq, -, -⟩
        · rw [pop_control hfront]
          exact .timing (.inr ⟨id, rfl⟩) hw' hr
        · cases heq
          rw [pop_control hfront]
          exact .timer rfl hw' hr
        · cases heq
    | ready hc | requesting hc | finishing hc | pushed hc | routing hc | timer hc =>
        rw [hcontrol] at hc
        cases hc
  · refine .inr ⟨?_, hbudget⟩
    rcases hgone.pop with ⟨id, hfront, hw'⟩ | ⟨item, rest, heq, -, -⟩ | ⟨-, hfront, hw'⟩
    · rw [pop_control hfront]
      exact ⟨.inl (.inr ⟨id, rfl⟩), hw', hlog⟩
    · cases heq
    · rw [pop_control hfront]
      exact ⟨.inr rfl, hw', hlog⟩

/-- A task that was deleted is never dispatched, and takes no other step. -/
theorem not_gone {control : Control} (hidle : ¬Idle control) (hover : control ≠ .over)
    (hcontrol : s.control = control) : ¬Gone s := by
  rintro ⟨hc | hc, -, -⟩
  · exact hidle (hcontrol ▸ hc)
  · exact hover (hcontrol ▸ hc)

/-- An event that is no restart, no redirect and no internal request is paid for by the rank. -/
theorem budget_cons {event : Event} {log : List Event} (h₁ : event ≠ .restarted)
    (h₂ : event ≠ .redirected) (h₃ : event ≠ .internal) : budget (event :: log) = budget log := by
  simp only [budget, List.count_cons_of_ne h₁, List.count_cons_of_ne h₂, List.count_cons_of_ne h₃]

/-- The task is dispatched. -/
theorem dispatch (h : RunInv retryMax s) (hcontrol : s.control = .running .client) {fuel : Nat}
    {input : DispatchInput} (hstep : s.dispatch fuel input = some t) : RunInv retryMax t := by
  obtain ⟨⟨gov, task⟩, hdispatch, rfl⟩ := Option.map_eq_some_iff.mp hstep
  obtain ⟨hredirect, htimes, hmax, hcases⟩ := Task.dispatch_cases hdispatch
  obtain ⟨rank, hplace, hbudget, hcallback, hdeleted⟩ :=
    h.place.resolve_right fun hgone =>
      not_gone (fun hidle => (idle_ne hidle).1 rfl) (by simp) hcontrol hgone.1
  have hretry : Retry retryMax task (.dispatched :: s.log) :=
    h.retry.log_cons (by decide) (by decide) htimes hmax
  have hlog : Event.callback ∉ .dispatched :: s.log ∧ Event.deleted ∉ .dispatched :: s.log := by
    simp [hcallback, hdeleted]
  have hpay : ∀ rank', rank' + 1 ≤ rank →
      (Event.dispatched :: s.log).length + rank' ≤ budget (.dispatched :: s.log) := by
    intro rank' hle
    rw [budget_cons (by decide) (by decide) (by decide), List.length_cons]
    omega
  cases hplace with
  | ready hc hw hr hd =>
      rcases hcases with ⟨hroutes, hstate, hphase, router, hrouter⟩ | ⟨hroutes, hrouter⟩
      · simp only [hrouter, hroutes, ↓reduceIte, hphase, reduceCtorEq]
        refine ⟨hretry, .inl ⟨8, ?_, hpay 8 (by rw [readyRank, if_pos hstate]), hlog⟩⟩
        exact .pushed rfl (hw.pushTwo .client (.router router)) hrouter (hredirect.trans hd)
      · have hnone : task.routerTask = none := hrouter.trans hr
        have hready : 6 ≤ readyRank s.task := by
          unfold readyRank
          split <;> omega
        simp only [hnone]
        by_cases hphase : task.phase = .requesting
        · simp only [hphase, ↓reduceIte]
          exact ⟨hretry, .inl ⟨5, .requesting rfl hw hnone (hredirect.trans hd),
            hpay 5 hready, hlog⟩⟩
        · simp only [hphase, ↓reduceIte]
          exact ⟨hretry, .inl ⟨4, .finishing rfl hw hnone (hredirect.trans hd),
            hpay 4 (by omega), hlog⟩⟩
  | queued hc | behind hc | timing hc => exact absurd hcontrol (idle_ne hc).1
  | requesting hc | finishing hc | pushed hc | routing hc | timer hc =>
      rw [hcontrol] at hc
      cases hc

/-- The router hands its result over. -/
theorem routed (h : RunInv retryMax s) {router : Router}
    (hcontrol : s.control = .running (.router router)) (state : TaskState) (error : Int) :
    RunInv retryMax { s with
      task := { s.task.routerCallback state error with phase := .ready }
      control := .popping
      log := .routed :: s.log } := by
  obtain ⟨rank, hplace, hbudget, hcallback, hdeleted⟩ :=
    h.place.resolve_right fun hgone =>
      not_gone (fun hidle => (idle_ne hidle).2.2.2.2.2 router rfl) (by simp) hcontrol hgone.1
  have hsame : (s.task.routerCallback state error).retryTimes = s.task.retryTimes ∧
      (s.task.routerCallback state error).retryMax = s.task.retryMax ∧
      (s.task.routerCallback state error).routerTask = s.task.routerTask ∧
      (s.task.routerCallback state error).redirect = s.task.redirect ∧
      (s.task.routerCallback state error).state ≠ .undefined := by
    cases state <;> simp [Task.routerCallback]
  refine ⟨h.retry.log_cons (by decide) (by decide) hsame.1 hsame.2.1, .inl ?_⟩
  cases hplace with
  | routing hc hw hr hd =>
      refine ⟨_, .queued (.inl rfl) (.inl hw) (hsame.2.2.1.trans hr) (hsame.2.2.2.1.trans hd), ?_, ?_⟩
      · rw [budget_cons (by decide) (by decide) (by decide), readyRank, if_neg hsame.2.2.2.2,
          List.length_cons]
        omega
      · simp [hcallback, hdeleted]
  | queued hc | behind hc | timing hc => exact absurd hcontrol ((idle_ne hc).2.2.2.2.2 router)
  | ready hc | requesting hc | finishing hc | pushed hc | timer hc =>
      rw [hcontrol] at hc
      cases hc

/-- The reply is there, or an error is. -/
theorem replied (h : RunInv retryMax s) (hcontrol : s.control = .requesting) (state : TaskState)
    (error : Int) (target : Bool) :
    RunInv retryMax { s with
      task := { s.task with state := state, error := error, phase := .finishing }
      target := target
      control := .finishing
      log := .replied :: s.log } := by
  obtain ⟨rank, hplace, hbudget, hcallback, hdeleted⟩ :=
    h.place.resolve_right fun hgone =>
      not_gone (fun hidle => (idle_ne hidle).2.2.1 rfl) (by simp) hcontrol hgone.1
  refine ⟨h.retry.log_cons (by decide) (by decide) rfl rfl, .inl ?_⟩
  cases hplace with
  | requesting hc hw hr hd =>
      refine ⟨4, .finishing rfl hw hr hd, ?_, ?_⟩
      · rw [budget_cons (by decide) (by decide) (by decide), List.length_cons]
        omega
      · simp [hcallback, hdeleted]
  | queued hc | behind hc | timing hc => exact absurd hcontrol (idle_ne hc).2.2.1
  | ready hc | finishing hc | pushed hc | routing hc | timer hc =>
      rw [hcontrol] at hc
      cases hc

/-- `finish_once` and the restart behind it. -/
theorem retry_done (h : Retry retryMax s.task s.log) {f : FinishOnce} {task : Task}
    (hmax : task.retryMax = s.task.retryMax)
    (htimes : task.retryTimes =
      (s.task.finishOnce f).retryTimes + (if s.task.restarts f then 1 else 0)) :
    Retry retryMax task (doneEvents s.task f ++ .finished :: s.log) := by
  have hfinishMax := Task.finishOnce_retryMax s.task f
  have hmaxEq := h.max
  have hbase : Retry retryMax (s.task.finishOnce f)
      ((if f.redirect.isSome then [.redirected] else []) ++ .finished :: s.log) := by
    have hlog : Retry retryMax s.task (.finished :: s.log) :=
      h.log_cons (by decide) (by decide) rfl rfl
    cases hredirect : f.redirect with
    | some outcome =>
        exact hlog.redirected (Task.finishOnce_redirect hredirect).2.1 hfinishMax
    | none =>
        have htimes' := (Task.finishOnce_plain s.task hredirect).2
        split_ifs at htimes' with hdisable
        · exact hlog.disable htimes' hfinishMax
        · exact hlog.same htimes' hfinishMax
  have hinternal : Retry retryMax (s.task.finishOnce f)
      ((if s.task.continues f then [.internal] else []) ++
        ((if f.redirect.isSome then [.redirected] else []) ++ .finished :: s.log)) := by
    cases s.task.continues f with
    | false => exact hbase
    | true => exact hbase.log_cons (by decide) (by decide) rfl rfl
  rw [doneEvents, List.append_assoc, List.append_assoc]
  cases hrestarts : s.task.restarts f with
  | false =>
      rw [hrestarts] at htimes
      exact hinternal.same (by simpa using htimes) (hmax.trans hfinishMax.symm)
  | true =>
      rw [hrestarts] at htimes
      have hlt : (s.task.finishOnce f).retryTimes < (s.task.finishOnce f).retryMax := by
        rw [Task.restarts, Bool.and_eq_true] at hrestarts
        exact of_decide_eq_true hrestarts.2
      exact hinternal.restarted hlt (by simpa using htimes) (hmax.trans hfinishMax.symm)

/-- What `switch_callback` leaves, run by `done` or by its timer, with an event that is paid for. -/
theorem switch (hretry : Retry retryMax s.task s.log) (hcontrol : s.control = .popping)
    (hwait : Waits [] s.series) (hrouter : s.task.routerTask = none)
    (hpay : s.log.length + (if s.task.redirect then 9 else 2) ≤ budget s.log)
    (hcallback : .callback ∉ s.log) (hdeleted : .deleted ∉ s.log) :
    RunInv retryMax s.switchCallback := by
  have hsame : (s.task.switchCallback none).retryTimes = s.task.retryTimes ∧
      (s.task.switchCallback none).retryMax = s.task.retryMax ∧
      (s.task.switchCallback none).routerTask = s.task.routerTask := by
    unfold Task.switchCallback Task.switchState
    cases hredirect : s.task.redirect
    · simp only [Bool.false_eq_true, ↓reduceIte]
      split_ifs <;> exact ⟨rfl, rfl, rfl⟩
    · simp [hredirect]
  unfold ClientSeries.switchCallback
  cases hredirect : s.task.redirect with
  | true =>
      simp only [↓reduceIte]
      have hoff : (s.task.switchCallback none).redirect = false := by
        simp [Task.switchCallback, hredirect]
      have hrank : readyRank (s.task.switchCallback none) ≤ 9 := by
        unfold readyRank
        split <;> omega
      simp only [hredirect, ↓reduceIte] at hpay
      refine ⟨hretry.same hsame.1 hsame.2.1, .inl ⟨_, .queued (.inl hcontrol)
        (.inl (hwait.pushFront .client)) (hsame.2.2.trans hrouter) hoff, ?_, hcallback, hdeleted⟩⟩
      show s.log.length + readyRank (s.task.switchCallback none) ≤ _
      exact (Nat.add_le_add_left hrank _).trans hpay
  | false =>
      simp only [Bool.false_eq_true, ↓reduceIte]
      simp only [hredirect, Bool.false_eq_true, ↓reduceIte] at hpay
      have htail : Retry retryMax (s.task.switchCallback none)
          ((if s.hasCallback then [.callback] else []) ++ s.log) := by
        cases s.hasCallback with
        | false => exact hretry.same hsame.1 hsame.2.1
        | true => exact hretry.log_cons (by decide) (by decide) hsame.1 hsame.2.1
      refine ⟨htail.log_cons (by decide) (by decide) rfl rfl, .inr ⟨⟨.inl (.inl hcontrol), hwait,
        s.log, rfl, hcallback, hdeleted⟩, ?_⟩⟩
      simp only
      rw [budget_cons (by decide) (by decide) (by decide), List.length_cons, List.length_append]
      cases s.hasCallback with
      | false =>
          simp only [Bool.false_eq_true, ↓reduceIte, List.length_nil, List.nil_append]
          omega
      | true =>
          simp only [↓reduceIte, List.length_singleton, List.singleton_append]
          rw [budget_cons (by decide) (by decide) (by decide)]
          omega

/-- The time to wait before a retry is over. -/
theorem timer (h : RunInv retryMax s) (hcontrol : s.control = .running .timer) :
    RunInv retryMax
      ({ s with control := .popping, log := .switched :: s.log }).switchCallback := by
  obtain ⟨rank, hplace, hbudget, hcallback, hdeleted⟩ :=
    h.place.resolve_right fun hgone =>
      not_gone (fun hidle => (idle_ne hidle).2.1 rfl) (by simp) hcontrol hgone.1
  cases hplace with
  | timer hc hw hr =>
      refine switch (h.retry.log_cons (by decide) (by decide) rfl rfl) rfl hw hr ?_ ?_ ?_
      · simp only
        rw [budget_cons (by decide) (by decide) (by decide), List.length_cons]
        unfold switchRank at hbudget
        split_ifs at hbudget ⊢ <;> omega
      · simp [hcallback]
      · simp [hdeleted]
  | queued hc | behind hc | timing hc => exact absurd hcontrol (idle_ne hc).2.1
  | ready hc | requesting hc | finishing hc | pushed hc | routing hc =>
      rw [hcontrol] at hc
      cases hc

/-- What the events of `done` pay for. -/
theorem budget_done {task : Task} {f : FinishOnce} {log : List Event} (hredirect : task.redirect = false)
    (hbudget : log.length + 4 ≤ budget log) :
    (doneEvents task f ++ .finished :: log).length +
        (if task.continues f then 6
          else if (task.finishOnce f).redirect || task.restarts f then 10 else 3) ≤
      budget (doneEvents task f ++ .finished :: log) := by
  have hcases : f.redirect = none ∧ (task.finishOnce f).redirect = false ∨ f.redirect.isSome = true := by
    cases hr : f.redirect with
    | none => exact .inl ⟨rfl, (Task.finishOnce_plain _ hr).1.trans hredirect⟩
    | some outcome => exact .inr rfl
  rw [doneEvents]
  simp only [budget] at hbudget ⊢
  rcases hcases with ⟨hnone, hoff⟩ | hsome
  · rw [hnone, hoff]
    cases task.continues f <;> cases task.restarts f <;>
      simp <;> omega
  · rw [hsome]
    cases task.continues f <;> cases task.restarts f <;>
      cases (task.finishOnce f).redirect <;> simp <;> omega

/-- The task is finished, sent once more, or waits for a retry. -/
theorem done (h : RunInv retryMax s) (hcontrol : s.control = .finishing) {now : Int}
    {f : FinishOnce} (hstep : s.done now f = some t) : RunInv retryMax t := by
  obtain ⟨⟨gov, task⟩, hdone, rfl⟩ := Option.map_eq_some_iff.mp hstep
  obtain ⟨rank, hplace, hbudget, hcallback, hdeleted⟩ :=
    h.place.resolve_right fun hgone =>
      not_gone (fun hidle => (idle_ne hidle).2.2.2.1 rfl) (by simp) hcontrol hgone.1
  cases hplace with
  | pushed hc hw hr hd =>
      have htask := Task.done_router hr hdone
      subst htask
      simp only [hr, Option.isSome_some, ↓reduceIte]
      refine ⟨h.retry.log_cons (by decide) (by decide) rfl rfl,
        .inl ⟨7, .behind (.inl rfl) hw rfl hd, ?_, ?_⟩⟩
      · rw [budget_cons (by decide) (by decide) (by decide), List.length_cons]
        omega
      · simp [hcallback, hdeleted]
  | finishing hc hw hr hd =>
      obtain ⟨hrouter, hmax, hredirect, htimes, hsuccess⟩ := Task.done_finish hr hdone
      have hretry := retry_done h.retry hmax htimes
      have hpay := budget_done (f := f) hd hbudget
      have hevents : ∀ event, event = .callback ∨ event = .deleted →
          event ∉ doneEvents s.task f ++ .finished :: s.log := by
        rintro event (rfl | rfl) <;>
          simp [doneEvents, hcallback, hdeleted]
      have hc' := hevents .callback (.inl rfl)
      have hd' := hevents .deleted (.inr rfl)
      simp only [hr, Option.isSome_none, Bool.false_eq_true, ↓reduceIte]
      by_cases hcontinues : s.task.continues f = true
      · rw [if_pos hcontinues] at hpay ⊢
        have hplain : f.redirect = none := by
          cases hr : f.redirect with
          | none => rfl
          | some outcome =>
              rw [Task.continues, Bool.and_eq_true, decide_eq_true_eq] at hcontinues
              exact absurd hcontinues.1 (Task.finishOnce_redirect hr).2.2
        have hnot : s.task.restarts f = false := by
          rw [Task.continues, Bool.and_eq_true, decide_eq_true_eq] at hcontinues
          rw [Task.restarts, hcontinues.1]
          rfl
        have hoff : task.redirect = false := by
          rw [hredirect, hnot, (Task.finishOnce_plain _ hplain).1, hd]
          rfl
        refine ⟨hretry, .inl ⟨_, .ready rfl hw hrouter hoff, ?_, hc', hd'⟩⟩
        rw [readyRank, if_neg (by rw [hsuccess hcontinues]; decide)]
        exact hpay
      · rw [if_neg hcontinues] at hpay ⊢
        rw [← hredirect] at hpay
        cases htarget : s.target with
        | true =>
            simp only [↓reduceIte]
            refine switch hretry rfl hw hrouter ?_ hc' hd'
            simp only
            split_ifs at hpay ⊢ <;> omega
        | false =>
            simp only [Bool.false_eq_true, ↓reduceIte]
            exact ⟨hretry, .inl ⟨_, .timing (.inl rfl) (hw.pushFront .timer) hrouter, hpay, hc', hd'⟩⟩
  | queued hc | behind hc | timing hc => exact absurd hcontrol (idle_ne hc).2.2.2.1
  | ready hc | requesting hc | routing hc | timer hc =>
      rw [hcontrol] at hc
      cases hc

/-- Every step keeps the invariant. -/
theorem exec (h : RunInv retryMax s) {fuel : Nat} {op : SeriesOp}
    (hstep : ClientSeries.exec fuel s op = some t) : RunInv retryMax t := by
  cases op with
  | dispatch input =>
      obtain ⟨hcontrol, hstep⟩ := Option.ite_none_right_eq_some.mp hstep
      exact h.dispatch hcontrol hstep
  | routed state error =>
      simp only [ClientSeries.exec] at hstep
      split at hstep
      · next router hcontrol =>
          cases hstep
          exact h.routed hcontrol _ _
      · cases hstep
  | replied state error target =>
      obtain ⟨hcontrol, hstep⟩ := Option.ite_none_right_eq_some.mp hstep
      cases hstep
      exact h.replied hcontrol state error target
  | done now f =>
      obtain ⟨hcontrol, hstep⟩ := Option.ite_none_right_eq_some.mp hstep
      exact h.done hcontrol hstep
  | timer =>
      obtain ⟨hcontrol, hstep⟩ := Option.ite_none_right_eq_some.mp hstep
      cases hstep
      exact h.timer hcontrol
  | pop =>
      obtain ⟨hcontrol, hstep⟩ := Option.ite_none_right_eq_some.mp hstep
      cases hstep
      exact h.pop hcontrol
  | otherDone =>
      simp only [ClientSeries.exec] at hstep
      split at hstep
      · next id hcontrol =>
          cases hstep
          exact h.otherDone hcontrol
      · cases hstep
  | push id =>
      obtain ⟨-, hstep⟩ := Option.ite_none_left_eq_some.mp hstep
      cases hstep
      exact h.queue s.gov (fun hw => hw.push id) (fun hq => hq.push id)
  | pushBack id =>
      obtain ⟨-, hstep⟩ := Option.ite_none_left_eq_some.mp hstep
      cases hstep
      exact h.queue s.gov (fun hw => hw.pushBack id) (fun hq => hq.pushBack id)
  | setLastTask id =>
      obtain ⟨hguard, hstep⟩ := Option.ite_none_left_eq_some.mp hstep
      cases hstep
      rw [not_or] at hguard
      exact h.queue s.gov (fun hw => hw.setLast id) (fun hq => hq.setLast hguard.2 id)
  | governance gov =>
      cases hstep
      exact h.queue gov id id

end RunInv

/-! ### Runs -/

/-- Hence the invariant holds in every run. -/
theorem RunInv.of_reachable {retryMax : Int} {s : ClientSeries}
    (h : Reachable (machine retryMax) (fun _ _ => True) s) : RunInv retryMax s :=
  Reachable.invariant (P := RunInv retryMax) (m := machine retryMax)
    (fun _ hstart => RunInv.start hstart) (fun _ _ _ hinv _ ⟨_, hstep⟩ => hinv.exec hstep) h

/-- The task is in the series once at most. -/
theorem RunInv.count_client {retryMax : Int} {s : ClientSeries} (h : RunInv retryMax s) :
    s.series.items.count .client + s.series.last.toList.count .client ≤ 1 := by
  rcases h.place with ⟨rank, hplace, -⟩ | ⟨⟨-, hwait, -⟩, -⟩
  · cases hplace with
    | queued _ hw => exact hw.count_client.le
    | ready _ hw | requesting _ hw | finishing _ hw | pushed _ hw | behind _ hw | routing _ hw
    | timing _ hw | timer _ hw =>
        rw [hw.count_client]
        simp
  · rw [hwait.count_client]
    simp

/-- Every run of a client task: it starts over at most `retry_max` times since the start or the last
redirect, and it is in the queue at most once. When the series is over the task was deleted. Its
deletion is the last it does and follows its only callback, and what it does on the way is bounded
by its redirects and internal requests. -/
theorem clientSeries_run {retryMax : Int} {s : ClientSeries}
    (h : Reachable (machine retryMax) (fun _ _ => True) s) :
    (s.restarts : Int) ≤ max retryMax 0 ∧
      s.series.items.count .client + s.series.last.toList.count .client ≤ 1 ∧
      (s.control = .over → .deleted ∈ s.log) ∧
      (.callback ∈ s.log ∨ .deleted ∈ s.log →
        ∃ earlier, s.log = .deleted :: ((if s.hasCallback then [.callback] else []) ++ earlier) ∧
          .callback ∉ earlier ∧ .deleted ∉ earlier) ∧
      s.log.length ≤ 9 + 8 * (retryMax.toNat * (s.log.count .redirected + 1) +
        s.log.count .redirected) + 4 * s.log.count .internal := by
  have hinv := RunInv.of_reachable h
  have hrestarts : s.restarts ≤ retryMax.toNat := hinv.retry.since.trans hinv.retry.times
  refine ⟨by omega, hinv.count_client, ?_, ?_, ?_⟩
  · intro hover
    rcases hinv.place with ⟨rank, hplace, -⟩ | ⟨⟨-, -, earlier, heq, -⟩, -⟩
    · cases hplace with
      | queued hc | behind hc | timing hc => exact absurd hover (RunInv.idle_ne hc).2.2.2.2.1
      | ready hc | requesting hc | finishing hc | pushed hc | routing hc | timer hc =>
          rw [hover] at hc
          cases hc
    · rw [heq]
      exact List.mem_cons_self
  · intro hend
    rcases hinv.place with ⟨rank, -, -, hcallback, hdeleted⟩ | ⟨hgone, -⟩
    · rcases hend with hc | hd
      · exact absurd hc hcallback
      · exact absurd hd hdeleted
    · exact hgone.log
  · have hbudget : s.log.length ≤ budget s.log := by
      rcases hinv.place with ⟨rank, -, hle, -⟩ | ⟨-, hle⟩ <;> omega
    have htotal : s.log.count .restarted ≤
        retryMax.toNat * (s.log.count .redirected + 1) := by
      rw [Nat.mul_succ]
      exact hinv.retry.total.trans (Nat.add_le_add_left hrestarts _)
    unfold budget at hbudget
    omega

/-- One route, a system error, a second try and the reply. -/
def retryTrace : List SeriesOp :=
  let input : DispatchInput := ⟨none, .other, 0, 0, 0, true⟩
  let finish : TaskState → FinishOnce := fun state => ⟨true, state, 0, false, none⟩
  [.dispatch input, .done 0 (finish .success), .pop, .routed .success 0, .push 7, .pop, .otherDone,
    .pop, .dispatch input, .replied .sysError 104 true, .done 0 (finish .sysError), .pop,
    .dispatch input, .done 0 (finish .success), .pop, .routed .success 0, .pop, .dispatch input,
    .replied .success 0 false, .done 0 (finish .success), .pop, .timer, .pop]

def retryStart : ClientSeries where
  gov := .new 0 false
  task := .new 1
  hasCallback := true
  target := false
  series := .empty
  control := .running .client
  log := []

theorem clientSeries_run_retry :
    ∃ s, runChecked ClientSeries.exec (fun _ _ => True) 9 retryStart retryTrace = some s ∧
      s.control = .over ∧ s.restarts = 1 ∧ .deleted ∈ s.log := by
  refine ⟨_, rfl, rfl, rfl, ?_⟩
  have hstart : Start 1 retryStart := ⟨⟨.toRoute, rfl⟩, rfl, .inl ⟨rfl, others_nil, others_nil⟩⟩
  have hreach := runChecked_machine (m := machine 1) (fun _ _ _ _ h => ⟨_, h⟩) (.init hstart)
    (rfl : runChecked ClientSeries.exec (fun _ _ => True) 9 retryStart retryTrace = some _)
  exact (clientSeries_run hreach).2.2.1 rfl

end Workflow.Factory
