/-
Module: Workflow.Lib.Monitor
Layer: Lib
Purpose: A resource with a capacity, guarded by a mutex and a condition variable. Threads that find
  it full wait; a signal wakes one sleeping thread, which runs later and looks again. `Awake` is the
  invariant behind "no wakeup is lost": as long as somebody sleeps, there is a woken thread for
  every free unit.
Trusted boundary: none
Main exports: Monitor, Monitor.asleep, Monitor.Awake, Awake.full
-/
import Mathlib.Tactic.Basic

namespace Workflow.Lib

/-- `cur` of `max` units are in use. `wait` threads wait, `signalled` of them are woken and have not
run yet. -/
structure Monitor where
  cur : Nat
  max : Nat
  wait : Nat
  signalled : Nat
deriving DecidableEq

namespace Monitor

/-- The threads that sleep. -/
def asleep (m : Monitor) : Nat := m.wait - m.signalled

/-- Somebody takes a unit. -/
def take (m : Monitor) : Monitor := { m with cur := m.cur + 1 }

/-- A unit is given back. -/
def give (m : Monitor) : Monitor := { m with cur := m.cur - 1 }

/-- A thread goes to sleep. -/
def sleep (m : Monitor) : Monitor := { m with wait := m.wait + 1 }

/-- A woken thread runs. -/
def run (m : Monitor) : Monitor := { m with wait := m.wait - 1, signalled := m.signalled - 1 }

/-- A sleeping thread stops waiting by itself. -/
def leave (m : Monitor) : Monitor := { m with wait := m.wait - 1 }

/-- `pthread_cond_signal`: one sleeping thread is woken, if there is one. -/
def signal (m : Monitor) : Monitor :=
  if m.signalled < m.wait then { m with signalled := m.signalled + 1 } else m

/-- More units, some of them in use. -/
def extend (m : Monitor) (cur max : Nat) : Monitor :=
  { m with cur := m.cur + cur, max := m.max + max }

/-- Fewer units. -/
def reduce (m : Monitor) (cur max : Nat) : Monitor :=
  { m with cur := m.cur - cur, max := m.max - max }

/-- As long as somebody sleeps, there is a woken thread for every free unit. -/
structure Awake (m : Monitor) : Prop where
  woken : m.signalled ≤ m.wait
  free : m.signalled < m.wait → m.max ≤ m.cur + m.signalled

variable {m : Monitor}

/-- If somebody sleeps and no woken thread is still to run, the resource is full. -/
theorem Awake.full (h : m.Awake) (hasleep : 0 < m.asleep) (hnone : m.signalled = 0) :
    m.max ≤ m.cur := by
  have hfree := h.free (by unfold asleep at hasleep; omega)
  omega

theorem Awake.take (h : m.Awake) : m.take.Awake := by
  refine ⟨h.woken, fun hlt => ?_⟩
  have hfree := h.free hlt
  simp only [Monitor.take]
  omega

theorem Awake.sleep (h : m.Awake) (hfull : m.max ≤ m.cur) : m.sleep.Awake :=
  ⟨Nat.le_succ_of_le h.woken, fun _ => Nat.le_add_right_of_le hfull⟩

/-- A woken thread takes a unit. -/
theorem Awake.run_take (h : m.Awake) (hpos : 0 < m.signalled) : m.run.take.Awake := by
  obtain ⟨hwoken, hfree⟩ := h
  refine ⟨?_, fun hlt => ?_⟩
  · simp only [run, Monitor.take]
    omega
  · simp only [run, Monitor.take] at hlt ⊢
    have := hfree (by omega)
    omega

/-- A woken thread finds the resource full and goes back to sleep. -/
theorem Awake.run_sleep (h : m.Awake) (hfull : m.max ≤ m.cur) : m.run.sleep.Awake := by
  obtain ⟨hwoken, _⟩ := h
  refine ⟨?_, fun _ => Nat.le_add_right_of_le hfull⟩
  simp only [run, Monitor.sleep]
  omega

theorem Awake.leave (h : m.Awake) (hasleep : m.signalled < m.wait) : m.leave.Awake := by
  obtain ⟨_, hfree⟩ := h
  refine ⟨?_, fun _ => hfree hasleep⟩
  simp only [Monitor.leave]
  omega

/-- A unit is given back and one sleeping thread is woken for it. -/
theorem Awake.give_signal (h : m.Awake) : m.give.signal.Awake := by
  obtain ⟨hwoken, hfree⟩ := h
  unfold signal
  split
  · rename_i hlt
    simp only [give] at hlt
    refine ⟨hlt, fun hmore => ?_⟩
    simp only [give] at hmore ⊢
    have := hfree hlt
    omega
  · rename_i hnot
    exact ⟨hwoken, fun hlt => absurd hlt hnot⟩

/-- A unit is given back and nobody is woken. -/
theorem Awake.give (h : m.Awake) (hok : m.asleep = 0 ∨ m.max < m.cur + m.signalled) :
    m.give.Awake := by
  refine ⟨h.woken, fun hlt => ?_⟩
  have hlt' : m.signalled < m.wait := hlt
  simp only [Monitor.give]
  unfold asleep at hok
  omega

/-- Units are added, and one sleeping thread is woken for them if there is a free one. -/
theorem Awake.extend_signal (h : m.Awake) {cur max : Nat}
    (hok : m.asleep ≤ 1 ∨ m.max + max ≤ m.cur + cur + m.signalled + 1) :
    (m.extend cur max).signal.Awake := by
  obtain ⟨hwoken, _⟩ := h
  unfold signal
  split
  · rename_i hlt
    refine ⟨hlt, fun hmore => ?_⟩
    simp only [extend] at hlt hmore ⊢
    unfold asleep at hok
    omega
  · rename_i hnot
    exact ⟨hwoken, fun hlt => absurd hlt hnot⟩

/-- Units are added and all are in use. -/
theorem Awake.extend_full (h : m.Awake) {cur max : Nat}
    (hfull : m.wait = 0 ∨ m.max + max ≤ m.cur + cur) : (m.extend cur max).Awake := by
  refine ⟨h.woken, fun hlt => ?_⟩
  simp only [extend] at hlt ⊢
  omega

theorem Awake.reduce (h : m.Awake) {cur max : Nat} (hle : cur ≤ max) (hcur : cur ≤ m.cur) :
    (m.reduce cur max).Awake := by
  refine ⟨h.woken, fun hlt => ?_⟩
  have hfree := h.free hlt
  simp only [Monitor.reduce]
  omega

end Monitor

end Workflow.Lib
